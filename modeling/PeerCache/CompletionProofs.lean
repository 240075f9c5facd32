import PeerCache.TransferEngineProofs

/-! # Completions — whose they are

    The completion queue of a channel holds work requests of one call only: the call that has the
    channel, which has posted as many as are still to be collected (`Owing`).  So a drain that
    has counted to the end leaves nothing behind, and a channel that a drain has given up on is
    destroyed with what is still under way.  Hence a result is marked true only for a work
    request that this very call has posted (`completions_own_call`). -/

namespace PeerCacheEngine

open PeerCacheChannel Transition Function List

/-! ## What a call has to collect -/

/-- A channel that a call has, with the completions still to collect and the error completions
    collected; `none` when the drain has given up. -/
structure Due where
  key : PoolKey
  ep : Nat
  owing : Option (Nat × Nat)

def Due.channel (d : Due) : PoolKey × Nat := (d.key, d.ep)

/-- Channels posted to, and not drained yet. -/
def undrained (leased : List Leased) : List Due :=
  leased.map (fun l => ⟨l.key, l.ep, some (l.posted, 0)⟩)

/-- The channels that a call has. -/
def Call.dues (c : Call) : List Due :=
  match c.pc, c.leased with
  | .post g ep _ posted, leased => ⟨g.key, ep, some (posted, 0)⟩ :: undrained leased
  | .drain seen errs, l :: leased => ⟨l.key, l.ep, some (l.posted - seen, errs)⟩ :: undrained leased
  | .settle true errs, l :: leased => ⟨l.key, l.ep, some (0, errs)⟩ :: undrained leased
  | .settle false _, l :: leased => ⟨l.key, l.ep, none⟩ :: undrained leased
  | _, leased => undrained leased

/-- The ops that a call has still to post. -/
def Call.pending (c : Call) : List Nat :=
  (match c.pc with
    | .connect g => g.idxs
    | .post _ _ idxs _ => idxs
    | _ => []) ++ c.todo.flatMap Group.idxs

section Shape

variable {c : Call}

lemma dues_lease (hpc : c.pc = .lease) : c.dues = undrained c.leased := by rw [Call.dues, hpc]

variable {g : Group} {errs : Nat} {l : Leased} {leased : List Leased}

lemma dues_connect (hpc : c.pc = .connect g) : c.dues = undrained c.leased := by
  rw [Call.dues, hpc]

variable {idxs : List Nat}

lemma dues_post {ep posted : Nat} (hpc : c.pc = .post g ep idxs posted) :
    c.dues = ⟨g.key, ep, some (posted, 0)⟩ :: undrained c.leased := by rw [Call.dues, hpc]

lemma dues_drain {seen : Nat} (hpc : c.pc = .drain seen errs) (hleased : c.leased = l :: leased) :
    c.dues = ⟨l.key, l.ep, some (l.posted - seen, errs)⟩ :: undrained leased := by
  rw [Call.dues, hpc, hleased]

lemma dues_settled (hpc : c.pc = .settle true errs) (hleased : c.leased = l :: leased) :
    c.dues = ⟨l.key, l.ep, some (0, errs)⟩ :: undrained leased := by
  rw [Call.dues, hpc, hleased]

lemma dues_gaveUp (hpc : c.pc = .settle false errs) (hleased : c.leased = l :: leased) :
    c.dues = ⟨l.key, l.ep, none⟩ :: undrained leased := by
  rw [Call.dues, hpc, hleased]

lemma dues_resume (c : Call) : c.resume.dues = undrained c.leased := by
  rcases c.resume_cases with ⟨heq, -⟩ | ⟨heq, hne⟩ | ⟨heq, -⟩
  · rw [heq, dues_lease rfl]
  · obtain ⟨l, leased, hleased⟩ := exists_cons_of_ne_nil hne
    have hdues : c.resume.dues = ⟨l.key, l.ep, some (l.posted - 0, 0)⟩ :: undrained leased := by
      rw [heq]
      exact dues_drain rfl hleased
    rw [hdues, hleased]
    rfl
  · rw [heq]; rfl

lemma pending_lease {todo : List Group} (hpc : c.pc = .lease) (htodo : c.todo = g :: todo) :
    c.pending = g.idxs ++ todo.flatMap Group.idxs := by
  rw [Call.pending, hpc, htodo, flatMap_cons, nil_append]

lemma pending_connect (hpc : c.pc = .connect g) :
    c.pending = g.idxs ++ c.todo.flatMap Group.idxs := by rw [Call.pending, hpc]

lemma pending_post {ep posted : Nat} (hpc : c.pc = .post g ep idxs posted) :
    c.pending = idxs ++ c.todo.flatMap Group.idxs := by
  rw [Call.pending, hpc]

lemma pending_resume (c : Call) : c.resume.pending = c.todo.flatMap Group.idxs := by
  rcases c.resume_cases with ⟨heq, -⟩ | ⟨heq, -⟩ | ⟨heq, -⟩
  · rw [heq]; rfl
  · rw [heq]; rfl
  · rw [heq]; rfl

end Shape

/-! ## One channel -/

/-- The channel holds `n` work requests, all of one call; those that have succeeded are on record. -/
structure Owing (completed : List WorkRequest) (call : Nat) (q : Endpoint) (n : Nat) : Prop where
  count : q.outstanding.length + q.cq.length = n
  outstanding : ∀ wr ∈ q.outstanding, wr.call = call
  cq : ∀ wc ∈ q.cq, wc.1.call = call ∧ (wc.2 = true → wc.1 ∈ completed)

section Owing

variable {completed completed' : List WorkRequest} {call n : Nat} {q : Endpoint}

lemma owing_clean (h : q.outstanding = [] ∧ q.cq = []) : Owing completed call q 0 := by
  refine ⟨?_, ?_, ?_⟩
  · rw [h.1, h.2]; rfl
  · rw [h.1]; exact forall_mem_nil _
  · rw [h.2]; exact forall_mem_nil _

lemma Owing.clean (h : Owing completed call q 0) : q.outstanding = [] ∧ q.cq = [] := by
  obtain ⟨h1, h2⟩ := Nat.add_eq_zero_iff.mp h.count
  exact ⟨length_eq_zero_iff.mp h1, length_eq_zero_iff.mp h2⟩

lemma Owing.mono (h : Owing completed call q n) (hsub : completed ⊆ completed') :
    Owing completed' call q n :=
  ⟨h.count, h.outstanding, fun wc hwc => ⟨(h.cq wc hwc).1, fun hs => hsub ((h.cq wc hwc).2 hs)⟩⟩

variable {wr : WorkRequest}

lemma Owing.post (h : Owing completed call q n) (hwr : wr.call = call) :
    Owing completed call { q with outstanding := q.outstanding ++ [wr] } (n + 1) := by
  refine ⟨?_, ?_, h.cq⟩
  · show (q.outstanding ++ [wr]).length + q.cq.length = n + 1
    rw [length_append, length_singleton, ← h.count]
    omega
  · intro x hx
    rcases mem_append.mp hx with hx | hx
    · exact h.outstanding x hx
    · rw [mem_singleton.mp hx]; exact hwr

lemma Owing.complete (h : Owing completed call q n) {w : Nat} (hw : q.outstanding[w]? = some wr)
    (success error : Bool) :
    Owing (if success then wr :: completed else completed) call
      { q with
        outstanding := q.outstanding.eraseIdx w
        cq := q.cq ++ [(wr, success)]
        error := error } n := by
  have hmem : wr ∈ q.outstanding := mem_of_getElem? hw
  have hlt : w < q.outstanding.length := (List.getElem?_eq_some_iff.mp hw).1
  have hsub : completed ⊆ (if success then wr :: completed else completed) := by
    intro x hx
    split
    · exact .tail _ hx
    · exact hx
  refine ⟨?_, ?_, ?_⟩
  · rw [length_eraseIdx_of_lt hlt, length_append, length_singleton, ← h.count]
    omega
  · exact fun x hx => h.outstanding x (eraseIdx_subset hx)
  · intro wc hwc
    rcases mem_append.mp hwc with hwc | hwc
    · exact ⟨(h.cq wc hwc).1, fun hs => hsub ((h.cq wc hwc).2 hs)⟩
    · rw [mem_singleton.mp hwc]
      refine ⟨h.outstanding wr hmem, ?_⟩
      rintro rfl
      rw [if_pos rfl]
      exact (.head _)

lemma Owing.poll (h : Owing completed call q n) {k : Nat} (hk : k ≤ q.cq.length) (wcErrors : Nat) :
    Owing completed call { q with cq := q.cq.drop k, wcErrors := wcErrors } (n - k) := by
  refine ⟨?_, h.outstanding, fun wc hwc => h.cq wc (drop_subset k _ hwc)⟩
  show q.outstanding.length + (q.cq.drop k).length = n - k
  rw [length_drop, ← h.count]
  omega

end Owing

lemma mark_true {ok : List Bool} {batch : List (WorkRequest × Bool)} {k : Nat}
    (h : (mark ok batch)[k]? = some true) :
    ok[k]? = some true ∨ ∃ wc ∈ batch, wc.2 = true ∧ wc.1.wrId = k := by
  induction batch generalizing ok with
  | nil => exact .inl h
  | cons wc batch ih =>
    have h' : (mark (if wc.2 then ok.set wc.1.wrId true else ok) batch)[k]? = some true := h
    rcases ih h' with h | ⟨wc', hmem, hwc⟩
    · split_ifs at h with hs
      · rw [getElem?_set] at h
        by_cases hk : wc.1.wrId = k
        · exact .inr ⟨wc, (.head _), hs, hk⟩
        · rw [if_neg hk] at h; exact .inl h
      · exact .inl h
    · exact .inr ⟨wc', .tail _ hmem, hwc⟩

/-! ## One call -/

/-- The channels of a call of thread `i` are handed out to it, each once, and hold what it has to
    collect. -/
structure DuesOk (e : Engine) (i call : Nat) (dues : List Due) : Prop where
  held : ∀ d ∈ dues, ⟨i, d.key, d.ep⟩ ∈ e.mgr.held
  distinct : (dues.map Due.channel).Nodup
  owing : ∀ d ∈ dues, ∀ n errs, d.owing = some (n, errs) →
    Owing e.completed call (e.endpoints d.key d.ep) n

structure CallOk (e : Engine) (i : Nat) (c : Call) : Prop where
  begun : c.id < e.calls
  dues : DuesOk e i c.id c.dues
  reported : ∀ k : Nat, c.ok[k]? = some true → ∃ wr ∈ e.completed, wr.call = c.id ∧ wr.wrId = k
  pending_nodup : c.pending.Nodup
  pending_new : ∀ idx ∈ c.pending, ∀ wr ∈ e.posts, wr.call = c.id → wr.wrId ≠ idx

section Frames

variable {e e' : Engine} {i j call : Nat} {c : Call} {dues dues' : List Due}

lemma DuesOk.frame (h : DuesOk e i call dues)
    (hheld : ∀ d ∈ dues, (⟨i, d.key, d.ep⟩ : Holding) ∈ e'.mgr.held)
    (howing : ∀ d ∈ dues, ∀ n, Owing e.completed call (e.endpoints d.key d.ep) n →
      Owing e'.completed call (e'.endpoints d.key d.ep) n) : DuesOk e' i call dues :=
  ⟨hheld, h.distinct, fun d hd n errs heq => howing d hd n (h.owing d hd n errs heq)⟩

lemma DuesOk.perm (h : DuesOk e i call dues) (hperm : dues.Perm dues') : DuesOk e i call dues' :=
  ⟨fun d hd => h.held d (hperm.mem_iff.mpr hd), (hperm.map _).nodup_iff.mp h.distinct,
    fun d hd => h.owing d (hperm.mem_iff.mpr hd)⟩

variable {d : Due}

lemma DuesOk.tail (h : DuesOk e i call (d :: dues)) : DuesOk e i call dues :=
  ⟨fun x hx => h.held x (.tail _ hx), (nodup_cons.mp h.distinct).2,
    fun x hx => h.owing x (.tail _ hx)⟩

lemma DuesOk.cons (h : DuesOk e i call dues) (hheld : (⟨i, d.key, d.ep⟩ : Holding) ∈ e.mgr.held)
    (hnew : d.channel ∉ dues.map Due.channel)
    (howing : ∀ n errs, d.owing = some (n, errs) → Owing e.completed call (e.endpoints d.key d.ep) n) :
    DuesOk e i call (d :: dues) := by
  refine ⟨?_, nodup_cons.mpr ⟨hnew, h.distinct⟩, ?_⟩
  · exact forall_mem_cons.mpr ⟨hheld, h.held⟩
  · exact forall_mem_cons.mpr ⟨howing, h.owing⟩

lemma DuesOk.recount {key : PoolKey} {ep : Nat} {o o' : Option (Nat × Nat)}
    (h : DuesOk e i call (⟨key, ep, o⟩ :: dues))
    (howing : ∀ n errs, o' = some (n, errs) → Owing e.completed call (e.endpoints key ep) n) :
    DuesOk e i call (⟨key, ep, o'⟩ :: dues) :=
  h.tail.cons (h.held ⟨key, ep, o⟩ (.head _)) (nodup_cons.mp h.distinct).1 howing

lemma DuesOk.other {x : Due} (h : DuesOk e i call (d :: dues)) (hx : x ∈ dues) :
    (x.key, x.ep) ≠ (d.key, d.ep) := by
  intro heq
  refine (nodup_cons.mp h.distinct).1 ?_
  exact mem_map.mpr ⟨x, hx, heq⟩

lemma CallOk.frame (h : CallOk e i c) (hcalls : e.calls ≤ e'.calls)
    (hcompleted : e.completed ⊆ e'.completed)
    (hposts : ∀ wr ∈ e'.posts, wr ∈ e.posts ∨ wr.call ≠ c.id)
    (hdues : DuesOk e' i c.id c.dues) : CallOk e' i c := by
  refine ⟨Nat.lt_of_lt_of_le h.begun hcalls, hdues, ?_, h.pending_nodup, ?_⟩
  · intro k hk
    obtain ⟨wr, hwr, heq⟩ := h.reported k hk
    exact ⟨wr, hcompleted hwr, heq⟩
  · intro idx hidx wr hwr hcall
    rcases hposts wr hwr with hold | hne
    · exact h.pending_new idx hidx wr hold hcall
    · exact absurd hcall hne

lemma duesOk_setCall {co : Option Call} (h : DuesOk e j call dues) :
    DuesOk (e.setCall i co) j call dues := ⟨h.held, h.distinct, h.owing⟩

lemma callOk_setCall {co : Option Call} (h : CallOk e j c) : CallOk (e.setCall i co) j c :=
  ⟨h.begun, duesOk_setCall h.dues, h.reported, h.pending_nodup, h.pending_new⟩

lemma setCall_cases {co : Option Call} (hthreads : e'.threads = e.threads)
    (hj : ((e'.setCall i co).threads j).call = some c) :
    (j = i ∧ co = some c) ∨ (j ≠ i ∧ (e.threads j).call = some c) := by
  by_cases hji : j = i
  · subst hji
    rw [Engine.setCall_self] at hj
    exact .inl ⟨rfl, hj⟩
  · rw [Engine.setCall_of_ne _ hji, hthreads] at hj; exact .inr ⟨hji, hj⟩

end Frames

/-! ## All calls -/

/-- **THE INVARIANT** of the engine, with any completions, rejections, failures and timeouts. -/
structure Sound (e : Engine) : Prop where
  ledger : Ledger e.mgr
  clean : ∀ key, ∀ ep ∈ (e.mgr.pools key).free,
    (e.endpoints key ep).outstanding = [] ∧ (e.endpoints key ep).cq = []
  calls : ∀ i c, (e.threads i).call = some c → CallOk e i c
  apart : ∀ i j c c', (e.threads i).call = some c → (e.threads j).call = some c' →
    c.id = c'.id → i = j
  posts : (e.posts.map (fun wr => (wr.call, wr.wrId))).Nodup
  begun : ∀ wr ∈ e.posts, wr.call < e.calls
  returned : ∀ r ∈ e.returned, ∀ k : Nat, r.2[k]? = some true →
    ∃ wr ∈ e.completed, wr.call = r.1 ∧ wr.wrId = k

lemma sound_new (rails maxChannelsPerPeer : Nat) (programs : Nat → List Request) :
    Sound (Engine.new rails maxChannelsPerPeer programs) where
  ledger := ledger_new _
  clean := fun _ _ h => absurd h List.not_mem_nil
  calls := fun _ _ h => by cases h
  apart := fun _ _ _ _ h => by cases h
  posts := List.nodup_nil
  begun := List.forall_mem_nil _
  returned := List.forall_mem_nil _

section Sound

variable {e : Engine} {i j : Nat} {c : Call}

variable {ep : Nat} {co : Option Call} {p : PeerPool} {m : Manager} {g : Group} {l : Leased}
  {leased : List Leased}

variable {key' : PoolKey} {x : Holding} {pools : PoolKey → PeerPool} {c' : Call} {todo : List Group}
  {o : Option (Nat × Nat)} {seen : Nat}

lemma Sound.ne_free (h : Sound e) {key : PoolKey} {ep' : Nat}
    (hheld : (⟨i, key, ep⟩ : Holding) ∈ e.mgr.held) (hfree : ep' ∈ (e.mgr.pools key').free) :
    (key', ep') ≠ (key, ep) := by
  intro heq
  obtain ⟨rfl, rfl⟩ := Prod.mk.inj heq
  exact (h.ledger key').not_free (mem_outOf hheld) hfree

lemma Sound.ne_next (h : Sound e) {key : PoolKey} (key' : PoolKey)
    (hep : ep ∈ (e.mgr.pools key).owned) : (key, ep) ≠ (key', (e.mgr.pools key').next) := by
  intro heq
  cases heq
  exact Nat.lt_irrefl _ ((h.ledger key).fresh _ hep)

lemma Sound.owned (h : Sound e) (hheld : x ∈ e.mgr.held) : x.ep ∈ (e.mgr.pools x.key).owned :=
  (h.ledger x.key).out_subset (mem_outOf hheld)

lemma Sound.disjoint (h : Sound e) {y : Holding} (hij : y.thread ≠ x.thread) (hi : x ∈ e.mgr.held)
    (hj : y ∈ e.mgr.held) : (y.key, y.ep) ≠ (x.key, x.ep) := by
  intro heq
  obtain ⟨hkey, hep⟩ := Prod.mk.inj heq
  exact hij (congrArg Holding.thread (h.ledger.held_unique hj hi hkey hep))

lemma Sound.put {e' : Engine} (h : Sound e) (hc : (e.threads i).call = some c)
    (hthreads : e'.threads = e.threads) (hcalls : e'.calls = e.calls) (hledger : Ledger e'.mgr)
    (hclean : ∀ key, ∀ ep ∈ (e'.mgr.pools key).free,
      (e'.endpoints key ep).outstanding = [] ∧ (e'.endpoints key ep).cq = [])
    (hown : ∀ c', co = some c' → c'.id = c.id ∧ CallOk e' i c')
    (hothers : ∀ j c', j ≠ i → c'.id ≠ c.id → CallOk e j c' → CallOk e' j c')
    (hposts : (e'.posts.map (fun wr => (wr.call, wr.wrId))).Nodup)
    (hbegun : ∀ wr ∈ e'.posts, wr.call < e.calls)
    (hreturned : ∀ r ∈ e'.returned, ∀ k : Nat, r.2[k]? = some true →
      ∃ wr ∈ e'.completed, wr.call = r.1 ∧ wr.wrId = k) : Sound (e'.setCall i co) := by
  have hid : ∀ j c', j ≠ i → (e.threads j).call = some c' → c'.id ≠ c.id :=
    fun j c' hji hj heq => hji (h.apart j i c' c hj hc heq)
  refine ⟨hledger, hclean, ?_, ?_, hposts, ?_, hreturned⟩
  · intro j c' hj
    rcases setCall_cases hthreads hj with ⟨rfl, hco⟩ | ⟨hji, hj⟩
    · exact callOk_setCall (hown c' hco).2
    · exact callOk_setCall (hothers j c' hji (hid j c' hji hj) (h.calls j c' hj))
  · intro j k c' c'' hj hk heq
    rcases setCall_cases hthreads hj with ⟨hji, hco⟩ | ⟨hji, hj'⟩
    · rcases setCall_cases hthreads hk with ⟨hki, -⟩ | ⟨hki, hk'⟩
      · rw [hji, hki]
      · exact absurd (heq.symm.trans (hown c' hco).1) (hid k c'' hki hk')
    · rcases setCall_cases hthreads hk with ⟨-, hco⟩ | ⟨-, hk'⟩
      · exact absurd (heq.trans (hown c'' hco).1) (hid j c' hji hj')
      · exact h.apart j k c' c'' hj' hk' heq
  · intro wr hwr
    show wr.call < e'.calls
    rw [hcalls]
    exact hbegun wr hwr

lemma CallOk.elsewhere {e' : Engine} (h : CallOk e j c) (hcalls : e'.calls = e.calls)
    (hcompleted : e'.completed = e.completed)
    (hposts : ∀ wr ∈ e'.posts, wr ∈ e.posts ∨ wr.call ≠ c.id)
    (hkeep : ∀ x ∈ e.mgr.held, x.thread = j →
      x ∈ e'.mgr.held ∧ e'.endpoints x.key x.ep = e.endpoints x.key x.ep) : CallOk e' j c := by
  refine h.frame (le_of_eq hcalls.symm) ?_ hposts (h.dues.frame ?_ ?_)
  · rw [hcompleted]; exact List.Subset.refl _
  · exact fun d hd => (hkeep _ (h.dues.held d hd) rfl).1
  · intro d hd n howing
    rw [hcompleted, (hkeep _ (h.dues.held d hd) rfl).2]
    exact howing

lemma mem_free_update {key : PoolKey} (h : ep ∈ (update pools key p key').free) :
    (key' = key ∧ ep ∈ p.free) ∨ ep ∈ (pools key').free := by
  by_cases hk : key' = key
  · subst hk
    rw [update_self] at h
    exact .inl ⟨rfl, h⟩
  · rw [update_of_ne hk] at h; exact .inr h

lemma free_update_subset {key : PoolKey} (hp : p.free ⊆ (pools key).free) (key' : PoolKey) :
    (update pools key p key').free ⊆ (pools key').free := by
  intro ep hep
  rcases mem_free_update hep with ⟨rfl, hin⟩ | hold
  · exact hp hin
  · exact hold

lemma Sound.clean_of_subset {q : PoolKey → Nat → Endpoint} (h : Sound e)
    (hfree : ∀ key, (m.pools key).free ⊆ (e.mgr.pools key).free)
    (hend : ∀ key, ∀ ep ∈ (e.mgr.pools key).free, q key ep = e.endpoints key ep) :
    ∀ key, ∀ ep ∈ (m.pools key).free, (q key ep).outstanding = [] ∧ (q key ep).cq = [] := by
  intro key ep hep
  rw [hend key ep (hfree key hep)]
  exact h.clean key ep (hfree key hep)

lemma Sound.channels {q : PoolKey → Nat → Endpoint} (h : Sound e) (hc : (e.threads i).call = some c)
    (hledger : Ledger m)
    (hclean : ∀ key, ∀ ep ∈ (m.pools key).free, (q key ep).outstanding = [] ∧ (q key ep).cq = [])
    (hothers : ∀ x ∈ e.mgr.held, x.thread ≠ i → x ∈ m.held ∧ q x.key x.ep = e.endpoints x.key x.ep)
    (hid : c'.id = c.id) (hdues : DuesOk { e with mgr := m, endpoints := q } i c.id c'.dues)
    (hreported : ∀ k : Nat, c'.ok[k]? = some true →
      c.ok[k]? = some true ∨ ∃ wr ∈ e.completed, wr.call = c.id ∧ wr.wrId = k)
    (hpending : c'.pending.Sublist c.pending) :
    Sound (Engine.setCall { e with mgr := m, endpoints := q } i (some c')) := by
  have hok := h.calls i c hc
  refine h.put hc rfl rfl hledger hclean ?_ ?_ h.posts h.begun h.returned
  · rintro _ ⟨⟩
    rw [← hid] at hdues hreported
    refine ⟨hid, hid ▸ hok.begun, hdues, ?_, hok.pending_nodup.sublist hpending, ?_⟩
    · intro k hk
      rcases hreported k hk with hk | hk
      · rw [hid]; exact hok.reported k hk
      · exact hk
    · rw [hid]
      exact fun idx hidx => hok.pending_new idx (hpending.subset hidx)
  · intro j c' hji _ hj
    exact hj.elsewhere rfl rfl (fun _ => Or.inl) (fun x hx hxj => hothers x hx (hxj ▸ hji))

lemma Sound.manager (h : Sound e) (hc : (e.threads i).call = some c) (hledger : Ledger m)
    (hheld : m.held = e.mgr.held) (hfree : ∀ key, (m.pools key).free ⊆ (e.mgr.pools key).free)
    (hid : c'.id = c.id) (hdues : c'.dues = c.dues) (hreported : c'.ok = c.ok)
    (hpending : c'.pending.Sublist c.pending) :
    Sound (Engine.setCall { e with mgr := m } i (some c')) := by
  have hok := h.calls i c hc
  refine h.channels hc hledger (h.clean_of_subset hfree (fun _ _ _ => rfl)) ?_ hid ?_ ?_ hpending
  · rw [hheld]; exact fun x hx _ => ⟨hx, rfl⟩
  · rw [hdues]
    exact hok.dues.frame (fun d hd => hheld ▸ hok.dues.held d hd) (fun _ _ _ ho => ho)
  · rw [hreported]; exact fun _ => Or.inl

lemma Sound.acquire {q : PoolKey → Nat → Endpoint} (h : Sound e) (hc : (e.threads i).call = some c)
    (hledger : Ledger m)
    (hclean : ∀ key, ∀ ep ∈ (m.pools key).free, (q key ep).outstanding = [] ∧ (q key ep).cq = [])
    (hheld : m.held = ⟨i, g.key, ep⟩ :: e.mgr.held)
    (hkeep : ∀ x ∈ e.mgr.held, q x.key x.ep = e.endpoints x.key x.ep)
    (hnew : ∀ x ∈ e.mgr.held, (x.key, x.ep) ≠ (g.key, ep))
    (hempty : (q g.key ep).outstanding = [] ∧ (q g.key ep).cq = [])
    (hdues : c.dues = undrained c.leased) (hpending : c.pending = g.idxs ++ todo.flatMap Group.idxs) :
    Sound (Engine.setCall { e with mgr := m, endpoints := q } i
      (some { c with todo := todo, pc := .post g ep g.idxs 0 })) := by
  have hall := (h.calls i c hc).dues
  rw [hdues] at hall
  have hmem : ∀ x ∈ e.mgr.held, x ∈ m.held := by
    rw [hheld]
    exact fun x hx => .tail _ hx
  refine h.channels hc hledger hclean (fun x hx _ => ⟨hmem x hx, hkeep x hx⟩) rfl ?_ (fun _ => Or.inl) ?_
  · rw [dues_post rfl]
    refine DuesOk.cons ?_ ?_ ?_ ?_
    · refine hall.frame (fun d hd => hmem _ (hall.held d hd)) ?_
      intro d hd n ho
      have hq : q d.key d.ep = e.endpoints d.key d.ep := hkeep _ (hall.held d hd)
      rw [← hq] at ho
      exact ho
    · rw [hheld]; exact (.head _)
    · intro hin
      obtain ⟨d, hd, heq⟩ := mem_map.mp hin
      exact hnew _ (hall.held d hd) heq
    · intro n errs heq
      cases heq
      exact owing_clean hempty
  · rw [hpending, pending_post rfl]

lemma sound_channel {rest : List Nat} (h : Sound e) (hc : (e.threads i).call = some c)
    (hpc : c.pc = .lease) (htodo : c.todo = g :: todo)
    (hfree : (e.mgr.pools g.key).free = rest ++ [ep]) (hstep : step e.mgr (.lease i g.key) = some m)
    (hm : m = { e.mgr with
      pools := update e.mgr.pools g.key { e.mgr.pools g.key with free := rest }
      held := ⟨i, g.key, ep⟩ :: e.mgr.held }) :
    Sound (Engine.setCall { e with mgr := m } i
      (some { c with todo := todo, pc := .post g ep g.idxs 0 })) := by
  have hmem : ep ∈ (e.mgr.pools g.key).free := by
    rw [hfree]; exact mem_append_right _ (.head _)
  refine h.acquire hc (ledger_step h.ledger hstep) ?_ (by rw [hm]) (fun _ _ => rfl)
    (fun x hx => (h.ne_free hx hmem).symm) (h.clean g.key ep hmem) (dues_lease hpc)
    (pending_lease hpc htodo)
  refine h.clean_of_subset ?_ (fun _ _ _ => rfl)
  rw [hm]
  refine free_update_subset ?_
  rw [hfree]
  exact subset_append_left _ _

lemma sound_connected (h : Sound e) (hc : (e.threads i).call = some c) (hpc : c.pc = .connect g)
    (hstep : step e.mgr (.connected i g.key) = some m) (hm : m = { e.mgr with
      pools := update e.mgr.pools g.key (e.mgr.pools g.key).connected
      held := ⟨i, g.key, (e.mgr.pools g.key).next⟩ :: e.mgr.held
      attempts := e.mgr.attempts.erase (i, g.key) }) :
    Sound ((Engine.setEndpoint { e with mgr := m } g.key (e.mgr.pools g.key).next
        Endpoint.new).setCall i
      (some { c with pc := .post g (e.mgr.pools g.key).next g.idxs 0 })) := by
  refine h.acquire hc (ledger_step h.ledger hstep) ?_ (by rw [hm]) ?_
    (fun x hx => h.ne_next g.key (h.owned hx)) ?_ (dues_connect hpc) (pending_connect hpc)
  · refine h.clean_of_subset ?_ ?_
    · rw [hm]; exact free_update_subset (List.Subset.refl _)
    · exact fun key ep hep =>
        Engine.setEndpoint_of_ne _ (h.ne_next g.key ((h.ledger key).free_subset hep)) _
  · exact fun x hx => Engine.setEndpoint_of_ne _ (h.ne_next g.key (h.owned hx)) _
  · have hself := Engine.setEndpoint_self { e with mgr := m } g.key (e.mgr.pools g.key).next Endpoint.new
    exact ⟨congrArg Endpoint.outstanding hself, congrArg Endpoint.cq hself⟩

lemma Sound.own_channel {key : PoolKey} {q : Endpoint} (h : Sound e)
    (hmine : (⟨i, key, ep⟩ : Holding) ∈ e.mgr.held) :
    (∀ key', ∀ ep' ∈ (e.mgr.pools key').free,
        (e.setEndpoint key ep q).endpoints key' ep' = e.endpoints key' ep')
      ∧ ∀ x ∈ e.mgr.held, x.thread ≠ i →
        x ∈ e.mgr.held ∧ (e.setEndpoint key ep q).endpoints x.key x.ep = e.endpoints x.key x.ep :=
  ⟨fun _ _ hep => Engine.setEndpoint_of_ne _ (h.ne_free hmine hep) _,
    fun _ hx hne => ⟨hx, Engine.setEndpoint_of_ne _ (h.disjoint hne hmine hx) _⟩⟩

lemma DuesOk.change {e' : Engine} {call n errs : Nat} {key : PoolKey} {q : Endpoint}
    {dues : List Due} (h : DuesOk e i call (⟨key, ep, o⟩ :: dues)) (hheld : e'.mgr.held = e.mgr.held)
    (hcompleted : e'.completed = e.completed)
    (hend : e'.endpoints = (e.setEndpoint key ep q).endpoints) (hq : Owing e.completed call q n) :
    DuesOk e' i call (⟨key, ep, some (n, errs)⟩ :: dues) := by
  refine DuesOk.cons (h.tail.frame ?_ ?_) ?_ (nodup_cons.mp h.distinct).1 ?_
  · rw [hheld]; exact h.tail.held
  · intro d hd k ho
    rw [hcompleted, hend, Engine.setEndpoint_of_ne _ (h.other hd)]
    exact ho
  · rw [hheld]; exact h.held ⟨key, ep, o⟩ (.head _)
  · intro k errs' heq
    cases heq
    rw [hcompleted, hend, Engine.setEndpoint_self]
    exact hq

lemma sound_post {idx posted lkey : Nat} {idxs : List Nat} (h : Sound e)
    (hc : (e.threads i).call = some c) (hpc : c.pc = .post g ep (idx :: idxs) posted) :
    Sound ((Engine.setEndpoint
        { e with posts := c.request.workRequest c.id g idx lkey :: e.posts } g.key ep
        { e.endpoints g.key ep with
          outstanding := (e.endpoints g.key ep).outstanding
            ++ [c.request.workRequest c.id g idx lkey] }).setCall i
      (some { c with pc := .post g ep idxs (posted + 1) })) := by
  have hok := h.calls i c hc
  have hdues := hok.dues
  rw [dues_post hpc] at hdues
  have hpending := hok.pending_nodup
  have hfresh := hok.pending_new
  rw [pending_post hpc, cons_append] at hpending hfresh
  have hmine : (⟨i, g.key, ep⟩ : Holding) ∈ e.mgr.held := hdues.held _ (.head _)
  generalize hwr : c.request.workRequest c.id g idx lkey = wr
  have hcall : wr.call = c.id := by rw [← hwr]; exact workRequest_call _ _ _ _ _
  have hwrId : wr.wrId = idx := by rw [← hwr]; exact workRequest_wrId _ _ _ _ _
  refine h.put hc rfl rfl h.ledger ?_ ?_ ?_ ?_ ?_ h.returned
  · exact h.clean_of_subset (fun _ => List.Subset.refl _) (h.own_channel hmine).1
  · rintro _ ⟨⟩
    refine ⟨rfl, hok.begun, ?_, hok.reported, ?_, ?_⟩
    · rw [dues_post rfl]
      exact hdues.change rfl rfl rfl ((hdues.owing _ (.head _) _ _ rfl).post hcall)
    · rw [pending_post rfl]; exact (nodup_cons.mp hpending).2
    · -- what is left to post is not the op posted now
      intro idx' hidx x hx hxcall
      rw [pending_post rfl] at hidx
      rcases mem_cons.mp hx with rfl | hx
      · rintro rfl
        rw [hwrId] at hidx
        exact (nodup_cons.mp hpending).1 hidx
      · exact hfresh idx' (.tail _ hidx) x hx hxcall
  · intro j c' hji hid hj
    refine hj.elsewhere rfl rfl ?_ (fun x hx hxj => (h.own_channel hmine).2 x hx (hxj ▸ hji))
    intro x hx
    rcases mem_cons.mp hx with rfl | hx
    · rw [hcall]; exact .inr (Ne.symm hid)
    · exact .inl hx
  · show (((wr :: e.posts)).map (fun wr => (wr.call, wr.wrId))).Nodup
    rw [map_cons, nodup_cons]
    refine ⟨?_, h.posts⟩
    intro hin
    obtain ⟨x, hx, heq⟩ := mem_map.mp hin
    obtain ⟨h1, h2⟩ := Prod.mk.inj heq
    exact hfresh idx (.head _) x hx (h1.trans hcall) (h2.trans hwrId)
  · refine forall_mem_cons.mpr ⟨?_, h.begun⟩
    rw [hcall]
    exact hok.begun

lemma sound_poll {errs n : Nat} (h : Sound e) (hc : (e.threads i).call = some c)
    (hpc : c.pc = .drain seen errs) (hleased : c.leased = l :: leased)
    (hn : n ≤ (e.endpoints l.key l.ep).cq.length) :
    Sound ((e.setEndpoint l.key l.ep { e.endpoints l.key l.ep with
        cq := (e.endpoints l.key l.ep).cq.drop n
        wcErrors := (e.endpoints l.key l.ep).wcErrors
          + errors ((e.endpoints l.key l.ep).cq.take n) }).setCall i
      (some { c with
        ok := mark c.ok ((e.endpoints l.key l.ep).cq.take n)
        pc := .drain (seen + n) (errs + errors ((e.endpoints l.key l.ep).cq.take n)) })) := by
  have hdues := (h.calls i c hc).dues
  rw [dues_drain hpc hleased] at hdues
  have hmine : (⟨i, l.key, l.ep⟩ : Holding) ∈ e.mgr.held := hdues.held _ (.head _)
  have howing := hdues.owing _ (.head _) _ _ rfl
  refine h.channels hc h.ledger (h.clean_of_subset (fun _ => List.Subset.refl _) (h.own_channel hmine).1)
    (h.own_channel hmine).2 rfl ?_ ?_ ?_
  · rw [dues_drain (c := ⟨_, _, _, c.leased, _, .drain _ _⟩) rfl hleased, Nat.sub_add_eq]
    exact hdues.change rfl rfl rfl (howing.poll hn _)
  · -- a good completion in the queue is one of this call
    intro k hk
    rcases mark_true hk with hk | ⟨wc, hwc, hs, hid⟩
    · exact .inl hk
    · have hcq := howing.cq wc (mem_of_mem_take hwc)
      exact .inr ⟨wc.1, hcq.2 hs, hcq.1, hid⟩
  · rw [Call.pending, Call.pending, hpc]

lemma Sound.own (h : Sound e) (hc : (e.threads i).call = some c) (hid : c'.id = c.id)
    (hdues : DuesOk e i c.id c'.dues) (hreported : c'.ok = c.ok)
    (hpending : c'.pending.Sublist c.pending) : Sound (e.setCall i (some c')) := by
  refine h.channels hc h.ledger h.clean (fun x hx _ => ⟨hx, rfl⟩) hid hdues ?_ hpending
  rw [hreported]
  exact fun _ => Or.inl

lemma sound_drained {errs : Nat} {drained : Bool} (h : Sound e) (hc : (e.threads i).call = some c)
    (hpc : c.pc = .drain seen errs) (hleased : c.leased = l :: leased)
    (hall : drained = true → l.posted ≤ seen) :
    Sound (e.setCall i (some { c with pc := .settle drained errs })) := by
  have hdues := (h.calls i c hc).dues
  rw [dues_drain hpc hleased] at hdues
  refine h.own hc rfl ?_ rfl (by rw [Call.pending, Call.pending, hpc])
  cases drained with
  | true =>
    rw [dues_settled (c := ⟨_, _, _, c.leased, _, .settle true _⟩) rfl hleased]
    refine hdues.recount ?_
    intro n errs' heq
    cases heq
    have howing := hdues.owing _ (.head _) _ _ rfl
    rw [Nat.sub_eq_zero_of_le (hall rfl)] at howing
    exact howing
  | false =>
    rw [dues_gaveUp (c := ⟨_, _, _, c.leased, _, .settle false _⟩) rfl hleased]
    exact hdues.recount nofun

lemma sound_giveBack {a : PeerCacheChannel.Act} (h : Sound e) (hc : (e.threads i).call = some c)
    (hdues : c.dues = ⟨l.key, l.ep, o⟩ :: undrained leased)
    (hpending : c.pending = c.todo.flatMap Group.idxs) (hstep : step e.mgr a = some m)
    (hm : m = { e.mgr with
      pools := update e.mgr.pools l.key p
      held := e.mgr.held.erase ⟨i, l.key, l.ep⟩ })
    (hfree : ∀ ep ∈ p.free, ep ∈ (e.mgr.pools l.key).free ∨ (ep = l.ep ∧ ∃ errs, o = some (0, errs))) :
    Sound (Engine.setCall { e with mgr := m } i (some (Call.resume { c with leased := leased }))) := by
  have hall := (h.calls i c hc).dues
  rw [hdues] at hall
  have hheld : ∀ x ∈ e.mgr.held, x ≠ ⟨i, l.key, l.ep⟩ → x ∈ m.held := by
    intro x hx hne
    rw [hm]
    exact (mem_erase_of_ne hne).mpr hx
  refine h.channels hc (ledger_step h.ledger hstep) ?_ ?_ rfl ?_ (fun _ => Or.inl) ?_
  · intro key ep hep
    rw [hm] at hep
    rcases mem_free_update hep with ⟨rfl, hback⟩ | hold
    · rcases hfree ep hback with hold | ⟨rfl, errs, ho⟩
      · exact h.clean l.key ep hold
      · exact (hall.owing _ (.head _) _ _ ho).clean
    · exact h.clean key ep hold
  · exact fun x hx hne => ⟨hheld x hx (fun heq => hne (congrArg Holding.thread heq)), rfl⟩
  · rw [dues_resume]
    refine hall.tail.frame ?_ (fun _ _ _ ho => ho)
    intro d hd
    refine hheld _ (hall.tail.held d hd) ?_
    intro heq
    exact hall.other hd (Prod.ext (congrArg Holding.key heq) (congrArg Holding.ep heq))
  · rw [pending_resume, hpending]

/-- **THE MOVE LEMMA**: the invariant is kept by every move of a thread. -/
lemma sound_moved {mv : Move} {e' : Engine} (h : Sound e) (hc : (e.threads i).call = some c)
    (hmv : Moved e i c mv e') : Sound e' := by
  have hok := h.calls i c hc
  cases hmv with
  | channel hpc htodo hfree hstep hm => exact sound_channel h hc hpc htodo hfree hstep hm
  | connect hpc htodo hstep hm =>
    refine h.manager hc (ledger_step h.ledger hstep) (by rw [hm]) ?_ rfl ?_ rfl ?_
    · rw [hm]; exact free_update_subset (List.Subset.refl _)
    · rw [dues_lease hpc, dues_connect rfl]
    · rw [pending_lease hpc htodo, pending_connect rfl]
  | connected hpc hstep hm => exact sound_connected h hc hpc hstep hm
  | refused hpc hstep hm =>
    refine h.manager hc (ledger_step h.ledger hstep) (by rw [hm]) ?_ rfl ?_ rfl ?_
    · rw [hm]; exact free_update_subset (List.Subset.refl _)
    · rw [dues_connect hpc, dues_resume]
    · rw [pending_resume, pending_connect hpc]
      exact sublist_append_right _ _
  | threw hpc hstep hm =>
    refine h.put hc rfl rfl (ledger_step h.ledger hstep) (h.clean_of_subset ?_ (fun _ _ _ => rfl))
      nofun ?_ h.posts h.begun h.returned
    · rw [hm]; exact fun key => List.Subset.refl _
    · rw [hm]
      exact fun j c' _ _ hj => hj.elsewhere rfl rfl (fun _ => Or.inl) (fun x hx _ => ⟨hx, rfl⟩)
  | skipped hpc =>
    refine h.own hc rfl ?_ rfl ?_
    · have hdues := hok.dues
      rw [dues_post hpc] at hdues
      rw [dues_post rfl]
      exact hdues
    · rw [pending_post hpc, pending_post rfl, cons_append]
      exact sublist_cons_self _ _
  | post hpc => exact sound_post h hc hpc
  | posted hpc =>
    refine h.own hc rfl ?_ rfl ?_
    · have hdues := hok.dues
      rw [dues_post hpc] at hdues
      rw [dues_resume]
      refine hdues.perm ?_
      rw [undrained, undrained, map_append]
      exact (perm_append_singleton _ _).symm
    · rw [pending_resume, pending_post hpc]; exact List.Sublist.refl _
  | poll hpc hleased hn => exact sound_poll h hc hpc hleased hn
  | giveUp hpc hleased => exact sound_drained h hc hpc hleased nofun
  | drained hpc hleased hall => exact sound_drained h hc hpc hleased (fun _ => hall)
  | release hpc hleased hstep hm =>
    refine sound_giveBack h hc (dues_settled hpc hleased) (by rw [Call.pending, hpc, nil_append])
      hstep hm ?_
    intro ep hep
    rcases mem_append.mp hep with hep | hep
    · exact .inl hep
    · exact .inr ⟨mem_singleton.mp hep, _, rfl⟩
  | discard hpc hleased hstep hm =>
    exact sound_giveBack h hc (dues_gaveUp hpc hleased) (by rw [Call.pending, hpc, nil_append])
      hstep hm (fun ep hep => .inl hep)
  | finish hpc =>
    refine h.put hc rfl rfl h.ledger h.clean nofun ?_ h.posts h.begun ?_
    · exact fun j c' _ _ hj => hj.elsewhere rfl rfl (fun _ => Or.inl) (fun x hx _ => ⟨hx, rfl⟩)
    · exact forall_mem_cons.mpr ⟨hok.reported, h.returned⟩

lemma sound_begin {order : List Group} {r : Request} {program : List Request} (h : Sound e)
    (hc : (e.threads i).call = none) (hperm : order.Perm (r.groups e.rails)) :
    Sound { e with
      threads := update e.threads i ⟨program, some (Call.start e.calls r order)⟩
      calls := e.calls + 1 } := by
  have hcall : ∀ j c', (update e.threads i ⟨program, some (Call.start e.calls r order)⟩ j).call
      = some c' → (j = i ∧ c' = Call.start e.calls r order) ∨ (e.threads j).call = some c' := by
    intro j c' hj
    by_cases hji : j = i
    · subst hji
      rw [update_self] at hj
      exact .inl ⟨rfl, (Option.some.inj hj).symm⟩
    · rw [update_of_ne hji] at hj; exact .inr hj
  have hlt : ∀ j c', (e.threads j).call = some c' → c'.id < e.calls := fun j c' hj => (h.calls j c' hj).begun
  refine ⟨h.ledger, h.clean, ?_, ?_, h.posts, fun wr hwr => Nat.lt_succ_of_lt (h.begun wr hwr), h.returned⟩
  · intro j c' hj
    rcases hcall j c' hj with ⟨rfl, rfl⟩ | hj
    · refine ⟨Nat.lt_succ_self _, ?_, ?_, ?_, ?_⟩
      · rw [Call.start, dues_resume]
        exact ⟨forall_mem_nil _, nodup_nil,
          forall_mem_nil _⟩
      · intro k hk
        have hk' : (replicate r.size false)[k]? = some true := hk
        rw [getElem?_replicate] at hk'
        split at hk'
        · cases hk'
        · cases hk'
      · rw [Call.start, pending_resume]
        exact (hperm.flatMap_right _).nodup_iff.mpr (groups_nodup e.rails r)
      · intro idx _ wr hwr hid
        exact absurd (h.begun wr hwr) (by rw [hid]; exact Nat.lt_irrefl _)
    · have hok := h.calls j c' hj
      exact hok.frame (Nat.le_succ _) (List.Subset.refl _) (fun _ => Or.inl)
        (hok.dues.frame hok.dues.held (fun _ _ _ ho => ho))
  · intro j k c' c'' hj hk heq
    rcases hcall j c' hj with ⟨rfl, rfl⟩ | hj'
    · rcases hcall k c'' hk with ⟨rfl, -⟩ | hk'
      · rfl
      · exact absurd heq.symm (Nat.ne_of_lt (hlt k c'' hk'))
    · rcases hcall k c'' hk with ⟨rfl, rfl⟩ | hk'
      · exact absurd heq (Nat.ne_of_lt (hlt j c' hj'))
      · exact h.apart j k c' c'' hj' hk' heq

lemma sound_complete {key : PoolKey} {w : Nat} {success error : Bool} {wr : WorkRequest}
    (h : Sound e) (hw : (e.endpoints key ep).outstanding[w]? = some wr) :
    Sound (Engine.setEndpoint
      { e with completed := if success then wr :: e.completed else e.completed } key ep
      { e.endpoints key ep with
        outstanding := (e.endpoints key ep).outstanding.eraseIdx w
        cq := (e.endpoints key ep).cq ++ [(wr, success)]
        error := error }) := by
  have hsub : e.completed ⊆ (if success then wr :: e.completed else e.completed) := by
    intro x hx
    split
    · exact .tail _ hx
    · exact hx
  refine ⟨h.ledger, ?_, ?_, h.apart, h.posts, h.begun, ?_⟩
  · -- a free channel has nothing to complete
    refine h.clean_of_subset (fun _ => List.Subset.refl _) ?_
    intro key' ep' hep
    refine Engine.setEndpoint_of_ne _ ?_ _
    intro heq
    obtain ⟨rfl, rfl⟩ := Prod.mk.inj heq
    rw [(h.clean key' ep' hep).1] at hw
    cases hw
  · intro i c hc
    have hok := h.calls i c hc
    refine hok.frame (Nat.le_refl _) hsub (fun _ => Or.inl) (hok.dues.frame hok.dues.held ?_)
    intro d _ n ho
    by_cases hd : (d.key, d.ep) = (key, ep)
    · obtain ⟨hkey, hep⟩ := Prod.mk.inj hd
      rw [hkey, hep] at ho ⊢
      rw [Engine.setEndpoint_self]
      exact ho.complete hw success error
    · rw [Engine.setEndpoint_of_ne _ hd]; exact ho.mono hsub
  · intro r hr k hk
    obtain ⟨x, hx, heq⟩ := h.returned r hr k hk
    exact ⟨x, hsub hx, heq⟩

lemma sound_step {a : Act} {e' : Engine} (h : Sound e) (hs : engineStep e a = some e') : Sound e' := by
  rcases engineStep_cases hs with ⟨i, order, r, program, -, hc, hperm, -, rfl⟩
    | ⟨i, mv, c, -, hc, hmv⟩ | ⟨key, ep, w, success, wr, -, hw, -, rfl⟩
  · exact sound_begin h hc hperm
  · exact sound_moved h hc hmv
  · exact sound_complete h hw

lemma sound_run {acts : List Act} {e' : Engine} (h : Sound e) (hrun : run engineStep e acts = some e') :
    Sound e' :=
  run_invariant (fun _ _ _ _ hi _ hs => sound_step hi hs) h (guarded_trivial e acts) hrun

end Sound

/-! ## What has been posted -/

/-- Every work request on a channel, and every one that succeeded, was posted. -/
structure Recorded (e : Engine) : Prop where
  outstanding : ∀ key ep, (e.endpoints key ep).outstanding ⊆ e.posts
  completed : e.completed ⊆ e.posts

section Recorded

variable {e e' : Engine}

lemma Recorded.set {key : PoolKey} {ep : Nat} {q : Endpoint} (h : Recorded e)
    (hend : e'.endpoints = (e.setEndpoint key ep q).endpoints) (hposts : e.posts ⊆ e'.posts)
    (hq : q.outstanding ⊆ e'.posts) (hcompleted : e'.completed ⊆ e'.posts) : Recorded e' := by
  refine ⟨?_, hcompleted⟩
  intro key' ep'
  rw [hend]
  by_cases heq : (key', ep') = (key, ep)
  · cases heq
    rw [Engine.setEndpoint_self]
    exact hq
  · rw [Engine.setEndpoint_of_ne _ heq]
    exact List.Subset.trans (h.outstanding key' ep') hposts

lemma recorded_moved {i : Nat} {c : Call} {mv : Move} (h : Recorded e) (hmv : Moved e i c mv e') :
    Recorded e' := by
  cases hmv with
  | connected hpc hstep hm =>
    exact h.set rfl (List.Subset.refl _) (forall_mem_nil _) h.completed
  | post hpc =>
    refine h.set rfl (subset_cons_self _ _) ?_
      (List.Subset.trans h.completed (subset_cons_self _ _))
    refine append_subset.mpr ⟨?_, ?_⟩
    · exact List.Subset.trans (h.outstanding _ _) (subset_cons_self _ _)
    · exact cons_subset.mpr ⟨mem_cons_self, nil_subset _⟩
  | poll hpc hleased hn => exact h.set rfl (List.Subset.refl _) (h.outstanding _ _) h.completed
  | channel | connect | refused | threw | skipped | posted | giveUp | drained | release | discard
  | finish => exact ⟨h.outstanding, h.completed⟩

lemma recorded_step {a : Act} (h : Recorded e) (hs : engineStep e a = some e') : Recorded e' := by
  rcases engineStep_cases hs with ⟨i, order, r, program, -, -, -, -, rfl⟩
    | ⟨i, mv, c, -, -, hmv⟩ | ⟨key, ep, w, success, wr, -, hw, -, rfl⟩
  · exact ⟨h.outstanding, h.completed⟩
  · exact recorded_moved h hmv
  · have hwr : wr ∈ e.posts := h.outstanding key ep (mem_of_getElem? hw)
    refine h.set rfl (List.Subset.refl _) ?_ ?_
    · exact fun x hx => h.outstanding key ep (eraseIdx_subset hx)
    · intro x hx
      have hx' : x ∈ if success then wr :: e.completed else e.completed := hx
      split at hx'
      · rcases mem_cons.mp hx' with rfl | hx'
        · exact hwr
        · exact h.completed hx'
      · exact h.completed hx'

lemma recorded_run {acts : List Act} (h : Recorded e) (hrun : run engineStep e acts = some e') :
    Recorded e' :=
  run_invariant (fun _ _ _ _ hi _ hs => recorded_step hi hs) h (guarded_trivial e acts) hrun

lemma recorded_new (rails maxChannelsPerPeer : Nat) (programs : Nat → List Request) :
    Recorded (Engine.new rails maxChannelsPerPeer programs) :=
  ⟨fun _ _ _ h => absurd h not_mem_nil, forall_mem_nil _⟩

end Recorded

/-- The work request of op `k` of a call was posted by that call, and has succeeded. -/
def Succeeded (e : Engine) (call k : Nat) : Prop :=
  ∃ wr, wr ∈ e.posts ∧ wr ∈ e.completed ∧ wr.call = call ∧ wr.wrId = k

/-- **COMPLETIONS ARE NEVER ATTRIBUTED TO THE WRONG CALL**, in any run of any threads. -/
theorem completions_own_call (rails maxChannelsPerPeer : Nat) (programs : Nat → List Request)
    (acts : List Act) (e : Engine)
    (hrun : run engineStep (Engine.new rails maxChannelsPerPeer programs) acts = some e) :
    (∀ i c, (e.threads i).call = some c → ∀ k : Nat, c.ok[k]? = some true → Succeeded e c.id k)
      ∧ (∀ r ∈ e.returned, ∀ k : Nat, r.2[k]? = some true → Succeeded e r.1 k)
      ∧ (e.posts.map (fun wr => (wr.call, wr.wrId))).Nodup
      ∧ (∀ i c, (e.threads i).call = some c → (c.dues.map Due.channel).Nodup
        ∧ ∀ d ∈ c.dues, (⟨i, d.key, d.ep⟩ : Holding) ∈ e.mgr.held)
      ∧ (∀ x ∈ e.mgr.held, ∀ y ∈ e.mgr.held, x.key = y.key → x.ep = y.ep → x = y)
      ∧ (∀ key, ∀ ep ∈ (e.mgr.pools key).free, (e.endpoints key ep).outstanding = []) := by
  have hsound := sound_run (sound_new rails maxChannelsPerPeer programs) hrun
  have hrecord := recorded_run (recorded_new rails maxChannelsPerPeer programs) hrun
  refine ⟨?_, ?_, hsound.posts, ?_, ?_, ?_⟩
  · intro i c hc k hk
    obtain ⟨wr, hwr, hcall, hid⟩ := (hsound.calls i c hc).reported k hk
    exact ⟨wr, hrecord.completed hwr, hwr, hcall, hid⟩
  · intro r hr k hk
    obtain ⟨wr, hwr, hcall, hid⟩ := hsound.returned r hr k hk
    exact ⟨wr, hrecord.completed hwr, hwr, hcall, hid⟩
  · exact fun i c hc => ⟨(hsound.calls i c hc).dues.distinct, (hsound.calls i c hc).dues.held⟩
  · exact fun x hx y hy => hsound.ledger.held_unique hx hy
  · exact fun key ep hep => (hsound.clean key ep hep).1

/-- Two reads from one peer. -/
def twoReads : Request := .batchReadV ["b:1", "b:1"] [100, 200] [1000, 2000] [7, 7] [8, 8]

/-- The groups of `twoReads`. -/
def twoReadsGroups : List Group := [⟨0, "b:1", none, [0, 1]⟩]

/-- The second of the two reads completes first, the first one with an error. -/
def outOfOrder : List Act :=
  [.thread 0 (.start twoReadsGroups), .thread 0 .lease, .thread 0 .connected,
    .thread 0 (.post 1 true), .thread 0 (.post 1 true), .thread 0 .posted,
    .complete (toLex (0, "b:1")) 0 1 true, .complete (toLex (0, "b:1")) 0 0 false,
    .thread 0 (.poll 2), .thread 0 .drained, .thread 0 .settle, .thread 0 .finish]

/-- The call reports the read that succeeded. -/
theorem completions_own_call_out_of_order :
    ∃ e, run engineStep (Engine.new 1 1 (fun _ => [twoReads])) outOfOrder = some e
      ∧ e.returned = [(0, [false, true])] ∧ Succeeded e 0 1 := by
  have hreturned : (run engineStep (Engine.new 1 1 (fun _ => [twoReads])) outOfOrder).map
      Engine.returned = some [(0, [false, true])] := by decide +kernel
  obtain ⟨e, hrun, hres⟩ := Option.map_eq_some_iff.mp hreturned
  refine ⟨e, hrun, hres, ?_⟩
  refine (completions_own_call 1 1 _ outOfOrder e hrun).2.1 (0, [false, true]) ?_ 1 rfl
  rw [hres]
  exact mem_singleton.mpr rfl

end PeerCacheEngine
