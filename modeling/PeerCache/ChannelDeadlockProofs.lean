import PeerCache.CompletionProofs

/-! # Batches cannot deadlock on channels

    A multi-rail batch holds channels of several pools while it waits for the next one.  It takes
    them in the order of `std::map` over `(rail, endpoint)`, also where it falls back to rail 0,
    so the pool it waits for comes after all pools it has a channel of (`Orderly`).  The other
    batches wait with empty hands. -/

namespace PeerCacheEngine

open PeerCacheChannel Transition Function List Option

/-! ## Pools are taken in order -/

/-- The pool that a call is connecting to or posting to. -/
def Call.current (c : Call) : List PoolKey :=
  match c.pc with
  | .connect g => [g.key]
  | .post g _ _ _ => [g.key]
  | _ => []

/-- A multi-rail batch has channels, and will have them, in increasing order of their pools;
    another batch has one channel at a time. -/
structure Orderly (c : Call) : Prop where
  multi : c.request.isMulti = true →
    (c.leased.map Leased.key ++ c.current ++ c.todo.map Group.key).Pairwise (· < ·)
  vector : c.request.isMulti = false → c.leased.length + c.current.length ≤ 1
  empty : c.request.isMulti = false → c.pc = .lease → c.leased = []
  done : c.pc = .done → c.leased = []

section Orderly

variable {c c' : Call}

lemma current_resume (c : Call) : c.resume.current = [] := by
  rcases c.resume_cases with ⟨heq, -⟩ | ⟨heq, -⟩ | ⟨heq, -⟩
  · rw [heq]; rfl
  · rw [heq]; rfl
  · rw [heq]; rfl

lemma resume_lease {c : Call} (hvector : c.request.isMulti = false) (h : c.resume.pc = .lease) :
    c.leased = [] := by
  rcases c.resume_cases with ⟨-, hmulti | hnil⟩ | ⟨heq, -⟩ | ⟨-, hnil⟩
  · cases hvector.symm.trans hmulti
  · exact hnil
  · rw [heq] at h; cases h
  · exact hnil

lemma resume_done {c : Call} (h : c.resume.pc = .done) : c.leased = [] := by
  rcases c.resume_cases with ⟨heq, -⟩ | ⟨heq, -⟩ | ⟨-, hnil⟩
  · rw [heq] at h; cases h
  · rw [heq] at h; cases h
  · exact hnil

lemma orderly_resume (hmulti : c.request.isMulti = true →
      (c.leased.map Leased.key ++ c.todo.map Group.key).Pairwise (· < ·))
    (hvector : c.request.isMulti = false → c.leased.length ≤ 1) : Orderly c.resume := by
  refine ⟨?_, ?_, fun hv hpc => resume_lease hv hpc, fun hpc => resume_done hpc⟩
  · intro hm
    rw [current_resume, append_nil]
    exact hmulti hm
  · intro hv
    rw [current_resume]
    exact hvector hv

lemma Orderly.keep (h : Orderly c) (hrequest : c'.request = c.request)
    (hleased : c'.leased = c.leased) (hcurrent : c'.current = c.current) (htodo : c'.todo = c.todo)
    (hpc : c'.pc ≠ .lease) (hdone : c'.pc ≠ .done) : Orderly c' := by
  refine ⟨?_, ?_, fun _ hl => absurd hl hpc, fun hd => absurd hd hdone⟩
  · rw [hrequest, hleased, hcurrent, htodo]; exact h.multi
  · rw [hrequest, hleased, hcurrent]; exact h.vector

variable {g : Group} {todo : List Group}

lemma Orderly.take (h : Orderly c) (hpc : c.pc = .lease) (htodo : c.todo = g :: todo)
    (hrequest : c'.request = c.request) (hleased : c'.leased = c.leased)
    (hcurrent : c'.current = [g.key]) (htodo' : c'.todo = todo) (hpc' : c'.pc ≠ .lease)
    (hdone : c'.pc ≠ .done) : Orderly c' := by
  have hcur : c.current = [] := by rw [Call.current, hpc]
  refine ⟨?_, ?_, fun _ hl => absurd hl hpc', fun hd => absurd hd hdone⟩
  · rw [hrequest, hleased, hcurrent, htodo', append_assoc, singleton_append]
    intro hm
    have hold := h.multi hm
    rw [hcur, htodo, append_nil, map_cons] at hold
    exact hold
  · rw [hrequest, hleased, hcurrent]
    intro hv
    rw [h.empty hv hpc]
    exact Nat.le_refl 1

lemma Orderly.waits (h : Orderly c) (hpc : c.pc = .lease) (htodo : c.todo = g :: todo) {l : Leased}
    (hl : l ∈ c.leased) : l.key < g.key := by
  cases hm : c.request.isMulti with
  | true =>
    have hold := h.multi hm
    rw [htodo, map_cons, pairwise_append] at hold
    exact hold.2.2 l.key (mem_append_left _ (mem_map_of_mem hl)) g.key (.head _)
  | false =>
    rw [h.empty hm hpc] at hl
    cases hl

lemma orderly_moved {e e' : Engine} {i : Nat} {mv : Move} (h : Orderly c)
    (hmv : Moved e i c mv e') : ∀ c', (e'.threads i).call = some c' → Orderly c' := by
  intro c' hc'
  cases hmv with
  | channel hpc htodo | connect hpc htodo =>
    rw [Engine.setCall_self] at hc'
    cases hc'
    exact h.take hpc htodo rfl rfl rfl rfl nofun nofun
  | connected hpc | skipped hpc | post hpc | poll hpc | giveUp hpc | drained hpc =>
    rw [Engine.setCall_self] at hc'
    cases hc'
    refine h.keep rfl rfl ?_ rfl nofun nofun
    simp only [Call.current, hpc]
  | refused hpc =>
    rw [Engine.setCall_self] at hc'
    cases hc'
    refine orderly_resume ?_ ?_
    · intro hm
      have hold := h.multi hm
      rw [append_assoc] at hold
      exact hold.sublist ((sublist_append_right _ _).append_left _)
    · exact fun hv => Nat.le_trans (Nat.le_add_right _ _) (h.vector hv)
  | @posted g ep posted hpc =>
    rw [Engine.setCall_self] at hc'
    cases hc'
    have hcur : c.current = [g.key] := by rw [Call.current, hpc]
    refine orderly_resume ?_ ?_
    · intro hm
      have hold := h.multi hm
      rw [hcur] at hold
      rw [map_append]
      exact hold
    · intro hv
      have hold := h.vector hv
      rw [hcur] at hold
      rw [length_append]
      exact hold
  | @release errs l leased m hpc hleased | @discard errs l leased m hpc hleased =>
    rw [Engine.setCall_self] at hc'
    cases hc'
    refine orderly_resume ?_ ?_
    · intro hm
      have hold := h.multi hm
      rw [hleased, append_assoc] at hold
      refine hold.sublist ?_
      exact (sublist_cons_self _ _).append (sublist_append_right _ _)
    · intro hv
      have hold := h.vector hv
      rw [hleased, length_cons] at hold
      show leased.length ≤ 1
      omega
  | threw | finish =>
    rw [Engine.setCall_self] at hc'
    cases hc'

lemma orderly_start (id rails : Nat) {r : Request} {order : List Group}
    (hmulti : r.isMulti = true → order = r.groups rails) : Orderly (Call.start id r order) := by
  refine orderly_resume ?_ (fun _ => Nat.zero_le 1)
  intro hm
  rw [hmulti hm]
  exact groups_sorted rails r

end Orderly

/-! ## Nothing is leaked -/

/-- What is handed out, some call has; what is being connected, some call waits for. -/
structure NoLeak (e : Engine) : Prop where
  room : 0 < e.mgr.maxChannels
  held : ∀ x ∈ e.mgr.held, ∃ c, (e.threads x.thread).call = some c
    ∧ (x.key, x.ep) ∈ c.dues.map Due.channel
  attempts : ∀ x ∈ e.mgr.attempts, ∃ c g, (e.threads x.1).call = some c ∧ c.pc = .connect g ∧ g.key = x.2
  once : e.mgr.attempts.Nodup
  thrown : e.mgr.thrown = []
  orderly : ∀ i c, (e.threads i).call = some c → Orderly c

section NoLeak

variable {e e' : Engine} {i : Nat} {c : Call}

variable {x : Holding}

lemma not_mem_erase (hledger : Ledger e.mgr) (hx : x ∈ e.mgr.held) : x ∉ e.mgr.held.erase x := by
  intro hmem
  have hperm := outOf_perm (perm_cons_erase hx) x.key
  rw [outOf_cons_self] at hperm
  have hnd := hperm.nodup_iff.mp (hledger x.key).out_nodup
  exact (nodup_cons.mp hnd).1 (mem_outOf hmem)

lemma NoLeak.put {co : Option Call} (h : NoLeak e) (hthreads : e'.threads = e.threads)
    (hmax : e'.mgr.maxChannels = e.mgr.maxChannels) (hthrown : e'.mgr.thrown = e.mgr.thrown)
    (honce : e'.mgr.attempts.Nodup)
    (hheld : ∀ x ∈ e'.mgr.held, (x.thread ≠ i ∧ x ∈ e.mgr.held)
      ∨ (x.thread = i ∧ ∃ c', co = some c' ∧ (x.key, x.ep) ∈ c'.dues.map Due.channel))
    (hattempts : ∀ x ∈ e'.mgr.attempts, (x.1 ≠ i ∧ x ∈ e.mgr.attempts)
      ∨ (x.1 = i ∧ ∃ c' g, co = some c' ∧ c'.pc = .connect g ∧ g.key = x.2))
    (horderly : ∀ c', ((e'.setCall i co).threads i).call = some c' → Orderly c') :
    NoLeak (e'.setCall i co) := by
  refine ⟨?_, ?_, ?_, honce, hthrown.trans h.thrown, ?_⟩
  · show 0 < e'.mgr.maxChannels
    rw [hmax]
    exact h.room
  · intro x hx
    rcases hheld x hx with ⟨hne, hold⟩ | ⟨rfl, c', hco, hin⟩
    · rw [Engine.setCall_of_ne _ hne, hthreads]; exact h.held x hold
    · rw [Engine.setCall_self]; exact ⟨c', hco, hin⟩
  · intro x hx
    rcases hattempts x hx with ⟨hne, hold⟩ | ⟨rfl, c', g, hco, hpc, hkey⟩
    · rw [Engine.setCall_of_ne _ hne, hthreads]; exact h.attempts x hold
    · rw [Engine.setCall_self]; exact ⟨c', g, hco, hpc, hkey⟩
  · intro j c' hj
    by_cases hji : j = i
    · subst hji; exact horderly c' hj
    · rw [Engine.setCall_of_ne _ hji, hthreads] at hj; exact h.orderly j c' hj

lemma NoLeak.mine (h : NoLeak e) (hc : (e.threads i).call = some c) (hx : x ∈ e.mgr.held)
    (hi : x.thread = i) : (x.key, x.ep) ∈ c.dues.map Due.channel := by
  obtain ⟨c', hc', hin⟩ := h.held x hx
  rw [hi, hc] at hc'
  cases hc'
  exact hin

lemma NoLeak.connecting (h : NoLeak e) (hc : (e.threads i).call = some c) {x : Nat × PoolKey}
    (hx : x ∈ e.mgr.attempts) (hi : x.1 = i) : ∃ g, c.pc = .connect g ∧ g.key = x.2 := by
  obtain ⟨c', g, hc', hpc, hkey⟩ := h.attempts x hx
  rw [hi, hc] at hc'
  cases hc'
  exact ⟨g, hpc, hkey⟩

lemma NoLeak.settled (h : NoLeak e) (hc : (e.threads i).call = some c)
    (hpc : ∀ g, c.pc ≠ .connect g) : ∀ x ∈ e.mgr.attempts, x.1 ≠ i ∧ x ∈ e.mgr.attempts := by
  intro x hx
  refine ⟨?_, hx⟩
  intro hi
  obtain ⟨g, hg, -⟩ := h.connecting hc hx hi
  exact hpc g hg

lemma NoLeak.ended (h : NoLeak e) (hc : (e.threads i).call = some c) {g : Group}
    (hpc : c.pc = .connect g) :
    ∀ x ∈ e.mgr.attempts.erase (i, g.key), x.1 ≠ i ∧ x ∈ e.mgr.attempts := by
  intro x hx
  have hmem := mem_of_mem_erase hx
  refine ⟨?_, hmem⟩
  intro hi
  obtain ⟨g', hg', hkey⟩ := h.connecting hc hmem hi
  obtain rfl := Pc.connect.inj (hpc.symm.trans hg')
  have heq : x = (i, g.key) := Prod.ext hi hkey.symm
  rw [heq] at hx
  exact h.once.not_mem_erase hx

lemma NoLeak.still {c' : Call} (h : NoLeak e) (hc : (e.threads i).call = some c)
    (hdues : c.dues.map Due.channel ⊆ c'.dues.map Due.channel) :
    ∀ x ∈ e.mgr.held, (x.thread ≠ i ∧ x ∈ e.mgr.held)
      ∨ (x.thread = i ∧ ∃ c'', some c' = some c'' ∧ (x.key, x.ep) ∈ c''.dues.map Due.channel) := by
  intro x hx
  by_cases hi : x.thread = i
  · exact .inr ⟨hi, c', rfl, hdues (h.mine hc hx hi)⟩
  · exact .inl ⟨hi, hx⟩

lemma NoLeak.keep {c' : Call} (h : NoLeak e) (hc : (e.threads i).call = some c)
    (hthreads : e'.threads = e.threads) (hmgr : e'.mgr = e.mgr) (hpc : ∀ g, c.pc ≠ .connect g)
    (hdues : c.dues.map Due.channel ⊆ c'.dues.map Due.channel)
    (horderly : ∀ c'', ((e'.setCall i (some c')).threads i).call = some c'' → Orderly c'') :
    NoLeak (e'.setCall i (some c')) := by
  refine h.put hthreads (by rw [hmgr]) (by rw [hmgr]) (by rw [hmgr]; exact h.once) ?_ ?_ horderly
  · rw [hmgr]; exact h.still hc hdues
  · rw [hmgr]; exact fun x hx => .inl (h.settled hc hpc x hx)

lemma NoLeak.giveBack {l : Leased} {leased : List Leased} {o : Option (Nat × Nat)}
    {p : PeerPool} (h : NoLeak e) (hsound : Sound e) (hc : (e.threads i).call = some c)
    (hdues : c.dues = ⟨l.key, l.ep, o⟩ :: undrained leased) (hpc : ∀ g, c.pc ≠ .connect g)
    (he' : e' = Engine.setCall { e with mgr := { e.mgr with
        pools := update e.mgr.pools l.key p
        held := e.mgr.held.erase ⟨i, l.key, l.ep⟩ } } i (some (Call.resume { c with leased := leased })))
    (horderly : ∀ c', (e'.threads i).call = some c' → Orderly c') : NoLeak e' := by
  subst he'
  have hmine : (⟨i, l.key, l.ep⟩ : Holding) ∈ e.mgr.held := by
    refine (hsound.calls i c hc).dues.held ⟨l.key, l.ep, o⟩ ?_
    rw [hdues]
    exact (.head _)
  refine h.put rfl rfl rfl h.once ?_ (fun x hx => .inl (h.settled hc hpc x hx)) horderly
  intro x hx
  have hold := mem_of_mem_erase hx
  by_cases hi : x.thread = i
  · refine .inr ⟨hi, _, rfl, ?_⟩
    rw [dues_resume]
    have hin := h.mine hc hold hi
    rw [hdues, map_cons] at hin
    rcases mem_cons.mp hin with heq | hin
    · -- the channel given back is not among those still handed out
      obtain ⟨hkey, hep⟩ := Prod.mk.inj heq
      obtain ⟨t, k, ep⟩ := x
      obtain rfl : t = i := hi
      obtain rfl : k = l.key := hkey
      obtain rfl : ep = l.ep := hep
      exact absurd hx (not_mem_erase hsound.ledger hmine)
    · exact hin
  · exact .inl ⟨hi, hold⟩

/-- **THE MOVE LEMMA**: nothing leaks at a move that throws no exception. -/
lemma noLeak_moved {mv : Move} (h : NoLeak e) (hsound : Sound e) (hc : (e.threads i).call = some c)
    (hthrow : mv ≠ .threw) (hmv : Moved e i c mv e') : NoLeak e' := by
  have horderly := orderly_moved (h.orderly i c hc) hmv
  cases hmv with
  | @channel g todo ep rest m hpc htodo hfree hstep hm =>
    subst hm
    refine h.put rfl rfl rfl h.once ?_ (fun x hx => .inl (h.settled hc (by simp [hpc]) x hx)) horderly
    refine forall_mem_cons.mpr ⟨.inr ⟨rfl, _, rfl, ?_⟩, h.still hc ?_⟩
    · rw [dues_post rfl]; exact .head _
    · rw [dues_lease hpc, dues_post rfl]; exact subset_cons_self _ _
  | @connect g todo m hpc htodo hstep hm =>
    subst hm
    have hnot := h.settled hc (by simp [hpc])
    refine h.put rfl rfl rfl ?_ (h.still hc ?_) ?_ horderly
    · exact nodup_cons.mpr ⟨fun hin => (hnot _ hin).1 rfl, h.once⟩
    · rw [dues_lease hpc, dues_connect rfl]; exact List.Subset.refl _
    · intro x hx
      rcases mem_cons.mp hx with rfl | hx
      · exact .inr ⟨rfl, _, g, rfl, rfl, rfl⟩
      · exact .inl (hnot x hx)
  | @connected g m hpc hstep hm =>
    subst hm
    refine h.put rfl rfl rfl (h.once.erase _) ?_ (fun x hx => .inl (h.ended hc hpc x hx)) horderly
    refine forall_mem_cons.mpr ⟨.inr ⟨rfl, _, rfl, ?_⟩, h.still hc ?_⟩
    · rw [dues_post rfl]; exact .head _
    · rw [dues_connect hpc, dues_post rfl]; exact subset_cons_self _ _
  | @refused g m hpc hstep hm =>
    subst hm
    refine h.put rfl rfl rfl (h.once.erase _) (h.still hc ?_)
      (fun x hx => .inl (h.ended hc hpc x hx)) horderly
    rw [dues_connect hpc, dues_resume]
    exact List.Subset.refl _
  | threw => exact absurd rfl hthrow
  | skipped hpc | post hpc =>
    refine h.keep hc rfl rfl (by simp [hpc]) ?_ horderly
    rw [dues_post hpc, dues_post rfl]
    exact List.Subset.refl _
  | @posted g ep posted hpc =>
    refine h.keep hc rfl rfl (by simp [hpc]) ?_ horderly
    rw [dues_post hpc, dues_resume, undrained, undrained, map_append, map_append]
    refine cons_subset.mpr ⟨?_, subset_append_left _ _⟩
    exact mem_append_right _ (.head _)
  | poll hpc hleased hn =>
    refine h.keep hc rfl rfl (by simp [hpc]) ?_ horderly
    rw [dues_drain hpc hleased, dues_drain (c := ⟨_, _, _, c.leased, _, .drain _ _⟩) rfl hleased]
    exact List.Subset.refl _
  | giveUp hpc hleased =>
    refine h.keep hc rfl rfl (by simp [hpc]) ?_ horderly
    rw [dues_drain hpc hleased,
      dues_gaveUp (c := ⟨_, _, _, c.leased, _, .settle false _⟩) rfl hleased]
    exact List.Subset.refl _
  | drained hpc hleased hall =>
    refine h.keep hc rfl rfl (by simp [hpc]) ?_ horderly
    rw [dues_drain hpc hleased,
      dues_settled (c := ⟨_, _, _, c.leased, _, .settle true _⟩) rfl hleased]
    exact List.Subset.refl _
  | release hpc hleased hstep hm =>
    subst hm
    exact h.giveBack hsound hc (dues_settled hpc hleased) (by simp [hpc]) rfl
      horderly
  | discard hpc hleased hstep hm =>
    subst hm
    exact h.giveBack hsound hc (dues_gaveUp hpc hleased) (by simp [hpc]) rfl
      horderly
  | finish hpc =>
    refine h.put rfl rfl rfl h.once ?_ ?_ horderly
    · intro x hx
      refine .inl ⟨?_, hx⟩
      intro hi
      have hin := h.mine hc hx hi
      rw [Call.dues, hpc, (h.orderly i c hc).done hpc] at hin
      cases hin
    · exact fun x hx => .inl (h.settled hc (by simp [hpc]) x hx)

/-- The step is not an exception that leaves `connect_new`. -/
def NoThrow (_ : Engine) (a : Act) : Prop := ∀ i, a ≠ .thread i .threw

lemma noLeak_step {a : Act} (h : NoLeak e) (hsound : Sound e) (hthrow : NoThrow e a)
    (hs : engineStep e a = some e') : NoLeak e' := by
  rcases engineStep_cases hs with ⟨i, order, r, program, -, hc, -, hmulti, rfl⟩
    | ⟨i, mv, c, rfl, hc, hmv⟩ | ⟨key, ep, w, success, wr, -, hw, -, rfl⟩
  · -- a thread that begins a batch has nothing yet
    have hother : ∀ j, (e.threads j).call ≠ none →
        update e.threads i ⟨program, some (Call.start e.calls r order)⟩ j = e.threads j := by
      intro j hj
      refine update_of_ne ?_ _ _
      rintro rfl
      exact hj hc
    refine ⟨h.room, ?_, ?_, h.once, h.thrown, ?_⟩
    · intro x hx
      obtain ⟨c, hcx, hin⟩ := h.held x hx
      refine ⟨c, ?_, hin⟩
      show (update e.threads i _ x.thread).call = some c
      rw [hother x.thread (by rw [hcx]; exact some_ne_none c)]
      exact hcx
    · intro x hx
      obtain ⟨c, g, hcx, hpc⟩ := h.attempts x hx
      refine ⟨c, g, ?_, hpc⟩
      show (update e.threads i _ x.1).call = some c
      rw [hother x.1 (by rw [hcx]; exact some_ne_none c)]
      exact hcx
    · intro j c hj
      by_cases hji : j = i
      · subst hji
        have hj' : some (Call.start e.calls r order) = some c := by
          rw [← hj]
          exact (congrArg Thread.call (update_self j
            (⟨program, some (Call.start e.calls r order)⟩ : Thread) e.threads)).symm
        cases hj'
        exact orderly_start e.calls e.rails hmulti
      · refine h.orderly j c ?_
        rw [← hj]
        exact (congrArg Thread.call (update_of_ne hji _ e.threads)).symm
  · exact noLeak_moved h hsound hc (fun heq => hthrow i (by rw [heq])) hmv
  · exact ⟨h.room, h.held, h.attempts, h.once, h.thrown, h.orderly⟩

lemma noLeak_new (rails maxChannelsPerPeer : Nat) (programs : Nat → List Request) :
    NoLeak (Engine.new rails maxChannelsPerPeer programs) where
  room := by
    show 0 < if maxChannelsPerPeer = 0 then 1 else maxChannelsPerPeer
    split
    · exact Nat.one_pos
    · exact Nat.pos_of_ne_zero ‹_›
  held := forall_mem_nil _
  attempts := forall_mem_nil _
  once := nodup_nil
  thrown := rfl
  orderly := fun _ _ h => by cases h

end NoLeak

/-! ## No deadlock -/

/-- The thread has a batch to run, or is running one. -/
def Unfinished (t : Thread) : Prop := t.call ≠ none ∨ t.program ≠ []

/-- The thread is in `lease`, its pool at capacity with nothing free. -/
def Blocked (e : Engine) (i : Nat) (key : PoolKey) : Prop :=
  ∃ c g todo, (e.threads i).call = some c ∧ c.pc = .lease ∧ c.todo = g :: todo ∧ g.key = key
    ∧ (e.mgr.pools key).free = [] ∧ e.mgr.maxChannels ≤ (e.mgr.pools key).created

section Deadlock

variable {e : Engine}

lemma held_of_blocked (hledger : Ledger e.mgr) (h : NoLeak e)
    (hall : ∀ i, Unfinished (e.threads i) → ∃ key, Blocked e i key) {i : Nat} {key : PoolKey}
    (hb : Blocked e i key) : ∃ x ∈ e.mgr.held, x.key = key := by
  obtain ⟨-, -, -, -, -, -, -, hfree, hfull⟩ := hb
  have hpool := hledger key
  -- no thread is connecting, so the slots are all channels
  have hattempts : e.mgr.attemptsAt key = 0 := by
    rw [Manager.attemptsAt, count_eq_zero]
    intro hmem
    obtain ⟨x, hx, -⟩ := mem_map.mp hmem
    obtain ⟨c, g, hc, hpc, -⟩ := h.attempts x hx
    obtain ⟨key', c', g', todo, hc', hpc', -⟩ :=
      hall x.1 (.inl (by rw [hc]; exact some_ne_none c))
    obtain rfl := some.inj (hc.symm.trans hc')
    rw [hpc] at hpc'
    cases hpc'
  have hlen : 0 < (e.mgr.pools key).owned.length := by
    have hcreated := hpool.created
    rw [hattempts, h.thrown, count_nil] at hcreated
    have hroom := h.room
    omega
  have hout := hpool.owned.length_eq
  rw [hfree, nil_append] at hout
  rw [hout] at hlen
  obtain ⟨ep, hep⟩ := exists_mem_of_length_pos hlen
  obtain ⟨x, hx, -⟩ := mem_map.mp hep
  obtain ⟨hmem, hkey⟩ := mem_filter.mp hx
  exact ⟨x, hmem, of_decide_eq_true hkey⟩

lemma holder_waits (h : NoLeak e)
    (hall : ∀ i, Unfinished (e.threads i) → ∃ key, Blocked e i key) {x : Holding}
    (hx : x ∈ e.mgr.held) : ∃ i key, Blocked e i key ∧ x.key < key := by
  obtain ⟨c, hc, hin⟩ := h.held x hx
  obtain ⟨key, hb⟩ := hall x.thread (.inl (by rw [hc]; exact some_ne_none c))
  refine ⟨x.thread, key, hb, ?_⟩
  obtain ⟨c', g, todo, hc', hpc, htodo, rfl, -⟩ := hb
  obtain rfl := some.inj (hc.symm.trans hc')
  rw [dues_lease hpc] at hin
  obtain ⟨d, hd, heq⟩ := mem_map.mp hin
  obtain ⟨l, hl, rfl⟩ := mem_map.mp hd
  obtain ⟨hkey, -⟩ := Prod.mk.inj heq
  rw [← hkey]
  exact (h.orderly x.thread c hc).waits hpc htodo hl

/-- **BATCHES CANNOT DEADLOCK ON CHANNELS**: it never happens that some thread is unfinished and all
    unfinished threads wait in `lease`. -/
theorem no_deadlock (rails maxChannelsPerPeer : Nat) (programs : Nat → List Request)
    (acts : List Act) (e : Engine) (hthrow : ∀ i, Act.thread i .threw ∉ acts)
    (hrun : run engineStep (Engine.new rails maxChannelsPerPeer programs) acts = some e) :
    ¬ ((∃ i, Unfinished (e.threads i))
      ∧ ∀ i, Unfinished (e.threads i) → ∃ key, Blocked e i key) := by
  have hstep : ∀ s a t, a ∈ acts → Sound s ∧ NoLeak s → True → engineStep s a = some t →
      Sound t ∧ NoLeak t := by
    intro s a t ha hi _ hst
    refine ⟨sound_step hi.1 hst, noLeak_step hi.2 hi.1 ?_ hst⟩
    rintro i rfl
    exact hthrow i ha
  have hnew := And.intro (sound_new rails maxChannelsPerPeer programs)
    (noLeak_new rails maxChannelsPerPeer programs)
  obtain ⟨hsound, hleak⟩ := run_invariant hstep hnew (guarded_trivial _ acts) hrun
  rintro ⟨⟨i, hi⟩, hall⟩
  obtain ⟨key, hb⟩ := hall i hi
  obtain ⟨y, hy, -⟩ := held_of_blocked hsound.ledger hleak hall hb
  -- a channel of the last pool among those handed out
  obtain ⟨x, hx, hmax⟩ := e.mgr.held.toFinset.exists_max_image Holding.key
    ⟨y, List.mem_toFinset.mpr hy⟩
  obtain ⟨j, key', hb', hlt⟩ := holder_waits hleak hall (List.mem_toFinset.mp hx)
  obtain ⟨z, hz, hzkey⟩ := held_of_blocked hsound.ledger hleak hall hb'
  have hle := hmax z (List.mem_toFinset.mpr hz)
  rw [hzkey] at hle
  exact absurd hlt (not_lt.mpr hle)

end Deadlock

/-- Two reads of one node, striped over its two rails. -/
def stripedReads : Request :=
  .batchReadMulti ["n", "n"] [100, 200] [1000, 2000] [8, 8]
    ⟨[("n", ["b:1", "b:2"])], by decide⟩ ⟨[("n", [7, 9])], by decide⟩

/-- Thread 0 has a channel of the first rail and is about to lease one of the second; thread 1 waits
    for the first rail. -/
def secondWaits : List Act :=
  [.thread 0 (.start (stripedReads.groups 2)), .thread 0 .lease, .thread 0 .connected,
    .thread 0 (.post 1 true), .thread 0 .posted, .thread 1 (.start (stripedReads.groups 2))]

theorem no_deadlock_second_waits :
    ∃ e, run engineStep (Engine.new 2 1 (fun _ => [stripedReads])) secondWaits = some e
      ∧ (engineStep e (.thread 1 .lease)).isNone = true
      ∧ ¬ ((∃ i, Unfinished (e.threads i))
        ∧ ∀ i, Unfinished (e.threads i) → ∃ key, Blocked e i key) := by
  have hall : (run engineStep (Engine.new 2 1 (fun _ => [stripedReads])) secondWaits).map
      (fun e => (engineStep e (.thread 1 .lease)).isNone) = some true := by decide +kernel
  obtain ⟨e, hrun, hnone⟩ := Option.map_eq_some_iff.mp hall
  refine ⟨e, hrun, hnone, no_deadlock 2 1 _ secondWaits e ?_ hrun⟩
  intro i hmem
  simp [secondWaits] at hmem

end PeerCacheEngine
