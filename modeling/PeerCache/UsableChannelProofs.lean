import PeerCache.CompletionProofs

/-! # Channels in the error state

    A work completion with an error status takes its queue pair to the error state, where every
    later work request fails.  `drain` counts such a completion like any other, so a channel
    whose completions are all collected goes back to the free list whatever their status, and
    the next `lease` of the peer returns it (`leased_in_error`). -/

namespace PeerCacheEngine

open PeerCacheChannel Transition List

/-- The error completions that a drain has collected when it returns `true`. -/
def drainErrs (e : Engine) : Act → Nat
  | .thread i .drained =>
      match (e.threads i).call with
      | some c =>
          match c.pc with
          | .drain _ errs => errs
          | _ => 0
      | none => 0
  | _ => 0

/-- A drain that returns `true` has collected good completions only. -/
def GoodDrain (e : Engine) (a : Act) : Prop := drainErrs e a = 0

instance decidableGoodDrain (e : Engine) (a : Act) : Decidable (GoodDrain e a) :=
  inferInstanceAs (Decidable (_ = _))

/-- A queue pair in the error state shows it: by an error completion that is collected, or still to
    be collected. -/
def ErrorsSeen (q : Endpoint) : Option (Nat × Nat) → Prop
  | none => True
  | some (_, errs) => q.error = true → 0 < errs ∨ ∃ wc ∈ q.cq, wc.2 = false

/-- No free channel is in the error state, and no call is about to release one that is. -/
structure Usable (e : Engine) : Prop where
  free : ∀ key, ∀ ep ∈ (e.mgr.pools key).free, (e.endpoints key ep).error = false
  seen : ∀ i c, (e.threads i).call = some c → ∀ d ∈ c.dues,
    ErrorsSeen (e.endpoints d.key d.ep) d.owing
  settled : ∀ i c errs, (e.threads i).call = some c → c.pc = .settle true errs → errs = 0

section Usable

variable {e e' : Engine} {i : Nat} {c : Call}

lemma Usable.put {co : Option Call} (h : Usable e) (hsound : Sound e) (hthreads : e'.threads = e.threads)
    (hfree : ∀ key, ∀ ep ∈ (e'.mgr.pools key).free, (e'.endpoints key ep).error = false)
    (hothers : ∀ x ∈ e.mgr.held, x.thread ≠ i → e'.endpoints x.key x.ep = e.endpoints x.key x.ep)
    (hown : ∀ c', co = some c' → (∀ d ∈ c'.dues, ErrorsSeen (e'.endpoints d.key d.ep) d.owing)
      ∧ ∀ errs, c'.pc = .settle true errs → errs = 0) : Usable (e'.setCall i co) := by
  refine ⟨hfree, ?_, ?_⟩
  · intro j c' hj
    rcases setCall_cases hthreads hj with ⟨-, hco⟩ | ⟨hji, hj⟩
    · exact (hown c' hco).1
    · intro d hd
      have hsame := hothers _ ((hsound.calls j c' hj).dues.held d hd) hji
      have hold := h.seen j c' hj d hd
      rw [← hsame] at hold
      exact hold
  · intro j c' errs hj hpc
    rcases setCall_cases hthreads hj with ⟨-, hco⟩ | ⟨-, hj⟩
    · exact (hown c' hco).2 errs hpc
    · exact h.settled j c' errs hj hpc

lemma resume_not_settled (c : Call) (drained : Bool) (errs : Nat) :
    c.resume.pc ≠ .settle drained errs := by
  intro h
  rcases c.resume_cases with ⟨heq, -⟩ | ⟨heq, -⟩ | ⟨heq, -⟩
  · rw [heq] at h; cases h
  · rw [heq] at h; cases h
  · rw [heq] at h; cases h

variable {c' : Call} {ep : Nat} {q : Endpoint}

lemma Usable.quiet {m : Manager} (h : Usable e) (hsound : Sound e)
    (hfree : ∀ key, (m.pools key).free ⊆ (e.mgr.pools key).free)
    (hdues : ∀ d ∈ c'.dues, ErrorsSeen (e.endpoints d.key d.ep) d.owing)
    (hpc : ∀ errs, c'.pc = .settle true errs → errs = 0) :
    Usable (Engine.setCall { e with mgr := m } i (some c')) := by
  refine h.put hsound rfl (fun key ep hep => h.free key ep (hfree key hep)) (fun _ _ _ => rfl) ?_
  rintro _ ⟨⟩
  exact ⟨hdues, hpc⟩

lemma Usable.change {key : PoolKey} {o o' : Option (Nat × Nat)} {dues : List Due} (h : Usable e)
    (hsound : Sound e) (hc : (e.threads i).call = some c) (hthreads : e'.threads = e.threads)
    (hmgr : e'.mgr = e.mgr) (hend : e'.endpoints = (e.setEndpoint key ep q).endpoints)
    (hdues : c.dues = ⟨key, ep, o⟩ :: dues) (hdues' : c'.dues = ⟨key, ep, o'⟩ :: dues)
    (hq : ErrorsSeen q o') (hpc : ∀ errs, c'.pc = .settle true errs → errs = 0) :
    Usable (e'.setCall i (some c')) := by
  have hseen := h.seen i c hc
  have hall := (hsound.calls i c hc).dues
  rw [hdues] at hall hseen
  have hown := @Sound.own_channel e i ep key q hsound (hall.held _ (.head _))
  refine h.put hsound hthreads ?_ ?_ ?_
  · intro key' ep' hep
    rw [hmgr] at hep
    rw [hend, hown.1 key' ep' hep]
    exact h.free key' ep' hep
  · intro x hx hne
    rw [hend, (hown.2 x hx hne).2]
  · rintro _ ⟨⟩
    refine ⟨?_, hpc⟩
    rw [hdues', hend]
    refine forall_mem_cons.mpr ⟨?_, ?_⟩
    · rw [Engine.setEndpoint_self]; exact hq
    · intro d hd
      rw [Engine.setEndpoint_of_ne _ (hall.other hd)]
      exact (forall_mem_cons.mp hseen).2 d hd

lemma errors_pos {batch : List (WorkRequest × Bool)} {wc : WorkRequest × Bool} (h : wc ∈ batch)
    (hbad : wc.2 = false) : 0 < errors batch :=
  length_pos_of_mem (mem_filter.mpr ⟨h, by rw [hbad]; rfl⟩)

lemma ErrorsSeen.poll {k errs n k' wcErrors : Nat} (h : ErrorsSeen q (some (k, errs))) :
    ErrorsSeen { q with cq := q.cq.drop n, wcErrors := wcErrors }
      (some (k', errs + errors (q.cq.take n))) := by
  intro herr
  rcases h herr with hpos | ⟨wc, hwc, hbad⟩
  · exact .inl (Nat.add_pos_left hpos _)
  · rw [← take_append_drop n q.cq] at hwc
    rcases mem_append.mp hwc with hwc | hwc
    · exact .inl (Nat.add_pos_right _ (errors_pos hwc hbad))
    · exact .inr ⟨wc, hwc, hbad⟩

/-- **THE MOVE LEMMA** for usable channels, at moves that end no drain with an error. -/
lemma usable_moved {mv : Move} (h : Usable e) (hsound : Sound e)
    (hc : (e.threads i).call = some c) (hgood : GoodDrain e (.thread i mv))
    (hmv : Moved e i c mv e') : Usable e' := by
  have hseen := h.seen i c hc
  have hok := hsound.calls i c hc
  have hsame : ∀ key, (e.mgr.pools key).free ⊆ (e.mgr.pools key).free := fun _ => List.Subset.refl _
  cases hmv with
  | @channel g todo ep rest m hpc htodo hfree hstep hm =>
    refine h.quiet hsound ?_ ?_ (by rintro _ ⟨⟩)
    · rw [hm]
      refine free_update_subset ?_
      rw [hfree]
      exact subset_append_left _ _
    · rw [dues_lease hpc] at hseen
      rw [dues_post rfl]
      refine forall_mem_cons.mpr ⟨?_, hseen⟩
      intro herr
      rw [h.free g.key ep (by rw [hfree]; exact mem_append_right _ (.head _))] at herr
      cases herr
  | @connect g todo m hpc htodo hstep hm =>
    refine h.quiet hsound ?_ ?_ (by rintro _ ⟨⟩)
    · rw [hm]; exact free_update_subset (List.Subset.refl _)
    · rw [dues_lease hpc] at hseen
      rw [dues_connect rfl]
      exact hseen
  | @connected g m hpc hstep hm =>
    have hkeep : ∀ x ∈ e.mgr.held, (Engine.setEndpoint { e with mgr := m } g.key (e.mgr.pools g.key).next
        Endpoint.new).endpoints x.key x.ep = e.endpoints x.key x.ep :=
      fun x hx => Engine.setEndpoint_of_ne _ (hsound.ne_next g.key (hsound.owned hx)) _
    have hsub : ∀ key, (m.pools key).free ⊆ (e.mgr.pools key).free := by
      rw [hm]
      exact free_update_subset (List.Subset.refl _)
    refine h.put hsound rfl ?_ (fun x hx _ => hkeep x hx) ?_
    · intro key ep hep
      have hnext := hsound.ne_next g.key ((hsound.ledger key).free_subset (hsub key hep))
      rw [Engine.setEndpoint_of_ne _ hnext]
      exact h.free key ep (hsub key hep)
    · rintro _ ⟨⟩
      refine ⟨?_, by rintro _ ⟨⟩⟩
      have hheld := hok.dues.held
      rw [dues_connect hpc] at hseen hheld
      rw [dues_post rfl]
      refine forall_mem_cons.mpr ⟨?_, ?_⟩
      · rw [Engine.setEndpoint_self]; rintro ⟨⟩
      · intro d hd
        have hold := hseen d hd
        rw [← hkeep _ (hheld d hd)] at hold
        exact hold
  | @refused g m hpc hstep hm =>
    refine h.quiet hsound ?_ ?_ (fun errs hsettle => absurd hsettle (resume_not_settled c true errs))
    · rw [hm]; exact free_update_subset (List.Subset.refl _)
    · rw [dues_connect hpc] at hseen
      rw [dues_resume]
      exact hseen
  | threw hpc hstep hm =>
    refine h.put hsound rfl ?_ (fun _ _ _ => rfl) (by rintro _ ⟨⟩)
    rw [hm]
    exact h.free
  | skipped hpc =>
    refine h.quiet hsound hsame ?_ (by rintro _ ⟨⟩)
    rw [dues_post hpc] at hseen
    rw [dues_post rfl]
    exact hseen
  | @post g ep idx posted lkey idxs accepted hpc =>
    -- posting touches neither the completion queue nor the state
    rw [dues_post hpc] at hseen
    exact h.change hsound hc rfl rfl rfl (dues_post hpc) (dues_post rfl)
      ((forall_mem_cons.mp hseen).1 : ErrorsSeen _ (some (posted, 0))) (by rintro _ ⟨⟩)
  | posted hpc =>
    refine h.quiet hsound hsame ?_ (fun errs hsettle => absurd hsettle (resume_not_settled _ true errs))
    rw [dues_post hpc] at hseen
    rw [dues_resume]
    intro d hd
    rw [undrained, map_append] at hd
    refine hseen d ?_
    rcases mem_append.mp hd with hd | hd
    · exact .tail _ hd
    · rw [mem_singleton.mp hd]; exact (.head _)
  | @poll seen errs n l leased hpc hleased hn =>
    rw [dues_drain hpc hleased] at hseen
    exact h.change hsound hc rfl rfl rfl (dues_drain hpc hleased)
      (dues_drain (c := ⟨_, _, _, c.leased, _, .drain _ _⟩) rfl hleased)
      (ErrorsSeen.poll (forall_mem_cons.mp hseen).1) (by rintro _ ⟨⟩)
  | giveUp hpc hleased =>
    refine h.quiet hsound hsame ?_ (by rintro _ ⟨⟩)
    rw [dues_drain hpc hleased] at hseen
    rw [dues_gaveUp (c := ⟨_, _, _, c.leased, _, .settle false _⟩) rfl hleased]
    exact forall_mem_cons.mpr ⟨trivial, (forall_mem_cons.mp hseen).2⟩
  | drained hpc hleased hall =>
    refine h.quiet hsound hsame ?_ ?_
    · rw [dues_drain hpc hleased] at hseen
      rw [dues_settled (c := ⟨_, _, _, c.leased, _, .settle true _⟩) rfl hleased]
      obtain ⟨hhead, htail⟩ := forall_mem_cons.mp hseen
      exact forall_mem_cons.mpr ⟨hhead, htail⟩
    · intro errs' hsettle
      obtain ⟨-, rfl⟩ := Pc.settle.inj hsettle
      simpa [GoodDrain, drainErrs, hc, hpc] using hgood
  | @release errs l leased m hpc hleased hstep hm =>
    have hdues := hok.dues
    rw [dues_settled hpc hleased] at hseen hdues
    obtain ⟨hhead, htail⟩ := forall_mem_cons.mp hseen
    have howing := hdues.owing _ (.head _) _ _ rfl
    -- nothing is left to collect and nothing bad was collected
    have hgoodEp : (e.endpoints l.key l.ep).error = false := by
      cases herr : (e.endpoints l.key l.ep).error with
      | false => rfl
      | true =>
        rcases hhead herr with hpos | ⟨wc, hwc, -⟩
        · rw [h.settled i c errs hc hpc] at hpos
          exact absurd hpos (Nat.lt_irrefl 0)
        · rw [howing.clean.2] at hwc; cases hwc
    refine h.put hsound rfl ?_ (fun _ _ _ => rfl) ?_
    · intro key ep hep
      have hep' : ep ∈ (m.pools key).free := hep
      rw [hm] at hep'
      rcases mem_free_update hep' with ⟨rfl, hback⟩ | hold
      · rcases mem_append.mp hback with hold | hnew
        · exact h.free l.key ep hold
        · rw [mem_singleton.mp hnew]; exact hgoodEp
      · exact h.free key ep hold
    · rintro _ ⟨⟩
      refine ⟨?_, fun errs hsettle => absurd hsettle (resume_not_settled _ true errs)⟩
      rw [dues_resume]
      exact htail
  | @discard errs l leased m hpc hleased hstep hm =>
    rw [dues_gaveUp hpc hleased] at hseen
    refine h.quiet hsound ?_ ?_ (fun errs hsettle => absurd hsettle (resume_not_settled _ true errs))
    · rw [hm]; exact free_update_subset (List.Subset.refl _)
    · rw [dues_resume]; exact (forall_mem_cons.mp hseen).2
  | finish hpc =>
    exact h.put hsound rfl h.free (fun _ _ _ => rfl) (by rintro _ ⟨⟩)

lemma usable_complete {key : PoolKey} {w : Nat} {success : Bool} {wr : WorkRequest}
    {completed : List WorkRequest} (h : Usable e) (hsound : Sound e)
    (hw : (e.endpoints key ep).outstanding[w]? = some wr) :
    Usable (Engine.setEndpoint { e with completed := completed } key ep
      { e.endpoints key ep with
        outstanding := (e.endpoints key ep).outstanding.eraseIdx w
        cq := (e.endpoints key ep).cq ++ [(wr, success)]
        error := (e.endpoints key ep).error || !success }) := by
  refine ⟨?_, ?_, h.settled⟩
  · intro key' ep' hep
    have hne : (key', ep') ≠ (key, ep) := by
      intro heq
      obtain ⟨rfl, rfl⟩ := Prod.mk.inj heq
      rw [(hsound.clean key' ep' hep).1] at hw
      cases hw
    rw [Engine.setEndpoint_of_ne _ hne]
    exact h.free key' ep' hep
  · intro i c hc d hd
    have hd' := h.seen i c hc d hd
    by_cases heq : (d.key, d.ep) = (key, ep)
    · obtain ⟨hkey, hep⟩ := Prod.mk.inj heq
      rw [hkey, hep] at hd' ⊢
      rw [Engine.setEndpoint_self]
      cases ho : d.owing with
      | none => trivial
      | some p =>
          rw [ho] at hd'
          intro herr
          rcases Bool.or_eq_true_iff.mp herr with hold | hbad
          · rcases hd' hold with hpos | ⟨wc, hwc, hwc'⟩
            · exact .inl hpos
            · exact .inr ⟨wc, mem_append_left _ hwc, hwc'⟩
          · refine .inr ⟨(wr, success), mem_append_right _ (.head _), ?_⟩
            simpa using hbad
    · rw [Engine.setEndpoint_of_ne _ heq]; exact hd'

lemma usable_begin {order : List Group} {r : Request} {program : List Request} (h : Usable e) :
    Usable { e with
      threads := Function.update e.threads i ⟨program, some (Call.start e.calls r order)⟩
      calls := e.calls + 1 } := by
  have hcall : ∀ j c', (Function.update e.threads i ⟨program, some (Call.start e.calls r order)⟩ j).call
      = some c' → c' = Call.start e.calls r order ∨ (e.threads j).call = some c' := by
    intro j c' hj
    by_cases hji : j = i
    · subst hji
      rw [Function.update_self] at hj
      exact .inl (Option.some.inj hj).symm
    · rw [Function.update_of_ne hji] at hj; exact .inr hj
  refine ⟨h.free, ?_, ?_⟩
  · intro j c' hj d hd
    rcases hcall j c' hj with rfl | hj
    · rw [Call.start, dues_resume] at hd; cases hd
    · exact h.seen j c' hj d hd
  · intro j c' errs hj hpc
    rcases hcall j c' hj with rfl | hj
    · exact absurd hpc (resume_not_settled _ true errs)
    · exact h.settled j c' errs hj hpc

lemma usable_step {a : Act} (h : Usable e) (hsound : Sound e) (hgood : GoodDrain e a)
    (hs : engineStep e a = some e') : Usable e' := by
  rcases engineStep_cases hs with ⟨i, order, r, program, -, -, -, -, rfl⟩
    | ⟨i, mv, c, rfl, hc, hmv⟩ | ⟨key, ep, w, success, wr, -, hw, -, rfl⟩
  · exact usable_begin h
  · exact usable_moved h hsound hc hgood hmv
  · exact usable_complete h hsound hw

lemma usable_new (rails maxChannelsPerPeer : Nat) (programs : Nat → List Request) :
    Usable (Engine.new rails maxChannelsPerPeer programs) where
  free := fun _ _ h => absurd h not_mem_nil
  seen := fun _ _ h => by cases h
  settled := fun _ _ _ h => by cases h

end Usable

lemma leased_step {e e' : Engine} {a : Act} {h : Holding} (husable : Usable e)
    (hs : engineStep e a = some e') (hlease : e'.mgr.held = h :: e.mgr.held) :
    (e'.endpoints h.key h.ep).error = false := by
  have hlen : e'.mgr.held.length = e.mgr.held.length + 1 := by rw [hlease, length_cons]
  rcases engineStep_cases hs with ⟨i, order, r, program, -, -, -, -, rfl⟩
    | ⟨i, mv, c, -, hc, hmv⟩ | ⟨key, ep, w, success, wr, -, hw, -, rfl⟩
  · exact absurd hlen (Nat.succ_ne_self _).symm
  · cases hmv with
    | @channel g todo ep rest m hpc htodo hfree hstep hm =>
      have hheld : m.held = h :: e.mgr.held := hlease
      rw [hm] at hheld
      obtain ⟨rfl, -⟩ := List.cons.inj hheld
      refine husable.free g.key ep ?_
      rw [hfree]
      exact mem_append_right _ (.head _)
    | @connected g m hpc hstep hm =>
      have hheld : m.held = h :: e.mgr.held := hlease
      rw [hm] at hheld
      obtain ⟨rfl, -⟩ := List.cons.inj hheld
      show ((Engine.setEndpoint _ _ _ Endpoint.new).endpoints _ _).error = false
      rw [Engine.setEndpoint_self]
      rfl
    | connect hpc htodo hstep hm | refused hpc hstep hm | threw hpc hstep hm =>
      rw [hm] at hlen
      exact absurd hlen (Nat.succ_ne_self _).symm
    | release hpc hleased hstep hm | discard hpc hleased hstep hm =>
      rw [hm] at hlen
      exact absurd hlen (Nat.ne_of_lt (Nat.lt_succ_of_le (length_erase_le)))
    | skipped | post | posted | poll | giveUp | drained | finish =>
      exact absurd hlen (Nat.succ_ne_self _).symm
  · exact absurd hlen (Nat.succ_ne_self _).symm

/-- **A LEASED CHANNEL IS USABLE** as long as every drain that collects all its completions collects
    good ones only.  A step that hands out a channel is a `lease` that returns. -/
theorem leased_usable (rails maxChannelsPerPeer : Nat) (programs : Nat → List Request)
    (acts : List Act) (a : Act) (e e' : Engine)
    (hgood : Guarded engineStep GoodDrain (Engine.new rails maxChannelsPerPeer programs) acts)
    (hrun : run engineStep (Engine.new rails maxChannelsPerPeer programs) acts = some e)
    (hs : engineStep e a = some e') (h : Holding) (hlease : e'.mgr.held = h :: e.mgr.held) :
    (e'.endpoints h.key h.ep).error = false := by
  have hstep : ∀ s a t, a ∈ acts → Sound s ∧ Usable s → GoodDrain s a → engineStep s a = some t →
      Sound t ∧ Usable t :=
    fun s a t _ hi hok hst => ⟨sound_step hi.1 hst, usable_step hi.2 hi.1 hok hst⟩
  have hnew := And.intro (sound_new rails maxChannelsPerPeer programs)
    (usable_new rails maxChannelsPerPeer programs)
  exact leased_step (run_invariant hstep hnew hgood hrun).2 hs hlease

/-- Thread 0 reads twice from a peer, with good completions, and thread 1 is about to lease. -/
def goodReads : List Act :=
  [.thread 0 (.start twoReadsGroups), .thread 0 .lease, .thread 0 .connected,
    .thread 0 (.post 1 true), .thread 0 (.post 1 true), .thread 0 .posted,
    .complete (toLex (0, "b:1")) 0 1 true, .complete (toLex (0, "b:1")) 0 0 true,
    .thread 0 (.poll 2), .thread 0 .drained, .thread 0 .settle, .thread 0 .finish,
    .thread 1 (.start twoReadsGroups)]

theorem leased_usable_good_reads :
    ∃ e e', run engineStep (Engine.new 1 1 (fun _ => [twoReads])) goodReads = some e
      ∧ engineStep e (.thread 1 .lease) = some e'
      ∧ e'.mgr.held = ⟨1, toLex (0, "b:1"), 0⟩ :: e.mgr.held
      ∧ (e'.endpoints (toLex (0, "b:1")) 0).error = false := by
  have hall : ((run engineStep (Engine.new 1 1 (fun _ => [twoReads])) goodReads).bind
      (fun e => (engineStep e (.thread 1 .lease)).map (fun e' => (e.mgr.held, e'.mgr.held))))
      = some ([], [⟨1, toLex (0, "b:1"), 0⟩]) := by decide +kernel
  obtain ⟨e, hrun, hrest⟩ := Option.bind_eq_some_iff.mp hall
  obtain ⟨e', hs, hheld⟩ := Option.map_eq_some_iff.mp hrest
  obtain ⟨h1, h2⟩ := Prod.mk.inj hheld
  have hlease : e'.mgr.held = ⟨1, toLex (0, "b:1"), 0⟩ :: e.mgr.held := by rw [h1, h2]
  exact ⟨e, e', hrun, hs, hlease, leased_usable 1 1 _ goodReads _ e e' (by decide +kernel) hrun hs _ hlease⟩

/-- One read of a batch fails: its drain returns `true`, the channel is free again, and the next
    `lease` returns it in the error state. -/
theorem leased_in_error :
    ∃ e e', run engineStep (Engine.new 1 1 (fun _ => [twoReads]))
        (outOfOrder ++ [.thread 1 (.start twoReadsGroups)]) = some e
      ∧ engineStep e (.thread 1 .lease) = some e'
      ∧ e'.mgr.held = ⟨1, toLex (0, "b:1"), 0⟩ :: e.mgr.held
      ∧ (e'.endpoints (toLex (0, "b:1")) 0).error = true := by
  have hall : ((run engineStep (Engine.new 1 1 (fun _ => [twoReads]))
      (outOfOrder ++ [.thread 1 (.start twoReadsGroups)])).bind
      (fun e => (engineStep e (.thread 1 .lease)).map (fun e' =>
        (e.mgr.held, e'.mgr.held, (e'.endpoints (toLex (0, "b:1")) 0).error))))
      = some ([], [⟨1, toLex (0, "b:1"), 0⟩], true) := by decide +kernel
  obtain ⟨e, hrun, hrest⟩ := Option.bind_eq_some_iff.mp hall
  obtain ⟨e', hs, hheld⟩ := Option.map_eq_some_iff.mp hrest
  obtain ⟨h1, h23⟩ := Prod.mk.inj hheld
  obtain ⟨h2, h3⟩ := Prod.mk.inj h23
  exact ⟨e, e', hrun, hs, by rw [h1, h2], h3⟩

end PeerCacheEngine
