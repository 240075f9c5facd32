import Mathlib

/-! # Guarded runs of a transition system

    A system is a partial step function: `step s a = none` means that the action is not
    enabled.  A run is a list of actions taken one after the other.  A guard is a
    condition on a state and the action about to be taken in it; a run is guarded when
    every one of its steps meets it. -/

namespace Transition

open List Option

variable {S A : Type} (step : S → A → Option S)

/-- The state after a list of actions, if each is enabled in its turn. -/
def run : S → List A → Option S
  | s, [] => some s
  | s, a :: as => (step s a).bind (fun t => run t as)

/-- Every step of the run is taken in a state that meets `ok`. -/
def Guarded (ok : S → A → Prop) : S → List A → Prop
  | _, [] => True
  | s, a :: as => ok s a ∧ ∀ t, step s a = some t → Guarded ok t as

/-- Whether a given run is guarded can be computed along it. -/
instance decidableGuarded (ok : S → A → Prop) [∀ s a, Decidable (ok s a)] :
    ∀ s as, Decidable (Guarded step ok s as)
  | _, [] => isTrue trivial
  | s, a :: as =>
      match h : step s a with
      | none => decidable_of_iff (ok s a) ⟨fun hok => ⟨hok, fun _ ht => nomatch h.symm.trans ht⟩, And.left⟩
      | some t =>
          have : Decidable (Guarded step ok t as) := decidableGuarded ok t as
          decidable_of_iff (ok s a ∧ Guarded step ok t as)
            ⟨fun hok => ⟨hok.1, fun _ ht => Option.some.inj (h.symm.trans ht) ▸ hok.2⟩,
              fun hok => ⟨hok.1, hok.2 t h⟩⟩

variable {step}

variable {as : List A} {ok : S → A → Prop} {P : S → Prop} {f : S → A → S}

lemma run_cons {s t : S} {a : A} (h : run step s (a :: as) = some t) :
    ∃ u, step s a = some u ∧ run step u as = some t := bind_eq_some_iff.mp h

lemma run_append (s : S) (as bs : List A) :
    run step s (as ++ bs) = (run step s as).bind (fun t => run step t bs) := by
  induction as generalizing s with
  | nil => rfl
  | cons a as ih =>
    rw [cons_append, run, run, bind_assoc]
    exact congrArg (bind (step s a)) (funext ih)

/-- **INVARIANT RULE**: what every guarded step preserves holds after every guarded run. -/
lemma run_invariant {I : S → Prop}
    (hstep : ∀ s a t, a ∈ as → I s → ok s a → step s a = some t → I t) {s t : S} (h : I s)
    (hok : Guarded step ok s as) (hrun : run step s as = some t) : I t := by
  induction as generalizing s with
  | nil =>
    cases hrun
    exact h
  | cons a as ih =>
    obtain ⟨u, hu, hrest⟩ := run_cons hrun
    refine ih (fun s b t hb => hstep s b t (mem_cons_of_mem a hb)) ?_ (hok.2 u hu) hrest
    exact hstep s a u (.head _) h hok.1 hu

lemma guarded_trivial (s : S) (as : List A) : Guarded step (fun _ _ => True) s as := by
  induction as generalizing s with
  | nil => exact trivial
  | cons a as ih => exact ⟨trivial, fun t _ => ih t⟩

/-- **EXACTNESS RULE**: where a step keeps `P` exactly when it meets the guard, a run keeps `P`
    throughout exactly when it is guarded.  `I` is what every step keeps. -/
lemma always_iff_guarded {I : S → Prop} (hkeep : ∀ s a t, I s → step s a = some t → I t)
    (hstep : ∀ s a t, I s → P s → step s a = some t → (P t ↔ ok s a)) {s t : S} (hinv : I s)
    (h : P s) (hrun : run step s as = some t) :
    (∀ pre, pre <+: as → ∀ u, run step s pre = some u → P u) ↔ Guarded step ok s as := by
  induction as generalizing s with
  | nil =>
    refine iff_of_true ?_ trivial
    intro pre hpre u hu
    rw [prefix_nil.mp hpre] at hu
    exact some.inj hu ▸ h
  | cons a as ih =>
    obtain ⟨v, hv, hrest⟩ := run_cons hrun
    constructor
    · intro hall
      have hone : run step s [a] = some v := by rw [run, hv]; rfl
      have hPv : P v := hall [a] (cons_prefix_cons.mpr ⟨rfl, nil_prefix⟩) v hone
      refine ⟨(hstep s a v hinv h hv).mp hPv, ?_⟩
      intro w hw
      obtain rfl := some.inj (hv.symm.trans hw)
      refine (ih (hkeep s a v hinv hv) hPv hrest).mp ?_
      intro pre hpre u hu
      refine hall (a :: pre) (cons_prefix_cons.mpr ⟨rfl, hpre⟩) u ?_
      rw [run, hv]
      exact hu
    · rintro ⟨hok, hguard⟩ pre hpre u hu
      have hPv : P v := (hstep s a v hinv h hv).mpr hok
      cases pre with
      | nil => exact some.inj hu ▸ h
      | cons b pre =>
        obtain ⟨rfl, hshort⟩ := cons_prefix_cons.mp hpre
        obtain ⟨w, hw, hu⟩ := run_cons hu
        obtain rfl := some.inj (hv.symm.trans hw)
        exact (ih (hkeep s b v hinv hv) hPv hrest).mpr (hguard v hv) pre hshort u hu

lemma run_total (f : S → A → S) (s : S) (as : List A) :
    run (fun s a => some (f s a)) s as = some (as.foldl f s) := by
  induction as generalizing s with
  | nil => rfl
  | cons a as ih => exact ih (f s a)

lemma foldl_always_iff {I : S → Prop} (hkeep : ∀ s a, I s → I (f s a))
    (hstep : ∀ s a, I s → P s → (P (f s a) ↔ ok s a)) {s : S} (hinv : I s) (h : P s) :
    (∀ pre, pre <+: as → P (pre.foldl f s)) ↔ Guarded (fun s a => some (f s a)) ok s as := by
  have hiff : _ ↔ Guarded (fun s a => some (f s a)) ok s as :=
    always_iff_guarded (P := P) (fun s a t hs ht => some.inj ht ▸ hkeep s a hs)
      (fun s a t hs hp ht => some.inj ht ▸ hstep s a hs hp) hinv h (run_total f s as)
  refine Iff.trans ?_ hiff
  simp only [run_total, some.injEq, forall_eq']

lemma foldl_invariant (hstep : ∀ s a, a ∈ as → P s → ok s a → P (f s a)) {s : S} (h : P s)
    (hok : Guarded (fun s a => some (f s a)) ok s as) : P (as.foldl f s) := by
  induction as generalizing s with
  | nil => exact h
  | cons a as ih =>
    refine ih (fun s b hb => hstep s b (mem_cons_of_mem a hb)) ?_ (hok.2 (f s a) rfl)
    exact hstep s a (.head _) h hok.1

lemma guarded_append {bs : List A} {s : S} (h : Guarded (fun s a => some (f s a)) ok s (as ++ bs)) :
    Guarded (fun s a => some (f s a)) ok s as
      ∧ Guarded (fun s a => some (f s a)) ok (as.foldl f s) bs := by
  induction as generalizing s with
  | nil => exact ⟨trivial, h⟩
  | cons a as ih =>
    obtain ⟨hfirst, hrest⟩ := ih (h.2 (f s a) rfl)
    refine ⟨⟨h.1, ?_⟩, hrest⟩
    intro t ht
    cases ht
    exact hfirst

/-- **PROGRESS RULE**: what one element brings about, and the others keep, holds after the fold. -/
lemma foldl_reaches {Q : S → Prop} {a : A} (ha : a ∈ as) (hinv : ∀ s b, b ∈ as → Q s → Q (f s b))
    (hmake : ∀ s, Q s → P (f s a)) (hkeep : ∀ s b, b ∈ as → Q s → P s → P (f s b)) {s : S} (h : Q s) :
    P (as.foldl f s) := by
  have hafter : ∀ (bs : List A) (s : S), (∀ b ∈ bs, b ∈ as) → Q s → P s → P (bs.foldl f s) := by
    intro bs
    induction bs with
    | nil => exact fun s _ _ hs => hs
    | cons b bs ih =>
      intro s hbs hq hs
      obtain ⟨hb, hbs⟩ := forall_mem_cons.mp hbs
      exact ih _ hbs (hinv s b hb hq) (hkeep s b hb hq hs)
  obtain ⟨before, later, rfl⟩ := append_of_mem ha
  rw [foldl_append, foldl_cons]
  have hq : Q (before.foldl f s) := by
    refine List.foldlRecOn (motive := Q) _ _ h ?_
    exact fun s hs b hb => hinv s b (mem_append_left _ hb) hs
  refine hafter later _ ?_ (hinv _ a ha hq) (hmake _ hq)
  exact fun b hb => mem_append_right _ (.tail _ hb)

end Transition
