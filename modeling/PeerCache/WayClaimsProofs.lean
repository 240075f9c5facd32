import Mathlib

/-! # Claiming ways of a set-associative bucket, one key after the other

    A bucket has `n` ways.  A way is empty or holds a key, and carries a stamp.  A key
    that claims a way takes the one it holds, else an empty one, else the first of those
    with the least stamp, and the way it takes gets the next even number over the least
    stamp OF THE BUCKET.  That number need not be large among the stamps of the bucket:
    once every way below it is gone, a way just claimed is itself the oldest. -/

namespace WayClaims

open List

/-- The ways of a bucket: the key each one holds, and its stamp. -/
structure Ways (K : Type) where
  key : Nat → Option K
  seq : Nat → Nat

variable {K : Type}

/-- A key written to a way, with a stamp. -/
def Ways.put (s : Ways K) (w : Nat) (k : K) (q : Nat) : Ways K where
  key := Function.update s.key w (some k)
  seq := Function.update s.seq w q

@[simp] lemma Ways.put_key_self (s : Ways K) (w : Nat) (k : K) (q : Nat) :
    (s.put w k q).key w = some k := Function.update_self ..

@[simp] lemma Ways.put_seq_self (s : Ways K) (w : Nat) (k : K) (q : Nat) :
    (s.put w k q).seq w = q := Function.update_self ..

variable {w n q e c : Nat} {s t : Ways K} {l : List K} {ws : List Nat} {R C T : Finset Nat}

variable {v w' : Nat}

lemma Ways.put_key_of_ne (s : Ways K) (k : K) (q : Nat) (h : v ≠ w) :
    (s.put w k q).key v = s.key v := Function.update_of_ne h ..

lemma Ways.put_seq_of_ne (s : Ways K) (k : K) (q : Nat) (h : v ≠ w) :
    (s.put w k q).seq v = s.seq v := Function.update_of_ne h ..

/-- The next even number. -/
def nextStamp (m : Nat) : Nat := (m + 2) / 2 * 2

/-- The rule of a choice: the way that holds the key, else an empty way, else the first of
    the oldest ones. -/
structure Chooses (n : Nat) (s : Ways K) (k : K) (w : Nat) : Prop where
  lt : w < n
  holder : ∀ v < n, s.key v = some k → s.key w = some k
  vacant : (∀ v < n, s.key v ≠ some k) → ∀ v < n, s.key v = none → s.key w = none
  oldest : (∀ v < n, s.key v ≠ some k) → (∀ v < n, s.key v ≠ none) →
    ∀ v < n, s.seq w ≤ s.seq v ∧ (v < w → s.seq w < s.seq v)

/-- A claim: a choice, and the stamp that follows the least one of the bucket. -/
structure Picks (n : Nat) (s : Ways K) (k : K) (w q : Nat) : Prop extends Chooses n s k w where
  stamp : ∃ v < n, (∀ u < n, s.seq v ≤ s.seq u) ∧ q = nextStamp (s.seq v)

lemma first_least_unique {seq : Nat → Nat} (hw : w < n) (hw' : w' < n)
    (h : ∀ v < n, seq w ≤ seq v ∧ (v < w → seq w < seq v))
    (h' : ∀ v < n, seq w' ≤ seq v ∧ (v < w' → seq w' < seq v)) : w = w' := by
  rcases Nat.lt_trichotomy w w' with hlt | heq | hgt
  · have h1 := (h w' hw').1
    have h2 := (h' w hw).2 hlt
    omega
  · exact heq
  · have h1 := (h' w hw).1
    have h2 := (h w' hw').2 hgt
    omega

/-- **THE WAY WRITTEN OVER** is the one of the key, or the first of the oldest in a bucket full of
    other keys. -/
lemma Chooses.overwrites_iff {k : K} (h : Chooses n s k w)
    (hunique : ∀ u < n, ∀ v < n, s.key u = some k → s.key v = some k → u = v) {P : Nat → Prop} :
    (s.key w ≠ none → P w) ↔ ∀ u < n, s.key u = some k
          ∨ ((∀ v < n, s.key v ≠ some k ∧ s.key v ≠ none)
            ∧ ∀ v < n, s.seq u ≤ s.seq v ∧ (v < u → s.seq u < s.seq v)) →
        P u := by
  constructor
  · rintro hP u hu (hkey | ⟨hfull, hleast⟩)
    · obtain rfl := hunique u hu w h.lt hkey (h.holder u hu hkey)
      exact hP (by rw [hkey]; exact Option.some_ne_none _)
    · have holdest := h.oldest (fun v hv => (hfull v hv).1) (fun v hv => (hfull v hv).2)
      obtain rfl := first_least_unique hu h.lt hleast holdest
      exact hP (hfull u hu).2
  · intro hall hw
    refine hall w h.lt ?_
    by_cases hheld : ∃ v < n, s.key v = some k
    · obtain ⟨v, hv, hkey⟩ := hheld
      exact .inl (h.holder v hv hkey)
    · have hnew : ∀ v < n, s.key v ≠ some k := fun v hv hkey => hheld ⟨v, hv, hkey⟩
      -- an empty way would have been chosen
      have hfull : ∀ v < n, s.key v ≠ none := fun v hv hnone => hw (h.vacant hnew v hv hnone)
      exact .inr ⟨fun v hv => ⟨hnew v hv, hfull v hv⟩, h.oldest hnew hfull⟩

lemma Picks.forward_iff {k : K} (h : Picks n s k w q) (heven : ∀ v < n, s.seq v % 2 = 0)
    (hunique : ∀ u < n, ∀ v < n, s.key u = some k → s.key v = some k → u = v) :
    (s.key w ≠ none → q % 2 = 0 ∧ s.seq w < q)
      ↔ ∀ u < n, s.key u = some k → ∀ v < n, s.seq u ≤ s.seq v := by
  obtain ⟨least, hlt, hmin, hq⟩ := h.stamp
  have hstamp : q = s.seq least + 2 := by
    have := heven least hlt
    rw [hq, nextStamp]
    omega
  have hforward : (q % 2 = 0 ∧ s.seq w < q) ↔ s.seq w ≤ s.seq least := by
    have := heven least hlt
    have := heven w h.lt
    omega
  rw [hforward, h.overwrites_iff hunique (P := fun u => s.seq u ≤ s.seq least)]
  constructor
  · intro hall u hu hkey v hv
    exact (hall u hu (.inl hkey)).trans (hmin v hv)
  · rintro hall u hu (hkey | ⟨-, hleast⟩)
    · exact hall u hu hkey least hlt
    · exact (hleast least hlt).1

/-- A choice with one way left to go: of the empty ways it takes the first. -/
structure Settles (n : Nat) (s : Ways K) (k : K) (w : Nat) : Prop extends Chooses n s k w where
  first_vacant : (∀ v < n, s.key v ≠ some k) → ∀ v < n, s.key v = none → w ≤ v

/-- **TWO CHOICES** over the same keys, one that takes the first way of the key and one that takes
    the last, are the same exactly when the key is held at most once and, in a bucket full of other
    keys, both count the same way as the first of the oldest. -/
lemma Settles.agree_iff {k : K} (h : Settles n s k w) (h' : Settles n t k w')
    (hkey : ∀ v < n, t.key v = s.key v) (hfirst : ∀ v < n, s.key v = some k → w ≤ v)
    (hlast : ∀ v < n, s.key v = some k → v ≤ w') :
    w = w' ↔ (∀ u < n, ∀ v < n, s.key u = some k → s.key v = some k → u = v)
      ∧ ((∀ v < n, s.key v ≠ some k ∧ s.key v ≠ none) →
        ∀ u < n, (∀ v < n, s.seq u ≤ s.seq v ∧ (v < u → s.seq u < s.seq v)) →
          ∀ v < n, t.seq u ≤ t.seq v ∧ (v < u → t.seq u < t.seq v)) := by
  have hnew' : (∀ v < n, s.key v ≠ some k) → ∀ v < n, t.key v ≠ some k := by
    intro hnew v hv
    rw [hkey v hv]
    exact hnew v hv
  constructor
  · rintro rfl
    refine ⟨?_, ?_⟩
    · intro u hu v hv hku hkv
      have h1 := hfirst u hu hku
      have h2 := hlast u hu hku
      have h3 := hfirst v hv hkv
      have h4 := hlast v hv hkv
      omega
    · intro hfull u hu hleast
      have hnew : ∀ v < n, s.key v ≠ some k := fun v hv => (hfull v hv).1
      have hnone : ∀ v < n, s.key v ≠ none := fun v hv => (hfull v hv).2
      obtain rfl := first_least_unique hu h.lt hleast (h.oldest hnew hnone)
      refine h'.oldest (hnew' hnew) ?_
      intro v hv
      rw [hkey v hv]
      exact hnone v hv
  · rintro ⟨hunique, hvictim⟩
    by_cases hheld : ∃ v < n, s.key v = some k
    · obtain ⟨v, hv, hk⟩ := hheld
      have hwk := h.holder v hv hk
      have hwk' := h'.holder v hv ((hkey v hv).trans hk)
      rw [hkey w' h'.lt] at hwk'
      exact hunique w h.lt w' h'.lt hwk hwk'
    · have hnew : ∀ v < n, s.key v ≠ some k := fun v hv hk => hheld ⟨v, hv, hk⟩
      by_cases hvacant : ∃ v < n, s.key v = none
      · obtain ⟨v, hv, hnone⟩ := hvacant
        have hw := h.vacant hnew v hv hnone
        have hw' := h'.vacant (hnew' hnew) v hv ((hkey v hv).trans hnone)
        have h1 := h'.first_vacant (hnew' hnew) w h.lt ((hkey w h.lt).trans hw)
        rw [hkey w' h'.lt] at hw'
        have h2 := h.first_vacant hnew w' h'.lt hw'
        omega
      · have hfull : ∀ v < n, s.key v ≠ none := fun v hv hnone => hvacant ⟨v, hv, hnone⟩
        have hleast := hvictim (fun v hv => ⟨hnew v hv, hfull v hv⟩) w h.lt (h.oldest hnew hfull)
        refine first_least_unique h.lt h'.lt hleast (h'.oldest (hnew' hnew) ?_)
        intro v hv
        rw [hkey v hv]
        exact hfull v hv

lemma Chooses.congr {k : K} (hkey : ∀ v < n, s.key v = t.key v) (hseq : ∀ v < n, s.seq v = t.seq v)
    (h : Chooses n s k w) : Chooses n t k w := by
  have hnew : (∀ v < n, t.key v ≠ some k) → ∀ v < n, s.key v ≠ some k := by
    intro hnone v hv
    rw [hkey v hv]
    exact hnone v hv
  refine ⟨h.lt, ?_, ?_, ?_⟩
  · intro v hv hk
    rw [← hkey w h.lt]
    exact h.holder v hv ((hkey v hv).trans hk)
  · intro hnone v hv hk
    rw [← hkey w h.lt]
    exact h.vacant (hnew hnone) v hv ((hkey v hv).trans hk)
  · intro hnone hfull v hv
    rw [← hseq w h.lt, ← hseq v hv]
    refine h.oldest (hnew hnone) ?_ v hv
    intro u hu
    rw [hkey u hu]
    exact hfull u hu

lemma Picks.congr {k : K} (hkey : ∀ v < n, s.key v = t.key v) (hseq : ∀ v < n, s.seq v = t.seq v)
    (h : Picks n s k w q) : Picks n t k w q := by
  obtain ⟨v, hv, hmin, hq⟩ := h.stamp
  refine ⟨h.toChooses.congr hkey hseq, v, hv, ?_, by rw [← hseq v hv]; exact hq⟩
  intro u hu
  rw [← hseq v hv, ← hseq u hu]
  exact hmin u hu

/-- The ways a list of keys claims, each seeing the claims before it. -/
inductive Claims (n : Nat) : Ways K → List K → List Nat → Prop
  | nil (s : Ways K) : Claims n s [] []
  | cons {s : Ways K} {k : K} {w q : Nat} {l : List K} {ws : List Nat}
      (hpick : Picks n s k w q) (hrest : Claims n (s.put w k q) l ws) :
      Claims n s (k :: l) (w :: ws)

lemma Claims.congr (h : Claims n s l ws) (hkey : ∀ v < n, s.key v = t.key v)
    (hseq : ∀ v < n, s.seq v = t.seq v) : Claims n t l ws := by
  induction h generalizing t with
  | nil s => exact .nil t
  | @cons s k w q l ws hpick hrest ih =>
    refine .cons (hpick.congr hkey hseq) (ih ?_ ?_)
    · intro v hv
      by_cases hvw : v = w
      · rw [hvw, Ways.put_key_self, Ways.put_key_self]
      · rw [Ways.put_key_of_ne s k q hvw, Ways.put_key_of_ne t k q hvw]
        exact hkey v hv
    · intro v hv
      by_cases hvw : v = w
      · rw [hvw, Ways.put_seq_self, Ways.put_seq_self]
      · rw [Ways.put_seq_of_ne s k q hvw, Ways.put_seq_of_ne t k q hvw]
        exact hseq v hv

/-- An empty way counts as stamped 0, and no key is held twice. -/
structure Tidy (n : Nat) (s : Ways K) : Prop where
  vacant_seq : ∀ v < n, s.key v = none → s.seq v = 0
  unique : ∀ v < n, ∀ w < n, ∀ k, s.key v = some k → s.key w = some k → v = w

lemma Tidy.put {k : K} (h : Tidy n s) (hp : Picks n s k w q) : Tidy n (s.put w k q) := by
  -- any other way that holds the key would be the one picked
  have hother : ∀ v < n, v ≠ w → s.key v ≠ some k := by
    intro v hv hne hk
    exact hne (h.unique v hv w hp.lt k hk (hp.holder v hv hk))
  refine ⟨?_, ?_⟩
  · intro v hv hnone
    by_cases hvw : v = w
    · subst hvw
      rw [Ways.put_key_self] at hnone
      cases hnone
    · rw [Ways.put_key_of_ne s k q hvw] at hnone
      rw [Ways.put_seq_of_ne s k q hvw]
      exact h.vacant_seq v hv hnone
  · intro u hu v hv j hju hjv
    by_cases huw : u = w
    · by_cases hvw : v = w
      · rw [huw, hvw]
      · rw [huw, Ways.put_key_self] at hju
        rw [Ways.put_key_of_ne s k q hvw, ← hju] at hjv
        exact absurd hjv (hother v hv hvw)
    · rw [Ways.put_key_of_ne s k q huw] at hju
      by_cases hvw : v = w
      · rw [hvw, Ways.put_key_self] at hjv
        rw [← hjv] at hju
        exact absurd hju (hother u hu huw)
      · rw [Ways.put_key_of_ne s k q hvw] at hjv
        exact h.unique u hu v hv j hju hjv

/-! ## Keys that need a way of a room -/

variable [DecidableEq K]

/-- The key is not held outside `R`, so it will take a way of `R` if it can. -/
def Needs (n : Nat) (s : Ways K) (R : Finset Nat) (k : K) : Prop :=
  ∀ v < n, s.key v = some k → v ∈ R

instance (n : Nat) (s : Ways K) (R : Finset Nat) (k : K) : Decidable (Needs n s R k) :=
  inferInstanceAs (Decidable (∀ v < n, s.key v = some k → v ∈ R))

/-- How many of the keys need a way of `R`. -/
def demand (n : Nat) (s : Ways K) (R : Finset Nat) (l : List K) : Nat :=
  (l.filter (fun k => decide (Needs n s R k))).length

omit [DecidableEq K] in
lemma needs_put {k j : K} (hw : w ∈ R ∨ s.key w = some k) (hj : j ≠ k) :
    Needs n (s.put w k q) (R.erase w) j ↔ Needs n s R j := by
  constructor
  · intro h v hv hk
    by_cases hvw : v = w
    · rcases hw with hw | hw
      · rw [hvw]; exact hw
      · rw [hvw, hw] at hk; exact absurd (Option.some.inj hk).symm hj
    · refine Finset.mem_of_mem_erase (h v hv ?_)
      rw [Ways.put_key_of_ne s k q hvw]
      exact hk
  · intro h v hv hk
    by_cases hvw : v = w
    · rw [hvw, Ways.put_key_self] at hk
      exact absurd (Option.some.inj hk).symm hj
    · rw [Ways.put_key_of_ne s k q hvw] at hk
      exact Finset.mem_erase.mpr ⟨hvw, h v hv hk⟩

lemma demand_put {k : K} (hw : w ∈ R ∨ s.key w = some k) (hl : k ∉ l) :
    demand n (s.put w k q) (R.erase w) l = demand n s R l := by
  refine congrArg List.length (filter_congr ?_)
  intro j hj
  refine decide_eq_decide.mpr (needs_put hw ?_)
  rintro rfl
  exact hl hj

lemma picks_mem_iff {k : K} (ht : Tidy n s) (hp : Picks n s k w q)
    (hnew : (∀ v < n, s.key v ≠ some k) → w ∈ R) :
    (w ∈ R ↔ Needs n s R k) ∧ (w ∈ R ∨ s.key w = some k) := by
  by_cases hheld : ∃ v < n, s.key v = some k
  · obtain ⟨v, hv, hk⟩ := hheld
    have hwk := hp.holder v hv hk
    refine ⟨⟨?_, fun h => h w hp.lt hwk⟩, .inr hwk⟩
    intro hw u hu hku
    rwa [ht.unique u hu w hp.lt k hku hwk]
  · have hnone : ∀ v < n, s.key v ≠ some k := fun v hv hk => hheld ⟨v, hv, hk⟩
    have hw := hnew hnone
    exact ⟨⟨fun _ v hv hk => absurd hk (hnone v hv), fun _ => hw⟩, .inl hw⟩

/-- The ways are new ones, each taken once. -/
def Fresh (C : Finset Nat) (ws : List Nat) : Prop := ws.Nodup ∧ ∀ w ∈ ws, w ∉ C

lemma fresh_cons (hw : w ∉ C) : Fresh C (w :: ws) ↔ Fresh (insert w C) ws := by
  rw [Fresh, Fresh, nodup_cons, forall_mem_cons]
  constructor
  · rintro ⟨⟨hnot, hnd⟩, -, hrest⟩
    refine ⟨hnd, ?_⟩
    intro v hv hmem
    rcases Finset.mem_insert.mp hmem with rfl | hmem
    · exact hnot hv
    · exact hrest v hv hmem
  · rintro ⟨hnd, hrest⟩
    refine ⟨⟨fun hmem => hrest w hmem (Finset.mem_insert_self w C), hnd⟩, hw, ?_⟩
    exact fun v hv hmem => hrest v hv (Finset.mem_insert_of_mem hmem)

/-- The keys still to come hold none of the ways already claimed. -/
def Passed (s : Ways K) (C : Finset Nat) (l : List K) : Prop :=
  ∀ v ∈ C, ∀ k ∈ l, s.key v ≠ some k

omit [DecidableEq K] in
lemma Passed.put {k : K} (h : Passed s C (k :: l)) (hk : k ∉ l) (w q : Nat) :
    Passed (s.put w k q) (insert w C) l := by
  intro v hv j hj hkey
  by_cases hvw : v = w
  · rw [hvw, Ways.put_key_self] at hkey; exact hk (Option.some.inj hkey ▸ hj)
  · rw [Ways.put_key_of_ne s k q hvw] at hkey
    have hmem : v ∈ C := (Finset.mem_insert.mp hv).resolve_left hvw
    exact h v hmem j (mem_cons_of_mem k hj) hkey

/-! ## The second stage: ways in front of the first claimed one -/

/-- Every stamp is at least `e`, the claimed way `c` carries it, and the ways that carry it
    before `c` are the room `T`. -/
structure Level (n e : Nat) (T C : Finset Nat) (c : Nat) (s : Ways K) : Prop where
  even : e % 2 = 0
  pos : 0 < e
  least : ∀ v < n, e ≤ s.seq v
  bar : c ∈ C ∧ c < n ∧ s.seq c = e
  room : ∀ v ∈ T, v < n ∧ s.seq v = e ∧ v < c ∧ v ∉ C
  front : ∀ v < n, s.seq v = e → v ∈ T ∨ c ≤ v

omit [DecidableEq K] in
lemma Level.picks {k : K} (h : Level n e T C c s) (ht : Tidy n s) (hp : Picks n s k w q) :
    q = e + 2 ∧ ((∀ v < n, s.key v ≠ some k) → (T.Nonempty → w ∈ T) ∧ (T = ∅ → w = c)) := by
  obtain ⟨hcC, hcn, hce⟩ := h.bar
  have heven := h.even
  refine ⟨?_, ?_⟩
  · obtain ⟨v, hv, hmin, rfl⟩ := hp.stamp
    have h1 := h.least v hv
    have h2 := hmin c hcn
    rw [nextStamp]
    omega
  · intro hnew
    -- no way is empty, so the first of the oldest ways is taken
    have hfull : ∀ v < n, s.key v ≠ none := by
      intro v hv hnone
      have h1 := h.least v hv
      have h2 := h.pos
      rw [ht.vacant_seq v hv hnone] at h1
      omega
    have hold := hp.oldest hnew hfull
    have hwe : s.seq w = e := by
      have h1 := (hold c hcn).1
      have h2 := h.least w hp.lt
      omega
    have hnotAfter : ¬ c < w := by
      intro hlt
      have := (hold c hcn).2 hlt
      omega
    refine ⟨?_, ?_⟩
    · rintro ⟨t, ht'⟩
      obtain ⟨htn, hte, htc, -⟩ := h.room t ht'
      rcases h.front w hp.lt hwe with hw | hw
      · exact hw
      · have := (hold t htn).2 (by omega)
        omega
    · intro hempty
      rcases h.front w hp.lt hwe with hw | hw
      · rw [hempty] at hw; exact absurd hw (Finset.notMem_empty w)
      · omega

omit [DecidableEq K] in
lemma Level.put {k : K} (h : Level n e T C c s) (hw : w ∉ C) (hq : q = e + 2) :
    Level n e (T.erase w) (insert w C) c (s.put w k q) := by
  obtain ⟨hcC, hcn, hce⟩ := h.bar
  have hcw : c ≠ w := by
    rintro rfl
    exact hw hcC
  refine ⟨h.even, h.pos, ?_, ⟨Finset.mem_insert_of_mem hcC, hcn, ?_⟩, ?_, ?_⟩
  · intro v hv
    by_cases hvw : v = w
    · rw [hvw, Ways.put_seq_self]; omega
    · rw [Ways.put_seq_of_ne s k q hvw]; exact h.least v hv
  · rw [Ways.put_seq_of_ne s k q hcw]; exact hce
  · intro v hv
    obtain ⟨hne, hv⟩ := Finset.mem_erase.mp hv
    obtain ⟨h1, h2, h3, h4⟩ := h.room v hv
    refine ⟨h1, ?_, h3, ?_⟩
    · rw [Ways.put_seq_of_ne s k q hne]; exact h2
    · rw [Finset.mem_insert]
      rintro (rfl | hmem)
      · exact hne rfl
      · exact h4 hmem
  · intro v hv hve
    have hne : v ≠ w := by
      rintro rfl
      rw [Ways.put_seq_self] at hve
      omega
    rw [Ways.put_seq_of_ne s k q hne] at hve
    rcases h.front v hv hve with hmem | hle
    · exact .inl (Finset.mem_erase.mpr ⟨hne, hmem⟩)
    · exact .inr hle

lemma demand_cons (k : K) (l : List K) :
    demand n s R (k :: l) = demand n s R l + if Needs n s R k then 1 else 0 := by
  rw [demand, demand, filter_cons]
  by_cases h : Needs n s R k
  · rw [if_pos (decide_eq_true h), if_pos h, length_cons]
  · rw [if_neg (fun hd => h (of_decide_eq_true hd)), if_neg h, Nat.add_zero]

lemma demand_le_step {k : K} (hiff : w ∈ R ↔ Needs n s R k) (hw : w ∈ R ∨ s.key w = some k)
    (hl : k ∉ l) :
    demand n (s.put w k q) (R.erase w) l ≤ (R.erase w).card ↔ demand n s R (k :: l) ≤ R.card := by
  rw [demand_put hw hl, demand_cons]
  by_cases hmem : w ∈ R
  · have hcard := Finset.card_erase_add_one hmem
    rw [if_pos (hiff.mp hmem)]
    omega
  · rw [if_neg (fun h => hmem (hiff.mpr h)), Finset.erase_eq_of_notMem hmem, Nat.add_zero]

/-- **THE SECOND STAGE.**  The claims stay clear of each other and of the ways claimed
    before exactly when the demand on the room is met. -/
lemma level_fresh_iff (h : Level n e T C c s) (ht : Tidy n s) (hl : l.Nodup) (hpass : Passed s C l)
    (hc : Claims n s l ws) : Fresh C ws ↔ demand n s T l ≤ T.card := by
  induction hc generalizing T C with
  | nil s => exact iff_of_true ⟨nodup_nil, forall_mem_nil _⟩ (Nat.zero_le _)
  | @cons s k w q l ws hpick hrest ih =>
    obtain ⟨hk, hl⟩ := nodup_cons.mp hl
    obtain ⟨hq, hnew⟩ := h.picks ht hpick
    -- a way of the room, or the one its key holds: either way not claimed yet
    have hgo : (w ∈ T ↔ Needs n s T k) → (w ∈ T ∨ s.key w = some k) →
        (Fresh C (w :: ws) ↔ demand n s T (k :: l) ≤ T.card) := by
      intro hiff hw
      have hwC : w ∉ C := by
        rcases hw with hw | hw
        · exact (h.room w hw).2.2.2
        · exact fun hmem => hpass w hmem k (.head _) hw
      rw [fresh_cons hwC, ih (h.put hwC hq) (ht.put hpick) hl (hpass.put hk w q)]
      exact demand_le_step hiff hw hk
    rcases T.eq_empty_or_nonempty with hT | hT
    · by_cases hheld : ∃ v < n, s.key v = some k
      · obtain ⟨v, hv, hvk⟩ := hheld
        have hwk := hpick.holder v hv hvk
        subst hT
        exact hgo (iff_of_false (Finset.notMem_empty w)
          (fun hneeds => Finset.notMem_empty w (hneeds w hpick.lt hwk))) (.inr hwk)
      · -- the room is used up and the key is new: it takes the way claimed first
        have hnone : ∀ v < n, s.key v ≠ some k := fun v hv hvk => hheld ⟨v, hv, hvk⟩
        have hwc := (hnew hnone).2 hT
        refine iff_of_false ?_ ?_
        · intro hfresh; exact hfresh.2 w (.head _) (hwc ▸ h.bar.1)
        · have hneeds : Needs n s T k := fun v hv hvk => absurd hvk (hnone v hv)
          rw [demand_cons, if_pos hneeds, hT, Finset.card_empty]
          omega
    · obtain ⟨hiff, hw⟩ := picks_mem_iff ht hpick (fun hnone => (hnew hnone).1 hT)
      exact hgo hiff hw

/-! ## The first stage: ways below the first stamp -/

/-- `R` are the ways below `e`, the claimed ones carry it, and every claim made while `R`
    lasts is stamped `e`. -/
structure Below (n e : Nat) (R C : Finset Nat) (s : Ways K) : Prop where
  even : e % 2 = 0
  pos : 0 < e
  near : ∀ v < n, e ≤ s.seq v + 2
  room : ∀ v, v ∈ R ↔ v < n ∧ s.seq v < e
  claimed : ∀ v ∈ C, v < n ∧ s.seq v = e

omit [DecidableEq K] in
lemma Below.picks {k : K} (h : Below n e R C s) (ht : Tidy n s) (hp : Picks n s k w q)
    (hR : R.Nonempty) : q = e ∧ ((∀ v < n, s.key v ≠ some k) → w ∈ R) := by
  obtain ⟨r, hr⟩ := hR
  obtain ⟨hrn, hre⟩ := (h.room r).mp hr
  have heven := h.even
  refine ⟨?_, ?_⟩
  · obtain ⟨v, hv, hmin, rfl⟩ := hp.stamp
    have h1 := hmin r hrn
    have h2 := h.near v hv
    rw [nextStamp]
    omega
  · intro hnew
    refine (h.room w).mpr ⟨hp.lt, ?_⟩
    by_cases hvac : ∃ v < n, s.key v = none
    · obtain ⟨v, hv, hnone⟩ := hvac
      rw [ht.vacant_seq w hp.lt (hp.vacant hnew v hv hnone)]
      exact h.pos
    · exact Nat.lt_of_le_of_lt (hp.oldest hnew (fun v hv hnone => hvac ⟨v, hv, hnone⟩) r hrn).1 hre

omit [DecidableEq K] in
lemma Below.put (h : Below n e R C s) (hw : w < n) (k : K) :
    Below n e (R.erase w) (insert w C) (s.put w k e) := by
  refine ⟨h.even, h.pos, ?_, ?_, ?_⟩
  · intro v hv
    by_cases hvw : v = w
    · rw [hvw, Ways.put_seq_self]; omega
    · rw [Ways.put_seq_of_ne s k e hvw]; exact h.near v hv
  · intro v
    rw [Finset.mem_erase]
    by_cases hvw : v = w
    · rw [hvw, Ways.put_seq_self]
      exact iff_of_false (fun hc => hc.1 rfl) (fun hc => Nat.lt_irrefl e hc.2)
    · rw [Ways.put_seq_of_ne s k e hvw, and_iff_right hvw]; exact h.room v
  · intro v hv
    by_cases hvw : v = w
    · rw [hvw, Ways.put_seq_self]; exact ⟨hw, rfl⟩
    · rw [Ways.put_seq_of_ne s k e hvw]
      exact h.claimed v ((Finset.mem_insert.mp hv).resolve_left hvw)

/-- The keys up to the one that takes the last of `r` ways, where `p` are the keys that take
    one, and the keys after it. -/
def splitServed (p : K → Bool) : Nat → List K → List K × List K
  | 0, l => ([], l)
  | _ + 1, [] => ([], [])
  | r + 1, k :: l =>
      (k :: (splitServed p (if p k then r else r + 1) l).1,
        (splitServed p (if p k then r else r + 1) l).2)

omit [DecidableEq K] in
lemma splitServed_congr {p p' : K → Bool} (h : ∀ k ∈ l, p k = p' k) (r : Nat) :
    splitServed p r l = splitServed p' r l := by
  induction l generalizing r with
  | nil => cases r <;> rfl
  | cons k l ih =>
    obtain ⟨hk, hl⟩ := forall_mem_cons.mp h
    cases r with
    | zero => rfl
    | succ r => rw [splitServed, splitServed, hk, ih hl]

omit [DecidableEq K] in
lemma splitServed_append (p : K → Bool) (r : Nat) (l : List K) :
    (splitServed p r l).1 ++ (splitServed p r l).2 = l := by
  induction l generalizing r with
  | nil => cases r <;> rfl
  | cons k l ih =>
    cases r with
    | zero => rfl
    | succ r => exact congrArg (k :: ·) (ih _)

/-- The ways that carry `e` and stand before every way of the room, every claimed way and
    every way that a served key holds. -/
def spareWays (n e : Nat) (s : Ways K) (R C : Finset Nat) (served : List K) : Finset Nat :=
  (Finset.range n).filter fun w => s.seq w = e ∧ (∀ v ∈ R, w < v) ∧ (∀ v ∈ C, w < v)
    ∧ ∀ k ∈ served, ∀ v < n, s.key v = some k → w < v

/-- The keys left when the room `R` is used up find enough spare ways. -/
def RoomFrom (n e : Nat) (s : Ways K) (R C : Finset Nat) (l : List K) : Prop :=
  let split := splitServed (fun k => decide (Needs n s R k)) R.card l
  let spare := spareWays n e s R C split.1
  demand n s (R ∪ spare) split.2 ≤ spare.card

lemma mem_spareWays {served : List K} :
    w ∈ spareWays n e s R C served ↔ w < n ∧ s.seq w = e ∧ (∀ v ∈ R, w < v) ∧ (∀ v ∈ C, w < v)
      ∧ ∀ k ∈ served, ∀ v < n, s.key v = some k → w < v := by
  rw [spareWays, Finset.mem_filter, Finset.mem_range]

lemma spareWays_put {k : K} {served : List K} (ht : Tidy n s) (hp : Picks n s k w e)
    (hw : w ∈ R ∨ s.key w = some k) (hk : k ∉ served) :
    spareWays n e (s.put w k e) (R.erase w) (insert w C) served
      = spareWays n e s R C (k :: served) := by
  ext x
  rw [mem_spareWays, mem_spareWays]
  constructor
  · rintro ⟨hxn, hseq, hR, hC, hserved⟩
    have hxw : x < w := hC w (Finset.mem_insert_self w C)
    rw [Ways.put_seq_of_ne s k e (Nat.ne_of_lt hxw)] at hseq
    refine ⟨hxn, hseq, ?_, fun v hv => hC v (Finset.mem_insert_of_mem hv), ?_⟩
    · intro v hv
      by_cases hvw : v = w
      · rw [hvw]; exact hxw
      · exact hR v (Finset.mem_erase.mpr ⟨hvw, hv⟩)
    · intro j hj v hv hvj
      by_cases hvw : v = w
      · rw [hvw]; exact hxw
      · rcases mem_cons.mp hj with rfl | hj
        · exact absurd (ht.unique v hv w hp.lt j hvj (hp.holder v hv hvj)) hvw
        · refine hserved j hj v hv ?_
          rw [Ways.put_key_of_ne s k e hvw]
          exact hvj
  · rintro ⟨hxn, hseq, hR, hC, hserved⟩
    have hxw : x < w := by
      rcases hw with hw | hw
      · exact hR w hw
      · exact hserved k (.head _) w hp.lt hw
    refine ⟨hxn, ?_, fun v hv => hR v (Finset.mem_of_mem_erase hv), ?_, ?_⟩
    · rw [Ways.put_seq_of_ne s k e (Nat.ne_of_lt hxw)]; exact hseq
    · intro v hv
      rcases Finset.mem_insert.mp hv with rfl | hv
      · exact hxw
      · exact hC v hv
    · intro j hj v hv hvj
      by_cases hvw : v = w
      · rw [hvw]; exact hxw
      · rw [Ways.put_key_of_ne s k e hvw] at hvj
        exact hserved j (mem_cons_of_mem k hj) v hv hvj

lemma roomFrom_put {k : K} (ht : Tidy n s) (hp : Picks n s k w e) (hiff : w ∈ R ↔ Needs n s R k)
    (hw : w ∈ R ∨ s.key w = some k) (hR : R.Nonempty) (hk : k ∉ l) :
    RoomFrom n e (s.put w k e) (R.erase w) (insert w C) l ↔ RoomFrom n e s R C (k :: l) := by
  -- the split of the longer list serves `k` and goes on as the shorter one does
  have hsame : ∀ j ∈ l, decide (Needs n (s.put w k e) (R.erase w) j) = decide (Needs n s R j) := by
    intro j hj
    refine decide_eq_decide.mpr (needs_put hw ?_)
    rintro rfl
    exact hk hj
  have hcard : (if decide (Needs n s R k) then R.card - 1 else R.card) = (R.erase w).card := by
    by_cases hmem : w ∈ R
    · rw [if_pos (decide_eq_true (hiff.mp hmem)), Finset.card_erase_of_mem hmem]
    · rw [if_neg (fun h => hmem (hiff.mpr (of_decide_eq_true h))), Finset.erase_eq_of_notMem hmem]
  obtain ⟨r, hr⟩ := Nat.exists_eq_succ_of_ne_zero (Finset.card_ne_zero.mpr hR)
  have hsplit : splitServed (fun j => decide (Needs n s R j)) R.card (k :: l)
      = (k :: (splitServed (fun j => decide (Needs n (s.put w k e) (R.erase w) j))
            (R.erase w).card l).1,
          (splitServed (fun j => decide (Needs n (s.put w k e) (R.erase w) j))
            (R.erase w).card l).2) := by
    rw [splitServed_congr hsame, ← hcard, hr, splitServed]
    rfl
  rw [RoomFrom, RoomFrom, hsplit]
  generalize hparts : splitServed (fun j => decide (Needs n (s.put w k e) (R.erase w) j))
    (R.erase w).card l = parts
  have hmem : ∀ j, j ∈ parts.1 ∨ j ∈ parts.2 → j ∈ l := by
    intro j hj
    have happ := splitServed_append (fun j => decide (Needs n (s.put w k e) (R.erase w) j))
      (R.erase w).card l
    rw [hparts] at happ
    rw [← happ]
    exact mem_append.mpr hj
  have hspare : spareWays n e (s.put w k e) (R.erase w) (insert w C) parts.1
      = spareWays n e s R C (k :: parts.1) :=
    spareWays_put ht hp hw (fun hj => hk (hmem k (.inl hj)))
  simp only [hspare]
  have hwspare : w ∉ spareWays n e s R C (k :: parts.1) := by
    intro hin
    obtain ⟨-, -, h1, -, h2⟩ := mem_spareWays.mp hin
    rcases hw with hw | hw
    · exact Nat.lt_irrefl w (h1 w hw)
    · exact Nat.lt_irrefl w (h2 k (.head _) w hp.lt hw)
  have hdemand : demand n (s.put w k e) (R.erase w ∪ spareWays n e s R C (k :: parts.1)) parts.2
      = demand n s (R ∪ spareWays n e s R C (k :: parts.1)) parts.2 := by
    have herase : R.erase w ∪ spareWays n e s R C (k :: parts.1)
        = (R ∪ spareWays n e s R C (k :: parts.1)).erase w := by
      rw [Finset.erase_union_distrib, Finset.erase_eq_of_notMem hwspare]
    rw [herase]
    exact demand_put (hw.imp_left (fun h => Finset.mem_union_left _ h))
      (fun hj => hk (hmem k (.inr hj)))
  rw [hdemand]

lemma Below.level (h : Below n e ∅ C s) (hC : C.Nonempty) :
    Level n e (spareWays n e s ∅ C []) C (C.min' hC) s := by
  have hbar := Finset.min'_mem C hC
  refine ⟨h.even, h.pos, ?_, ⟨hbar, h.claimed _ hbar⟩, ?_, ?_⟩
  · intro v hv
    by_contra hlt
    exact Finset.notMem_empty v ((h.room v).mpr ⟨hv, Nat.lt_of_not_le hlt⟩)
  · intro v hv
    obtain ⟨hn, hseq, -, hfront, -⟩ := mem_spareWays.mp hv
    exact ⟨hn, hseq, hfront _ hbar, fun hmem => Nat.lt_irrefl v (hfront v hmem)⟩
  · intro v hv hseq
    by_cases hle : C.min' hC ≤ v
    · exact .inr hle
    · refine .inl (mem_spareWays.mpr ⟨hv, hseq, ?_, ?_, ?_⟩)
      · exact fun u hu => absurd hu (Finset.notMem_empty u)
      · exact fun u hu => Nat.lt_of_lt_of_le (Nat.lt_of_not_le hle) (Finset.min'_le C u hu)
      · exact forall_mem_nil _

/-- **BOTH STAGES**, by induction on the keys. -/
lemma below_fresh_iff (h : Below n e R C s) (hRC : R.Nonempty ∨ C.Nonempty) (ht : Tidy n s)
    (hl : l.Nodup) (hpass : Passed s C l) (hc : Claims n s l ws) :
    Fresh C ws ↔ RoomFrom n e s R C l := by
  induction l generalizing s R C ws with
  | nil =>
    cases hc
    refine iff_of_true ⟨nodup_nil, forall_mem_nil _⟩ ?_
    have hrest : (splitServed (fun k => decide (Needs n s R k)) R.card ([] : List K)).2 = [] := by
      cases R.card <;> rfl
    rw [RoomFrom, hrest]
    exact Nat.zero_le _
  | cons k l ih =>
    rcases R.eq_empty_or_nonempty with hR | hR
    · -- no way is left below `e`: the rest is the second stage
      subst hR
      have hC : C.Nonempty := hRC.resolve_left Finset.not_nonempty_empty
      rw [level_fresh_iff (h.level hC) ht hl hpass hc]
      show demand n s _ (k :: l) ≤ _ ↔ demand n s (∅ ∪ _) (k :: l) ≤ _
      rw [Finset.empty_union]
      rfl
    · cases hc with
      | @cons _ _ w q _ ws hpick hrest =>
        obtain ⟨hk, hl⟩ := nodup_cons.mp hl
        obtain ⟨rfl, hnew⟩ := h.picks ht hpick hR
        obtain ⟨hiff, hw⟩ := picks_mem_iff ht hpick hnew
        have hwC : w ∉ C := by
          intro hmem
          rcases hw with hw | hw
          · have h1 := ((h.room w).mp hw).2
            have h2 := (h.claimed w hmem).2
            omega
          · exact hpass w hmem k (.head _) hw
        rw [fresh_cons hwC, ← roomFrom_put ht hpick hiff hw hR hk]
        exact ih (h.put hpick.lt k) (.inr ⟨w, Finset.mem_insert_self w C⟩) (ht.put hpick) hl
          (hpass.put hk w _) hrest

/-! ## The answer -/

/-- The least stamp of the bucket. -/
def leastSeq (n : Nat) (s : Ways K) : Nat := ((List.range n).map s.seq).min?.getD 0

/-- The stamp of the first claim. -/
def firstStamp (n : Nat) (s : Ways K) : Nat := nextStamp (leastSeq n s)

/-- The ways below the first stamp. -/
def lowWays (n : Nat) (s : Ways K) : Finset Nat :=
  (Finset.range n).filter fun w => s.seq w < firstStamp n s

/-- **ENOUGH WAYS**: of the keys that come after the one that takes the last low way, no more
    need a low or a spare way than there are spare ways. -/
def EnoughWays (n : Nat) (s : Ways K) (l : List K) : Prop :=
  RoomFrom n (firstStamp n s) s (lowWays n s) ∅ l

instance (n : Nat) (s : Ways K) (l : List K) : Decidable (EnoughWays n s l) :=
  inferInstanceAs (Decidable (_ ≤ _))

omit [DecidableEq K] in
lemma leastSeq_spec (hn : 0 < n) (s : Ways K) :
    (∃ v < n, s.seq v = leastSeq n s) ∧ ∀ v < n, leastSeq n s ≤ s.seq v := by
  cases hmin : ((List.range n).map s.seq).min? with
  | none =>
    rw [min?_eq_none_iff, map_eq_nil_iff, range_eq_nil] at hmin
    omega
  | some m =>
    obtain ⟨hmem, hle⟩ := min?_eq_some_iff.mp hmin
    rw [leastSeq, hmin, Option.getD_some]
    obtain ⟨v, hv, hvm⟩ := mem_map.mp hmem
    refine ⟨⟨v, mem_range.mp hv, hvm⟩, ?_⟩
    intro u hu
    exact hle _ (mem_map.mpr ⟨u, mem_range.mpr hu, rfl⟩)

omit [DecidableEq K] in
lemma below_lowWays (hn : 0 < n) (s : Ways K) :
    Below n (firstStamp n s) (lowWays n s) ∅ s ∧ (lowWays n s).Nonempty := by
  obtain ⟨⟨v, hv, hvm⟩, hle⟩ := leastSeq_spec hn s
  have hroom : ∀ w, w ∈ lowWays n s ↔ w < n ∧ s.seq w < firstStamp n s := by
    intro w
    rw [lowWays, Finset.mem_filter, Finset.mem_range]
  have hfirst : firstStamp n s = (leastSeq n s + 2) / 2 * 2 := rfl
  refine ⟨⟨?_, ?_, ?_, hroom, fun w hw => absurd hw (Finset.notMem_empty w)⟩, v, ?_⟩
  · omega
  · omega
  · intro u hu
    have := hle u hu
    omega
  · rw [hroom]; exact ⟨hv, by omega⟩

omit [DecidableEq K] in
lemma mem_claims_of_held {k : K} (ht : Tidy n s) (hw : w < n) (hk : s.key w = some k) (hmem : k ∈ l)
    (hc : Claims n s l ws) : w ∈ ws := by
  induction hc with
  | nil s => cases hmem
  | @cons s j v q l ws hpick hrest ih =>
    by_cases hvw : v = w
    · rw [hvw]; exact (.head _)
    · have hjk : k ≠ j := by
        rintro rfl
        exact hvw (ht.unique v hpick.lt w hw k (hpick.holder w hw hk) hk)
      refine mem_cons_of_mem v (ih (ht.put hpick) ?_ ((mem_cons.mp hmem).resolve_left hjk))
      rw [Ways.put_key_of_ne s j q (Ne.symm hvw)]
      exact hk

omit [DecidableEq K] in
lemma nodup_of_claims (ht : Tidy n s) (hc : Claims n s l ws) (hws : ws.Nodup) : l.Nodup := by
  induction hc with
  | nil s => exact nodup_nil
  | @cons s k w q l ws hpick hrest ih =>
    obtain ⟨hnot, hws⟩ := nodup_cons.mp hws
    refine nodup_cons.mpr ⟨fun hmem => hnot ?_, ih (ht.put hpick) hws⟩
    exact mem_claims_of_held (ht.put hpick) hpick.lt (Ways.put_key_self s w k q) hmem hrest

/-- **DIFFERENT KEYS CLAIM DIFFERENT WAYS** if and only if no key comes twice and there are
    enough ways. -/
lemma claims_nodup_iff (hn : 0 < n) (ht : Tidy n s) (hc : Claims n s l ws) :
    ws.Nodup ↔ l.Nodup ∧ EnoughWays n s l := by
  obtain ⟨hbelow, hlow⟩ := below_lowWays hn s
  have hfresh : Fresh ∅ ws ↔ ws.Nodup := and_iff_left (fun w _ => Finset.notMem_empty w)
  have hiff : l.Nodup → (ws.Nodup ↔ EnoughWays n s l) := by
    intro hl
    rw [← hfresh]
    exact below_fresh_iff hbelow (.inl hlow) ht hl (fun v hv => absurd hv (Finset.notMem_empty v)) hc
  constructor
  · intro hws
    have hl := nodup_of_claims ht hc hws
    exact ⟨hl, (hiff hl).mp hws⟩
  · rintro ⟨hl, henough⟩; exact (hiff hl).mpr henough

end WayClaims
