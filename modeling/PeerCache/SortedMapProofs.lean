import Mathlib

/-! # Ordered maps

    A finite map kept as a list of pairs with strictly increasing keys, and the operation
    that builds it: look a key up, create it if absent, update it (`m[k]` in C++).  The keys stay
    sorted, and where every update adds one element to a bag, the bags together gain that
    element.  A map is also read by order: `before` is the entry with the greatest key not above
    a given one. -/

namespace SortedMap

open List

variable {K V A : Type} [LinearOrder K]

/-- The map with `f` applied to the value at `k`, or to nothing if there is none. -/
def alter (k : K) (f : Option V → V) : List (K × V) → List (K × V)
  | [] => [(k, f none)]
  | (j, v) :: m =>
      if k < j then (k, f none) :: (j, v) :: m
      else if k = j then (j, f (some v)) :: m
      else (j, v) :: alter k f m

/-- The keys increase strictly. -/
def Sorted (m : List (K × V)) : Prop := (m.map Prod.fst).Pairwise (· < ·)

variable {f : Option V → V} {m : List (K × V)} {p : K × V}

lemma mem_alter {k : K} (h : p ∈ alter k f m) :
    p ∈ m ∨ ∃ o, p = (k, f o) ∧ ∀ v ∈ o, (k, v) ∈ m := by
  induction m with
  | nil => exact .inr ⟨none, mem_singleton.mp h, fun v hv => by cases hv⟩
  | cons q m ih =>
    obtain ⟨j, v⟩ := q
    rw [alter] at h
    split_ifs at h with hlt heq
    · rcases mem_cons.mp h with rfl | h
      · exact .inr ⟨none, rfl, fun v hv => by cases hv⟩
      · exact .inl h
    · subst heq
      rcases mem_cons.mp h with rfl | h
      · refine .inr ⟨some v, rfl, ?_⟩
        intro w hw
        obtain rfl := Option.mem_some.mp hw
        exact (.head _)
      · exact .inl (.tail _ h)
    · rcases mem_cons.mp h with rfl | h
      · exact .inl (.head _)
      · rcases ih h with h | ⟨o, hp, ho⟩
        · exact .inl (.tail _ h)
        · exact .inr ⟨o, hp, fun w hw => .tail _ (ho w hw)⟩

lemma sorted_alter (h : Sorted m) (k : K) (f : Option V → V) : Sorted (alter k f m) := by
  induction m with
  | nil => exact pairwise_singleton _ _
  | cons q m ih =>
    obtain ⟨j, v⟩ := q
    have hj := pairwise_cons.mp h
    rw [alter]
    split_ifs with hlt heq
    · refine pairwise_cons.mpr ⟨?_, h⟩
      intro i hi
      rcases mem_cons.mp hi with rfl | hi
      · exact hlt
      · exact hlt.trans (hj.1 i hi)
    · exact h
    · refine pairwise_cons.mpr ⟨?_, ih hj.2⟩
      intro i hi
      obtain ⟨p, hp, rfl⟩ := mem_map.mp hi
      rcases mem_alter hp with hp | ⟨o, rfl, -⟩
      · exact hj.1 _ (mem_map_of_mem hp)
      · exact lt_of_le_of_ne (not_lt.mp hlt) (fun he => heq he.symm)

lemma alter_bag {bag : V → List A} {k : K} {a : A} (hnone : bag (f none) = [a])
    (hsome : ∀ v, (bag (f (some v))).Perm (a :: bag v)) (m : List (K × V)) :
    ((alter k f m).flatMap (fun p => bag p.2)).Perm (a :: m.flatMap (fun p => bag p.2)) := by
  induction m with
  | nil =>
    show (bag (f none) ++ []).Perm [a]
    rw [hnone]
    exact List.Perm.refl _
  | cons q m ih =>
    obtain ⟨j, v⟩ := q
    rw [alter]
    split_ifs with hlt heq
    · show (bag (f none) ++ _).Perm _
      rw [hnone]
      exact List.Perm.refl _
    · exact (hsome v).append_right _
    · exact (ih.append_left (bag v)).trans perm_middle

/-- `m.find(k)` -/
def get? (k : K) : List (K × V) → Option V
  | [] => none
  | p :: m => if k = p.1 then some p.2 else get? k m

/-- `m[k] = v`. -/
def set (k : K) (v : V) (m : List (K × V)) : List (K × V) := alter k (fun _ => v) m

/-- `m.erase(m.find(k))`, where there is such an entry. -/
def erase (k : K) (m : List (K × V)) : List (K × V) := m.filter (fun p => p.1 ≠ k)

/-- The entry just before `m.upper_bound(k)`, the first entry with a greater key. -/
def before (k : K) : List (K × V) → Option (K × V)
  | [] => none
  | p :: m => if k < p.1 then none else (before k m).or (some p)

lemma sorted_cons : Sorted (p :: m) ↔ (∀ q ∈ m, p.1 < q.1) ∧ Sorted m := by
  unfold Sorted
  rw [map_cons, pairwise_cons, forall_mem_map]

lemma get?_eq_some {m : List (K × V)} (h : Sorted m) {k : K} {v : V} :
    get? k m = some v ↔ (k, v) ∈ m := by
  induction m with
  | nil => exact iff_of_false (Option.some_ne_none v).symm not_mem_nil
  | cons q m ih =>
    obtain ⟨j, w⟩ := q
    obtain ⟨hj, hm⟩ := sorted_cons.mp h
    rw [get?, mem_cons, Prod.mk.injEq]
    split_ifs with hkj
    · obtain rfl : k = j := hkj
      have hnot : (k, v) ∉ m := fun hin => (hj _ hin).false
      rw [Option.some.injEq]
      exact ⟨fun hv => .inl ⟨rfl, hv.symm⟩, fun hv => (hv.resolve_right hnot).2.symm⟩
    · exact (ih hm).trans ⟨Or.inr, fun hv => hv.resolve_left (fun he => hkj he.1)⟩

lemma mem_alter_iff (h : Sorted m) {k : K} :
    p ∈ alter k f m ↔ p = (k, f (get? k m)) ∨ (p ∈ m ∧ p.1 ≠ k) := by
  induction m with
  | nil => simp [alter, get?]
  | cons q m ih =>
    obtain ⟨j, w⟩ := q
    obtain ⟨hj, hm⟩ := sorted_cons.mp h
    rw [alter, get?]
    rcases lt_trichotomy k j with hlt | rfl | hgt
    · -- `k` is below every key of the map
      have habove : ∀ q ∈ (j, w) :: m, k < q.1 :=
        forall_mem_cons.mpr ⟨hlt, fun q hq => hlt.trans (hj q hq)⟩
      have hnone : get? k m = none := by
        refine Option.eq_none_iff_forall_ne_some.mpr ?_
        intro v hv
        exact (habove (k, v) (.tail _ ((get?_eq_some hm).mp hv))).false
      rw [if_pos hlt, if_neg hlt.ne, hnone, mem_cons]
      exact or_congr_right ⟨fun hp => ⟨hp, (habove p hp).ne'⟩, And.left⟩
    · have hne : p ∈ m → p.1 ≠ k := fun hp => (hj p hp).ne'
      rw [if_neg (lt_irrefl k), if_pos rfl, if_pos rfl, mem_cons, mem_cons]
      constructor
      · rintro (hp | hp)
        · exact .inl hp
        · exact .inr ⟨.inr hp, hne hp⟩
      · rintro (hp | ⟨rfl | hp, hpk⟩)
        · exact .inl hp
        · exact absurd rfl hpk
        · exact .inr hp
    · rw [if_neg hgt.not_gt, if_neg hgt.ne', if_neg hgt.ne', mem_cons, mem_cons, ih hm]
      constructor
      · rintro (rfl | hp | ⟨hp, hpk⟩)
        · exact .inr ⟨.inl rfl, hgt.ne⟩
        · exact .inl hp
        · exact .inr ⟨.inr hp, hpk⟩
      · rintro (hp | ⟨hp | hp, hpk⟩)
        · exact .inr (.inl hp)
        · exact .inl hp
        · exact .inr (.inr ⟨hp, hpk⟩)

lemma mem_set {k : K} {v : V} (h : Sorted m) :
    p ∈ set k v m ↔ p = (k, v) ∨ (p ∈ m ∧ p.1 ≠ k) := mem_alter_iff h

lemma mem_erase {k : K} : p ∈ erase k m ↔ p ∈ m ∧ p.1 ≠ k := by
  rw [erase, mem_filter, decide_eq_true_iff]

lemma sorted_erase (h : Sorted m) (k : K) : Sorted (erase k m) :=
  h.sublist (filter_sublist.map Prod.fst)

lemma before_eq_none {k : K} (h : Sorted m) : before k m = none ↔ ∀ p ∈ m, k < p.1 := by
  cases m with
  | nil => simp [before]
  | cons q m =>
    obtain ⟨hq, -⟩ := sorted_cons.mp h
    rw [before, forall_mem_cons]
    split_ifs with hlt
    · exact iff_of_true rfl ⟨hlt, fun p hp => hlt.trans (hq p hp)⟩
    · rw [Option.or_eq_none_iff]
      exact iff_of_false (fun hnone => Option.some_ne_none _ hnone.2) (fun hall => hlt hall.1)

lemma before_eq_some {k : K} (h : Sorted m) :
    before k m = some p ↔ p ∈ m ∧ p.1 ≤ k ∧ ∀ q ∈ m, q.1 ≤ k → q.1 ≤ p.1 := by
  induction m with
  | nil => simp [before]
  | cons q m ih =>
    obtain ⟨hq, hm⟩ := sorted_cons.mp h
    rw [before]
    split_ifs with hlt
    · refine iff_of_false not_false ?_
      rintro ⟨hp, hle, -⟩
      rcases mem_cons.mp hp with rfl | hp
      · exact hle.not_gt hlt
      · exact hle.not_gt (hlt.trans (hq p hp))
    · rw [Option.or_eq_some_iff, ih hm, before_eq_none hm, Option.some.injEq, forall_mem_cons,
        mem_cons]
      constructor
      · rintro (⟨hp, hle, hmax⟩ | ⟨hall, rfl⟩)
        · exact ⟨.inr hp, hle, fun _ => (hq p hp).le, hmax⟩
        · exact ⟨.inl rfl, not_lt.mp hlt, fun _ => le_rfl, fun r hr hle => absurd (hall r hr) hle.not_gt⟩
      · rintro ⟨rfl | hp, hle, -, hmax⟩
        · refine .inr ⟨fun r hr => ?_, rfl⟩
          by_contra hnot
          exact (hmax r hr (not_lt.mp hnot)).not_gt (hq r hr)
        · exact .inl ⟨hp, hle, hmax⟩

end SortedMap
