import Mathlib

/-! # First occurrences — collecting distinct elements in the order they are met

    A walk that keeps an element the first time it sees it, with or without a bound
    on how many it keeps.  The bounded walk is the unbounded one cut short
    (`collect_eq_take`), and deleting elements from the walk deletes them from the
    result and moves nothing else (`firstSeen_filter`). -/

namespace FirstSeen

open List

variable {α : Type} [DecidableEq α]

/-- Append `a` unless it is there. -/
def insertNew (acc : List α) (a : α) : List α := if a ∈ acc then acc else acc ++ [a]

/-- The elements of `l` in the order of their first occurrence, after those of `acc`. -/
def firstSeen (acc l : List α) : List α := l.foldl insertNew acc

/-- The same walk, stopped once `n` elements are kept. -/
def collect (n : Nat) : List α → List α → List α
  | acc, [] => acc
  | acc, a :: l => if acc.length < n then collect n (insertNew acc a) l else acc

variable {acc : List α}

lemma insertNew_of_mem {a : α} (h : a ∈ acc) : insertNew acc a = acc := if_pos h

lemma insertNew_of_not_mem {a : α} (h : a ∉ acc) : insertNew acc a = acc ++ [a] := if_neg h

lemma mem_insertNew {a x : α} : x ∈ insertNew acc a ↔ x ∈ acc ∨ x = a := by
  by_cases h : a ∈ acc
  · rw [insertNew_of_mem h]
    constructor
    · exact Or.inl
    · rintro (hx | rfl)
      · exact hx
      · exact h
  · rw [insertNew_of_not_mem h, mem_append, mem_singleton]

lemma prefix_insertNew (acc : List α) (a : α) : acc <+: insertNew acc a := by
  by_cases h : a ∈ acc
  · exact ⟨[], by rw [insertNew_of_mem h, append_nil]⟩
  · rw [insertNew_of_not_mem h]; exact prefix_append acc [a]

lemma length_insertNew_le (acc : List α) (a : α) : (insertNew acc a).length ≤ acc.length + 1 := by
  by_cases h : a ∈ acc
  · rw [insertNew_of_mem h]; exact Nat.le_succ _
  · rw [insertNew_of_not_mem h, length_append]; exact Nat.le_refl _

lemma nodup_insertNew (hacc : acc.Nodup) (a : α) : (insertNew acc a).Nodup := by
  by_cases h : a ∈ acc
  · rw [insertNew_of_mem h]; exact hacc
  · rw [insertNew_of_not_mem h]
    exact nodup_append'.mpr ⟨hacc, nodup_singleton a, disjoint_singleton.mpr h⟩

lemma insertNew_filter (p : α → Bool) (acc : List α) {a : α} (ha : p a = true) :
    (insertNew acc a).filter p = insertNew (acc.filter p) a := by
  by_cases h : a ∈ acc
  · rw [insertNew_of_mem h, insertNew_of_mem (mem_filter.mpr ⟨h, ha⟩)]
  · rw [insertNew_of_not_mem h, insertNew_of_not_mem (fun h' => h (mem_filter.mp h').1),
      filter_append, filter_cons_of_pos ha, filter_nil]

lemma insertNew_filter_neg (p : α → Bool) (acc : List α) {a : α} (ha : ¬ p a = true) :
    (insertNew acc a).filter p = acc.filter p := by
  by_cases h : a ∈ acc
  · rw [insertNew_of_mem h]
  · rw [insertNew_of_not_mem h, filter_append, filter_cons_of_neg ha, filter_nil,
      append_nil]

variable {l : List α}

lemma mem_firstSeen {x : α} : x ∈ firstSeen acc l ↔ x ∈ acc ∨ x ∈ l := by
  induction l generalizing acc with
  | nil => simp [firstSeen]
  | cons a l ih =>
    show x ∈ firstSeen (insertNew acc a) l ↔ _
    rw [ih, mem_insertNew, mem_cons, or_assoc]

lemma nodup_firstSeen (hacc : acc.Nodup) (l : List α) : (firstSeen acc l).Nodup := by
  induction l generalizing acc with
  | nil => exact hacc
  | cons a l ih => exact ih (nodup_insertNew hacc a)

lemma prefix_firstSeen (acc l : List α) : acc <+: firstSeen acc l := by
  induction l generalizing acc with
  | nil => exact prefix_refl acc
  | cons a l ih => exact (prefix_insertNew acc a).trans (ih (insertNew acc a))

lemma firstSeen_append_singleton {a : α} (h : a ∈ acc ∨ a ∈ l) :
    firstSeen acc (l ++ [a]) = firstSeen acc l := by
  show (l ++ [a]).foldl insertNew acc = _
  rw [foldl_append]
  exact insertNew_of_mem (mem_firstSeen.mpr h)

lemma head?_firstSeen (l : List α) : (firstSeen [] l).head? = l.head? := by
  cases l with
  | nil => rfl
  | cons a l =>
    show (firstSeen (insertNew [] a) l).head? = some a
    obtain ⟨t, ht⟩ := prefix_firstSeen (insertNew [] a) l
    rw [← ht, insertNew_of_not_mem not_mem_nil]
    rfl

/-- **DELETION COMMUTES WITH THE WALK.** -/
lemma firstSeen_filter (p : α → Bool) (acc l : List α) :
    (firstSeen acc l).filter p = firstSeen (acc.filter p) (l.filter p) := by
  induction l generalizing acc with
  | nil => rfl
  | cons a l ih =>
    show (firstSeen (insertNew acc a) l).filter p = _
    rw [ih]
    by_cases ha : p a = true
    · rw [insertNew_filter p acc ha, filter_cons_of_pos ha]; rfl
    · rw [insertNew_filter_neg p acc ha, filter_cons_of_neg ha]

/-- **THE BOUND ONLY CUTS.** -/
lemma collect_eq_take {n : Nat} (hacc : acc.length ≤ n) (l : List α) :
    collect n acc l = (firstSeen acc l).take n := by
  induction l generalizing acc with
  | nil => exact (take_of_length_le hacc).symm
  | cons a l ih =>
    rw [collect]
    by_cases hlt : acc.length < n
    · rw [if_pos hlt]; exact ih (Nat.le_trans (length_insertNew_le acc a) hlt)
    · -- the walk stops here; what it would still add lies past the cut
      rw [if_neg hlt]
      obtain ⟨t, ht⟩ := prefix_firstSeen acc (a :: l)
      have hn : n = acc.length := Nat.le_antisymm (Nat.not_lt.mp hlt) hacc
      rw [← ht, hn, take_left]

end FirstSeen
