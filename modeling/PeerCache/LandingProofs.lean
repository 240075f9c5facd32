import Mathlib

/-! # Operations that take effect in any order their lanes allow

    A batch of numbered operations is spread over lanes.  A lane is a queue: its operations
    take effect in the order of the batch.  Between lanes nothing is promised, so a batch
    may take effect in any shuffle of its lanes. -/

namespace Landing

open List

variable {α β : Type} {lane : Nat → β} {n : Nat} {order : List Nat} {ops : List α}

/-- `order` lists the numbers of `n` operations as they take effect, each lane in its order. -/
structure Lands (lane : Nat → β) (n : Nat) (order : List Nat) : Prop where
  perm : order.Perm (range n)
  inLane : order.Pairwise fun i j => lane i = lane j → i < j

instance [DecidableEq β] : Decidable (Lands lane n order) :=
  decidable_of_iff (order.Perm (range n) ∧ order.Pairwise fun i j => lane i = lane j → i < j)
    ⟨fun h => ⟨h.1, h.2⟩, fun h => ⟨h.perm, h.inLane⟩⟩

/-- The operations, as they take effect. -/
def landed (ops : List α) (order : List Nat) : List α := order.filterMap (ops[·]?)

lemma mem_of_landed {x : α} (h : x ∈ landed ops order) : x ∈ ops := by
  obtain ⟨i, -, hi⟩ := mem_filterMap.mp h
  exact mem_of_getElem? hi

@[simp] lemma landed_range (ops : List α) : landed ops (range ops.length) = ops := by
  rw [landed]
  induction ops using List.reverseRecOn with
  | nil => rfl
  | append_singleton ops x ih =>
    have hold : (range ops.length).filterMap (fun i => (ops ++ [x])[i]?)
        = (range ops.length).filterMap (ops[·]?) := by
      refine filterMap_congr ?_
      intro i hi
      exact getElem?_append_left (mem_range.mp hi)
    rw [length_append, length_singleton, range_succ, filterMap_append, hold, ih]
    simp

lemma perm_landed (h : order.Perm (range ops.length)) : (landed ops order).Perm ops := by
  have hperm := h.filterMap (ops[·]?)
  rwa [show (range ops.length).filterMap (ops[·]?) = ops from landed_range ops] at hperm

lemma Lands.mem_landed (h : Lands lane ops.length order) {x : α} : x ∈ landed ops order ↔ x ∈ ops :=
  (perm_landed h.perm).mem_iff

/-- **THE OPERATIONS OF ONE LANE** take effect in the order of the batch. -/
lemma Lands.filter_landed (h : Lands lane ops.length order) (P : α → Bool)
    (hlane : ∀ i j x y, ops[i]? = some x → ops[j]? = some y → P x = true → P y = true →
      lane i = lane j) : (landed ops order).filter P = ops.filter P := by
  -- the numbers of these operations, sorted on both sides
  let Q : Nat → Bool := fun i => (ops[i]?).any P
  have hfilter : ∀ order : List Nat, (landed ops order).filter P
      = (order.filter Q).filterMap (ops[·]?) := by
    intro order
    rw [landed, filter_filterMap, filterMap_filter]
    refine filterMap_congr ?_
    intro i _
    cases hi : ops[i]? with
    | none => simp [Q, hi]
    | some x =>
      cases hx : P x with
      | false => simp [Q, hi, hx, Option.filter]
      | true => simp [Q, hi, hx, Option.filter]
  have hsorted : (order.filter Q).Pairwise (· < ·) := by
    refine pairwise_filter.mpr (h.inLane.imp ?_)
    intro i j hij hi hj
    obtain ⟨x, hx, hPx⟩ := (Option.any_eq_true _ _).mp hi
    obtain ⟨y, hy, hPy⟩ := (Option.any_eq_true _ _).mp hj
    exact hij (hlane i j x y hx hy hPx hPy)
  have hnumbers : order.filter Q = (range ops.length).filter Q :=
    Perm.eq_of_pairwise' hsorted (pairwise_lt_range.filter Q) (h.perm.filter Q)
  rw [hfilter, hnumbers, ← hfilter, landed_range]

end Landing
