import PeerCache.OrderedDictProofs

/-! # Least recently used first

    A history lists the uses of keys, the oldest first.  A list of keys is in order of use when of
    any two the later one was used after the last use of the earlier one (`UsedBefore`).  An
    ordered dictionary that moves a key to its end on every use keeps its keys in that order. -/

namespace Recency

open List

variable {K : Type}

/-- Since the last use of `a`, `b` was used. -/
def UsedBefore (uses : List K) (a b : K) : Prop :=
  ∃ before later, uses = before ++ b :: later ∧ a ∈ before ∧ a ∉ b :: later

/-- The keys are all in the history, the least recently used first. -/
structure InOrder (uses keys : List K) : Prop where
  used : ∀ k ∈ keys, k ∈ uses
  order : keys.Pairwise (UsedBefore uses)

lemma InOrder.sublist {uses keys keys' : List K} (h : InOrder uses keys)
    (hsub : keys'.Sublist keys) : InOrder uses keys' :=
  ⟨fun k hk => h.used k (hsub.subset hk), h.order.sublist hsub⟩

lemma inOrder_self {keys : List K} (h : keys.Nodup) : InOrder keys keys := by
  refine ⟨fun _ hk => hk, ?_⟩
  -- over the part of the history that is still to come
  suffices hsplit : ∀ before later : List K, (before ++ later).Nodup →
      later.Pairwise (UsedBefore (before ++ later)) from hsplit [] keys h
  intro before later
  induction later generalizing before with
  | nil => exact fun _ => List.Pairwise.nil
  | cons a later ih =>
    intro hnodup
    refine pairwise_cons.mpr ⟨?_, ?_⟩
    · intro b hb
      obtain ⟨mid, rest, rfl⟩ := append_of_mem hb
      have ha : a ∉ mid ++ b :: rest := (nodup_cons.mp (nodup_append.mp hnodup).2.1).1
      refine ⟨before ++ a :: mid, rest, by simp, by simp, ?_⟩
      exact fun hmem => ha (mem_append_right _ hmem)
    · have hnext := ih (before ++ [a]) (by rw [append_assoc]; exact hnodup)
      rw [append_assoc] at hnext
      exact hnext

variable [DecidableEq K]

lemma InOrder.use {uses keys : List K} (h : InOrder uses keys) (k : K) :
    InOrder (uses ++ [k]) (keys.filter (fun j => decide (j ≠ k)) ++ [k]) := by
  have hrest : InOrder uses (keys.filter (fun j => decide (j ≠ k))) := h.sublist filter_sublist
  have hne : ∀ j ∈ keys.filter (fun j => decide (j ≠ k)), j ≠ k := fun j hj =>
    of_decide_eq_true (mem_filter.mp hj).2
  refine ⟨?_, pairwise_append.mpr ⟨?_, pairwise_singleton _ _, ?_⟩⟩
  · intro j hj
    rcases mem_append.mp hj with hj | hj
    · exact mem_append_left _ (hrest.used j hj)
    · exact mem_append_right _ hj
  · refine hrest.order.imp_of_mem ?_
    rintro a b ha - ⟨before, later, rfl, hbefore, hlater⟩
    refine ⟨before, later ++ [k], by simp, hbefore, ?_⟩
    simpa [hne a ha] using hlater
  · intro a ha b hb
    obtain rfl := mem_singleton.mp hb
    exact ⟨uses, [], rfl, hrest.used a ha, by simpa using hne a ha⟩

lemma InOrder.moveToEnd {V : Type} {d : OrderedDict K V} {uses : List K} (h : InOrder uses d.keys)
    {k : K} (hk : k ∈ d.keys) : InOrder (uses ++ [k]) (d.moveToEnd k).keys := by
  rw [OrderedDict.moveToEnd_keys hk]
  exact h.use k

end Recency
