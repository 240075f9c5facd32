import PeerCache.TransitionProofs

/-! # Places handed out along a batch

    A batch takes its items in turn.  The turn of an item may answer with the place that its key has
    right then, and may take the places of other keys away.  The answers are read when the batch is
    over, and each is right if it fits the place that its key has by then. -/

namespace HandOut

open Transition List

/-- A batch of items `Q`, over states `S` that know the keys `K` handled so far. -/
structure Batch (S Q K V : Type) where
  turn : S → Q → S
  /-- The key an item is for; an item that is refused has none. -/
  key : Q → Option K
  handled : S → List K
  /-- The place of a key. -/
  held : S → K → Option V
  /-- The answer of an item's turn is right if its key has this place. -/
  Right : S → Q → Option V → Prop
  Spares : S → Q → Prop
  Ok : S → Prop
  handled_turn : ∀ s q, handled (turn s q) = (key q).toList ++ handled s
  held_turn : ∀ {s q k v}, held (turn s q) k = some v → held s k = some v ∨ key q = some k
  ok_turn : ∀ {s}, Ok s → ∀ q, Ok (turn s q)
  keeps : ∀ {s q k v}, Ok s → Spares s q → k ∈ handled s → held s k = some v →
    held (turn s q) k = some v
  right : ∀ {s q k}, Spares s q → key q = some k → Right s q (held (turn s q) k)
  /-- Without an answer there is nothing to be right about. -/
  unanswered : ∀ {s q}, Right s q none → ∀ v, Right s q v
  answered : ∀ {s q k v}, key q = some k → held (turn s q) k = some v → ¬ Right s q none
  /-- An item that does not spare takes a place away, or has a wrong answer at once. -/
  breaks : ∀ {s q}, ¬ Spares s q →
    (∃ k v, k ∈ handled s ∧ held s k = some v ∧ held (turn s q) k = none)
      ∨ ∃ k v, key q = some k ∧ held (turn s q) k = some v ∧ ¬ Right s q (some v)

namespace Batch

variable {S Q K V : Type} (b : Batch S Q K V)

/-- The state after a batch. -/
def after (s : S) (qs : List Q) : S := qs.foldl b.turn s

/-- Every item spares those before it. -/
abbrev AllSpare (s : S) (qs : List Q) : Prop := Guarded (fun s q => some (b.turn s q)) b.Spares s qs

/-- Every answer is right for the places of the last state. -/
def AllRight (last : S) : S → List Q → Prop
  | _, [] => True
  | s, q :: qs => (∀ k, b.key q = some k → b.Right s q (b.held last k))
      ∧ AllRight last (b.turn s q) qs

variable {b} {s : S} {qs : List Q}

lemma held_stays (hok : b.Ok s) (h : b.AllSpare s qs) {k : K} {v : V} (hk : k ∈ b.handled s)
    (hv : b.held s k = some v) : b.held (b.after s qs) k = some v := by
  refine (foldl_invariant (P := fun s => b.Ok s ∧ k ∈ b.handled s ∧ b.held s k = some v) ?_
    ⟨hok, hk, hv⟩ h).2.2
  rintro s q - ⟨hok, hk, hv⟩ hspare
  refine ⟨b.ok_turn hok q, ?_, b.keeps hok hspare hk hv⟩
  rw [b.handled_turn]
  exact mem_append_right _ hk

lemma held_before {k : K} {v : V} (hk : k ∉ qs.filterMap b.key)
    (hv : b.held (b.after s qs) k = some v) : b.held s k = some v := by
  induction qs generalizing s with
  | nil => exact hv
  | cons q qs ih =>
    have hne : b.key q ≠ some k := by
      intro hq
      exact hk (mem_filterMap.mpr ⟨q, (.head _), hq⟩)
    have hrest : k ∉ qs.filterMap b.key := by
      intro hmem
      obtain ⟨r, hr, hkey⟩ := mem_filterMap.mp hmem
      exact hk (mem_filterMap.mpr ⟨r, mem_cons_of_mem q hr, hkey⟩)
    exact (b.held_turn (ih hrest hv)).resolve_right hne

/-- **SUFFICIENCY**: where every item spares those before it, all answers are right. -/
lemma right_of_spares (hok : b.Ok s) (h : b.AllSpare s qs) : b.AllRight (b.after s qs) s qs := by
  induction qs generalizing s with
  | nil => exact trivial
  | cons q qs ih =>
    have hok' := b.ok_turn hok q
    have hrest : b.AllSpare (b.turn s q) qs := h.2 _ rfl
    refine ⟨?_, ih hok' hrest⟩
    intro k hk
    have hnow := b.right h.1 hk
    cases hv : b.held (b.turn s q) k with
    | none =>
      rw [hv] at hnow
      exact b.unanswered hnow _
    | some v =>
      -- the key is handled now, so its place stays to the end
      have hmem : k ∈ b.handled (b.turn s q) := by
        rw [b.handled_turn, hk]
        exact (.head _)
      have hlast : b.held (b.after s (q :: qs)) k = some v := held_stays hok' hrest hmem hv
      rw [hlast, ← hv]
      exact hnow

lemma spares_head {q : Q} (hnew : ∀ k ∈ b.handled s, k ∉ qs.filterMap b.key)
    (hown : ∀ k, b.key q = some k → k ∉ qs.filterMap b.key)
    (hstay : ∀ k ∈ b.handled s, ∀ v, b.held s k = some v → b.held (b.after s (q :: qs)) k ≠ none)
    (hright : ∀ k, b.key q = some k → b.Right s q (b.held (b.after s (q :: qs)) k)) :
    b.Spares s q := by
  by_contra hcost
  rcases b.breaks hcost with ⟨k, v, hk, hv, hgone⟩ | ⟨k, v, hk, hv, hwrong⟩
  · obtain ⟨w, hw⟩ := Option.ne_none_iff_exists'.mp (hstay k hk v hv)
    cases hgone.symm.trans (held_before (hnew k hk) hw)
  · have hlast := hright k hk
    cases hw : b.held (b.after s (q :: qs)) k with
    | none =>
      rw [hw] at hlast
      exact hwrong (b.unanswered hlast _)
    | some w =>
      rw [hw, ← held_before (hown k hk) hw, hv] at hlast
      exact hwrong hlast

/-- **NECESSITY**: where no key comes twice and no place handed out before is gone at the end, the
    answers are right only if every item spares those before it. -/
lemma spares_of_right (hnodup : (qs.filterMap b.key).Nodup)
    (hnew : ∀ k ∈ b.handled s, k ∉ qs.filterMap b.key)
    (hstay : ∀ k ∈ b.handled s, ∀ v, b.held s k = some v → b.held (b.after s qs) k ≠ none)
    (h : b.AllRight (b.after s qs) s qs) : b.AllSpare s qs := by
  induction qs generalizing s with
  | nil => exact trivial
  | cons q qs ih =>
    have hsub : (qs.filterMap b.key).Sublist ((q :: qs).filterMap b.key) :=
      (sublist_cons_self q qs).filterMap b.key
    have hown : ∀ k, b.key q = some k → k ∉ qs.filterMap b.key := by
      intro k hk
      rw [filterMap_cons_some hk] at hnodup
      exact (nodup_cons.mp hnodup).1
    refine ⟨spares_head (fun k hk hmem => hnew k hk (hsub.subset hmem)) hown hstay h.1, ?_⟩
    intro t ht
    cases ht
    refine ih (hnodup.sublist hsub) ?_ ?_ h.2
    · intro k hk
      rw [b.handled_turn] at hk
      rcases mem_append.mp hk with hk | hk
      · exact hown k (Option.mem_toList.mp hk)
      · exact fun hmem => hnew k hk (hsub.subset hmem)
    · intro k hk v hv
      rw [b.handled_turn] at hk
      rcases mem_append.mp hk with hk | hk
      · -- its own answer is right, so the place is there
        have hkey := Option.mem_toList.mp hk
        intro hgone
        have hlast : b.Right s q (b.held (b.after s (q :: qs)) k) := h.1 k hkey
        have hnone : b.held (b.after s (q :: qs)) k = none := hgone
        rw [hnone] at hlast
        exact b.answered hkey hv hlast
      · refine hstay k hk v ?_
        refine (b.held_turn hv).resolve_right ?_
        intro hkey
        exact hnew k hk (mem_filterMap.mpr ⟨q, (.head _), hkey⟩)

end Batch

end HandOut
