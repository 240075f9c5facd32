import Mathlib
import PeerCache.ByteMemoryProofs

/-! # Extents that tile an interval

    An allocator that never splits and never merges moves whole extents between
    "in use" and "free", and cuts fresh ones off the end of a growing prefix.  Its
    space accounting is therefore one statement about the LIST of all extents,
    whoever holds them: they are pairwise apart and together they are exactly
    `[0, n)`. -/

namespace Tiling

/-- A byte range `[off, off + len)`. -/
abbrev Extent : Type := Nat × Nat

/-- The address lies in the extent. -/
def Covers (e : Extent) (x : Nat) : Prop := e.1 ≤ x ∧ x < e.1 + e.2

/-- Two extents share no address. -/
def Apart (e f : Extent) : Prop := ∀ x, Covers e x → ¬ Covers f x

variable {e : Extent} {l : List Extent} {n : Nat}

lemma Apart.symm {f : Extent} (h : Apart e f) : Apart f e :=
  fun x hf he => h x he hf

/-- The extents are pairwise apart, their union is `[0, n)`, and their lengths add up
    to `n`. -/
structure Tiles (l : List Extent) (n : Nat) : Prop where
  apart : l.Pairwise Apart
  cover : ∀ x, x < n ↔ ∃ e ∈ l, Covers e x
  total : (l.map Prod.snd).sum = n

lemma tiles_nil : Tiles [] 0 where
  apart := List.Pairwise.nil
  cover := by
    intro x
    constructor
    · intro h; exact absurd h (Nat.not_lt_zero x)
    · rintro ⟨e, he, -⟩; cases he
  total := rfl

lemma Tiles.perm {l' : List Extent} (h : Tiles l n) (hp : l.Perm l') :
    Tiles l' n where
  apart := (hp.pairwise_iff (fun {_ _} hxy => hxy.symm)).mp h.apart
  cover := by
    intro x
    rw [h.cover x]
    constructor
    · rintro ⟨e, he, hx⟩; exact ⟨e, hp.mem_iff.mp he, hx⟩
    · rintro ⟨e, he, hx⟩; exact ⟨e, hp.mem_iff.mpr he, hx⟩
  total := by rw [← (hp.map Prod.snd).sum_eq]; exact h.total

lemma Tiles.push (h : Tiles l n) (len : Nat) :
    Tiles ((n, len) :: l) (n + len) where
  apart := by
    refine List.pairwise_cons.mpr ⟨?_, h.apart⟩
    intro e he x hn hx
    have hlt : x < n := (h.cover x).mpr ⟨e, he, hx⟩
    have hle : n ≤ x := hn.1
    omega
  cover := by
    intro x
    constructor
    · intro hx
      by_cases hxn : x < n
      · obtain ⟨e, he, hc⟩ := (h.cover x).mp hxn
        exact ⟨e, .tail _ he, hc⟩
      · exact ⟨(n, len), (.head _), Nat.le_of_not_lt hxn, hx⟩
    · rintro ⟨e, he, hc⟩
      rcases List.mem_cons.mp he with rfl | hm
      · exact hc.2
      · have hlt : x < n := (h.cover x).mpr ⟨e, hm, hc⟩
        omega
  total := by
    rw [List.map_cons, List.sum_cons, h.total]
    exact Nat.add_comm len n

lemma read_write_apart (m : Mem) {off : Nat} {bs : Bytes} (h : Apart e (off, bs.length)) :
    (m.write off bs).read e.1 e.2 = m.read e.1 e.2 := by
  refine Mem.read_congr ?_
  intro a h1 h2
  have hnot := h a ⟨h1, h2⟩
  refine Mem.write_apply_outside m off bs ?_
  by_cases hoff : a < off
  · exact .inl hoff
  · refine .inr (Nat.le_of_not_lt ?_)
    exact fun hlt => hnot ⟨Nat.le_of_not_lt hoff, hlt⟩

end Tiling
