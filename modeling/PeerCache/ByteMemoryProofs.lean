import Mathlib

/-! # Byte memory

    A flat memory is a byte at every address.  `read` takes a run of bytes out,
    `write` puts a run of bytes in.  The facts below are the frame rules of the
    two: a read of what was just written, and a read that a write cannot reach. -/

/-- A run of bytes. -/
abbrev Bytes : Type := List UInt8

/-- A memory: one byte per address. -/
def Mem : Type := Nat → UInt8

namespace Mem

open List

/-- The `n` bytes starting at `off`. -/
def read (m : Mem) (off n : Nat) : Bytes := (List.range n).map (fun i => m (off + i))

/-- The memory with the bytes `bs` put in from `off` on. -/
def write (m : Mem) (off : Nat) (bs : Bytes) : Mem :=
  fun a => if off ≤ a then (bs[a - off]?).getD (m a) else m a

@[simp] lemma length_read (m : Mem) (off n : Nat) : (m.read off n).length = n := by
  simp [read]

lemma getElem?_read (m : Mem) (off n i : Nat) :
    (m.read off n)[i]? = if i < n then some (m (off + i)) else none := by
  split_ifs with hi
  · simp [read, hi]
  · simp [read, hi]

lemma read_const (b : UInt8) (off n : Nat) : read (fun _ => b) off n = List.replicate n b :=
  map_const.trans (by rw [length_range])

lemma write_apply_outside (m : Mem) (off : Nat) (bs : Bytes) {a : Nat}
    (h : a < off ∨ off + bs.length ≤ a) : (m.write off bs) a = m a := by
  unfold write
  by_cases ha : off ≤ a
  · rw [if_pos ha, getElem?_eq_none (by omega), Option.getD_none]
  · rw [if_neg ha]

variable {i off n : Nat} {bs : Bytes}

lemma write_apply_inside (m : Mem) (off : Nat) (bs : Bytes) (h : i < bs.length) :
    (m.write off bs) (off + i) = bs[i] := by
  unfold write
  rw [if_pos (by omega), Nat.add_sub_cancel_left, getElem?_eq_getElem h, Option.getD_some]

lemma read_write_same (m : Mem) (off : Nat) (bs : Bytes) :
    (m.write off bs).read off bs.length = bs := by
  refine ext_getElem? ?_
  intro i
  rw [getElem?_read]
  split_ifs with hi
  · rw [write_apply_inside m off bs hi, getElem?_eq_getElem hi]
  · rw [getElem?_eq_none (by omega)]

lemma read_congr {m m' : Mem} (h : ∀ a, off ≤ a → a < off + n → m a = m' a) :
    m.read off n = m'.read off n := by
  refine map_congr_left ?_
  intro i hi
  exact h (off + i) (by omega) (by have := mem_range.mp hi; omega)

/-- No address is in both ranges. -/
def Apart (off n off' n' : Nat) : Prop :=
  ∀ a, off ≤ a → a < off + n → ¬ (off' ≤ a ∧ a < off' + n')

variable {off' : Nat} {ws : List (Nat × Bytes)}

/-- **FRAME RULE**: a write leaves every range apart from it alone. -/
lemma read_write_apart (m : Mem) (h : Apart off n off' bs.length) :
    (m.write off' bs).read off n = m.read off n := by
  refine read_congr ?_
  intro a h1 h2
  have hnot := h a h1 h2
  exact write_apply_outside m off' bs (by omega)

lemma read_write_disjoint (m : Mem) (h : off' + n ≤ off ∨ off + bs.length ≤ off') :
    (m.write off bs).read off' n = m.read off' n :=
  read_write_apart m (fun a h1 h2 => by omega)

/-- The memory after a list of writes. -/
def writes (m : Mem) (ws : List (Nat × Bytes)) : Mem := ws.foldl (fun m w => m.write w.1 w.2) m

lemma read_writes_apart (m : Mem) (h : ∀ w ∈ ws, Apart off n w.1 w.2.length) :
    (m.writes ws).read off n = m.read off n := by
  induction ws generalizing m with
  | nil => rfl
  | cons w ws ih =>
    obtain ⟨hw, hws⟩ := forall_mem_cons.mp h
    exact (ih (m.write w.1 w.2) hws).trans (read_write_apart m hw)

lemma read_writes (m : Mem) (hmem : (off, bs) ∈ ws)
    (h : ∀ w ∈ ws, w = (off, bs) ∨ Apart off bs.length w.1 w.2.length) :
    (m.writes ws).read off bs.length = bs := by
  -- from the last write backwards: it is the one, or the one is among those before it
  induction ws using List.reverseRecOn with
  | nil => cases hmem
  | append_singleton ws w ih =>
    have hlast : m.writes (ws ++ [w]) = (m.writes ws).write w.1 w.2 := foldl_append
    rw [hlast]
    by_cases hw : w = (off, bs)
    · rw [hw]; exact read_write_same _ off bs
    · have hbefore : (off, bs) ∈ ws :=
        (mem_append.mp hmem).resolve_right (fun hin => hw (mem_singleton.mp hin).symm)
      have hapart := (h w (mem_append_right _ (.head _))).resolve_left hw
      rw [read_write_apart _ hapart]
      exact ih hbefore (fun w hin => h w (mem_append_left _ hin))

lemma read_add (m : Mem) (off a b : Nat) :
    m.read off (a + b) = m.read off a ++ m.read (off + a) b := by
  unfold read
  rw [range_add, map_append, map_map]
  simp only [Function.comp_def, Nat.add_assoc]

lemma take_drop_read (m : Mem) {k : Nat} (h : i + k ≤ n) :
    ((m.read off n).drop i).take k = m.read (off + i) k := by
  obtain ⟨r, rfl⟩ : ∃ r, n = i + (k + r) := ⟨n - i - k, by omega⟩
  rw [read_add, read_add]
  rw [drop_append_of_le_length (by simp), drop_of_length_le (by simp),
    nil_append, take_append_of_le_length (by simp),
    take_of_length_le (by simp)]

lemma read_write_inside (m : Mem) (h : i + bs.length ≤ n) : (m.write (off + i) bs).read off n
      = (m.read off n).take i ++ bs ++ (m.read off n).drop (i + bs.length) := by
  obtain ⟨r, rfl⟩ : ∃ r, n = i + (bs.length + r) := ⟨n - i - bs.length, by omega⟩
  have hdrop : (m.read off (i + (bs.length + r))).drop (i + bs.length)
      = m.read (off + i + bs.length) r := by
    rw [← Nat.add_assoc, read_add, drop_left' (length_read _ _ _), Nat.add_assoc]
  rw [hdrop, read_add, read_add, read_write_disjoint m (.inl (Nat.le_refl _)), read_write_same,
    read_write_disjoint m (.inr (Nat.le_refl _)), read_add m off,
    take_left' (length_read _ _ _), append_assoc]

lemma write_append (m : Mem) (off : Nat) (xs ys : Bytes) :
    m.write off (xs ++ ys) = (m.write off xs).write (off + xs.length) ys := by
  funext a
  by_cases h1 : a < off
  · rw [write_apply_outside m off _ (.inl h1), write_apply_outside _ _ ys (.inl (by omega)),
      write_apply_outside m off xs (.inl h1)]
  · obtain ⟨i, rfl⟩ : ∃ i, a = off + i := ⟨a - off, by omega⟩
    by_cases h2 : i < xs.length
    · rw [write_apply_inside m off (xs ++ ys) (by rw [length_append]; omega),
        write_apply_outside _ _ ys (.inl (by omega)), write_apply_inside m off xs h2,
        getElem_append_left h2]
    · by_cases h3 : i < (xs ++ ys).length
      · have hi : off + i = (off + xs.length) + (i - xs.length) := by omega
        have hlt : i - xs.length < ys.length := by
          rw [length_append] at h3; omega
        rw [write_apply_inside m off (xs ++ ys) h3, getElem_append_right (by omega), hi,
          write_apply_inside _ _ ys hlt]
      · have hlen : (xs ++ ys).length = xs.length + ys.length := length_append
        rw [write_apply_outside m off _ (.inr (by omega)),
          write_apply_outside _ _ ys (.inr (by omega)),
          write_apply_outside m off xs (.inr (by omega))]

end Mem
