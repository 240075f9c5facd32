import Mathlib

/-! # Packed little-endian records

    A record is a list of fields, each with its width in bytes.  `pack` refuses a value that
    does not fit its width; `unpack` reads the widths back.  What was packed is unpacked
    unchanged, whatever follows it in the buffer (`unpack_pack`), and what was unpacked packs into the
    same bytes (`pack_unpack`).  Network byte order is the same bytes the other way round
    (`toBE`, `ofBE`). -/

namespace StructCodec

open List

/-- `n` in `w` bytes, least significant first. -/
def toLE : Nat → Nat → List UInt8
  | 0, _ => []
  | w + 1, n => UInt8.ofNat (n % 256) :: toLE w (n / 256)

/-- The number whose little-endian bytes these are. -/
def ofLE : List UInt8 → Nat
  | [] => 0
  | b :: bs => b.toNat + 256 * ofLE bs

/-- The bytes of a list of `(width, value)` fields, if every value fits. -/
def pack : List (Nat × Nat) → Option (List UInt8)
  | [] => some []
  | (w, n) :: fields => if n < 256 ^ w then (pack fields).map (toLE w n ++ ·) else none

/-- The values of fields of these widths at the front of a buffer. -/
def unpack : List Nat → List UInt8 → List Nat
  | [], _ => []
  | w :: ws, bs => ofLE (bs.take w) :: unpack ws (bs.drop w)

@[simp] lemma length_toLE (w n : Nat) : (toLE w n).length = w := by
  induction w generalizing n with
  | zero => rfl
  | succ w ih => rw [toLE, length_cons, ih]

variable {w n : Nat} {fields : List (Nat × Nat)} {bs : List UInt8}

lemma ofLE_toLE (h : n < 256 ^ w) : ofLE (toLE w n) = n := by
  induction w generalizing n with
  | zero =>
    rw [Nat.pow_zero, Nat.lt_one_iff] at h
    exact h.symm
  | succ w ih =>
    have hdiv : n / 256 < 256 ^ w := Nat.div_lt_of_lt_mul (by rwa [Nat.pow_succ, Nat.mul_comm] at h)
    rw [toLE, ofLE, ih hdiv, UInt8.toNat_ofNat_of_lt' (Nat.mod_lt n (by decide))]
    exact Nat.mod_add_div n 256

private lemma pack_cons (h : pack ((w, n) :: fields) = some bs) :
    n < 256 ^ w ∧ ∃ rest, pack fields = some rest ∧ bs = toLE w n ++ rest := by
  rw [pack] at h
  by_cases hn : n < 256 ^ w
  · rw [if_pos hn] at h
    obtain ⟨rest, hrest, rfl⟩ := Option.map_eq_some_iff.mp h
    exact ⟨hn, rest, hrest, rfl⟩
  · rw [if_neg hn] at h; cases h

lemma pack_isSome : (pack fields).isSome ↔ ∀ f ∈ fields, f.2 < 256 ^ f.1 := by
  induction fields with
  | nil => simp [pack]
  | cons f fields ih =>
    obtain ⟨w, n⟩ := f
    rw [pack, forall_mem_cons, ← ih]
    split_ifs with hn
    · rw [Option.isSome_map, and_iff_right hn]
    · constructor
      · intro h; cases h
      · rintro ⟨h, -⟩; exact absurd h hn

lemma length_pack (h : pack fields = some bs) : bs.length = (fields.map Prod.fst).sum := by
  induction fields generalizing bs with
  | nil =>
    cases h
    rfl
  | cons f fields ih =>
    obtain ⟨w, n⟩ := f
    obtain ⟨-, rest, hrest, rfl⟩ := pack_cons h
    rw [length_append, length_toLE, ih hrest, map_cons, sum_cons]

/-- **ROUND TRIP.** -/
lemma unpack_pack (h : pack fields = some bs) (tail : List UInt8) :
    unpack (fields.map Prod.fst) (bs ++ tail) = fields.map Prod.snd := by
  induction fields generalizing bs with
  | nil => rfl
  | cons f fields ih =>
    obtain ⟨w, n⟩ := f
    obtain ⟨hn, rest, hrest, rfl⟩ := pack_cons h
    rw [map_cons, map_cons, unpack, append_assoc,
      take_left' (length_toLE w n), drop_left' (length_toLE w n), ofLE_toLE hn,
      ih hrest]

lemma toLE_ofLE (bs : List UInt8) : toLE bs.length (ofLE bs) = bs := by
  induction bs with
  | nil => rfl
  | cons b bs ih =>
    have hb := b.toNat_lt
    have hmod : (b.toNat + 256 * ofLE bs) % 256 = b.toNat := by omega
    have hdiv : (b.toNat + 256 * ofLE bs) / 256 = ofLE bs := by omega
    rw [length_cons, toLE, ofLE, hmod, hdiv, ih, UInt8.ofNat_toNat]

lemma ofLE_lt (bs : List UInt8) : ofLE bs < 256 ^ bs.length := by
  induction bs with
  | nil => exact Nat.one_pos
  | cons b bs ih =>
    have hb := b.toNat_lt
    rw [ofLE, length_cons, Nat.pow_succ]
    omega

/-- **THE OTHER WAY ROUND**: every buffer of the right size is the record that is read from it. -/
lemma pack_unpack {ws : List Nat} (h : bs.length = ws.sum) :
    pack (ws.zip (unpack ws bs)) = some bs := by
  induction ws generalizing bs with
  | nil =>
    obtain rfl := length_eq_zero_iff.mp h
    rfl
  | cons w ws ih =>
    rw [sum_cons] at h
    have hw : (bs.take w).length = w := by
      rw [length_take]
      omega
    have hlt := ofLE_lt (bs.take w)
    have hle := toLE_ofLE (bs.take w)
    rw [hw] at hlt hle
    rw [unpack, zip_cons_cons, pack, if_pos hlt, ih (by rw [length_drop]; omega), hle,
      Option.map_some, take_append_drop]

/-- `n` in `w` bytes, most significant first. -/
def toBE (w n : Nat) : List UInt8 := (toLE w n).reverse

def ofBE (bs : List UInt8) : Nat := ofLE bs.reverse

@[simp] lemma length_toBE (w n : Nat) : (toBE w n).length = w := by
  rw [toBE, length_reverse, length_toLE]

lemma ofBE_toBE (h : n < 256 ^ w) : ofBE (toBE w n) = n := by
  rw [ofBE, toBE, reverse_reverse, ofLE_toLE h]

end StructCodec
