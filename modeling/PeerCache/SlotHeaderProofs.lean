import Mathlib
import PeerCache.StructCodecProofs
import PeerCache.ByteMemoryProofs

/-! # The slot header — the one gate between a reader and a page

    A slot is `[header | payload]` (`slotmap.py`).  The header carries the key's 128-bit
    hash, the payload length and a sequence number, odd while a local write is in
    progress.  `slotMatches` is the only test a reader makes. -/

namespace PeerCacheSlot

open StructCodec Option List

/-- `key_hash128` and `bucket_hash`: digests of 16 and 8 bytes. -/
structure SlotHash where
  keyHash128 : String → Nat × Nat
  bucketHash : String → Nat
  hi_lt : ∀ k, (keyHash128 k).1 < 256 ^ 8
  lo_lt : ∀ k, (keyHash128 k).2 < 256 ^ 8

/-- `_MAGIC` -/
def magic : Nat := 0x50434B31

/-- `_HDR_VER` -/
def hdrVer : Nat := 1

/-- `HEADER_SIZE` -/
def headerSize : Nat := 64

/-- `_HDR_STRUCT = struct.Struct("<IHHQQIIQ")` -/
def hdrStruct : List Nat := [4, 2, 2, 8, 8, 4, 4, 8]

/-- `_HDR_STRUCT.size` -/
def hdrStructSize : Nat := 40

variable (H : SlotHash)

/-- The fields of a header, in order. -/
def headerFields (key : String) (payloadLen seq : Nat) : List (Nat × Nat) :=
  [(4, magic), (2, hdrVer), (2, 0), (8, (H.keyHash128 key).1), (8, (H.keyHash128 key).2),
    (4, payloadLen), (4, 0), (8, seq)]

/-- `encode_header`; `none` is the `struct.error` of a field that does not fit. -/
def encodeHeader (key : String) (payloadLen seq : Nat) : Option Bytes :=
  (pack (headerFields H key payloadLen seq)).map
    (fun body => body ++ List.replicate (headerSize - body.length) 0)

/-- `decode_header`: `(valid_magic, key_hi, key_lo, payload_len, seq)`. -/
def decodeHeader (buf : Bytes) : Option (Bool × Nat × Nat × Nat × Nat) :=
  if buf.length < hdrStructSize then none
  else
    match unpack hdrStruct (buf.take hdrStructSize) with
    | [m, ver, _flags, hi, lo, plen, _pad, seq] =>
        if m ≠ magic ∨ ver ≠ hdrVer then some (false, 0, 0, 0, 0)
        else some (true, hi, lo, plen, seq)
    | _ => none

/-- `slot_matches` -/
def slotMatches (headerBytes : Bytes) (key : String) (expectedLen : Nat) : Bool :=
  match decodeHeader headerBytes with
  | none => false
  | some (ok, hi, lo, plen, seq) =>
      if !ok then false
      else if seq % 2 = 1 then false
      else if plen ≠ expectedLen then false
      else decide ((hi, lo) = H.keyHash128 key)

/-- `slot_present` -/
def slotPresent (headerBytes : Bytes) (key : String) : Option Nat :=
  match decodeHeader headerBytes with
  | none => none
  | some (ok, hi, lo, plen, seq) =>
      if !ok then none
      else if seq % 2 = 1 then none
      else if (hi, lo) = H.keyHash128 key then some plen
      else none

variable {H}

/-! ## Encoding -/

variable {payloadLen seq n : Nat} {hdr : Bytes}

lemma encodeHeader_isSome {key : String} :
    (encodeHeader H key payloadLen seq).isSome ↔ payloadLen < 2 ^ 32 ∧ seq < 2 ^ 64 := by
  have hhi := H.hi_lt key
  have hlo := H.lo_lt key
  rw [encodeHeader, isSome_map, pack_isSome]
  simp only [headerFields, forall_mem_cons, not_mem_nil, false_imp_iff, implies_true,
    and_true]
  constructor
  · rintro ⟨-, -, -, -, -, hl, -, hs⟩; exact ⟨hl, hs⟩
  · rintro ⟨hl, hs⟩
    exact ⟨by decide, by decide, by decide, hhi, hlo, hl, by decide, hs⟩

lemma exists_encodeHeader (key : String) (hlen : payloadLen < 2 ^ 32) (hseq : seq < 2 ^ 64) :
    ∃ hdr, encodeHeader H key payloadLen seq = some hdr :=
  isSome_iff_exists.mp (encodeHeader_isSome.mpr ⟨hlen, hseq⟩)

lemma encodeHeader_eq {key : String} (h : encodeHeader H key payloadLen seq = some hdr) :
    ∃ body, pack (headerFields H key payloadLen seq) = some body ∧ body.length = hdrStructSize
      ∧ hdr = body ++ List.replicate (headerSize - hdrStructSize) 0 := by
  obtain ⟨body, hbody, rfl⟩ := map_eq_some_iff.mp h
  have hlen : body.length = hdrStructSize := length_pack hbody
  exact ⟨body, hbody, hlen, by rw [hlen]⟩

lemma length_encodeHeader {key : String} (h : encodeHeader H key payloadLen seq = some hdr) :
    hdr.length = headerSize := by
  obtain ⟨body, -, hlen, rfl⟩ := encodeHeader_eq h
  rw [length_append, hlen, length_replicate]
  rfl

/-- **ROUND TRIP** of a header. -/
lemma decodeHeader_encodeHeader {key : String} (h : encodeHeader H key payloadLen seq = some hdr) :
    decodeHeader hdr
      = some (true, (H.keyHash128 key).1, (H.keyHash128 key).2, payloadLen, seq) := by
  obtain ⟨body, hbody, hlen, rfl⟩ := encodeHeader_eq h
  have hunpack : unpack hdrStruct body
      = [magic, hdrVer, 0, (H.keyHash128 key).1, (H.keyHash128 key).2, payloadLen, 0, seq] := by
    have := unpack_pack hbody []
    rwa [append_nil] at this
  rw [decodeHeader, if_neg (by rw [length_append, hlen]; omega), take_left' hlen, hunpack]
  rfl

lemma decodeHeader_zero :
    decodeHeader (List.replicate headerSize 0) = some (false, 0, 0, 0, 0) := by
  decide

/-! ## Matching -/

lemma slotMatches_iff {key : String} : slotMatches H hdr key n = true ↔ ∃ seq, seq % 2 = 0
      ∧ decodeHeader hdr = some (true, (H.keyHash128 key).1, (H.keyHash128 key).2, n, seq) := by
  rw [slotMatches]
  cases hdec : decodeHeader hdr with
  | none => simp
  | some d =>
    obtain ⟨ok, hi, lo, plen, seq⟩ := d
    cases ok with
    | false => simp
    | true =>
      simp only [Bool.not_true, Bool.false_eq_true, if_false, some.injEq,
        Prod.mk.injEq, true_and]
      by_cases hodd : seq % 2 = 1
      · rw [if_pos hodd]
        constructor
        · intro h; cases h
        · rintro ⟨s, hs, -, -, -, rfl⟩; omega
      · rw [if_neg hodd]
        split_ifs with hlen
        · constructor
          · intro h; cases h
          · rintro ⟨s, -, -, -, h, -⟩; exact absurd h hlen
        · rw [decide_eq_true_eq, Prod.ext_iff]
          constructor
          · rintro ⟨h1, h2⟩
            exact ⟨seq, by omega, h1, h2, Decidable.not_not.mp hlen, rfl⟩
          · rintro ⟨s, -, h1, h2, -, -⟩; exact ⟨h1, h2⟩

/-- **A STAMPED HEADER** is matched by its own key hash and length, when its sequence number
    is even, and by nothing else. -/
lemma slotMatches_stamp {key k : String} (h : encodeHeader H key payloadLen seq = some hdr) :
    slotMatches H hdr k n = true
      ↔ seq % 2 = 0 ∧ H.keyHash128 k = H.keyHash128 key ∧ n = payloadLen := by
  rw [slotMatches_iff, decodeHeader_encodeHeader h]
  simp only [some.injEq, Prod.mk.injEq, true_and]
  constructor
  · rintro ⟨s, hs, h1, h2, h3, rfl⟩
    exact ⟨hs, Prod.ext h1.symm h2.symm, h3.symm⟩
  · rintro ⟨hs, hk, rfl⟩; exact ⟨seq, hs, by rw [hk], by rw [hk], rfl, rfl⟩

lemma slotMatches_zero (key : String) (n : Nat) :
    slotMatches H (List.replicate headerSize 0) key n = false := by
  rw [slotMatches, decodeHeader_zero]
  rfl

lemma slotPresent_iff {key : String} :
    slotPresent H hdr key = some n ↔ slotMatches H hdr key n = true := by
  rw [slotPresent, slotMatches]
  cases decodeHeader hdr with
  | none => simp
  | some d =>
    obtain ⟨ok, hi, lo, plen, seq⟩ := d
    cases ok with
    | false => simp
    | true =>
      by_cases hodd : seq % 2 = 1
      · simp [hodd]
      · by_cases hk : (hi, lo) = H.keyHash128 key
        · simp [hodd, hk]
        · simp [hodd, hk]

/-! ## The gate -/

/-- A header as it lies in memory, whatever stands in the two fields nobody reads. -/
def rawFields (flags hi lo payloadLen pad seq : Nat) : List (Nat × Nat) :=
  [(4, magic), (2, hdrVer), (2, flags), (8, hi), (8, lo), (4, payloadLen), (4, pad), (8, seq)]

lemma pack_of_decodeHeader {buf : Bytes} {hi lo : Nat}
    (h : decodeHeader buf = some (true, hi, lo, payloadLen, seq)) :
    ∃ flags pad, pack (rawFields flags hi lo payloadLen pad seq) = some (buf.take hdrStructSize) := by
  rw [decodeHeader] at h
  split at h
  · cases h
  · next hlong =>
      have hlen : (buf.take hdrStructSize).length = hdrStruct.sum := by
        rw [length_take]
        exact Nat.min_eq_left (Nat.not_lt.mp hlong)
      have hpack := pack_unpack hlen
      split at h
      · next m ver flags hi' lo' plen pad seq' hfields =>
          split at h
          · cases h
          · next hvalid =>
              obtain ⟨hm, hver⟩ := not_or.mp hvalid
              obtain ⟨rfl, rfl, rfl, rfl⟩ : hi' = hi ∧ lo' = lo ∧ plen = payloadLen ∧ seq' = seq := by
                simpa using h
              rw [hfields, Decidable.not_not.mp hm, Decidable.not_not.mp hver] at hpack
              exact ⟨flags, pad, hpack⟩
      · cases h

/-- **THE GATE IS EXACT**: a header is read back as it was written, and both tests accept it for the
    key it was written for, at its length and with an even sequence number, and for nothing else.
    Bytes that are no header, whatever the fields, are refused by both. -/
theorem header_gate_exact (H : SlotHash) {k q : String} (hinj : Set.InjOn H.keyHash128 {k, q})
    {payloadLen seq : Nat} (hlen : payloadLen < 2 ^ 32) (hseq : seq < 2 ^ 64) :
    (∃ hdr, encodeHeader H k payloadLen seq = some hdr
        ∧ decodeHeader hdr = some (true, (H.keyHash128 k).1, (H.keyHash128 k).2, payloadLen, seq)
        ∧ (∀ expected, slotMatches H hdr q expected = true
          ↔ k = q ∧ payloadLen = expected ∧ seq % 2 = 0)
        ∧ slotPresent H hdr q = if k = q ∧ seq % 2 = 0 then some payloadLen else none)
      ∧ ∀ buf, (∀ flags hi lo plen pad s,
          pack (rawFields flags hi lo plen pad s) ≠ some (buf.take hdrStructSize)) →
        slotPresent H buf q = none ∧ ∀ expected, slotMatches H buf q expected = false := by
  obtain ⟨hdr, henc⟩ := exists_encodeHeader (H := H) k hlen hseq
  have hmatch : ∀ expected, slotMatches H hdr q expected = true
      ↔ k = q ∧ payloadLen = expected ∧ seq % 2 = 0 := by
    intro expected
    rw [slotMatches_stamp henc]
    constructor
    · rintro ⟨heven, hkey, rfl⟩
      exact ⟨(hinj (by simp) (by simp) hkey).symm, rfl, heven⟩
    · rintro ⟨rfl, rfl, heven⟩
      exact ⟨heven, rfl, rfl⟩
  refine ⟨⟨hdr, henc, decodeHeader_encodeHeader henc, hmatch, ?_⟩, ?_⟩
  · refine Option.ext (fun n => ?_)
    rw [slotPresent_iff, hmatch]
    split
    · next h => simp [h]
    · next h =>
        refine iff_of_false ?_ (fun hnone => nomatch hnone)
        rintro ⟨hk, -, heven⟩
        exact h ⟨hk, heven⟩
  · intro buf hraw
    have hno : ∀ expected, slotMatches H buf q expected = false := by
      intro expected
      refine Bool.eq_false_iff.mpr (fun hyes => ?_)
      obtain ⟨s, -, hdec⟩ := slotMatches_iff.mp hyes
      obtain ⟨flags, pad, hpack⟩ := pack_of_decodeHeader hdec
      exact hraw flags _ _ _ pad _ hpack
    refine ⟨Option.eq_none_iff_forall_ne_some.mpr (fun n hn => ?_), hno⟩
    exact Bool.noConfusion ((hno n).symm.trans (slotPresent_iff.mp hn))

lemma zero_lt_digest (_ : String) : 0 < 256 ^ 8 := Nat.pow_pos (by decide)

/-- Digests that tell keys of odd and of even length apart. -/
def parityHash : SlotHash where
  keyHash128 key := (key.length % 2, 0)
  bucketHash _ := 0
  hi_lt key := Nat.lt_of_lt_of_le (Nat.mod_lt _ Nat.two_pos) (by decide)
  lo_lt _ := Nat.pow_pos (by decide)

theorem header_gate_exact_two_keys :
    Set.InjOn parityHash.keyHash128 {"a", "bb"} ∧ 5 < 2 ^ 32 ∧ 6 < 2 ^ 64
      ∧ ∃ hdr, encodeHeader parityHash "a" 5 6 = some hdr ∧ slotPresent parityHash hdr "bb" = none := by
  have hinj : Set.InjOn parityHash.keyHash128 {"a", "bb"} := by
    rintro k (rfl | rfl) q (rfl | rfl) h
    · rfl
    · exact absurd h (by decide)
    · exact absurd h (by decide)
    · rfl
  obtain ⟨⟨hdr, henc, -, -, hpresent⟩, -⟩ :=
    @header_gate_exact parityHash "a" "bb" hinj 5 6 (by decide) (by decide)
  exact ⟨hinj, by decide, by decide, hdr, henc, hpresent⟩

end PeerCacheSlot
