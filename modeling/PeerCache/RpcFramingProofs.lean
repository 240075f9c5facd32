import PeerCache.RpcProofs

/-! # Frames on a stream that may end anywhere

    `_recv_frame` reads four bytes and then as many as they say, each with `_recv_exact`.  `recv`
    splits the stream as it likes, and the stream may end inside a header, between a header and
    its body, or inside a body.  Whatever it does, the reader returns the payloads whose frames
    have arrived whole, and `None` from then on.  An empty payload is a frame of four bytes and is
    not taken for the end. -/

namespace PeerCacheRpc

open ByteStream StructCodec List

/-- What `_send_frame` has sent after these payloads; `none` when `struct.pack` raised. -/
def sendFrames : List (List UInt8) → Option (List UInt8)
  | [] => some []
  | payload :: payloads => (frame payload).bind (fun f => (sendFrames payloads).map (f ++ ·))

section Receive

variable (sizes : Nat → Nat)

/-- `_recv_frame` -/
def recvFrame (s : Sock UInt8) : Option (List UInt8) × Sock UInt8 :=
  match s.recvExact sizes 4 with
  | (none, s) => (none, s)
  | (some header, s) => s.recvExact sizes (ofBE header)

/-- What successive calls of `_recv_frame` return. -/
def recvFrames : Nat → Sock UInt8 → List (Option (List UInt8))
  | 0, _ => []
  | m + 1, s => (recvFrame sizes s).1 :: recvFrames m (recvFrame sizes s).2

end Receive

/-- The position at which the frame of payload `i` ends. -/
def frameEnd (payloads : List (List UInt8)) (i : Nat) : Nat :=
  ((payloads.take (i + 1)).map (fun p => 4 + p.length)).sum

section Receive

variable (sizes : Nat → Nat) {s : Sock UInt8} {payload f later : List UInt8}

lemma recvFrame_header {header : List UInt8} (hrest : s.rest = header ++ later)
    (hlen : header.length = 4) :
    (recvFrame sizes s).1 = (if ofBE header ≤ later.length then some (later.take (ofBE header)) else none)
      ∧ (recvFrame sizes s).2.rest = later.drop (ofBE header) := by
  have h1 := s.recvExact_fst sizes 4
  have h2 := s.recvExact_rest sizes 4
  rw [hrest, if_pos (by rw [length_append]; omega), take_left' hlen] at h1
  rw [hrest, drop_left' hlen] at h2
  rw [recvFrame]
  generalize s.recvExact sizes 4 = r at h1 h2 ⊢
  obtain ⟨o, s'⟩ := r
  obtain rfl : o = some header := h1
  have hlater : s'.rest = later := h2
  rw [← hlater]
  exact ⟨s'.recvExact_fst sizes _, s'.recvExact_rest sizes _⟩

lemma recvFrame_whole (hf : frame payload = some f) (hrest : s.rest = f ++ later) :
    (recvFrame sizes s).1 = some payload ∧ (recvFrame sizes s).2.rest = later := by
  obtain ⟨hlen, rfl⟩ := frame_eq hf
  rw [append_assoc] at hrest
  have h := recvFrame_header sizes hrest (length_toBE 4 _)
  rwa [ofBE_toBE hlen, if_pos (by rw [length_append]; omega), take_left, drop_left] at h

variable {cut : Nat}

lemma recvFrame_cut (hf : frame payload = some f) (hcut : cut < f.length)
    (hrest : s.rest = f.take cut) :
    (recvFrame sizes s).1 = none ∧ (recvFrame sizes s).2.rest = [] := by
  obtain ⟨hlen, rfl⟩ := frame_eq hf
  rw [length_append, length_toBE] at hcut
  by_cases hheader : cut < 4
  · have hshort : s.rest.length < 4 := by rw [hrest, length_take]; omega
    have h1 := s.recvExact_fst sizes 4
    have h2 := s.recvExact_rest sizes 4
    rw [if_neg (by omega)] at h1
    rw [drop_of_length_le (by omega)] at h2
    rw [recvFrame]
    generalize s.recvExact sizes 4 = r at h1 h2 ⊢
    obtain ⟨o, s'⟩ := r
    obtain rfl : o = none := h1
    exact ⟨rfl, h2⟩
  · rw [take_append, take_of_length_le (by rw [length_toBE]; omega), length_toBE] at hrest
    have h := recvFrame_header sizes hrest (length_toBE 4 _)
    have hbody : (payload.take (cut - 4)).length < payload.length := by rw [length_take]; omega
    rwa [ofBE_toBE hlen, if_neg (by omega), drop_of_length_le (by omega)] at h

lemma recvFrames_end (m : Nat) (hrest : s.rest = []) :
    recvFrames sizes m s = List.replicate m none := by
  induction m generalizing s with
  | zero => rfl
  | succ m ih =>
    have hf : frame [] = some [0, 0, 0, 0] := rfl
    obtain ⟨hnone, hrest'⟩ := recvFrame_cut sizes hf (Nat.succ_pos 3) hrest
    rw [recvFrames, hnone, ih hrest', replicate_succ]

lemma recvFrames_sent {payloads : List (List UInt8)} {wire : List UInt8}
    (hwire : sendFrames payloads = some wire) (hrest : s.rest = wire.take cut) :
    ∃ k ≤ payloads.length, (∀ i < payloads.length, i < k ↔ frameEnd payloads i ≤ cut)
      ∧ ∀ m, recvFrames sizes (k + m) s = (payloads.take k).map some ++ List.replicate m none := by
  induction payloads generalizing s wire cut with
  | nil =>
    cases hwire
    rw [take_nil] at hrest
    refine ⟨0, Nat.le_refl _, fun i hi => absurd hi (Nat.not_lt_zero i), ?_⟩
    intro m
    rw [Nat.zero_add, recvFrames_end sizes m hrest]
    rfl
  | cons p payloads ih =>
    obtain ⟨f, hf, hwire⟩ := Option.bind_eq_some_iff.mp hwire
    obtain ⟨wire', hwire', rfl⟩ := Option.map_eq_some_iff.mp hwire
    have hlen : f.length = 4 + p.length := by
      rw [(frame_eq hf).2, length_append, length_toBE]
    have hend : ∀ i, frameEnd (p :: payloads) (i + 1) = f.length + frameEnd payloads i := by
      intro i
      rw [frameEnd, take_succ_cons, map_cons, sum_cons, hlen]
      rfl
    have hfirst : frameEnd (p :: payloads) 0 = f.length := hlen.symm
    by_cases hall : f.length ≤ cut
    · rw [take_append, take_of_length_le hall] at hrest
      obtain ⟨hread, hlater⟩ := recvFrame_whole sizes hf hrest
      obtain ⟨k, hk, hends, hcalls⟩ := ih hwire' hlater
      refine ⟨k + 1, Nat.succ_le_succ hk, ?_, ?_⟩
      · intro i hi
        cases i with
        | zero => exact iff_of_true (Nat.succ_pos k) (hfirst.trans_le hall)
        | succ i =>
          have hiff := hends i (Nat.lt_of_succ_lt_succ hi)
          rw [hend]
          omega
      · intro m
        rw [Nat.add_right_comm, recvFrames, hread, hcalls]
        rfl
    · rw [take_append_of_le_length (Nat.le_of_not_le hall)] at hrest
      obtain ⟨hnone, hlater⟩ := recvFrame_cut sizes hf (Nat.lt_of_not_le hall) hrest
      refine ⟨0, Nat.zero_le _, ?_, ?_⟩
      · intro i _
        refine iff_of_false (Nat.not_lt_zero i) ?_
        cases i with
        | zero => rw [hfirst]; exact hall
        | succ i => rw [hend]; omega
      · intro m
        cases m with
        | zero => rfl
        | succ m =>
          rw [Nat.zero_add, recvFrames, hnone, recvFrames_end sizes m hlater]
          rfl

end Receive

lemma exists_sendFrames {payloads : List (List UInt8)}
    (hlen : ∀ p ∈ payloads, p.length < 2 ^ 32) : ∃ wire, sendFrames payloads = some wire := by
  induction payloads with
  | nil => exact ⟨[], rfl⟩
  | cons p payloads ih =>
    obtain ⟨hp, hrest⟩ := forall_mem_cons.mp hlen
    obtain ⟨wire, hwire⟩ := ih hrest
    have hf : frame p = some (toBE 4 p.length ++ p) := if_pos hp
    exact ⟨toBE 4 p.length ++ p ++ wire, by rw [sendFrames, hf, hwire]; rfl⟩

/-- **FRAMES SURVIVE ANY FRAGMENTATION**: for all payloads shorter than `2^32` bytes, every way
    `recv` may split what was sent and every position `cut` at which the stream ends.  Of the
    payloads the first `k` end before the cut; successive calls return these, and then `None`. -/
theorem frames_survive_fragmentation (payloads : List (List UInt8))
    (hlen : ∀ p ∈ payloads, p.length < 2 ^ 32) :
    ∃ wire, sendFrames payloads = some wire ∧ ∀ (sizes : Nat → Nat) (cut reads : Nat),
      ∃ k ≤ payloads.length, (∀ i < payloads.length, i < k ↔ frameEnd payloads i ≤ cut)
        ∧ ∀ m, recvFrames sizes (k + m) ⟨wire.take cut, reads⟩
          = (payloads.take k).map some ++ List.replicate m none := by
  obtain ⟨wire, hwire⟩ := exists_sendFrames hlen
  exact ⟨wire, hwire, fun sizes cut reads => recvFrames_sent sizes hwire rfl⟩

/-- An empty payload arrives, the byte of the next one does not. -/
theorem frames_survive_fragmentation_empty_first :
    (∀ p ∈ [[], [(7 : UInt8)]], p.length < 2 ^ 32) ∧ ∃ wire, sendFrames [[], [7]] = some wire
      ∧ recvFrames (fun _ => 1) 2 ⟨wire.take 8, 0⟩ = [some [], none] := by
  have hlen : ∀ p ∈ [[], [(7 : UInt8)]], p.length < 2 ^ 32 := by decide
  obtain ⟨wire, hwire, hall⟩ := frames_survive_fragmentation [[], [7]] hlen
  obtain ⟨k, -, hends, hcalls⟩ := hall (fun _ => 1) 8 0
  have h0 : 0 < k ↔ 4 ≤ 8 := hends 0 (by decide)
  have h1 : 1 < k ↔ 9 ≤ 8 := hends 1 (by decide)
  obtain rfl : k = 1 := by omega
  exact ⟨hlen, wire, hwire, hcalls 1⟩

end PeerCacheRpc
