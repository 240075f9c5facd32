import Mathlib
import PeerCache.SlotHeaderProofs
import PeerCache.OrderedDictProofs
import PeerCache.WayClaimsProofs

/-! # Slots in a region — geometry and the two way choosers

    A region is `num_buckets × ways` slots of one stride.  Two choosers pick the way a
    page goes to: the owner's `pick_way`, which reads headers from memory and sequence
    numbers from its own bookkeeping, and `pick_way_from_bucket`, which sees only a
    snapshot of the bucket. -/

namespace PeerCacheSlot

open StructCodec List Option WayClaims

/-! ## Geometry -/

/-- `SlotGeometry`.  `_ensure_slot_region` never builds one without buckets or ways. -/
structure SlotGeometry where
  maxPayload : Nat
  numBuckets : Nat
  ways : Nat
  numBuckets_pos : 0 < numBuckets
  ways_pos : 0 < ways

/-- `_align` -/
def align (n a : Nat) : Nat := (n + a - 1) / a * a

namespace SlotGeometry

variable (g : SlotGeometry)

def slotStride : Nat := align (headerSize + g.maxPayload) 64

def bucketStride : Nat := g.slotStride * g.ways

def capacity : Nat := g.bucketStride * g.numBuckets

def bucketIndex (H : SlotHash) (key : String) : Nat := H.bucketHash key % g.numBuckets

def slotOffset (bucketIdx way : Nat) : Nat := bucketIdx * g.bucketStride + way * g.slotStride

variable {g}

lemma le_align (n : Nat) : n ≤ align n 64 := by
  rw [align]; omega

lemma fits {n : Nat} (h : n ≤ g.maxPayload) : headerSize + n ≤ g.slotStride :=
  Nat.le_trans (Nat.add_le_add_left h headerSize) (le_align _)

lemma slotOffset_eq (b w : Nat) : g.slotOffset b w = (b * g.ways + w) * g.slotStride := by
  rw [slotOffset, bucketStride, Nat.add_mul, Nat.mul_assoc, Nat.mul_comm g.ways]

variable {w : Nat}

lemma slot_injective {b b' w' : Nat} (hw : w < g.ways) (hw' : w' < g.ways)
    (h : b * g.ways + w = b' * g.ways + w') : b = b' ∧ w = w' := by
  have hb : b = b' := by
    have := congrArg (· / g.ways) h
    simpa [Nat.mul_add_div g.ways_pos, Nat.mul_comm _ g.ways, Nat.div_eq_of_lt hw,
      Nat.div_eq_of_lt hw'] using this
  subst hb
  exact ⟨rfl, Nat.add_left_cancel h⟩

lemma slots_apart {b b' w' : Nat} (hw : w < g.ways) (hw' : w' < g.ways) (hne : (b, w) ≠ (b', w')) :
    g.slotOffset b w + g.slotStride ≤ g.slotOffset b' w'
      ∨ g.slotOffset b' w' + g.slotStride ≤ g.slotOffset b w := by
  have hidx : b * g.ways + w ≠ b' * g.ways + w' := by
    intro h
    obtain ⟨rfl, rfl⟩ := slot_injective hw hw' h
    exact hne rfl
  rw [slotOffset_eq, slotOffset_eq, ← Nat.succ_mul, ← Nat.succ_mul]
  rcases Nat.lt_or_gt_of_ne hidx with h | h
  · exact .inl (Nat.mul_le_mul_right _ h)
  · exact .inr (Nat.mul_le_mul_right _ h)

lemma way_le_bucketStride (hw : w < g.ways) : w * g.slotStride + g.slotStride ≤ g.bucketStride := by
  rw [← Nat.succ_mul, bucketStride, Nat.mul_comm]
  exact Nat.mul_le_mul_left _ hw

end SlotGeometry

variable {H : SlotHash} {g : SlotGeometry}

/-! ## Slots in memory -/

/-- The header bytes of a slot. -/
def headerAt (g : SlotGeometry) (m : Mem) (b w : Nat) : Bytes :=
  m.read (g.slotOffset b w) headerSize

/-- The first `n` payload bytes of a slot. -/
def payloadAt (g : SlotGeometry) (m : Mem) (b w n : Nat) : Bytes :=
  m.read (g.slotOffset b w + headerSize) n

variable {m : Mem} {b w b' w' o n : Nat} {bs hdr data : Bytes}

lemma read_write_other_slot {o' : Nat} (hw : w < g.ways) (hw' : w' < g.ways)
    (hne : (b, w) ≠ (b', w')) (hin : o + bs.length ≤ g.slotStride) (hin' : o' + n ≤ g.slotStride) :
    (m.write (g.slotOffset b w + o) bs).read (g.slotOffset b' w' + o') n
      = m.read (g.slotOffset b' w' + o') n := by
  refine Mem.read_write_disjoint m ?_
  rcases SlotGeometry.slots_apart hw hw' hne with h | h <;> omega

lemma headerAt_write_other (hw : w < g.ways) (hw' : w' < g.ways) (hne : (b, w) ≠ (b', w'))
    (hin : o + bs.length ≤ g.slotStride) :
    headerAt g (m.write (g.slotOffset b w + o) bs) b' w' = headerAt g m b' w' := by
  show (m.write (g.slotOffset b w + o) bs).read (g.slotOffset b' w' + 0) headerSize
    = m.read (g.slotOffset b' w' + 0) headerSize
  exact read_write_other_slot hw hw' hne hin
    (by rw [Nat.zero_add]; exact SlotGeometry.fits (Nat.zero_le _))

lemma payloadAt_write_other (hw : w < g.ways) (hw' : w' < g.ways) (hne : (b, w) ≠ (b', w'))
    (hin : o + bs.length ≤ g.slotStride) (hn : n ≤ g.maxPayload) :
    payloadAt g (m.write (g.slotOffset b w + o) bs) b' w' n = payloadAt g m b' w' n :=
  read_write_other_slot hw hw' hne hin (SlotGeometry.fits hn)

/-- Two memories agree on a slot. -/
def SameSlot (g : SlotGeometry) (m m' : Mem) (b w : Nat) : Prop :=
  headerAt g m' b w = headerAt g m b w
    ∧ ∀ n ≤ g.maxPayload, payloadAt g m' b w n = payloadAt g m b w n

lemma SameSlot.trans {m' m'' : Mem} (h : SameSlot g m m' b w) (h' : SameSlot g m' m'' b w) :
    SameSlot g m m'' b w :=
  ⟨h'.1.trans h.1, fun n hn => (h'.2 n hn).trans (h.2 n hn)⟩

/-- **FRAME RULE** of a slot. -/
lemma sameSlot_write (hw : w < g.ways) (hw' : w' < g.ways) (hne : (b, w) ≠ (b', w'))
    (hin : o + bs.length ≤ g.slotStride) : SameSlot g m (m.write (g.slotOffset b w + o) bs) b' w' :=
  ⟨headerAt_write_other hw hw' hne hin, fun _ hn => payloadAt_write_other hw hw' hne hin hn⟩

lemma payloadAt_stamp (hlen : hdr.length = headerSize) :
    payloadAt g (m.write (g.slotOffset b w) hdr) b w n = payloadAt g m b w n :=
  Mem.read_write_disjoint m (by omega)

lemma headerAt_stamp (hlen : hdr.length = headerSize) :
    headerAt g (m.write (g.slotOffset b w) hdr) b w = hdr := by
  rw [headerAt, ← hlen]
  exact Mem.read_write_same m _ hdr

lemma headerAt_copy :
    headerAt g (m.write (g.slotOffset b w + headerSize) data) b w = headerAt g m b w :=
  Mem.read_write_disjoint m (by omega)

lemma payloadAt_copy (hn : data.length = n) :
    payloadAt g (m.write (g.slotOffset b w + headerSize) data) b w n = data :=
  hn ▸ Mem.read_write_same m _ data

lemma write_slot {off : Nat} (hlen : hdr.length = headerSize) :
    m.write off (hdr ++ data) = (m.write off hdr).write (off + headerSize) data := by
  rw [Mem.write_append, hlen]

/-! ## Snapshots of a bucket -/

/-- The READ of a whole bucket. -/
def readBucket (g : SlotGeometry) (m : Mem) (b : Nat) : Bytes :=
  m.read (b * g.bucketStride) g.bucketStride

/-- `bucket_bytes[off:off + HEADER_SIZE]` -/
def snapHeader (g : SlotGeometry) (snap : Bytes) (way : Nat) : Bytes :=
  (snap.drop (way * g.slotStride)).take headerSize

/-- The `n` bytes after the header of a way in a snapshot. -/
def snapPayload (g : SlotGeometry) (snap : Bytes) (way n : Nat) : Bytes :=
  (snap.drop (way * g.slotStride + headerSize)).take n

lemma snapHeader_readBucket (hw : w < g.ways) :
    snapHeader g (readBucket g m b) w = headerAt g m b w := by
  have h1 := SlotGeometry.way_le_bucketStride hw
  have h2 : headerSize + 0 ≤ g.slotStride := SlotGeometry.fits (Nat.zero_le _)
  exact Mem.take_drop_read m (by omega)

lemma snapPayload_readBucket (hw : w < g.ways) (hn : n ≤ g.maxPayload) :
    snapPayload g (readBucket g m b) w n = payloadAt g m b w n := by
  have h1 := SlotGeometry.way_le_bucketStride hw
  have h2 := SlotGeometry.fits hn
  rw [snapPayload, readBucket, Mem.take_drop_read m (by omega), payloadAt, SlotGeometry.slotOffset,
    Nat.add_assoc]

/-! ## Choosing a way from a snapshot -/

/-- The key hash of a valid header (`_slot_key_hash`). -/
def headerKey (hdr : Bytes) : Option (Nat × Nat) :=
  match decodeHeader hdr with
  | some (true, hi, lo, _, _) => some (hi, lo)
  | _ => none

/-- The sequence number of a valid header; an invalid one counts as 0. -/
def headerSeq (hdr : Bytes) : Nat :=
  match decodeHeader hdr with
  | some (true, _, _, _, seq) => seq
  | _ => 0

/-- The local variables of `pick_way_from_bucket`. -/
structure WayScan where
  emptyWay : Option Nat
  oldestWay : Nat
  oldestSeq : Option Nat
  chosen : Option Nat

/-- `seq < oldest_seq`, or there is none yet. -/
def older (seq : Nat) : Option Nat → Bool
  | none => true
  | some s => decide (seq < s)

/-- One turn of the loop of `pick_way_from_bucket`. -/
def scanWay (kh : Nat × Nat) (hdr : Nat → Bytes) (s : WayScan) (way : Nat) : WayScan :=
  let s := match headerKey (hdr way) with
    | none => if s.emptyWay = none then { s with emptyWay := some way } else s
    | some k => if k = kh then { s with chosen := some way } else s
  if older (headerSeq (hdr way)) s.oldestSeq then
    { s with oldestSeq := some (headerSeq (hdr way)), oldestWay := way }
  else s

/-- The loop over the ways, on any source of headers. -/
def scanWays (kh : Nat × Nat) (hdr : Nat → Bytes) (ways : Nat) : WayScan :=
  (List.range ways).foldl (scanWay kh hdr) ⟨none, 0, none, none⟩

/-- `pick_way_from_bucket`: the way and the sequence number to stamp. -/
def pickWayFromBucket (H : SlotHash) (g : SlotGeometry) (bucketBytes : Bytes) (key : String) :
    Nat × Nat :=
  let s := scanWays (H.keyHash128 key) (snapHeader g bucketBytes) g.ways
  let way := (s.chosen.or s.emptyWay).getD s.oldestWay
  -- `(base + 2) & ~1` clears the low bit
  let newSeq := (s.oldestSeq.getD 0 + 2) / 2 * 2
  (way, if newSeq = 0 then 2 else newSeq)

/-- The ways of a bucket, read off its headers. -/
def waysOf (hdr : Nat → Bytes) : Ways (Nat × Nat) where
  key w := headerKey (hdr w)
  seq w := headerSeq (hdr w)

@[simp] lemma waysOf_key (hdr : Nat → Bytes) (w : Nat) :
    (waysOf hdr).key w = headerKey (hdr w) := rfl

@[simp] lemma waysOf_seq (hdr : Nat → Bytes) (w : Nat) :
    (waysOf hdr).seq w = headerSeq (hdr w) := rfl

/-- What either loop knows after the first `i` ways: the first empty one, if there is one, and
    the first of the oldest. -/
structure Seen (s : Ways (Nat × Nat)) (i : Nat) (emptyWay : Option Nat) (oldestWay : Nat)
    (oldestSeq : Option Nat) : Prop where
  vacant_none : emptyWay = none → ∀ v < i, s.key v ≠ none
  vacant_some : ∀ w, emptyWay = some w → w < i ∧ s.key w = none
    ∧ ∀ v < w, s.key v ≠ none
  oldest : ∀ q, oldestSeq = some q → oldestWay < i ∧ s.seq oldestWay = q
    ∧ ∀ v < i, q ≤ s.seq v ∧ (v < oldestWay → q < s.seq v)
  started : oldestSeq = none → i = 0

section

variable {s : Ways (Nat × Nat)} {i oldestWay : Nat} {emptyWay oldestSeq : Option Nat}

lemma seen_zero : Seen s 0 none 0 none :=
  ⟨fun _ v hv => absurd hv (Nat.not_lt_zero v), nofun, nofun, fun _ => rfl⟩

lemma Seen.lt_of_older (h : Seen s i emptyWay oldestWay oldestSeq)
    (hold : older (s.seq i) oldestSeq) {v : Nat} (hv : v < i) : s.seq i < s.seq v := by
  cases hs : oldestSeq with
  | none =>
    have := h.started hs
    omega
  | some m =>
    rw [hs] at hold
    have h1 : s.seq i < m := of_decide_eq_true hold
    have h2 := ((h.oldest m hs).2.2 v hv).1
    omega

lemma Seen.turn (h : Seen s i emptyWay oldestWay oldestSeq) :
    Seen s (i + 1) (if s.key i = none ∧ emptyWay = none then some i else emptyWay)
      (if older (s.seq i) oldestSeq then i else oldestWay)
      (if older (s.seq i) oldestSeq then some (s.seq i) else oldestSeq) := by
  refine ⟨?_, ?_, ?_, ?_⟩
  · intro hnone v hv
    by_cases hc : s.key i = none ∧ emptyWay = none
    · rw [if_pos hc] at hnone; cases hnone
    · rw [if_neg hc] at hnone
      rcases Nat.lt_succ_iff_lt_or_eq.mp hv with hv | rfl
      · exact h.vacant_none hnone v hv
      · exact fun hk => hc ⟨hk, hnone⟩
  · intro w hw
    split_ifs at hw with hc
    · cases hw; exact ⟨Nat.lt_succ_self i, hc.1, h.vacant_none hc.2⟩
    · obtain ⟨hlt, hk⟩ := h.vacant_some w hw
      exact ⟨Nat.lt_succ_of_lt hlt, hk⟩
  · intro q hq
    by_cases hold : older (s.seq i) oldestSeq
    · rw [if_pos hold] at hq ⊢
      cases hq
      refine ⟨Nat.lt_succ_self i, rfl, ?_⟩
      intro v hv
      rcases Nat.lt_succ_iff_lt_or_eq.mp hv with hv | rfl
      · exact ⟨Nat.le_of_lt (h.lt_of_older hold hv), fun _ => h.lt_of_older hold hv⟩
      · exact ⟨Nat.le_refl _, fun hc => absurd hc (Nat.lt_irrefl _)⟩
    · rw [if_neg hold] at hq ⊢
      obtain ⟨hlt, hseq, hmin⟩ := h.oldest q hq
      refine ⟨Nat.lt_succ_of_lt hlt, hseq, ?_⟩
      intro v hv
      rcases Nat.lt_succ_iff_lt_or_eq.mp hv with hv | rfl
      · exact hmin v hv
      · rw [hq] at hold
        have hge : q ≤ s.seq v := Nat.not_lt.mp (fun hc => hold (decide_eq_true hc))
        exact ⟨hge, fun hc => absurd hc (Nat.lt_asymm hlt)⟩
  · intro hnone
    by_cases hold : older (s.seq i) oldestSeq
    · rw [if_pos hold] at hnone; cases hnone
    · rw [if_neg hold] at hnone
      rw [hnone] at hold
      exact absurd rfl hold

lemma Seen.exists_oldest (h : Seen s i emptyWay oldestWay oldestSeq) (hi : 0 < i) :
    ∃ q, oldestSeq = some q ∧ oldestWay < i ∧ s.seq oldestWay = q
      ∧ ∀ v < i, q ≤ s.seq v ∧ (v < oldestWay → q < s.seq v) := by
  cases ho : oldestSeq with
  | none =>
    have := h.started ho
    omega
  | some q => exact ⟨q, rfl, h.oldest q ho⟩

lemma Seen.settles (h : Seen s i emptyWay oldestWay oldestSeq) (hi : 0 < i) {kh : Nat × Nat}
    (hnew : ∀ v < i, s.key v ≠ some kh) : Settles i s kh (emptyWay.getD oldestWay) := by
  obtain ⟨q, -, hlt, hseq, hmin⟩ := h.exists_oldest hi
  have hholder : ∀ w, ∀ v < i, s.key v = some kh → s.key w = some kh :=
    fun _ v hv hk => absurd hk (hnew v hv)
  cases emptyWay with
  | none =>
    have hfull := h.vacant_none rfl
    refine ⟨⟨hlt, hholder _, fun _ v hv hk => absurd hk (hfull v hv), ?_⟩,
      fun _ v hv hk => absurd hk (hfull v hv)⟩
    intro _ _ v hv
    show s.seq oldestWay ≤ s.seq v ∧ (v < oldestWay → s.seq oldestWay < s.seq v)
    rw [hseq]
    exact hmin v hv
  | some w =>
    obtain ⟨hw, hk, hfirst⟩ := h.vacant_some w rfl
    refine ⟨⟨hw, hholder _, fun _ _ _ _ => hk, fun _ hfull => absurd hk (hfull w hw)⟩, ?_⟩
    intro _ v _ hnone
    exact Nat.not_lt.mp (fun hv => hfirst v hv hnone)

lemma settles_held {w n : Nat} {kh : Nat × Nat} (hw : w < n) (hk : s.key w = some kh) :
    Settles n s kh w :=
  have hnot : ¬ ∀ u < n, s.key u ≠ some kh := fun h => h w hw hk
  ⟨⟨hw, fun _ _ _ => hk, fun h => absurd h hnot, fun h => absurd h hnot⟩, fun h => absurd h hnot⟩

end

variable {ways : Nat} {snap : Bytes} {r : SlotRegion}

lemma scanWay_eq (kh : Nat × Nat) (hdr : Nat → Bytes) (s : WayScan) (i : Nat) :
    scanWay kh hdr s i
      = { emptyWay := if headerKey (hdr i) = none ∧ s.emptyWay = none then some i else s.emptyWay
          oldestWay := if older (headerSeq (hdr i)) s.oldestSeq then i else s.oldestWay
          oldestSeq := if older (headerSeq (hdr i)) s.oldestSeq then some (headerSeq (hdr i))
            else s.oldestSeq
          chosen := if headerKey (hdr i) = some kh then some i else s.chosen } := by
  rw [scanWay]
  cases hk : headerKey (hdr i) with
  | none =>
    simp only [true_and, reduceCtorEq, if_false]
    split_ifs <;> rfl
  | some k =>
    simp only [reduceCtorEq, false_and, if_false, some.injEq]
    split_ifs <;> rfl

/-- The scan of a snapshot has seen all its ways, and has chosen the LAST one of the key. -/
lemma scanWays_seen (kh : Nat × Nat) (hdr : Nat → Bytes) (ways : Nat) :
    Seen (waysOf hdr) ways (scanWays kh hdr ways).emptyWay (scanWays kh hdr ways).oldestWay
        (scanWays kh hdr ways).oldestSeq
      ∧ ((scanWays kh hdr ways).chosen = none → ∀ v < ways, (waysOf hdr).key v ≠ some kh)
      ∧ ∀ w, (scanWays kh hdr ways).chosen = some w → w < ways ∧ (waysOf hdr).key w = some kh
        ∧ ∀ v < ways, (waysOf hdr).key v = some kh → v ≤ w := by
  induction ways with
  | zero => exact ⟨seen_zero, fun _ v hv => absurd hv (Nat.not_lt_zero v), nofun⟩
  | succ ways ih =>
    have hsucc : scanWays kh hdr (ways + 1) = scanWay kh hdr (scanWays kh hdr ways) ways := by
      rw [scanWays, range_succ, foldl_append]
      rfl
    simp only [hsucc, scanWay_eq]
    obtain ⟨hseen, hnone, hsome⟩ := ih
    refine ⟨hseen.turn, ?_, ?_⟩
    · intro hc v hv
      split_ifs at hc with hk
      rcases Nat.lt_succ_iff_lt_or_eq.mp hv with hv | rfl
      · exact hnone hc v hv
      · exact hk
    · intro w hw
      split_ifs at hw with hk
      · cases hw
        exact ⟨Nat.lt_succ_self _, hk, fun v hv _ => Nat.lt_succ_iff.mp hv⟩
      · obtain ⟨hlt, hkey, hlast⟩ := hsome w hw
        refine ⟨Nat.lt_succ_of_lt hlt, hkey, ?_⟩
        intro v hv hkv
        rcases Nat.lt_succ_iff_lt_or_eq.mp hv with hv | rfl
        · exact hlast v hv hkv
        · exact absurd hkv hk

/-- **THE CHOICE FROM A SNAPSHOT**, to the last detail. -/
lemma pickWayFromBucket_settles (snap : Bytes) (key : String) :
    Settles g.ways (waysOf (snapHeader g snap)) (H.keyHash128 key) (pickWayFromBucket H g snap key).1
      ∧ ∀ v < g.ways, headerKey (snapHeader g snap v) = some (H.keyHash128 key) →
        v ≤ (pickWayFromBucket H g snap key).1 := by
  obtain ⟨hseen, hnone, hsome⟩ := scanWays_seen (H.keyHash128 key) (snapHeader g snap) g.ways
  rw [pickWayFromBucket]
  generalize scanWays (H.keyHash128 key) (snapHeader g snap) g.ways = s at hseen hnone hsome
  cases hc : s.chosen with
  | none =>
    exact ⟨hseen.settles g.ways_pos (hnone hc), fun v hv hk => absurd hk (hnone hc v hv)⟩
  | some w =>
    obtain ⟨hlt, hkey, hlast⟩ := hsome w hc
    exact ⟨settles_held hlt hkey, hlast⟩

/-- **THE SNAPSHOT CHOOSER IS A CLAIM** on the headers of the snapshot. -/
lemma pickWayFromBucket_claims (snap : Bytes) (key : String) :
    Picks g.ways (waysOf (snapHeader g snap)) (H.keyHash128 key)
      (pickWayFromBucket H g snap key).1 (pickWayFromBucket H g snap key).2 := by
  refine ⟨(pickWayFromBucket_settles snap key).1.toChooses, ?_⟩
  obtain ⟨hseen, -, -⟩ := scanWays_seen (H.keyHash128 key) (snapHeader g snap) g.ways
  obtain ⟨q, hq, hlt, hseq, hmin⟩ := hseen.exists_oldest g.ways_pos
  refine ⟨_, hlt, ?_, ?_⟩
  · intro u hu
    rw [hseq]
    exact (hmin u hu).1
  · have hpos : (q + 2) / 2 * 2 ≠ 0 := by omega
    rw [pickWayFromBucket, hseq]
    simp only [hq, getD_some, if_neg hpos]
    rfl

/-- The rule both choosers obey: the way lies in the bucket and holds the key if any does. -/
def PicksHolder (kh : Nat × Nat) (hdr : Nat → Bytes) (ways way : Nat) : Prop :=
  way < ways ∧ ∀ w < ways, headerKey (hdr w) = some kh → headerKey (hdr way) = some kh

/-- **THE SNAPSHOT CHOOSER**: the rule, an even stamp, and a stamp at most two past some
    sequence number of the bucket. -/
lemma pickWayFromBucket_spec (snap : Bytes) (key : String) :
    PicksHolder (H.keyHash128 key) (snapHeader g snap) g.ways (pickWayFromBucket H g snap key).1
      ∧ (pickWayFromBucket H g snap key).2 % 2 = 0
      ∧ ∃ w < g.ways, (pickWayFromBucket H g snap key).2 ≤ headerSeq (snapHeader g snap w) + 2 := by
  have hclaim := pickWayFromBucket_claims (H := H) (g := g) snap key
  obtain ⟨w, hw, -, hq⟩ := hclaim.stamp
  refine ⟨⟨hclaim.lt, hclaim.holder⟩, ?_, w, hw, ?_⟩
  · rw [hq, nextStamp]
    omega
  · rw [hq, nextStamp, waysOf_seq]
    omega

lemma pickWayFromBucket_congr {snap' : Bytes} (key : String)
    (h : ∀ w < g.ways, snapHeader g snap w = snapHeader g snap' w) :
    pickWayFromBucket H g snap key = pickWayFromBucket H g snap' key := by
  have hscan : scanWays (H.keyHash128 key) (snapHeader g snap) g.ways
      = scanWays (H.keyHash128 key) (snapHeader g snap') g.ways := by
    refine foldl_ext _ _ _ ?_
    intro s w hw
    rw [scanWay, scanWay, h w (mem_range.mp hw)]
  rw [pickWayFromBucket, pickWayFromBucket, hscan]

/-! ## The owner's region -/

/-- `SlotRegion`: the bytes from `_base` on, and the bookkeeping `_seq`. -/
structure SlotRegion where
  mem : Mem
  seq : OrderedDict (Nat × Nat) Nat

/-- A region as it is allocated. -/
def SlotRegion.zero : SlotRegion := ⟨fun _ => 0, OrderedDict.empty⟩

lemma headerAt_zero (b w : Nat) :
    headerAt g SlotRegion.zero.mem b w = List.replicate headerSize 0 :=
  Mem.read_const 0 _ _

/-- `self._seq.get((bucket, way), 0)` -/
def SlotRegion.seqOf (r : SlotRegion) (bucket way : Nat) : Nat :=
  (r.seq.get? (bucket, way)).getD 0

/-- The loop of `pick_way` over the ways still to look at. -/
def pickWayLoop (g : SlotGeometry) (r : SlotRegion) (bucket : Nat) (kh : Nat × Nat) :
    List Nat → Option Nat → Nat → Option Nat → Nat
  | [], emptyWay, oldestWay, _ => emptyWay.getD oldestWay
  | way :: rest, emptyWay, oldestWay, oldestSeq =>
      let k := headerKey (headerAt g r.mem bucket way)
      if k = some kh then way
      else
        let emptyWay := if k = none ∧ emptyWay = none then some way else emptyWay
        let s := r.seqOf bucket way
        if older s oldestSeq then pickWayLoop g r bucket kh rest emptyWay way (some s)
        else pickWayLoop g r bucket kh rest emptyWay oldestWay oldestSeq

/-- `pick_way` -/
def pickWay (H : SlotHash) (g : SlotGeometry) (r : SlotRegion) (key : String) : Nat × Nat :=
  let bucket := g.bucketIndex H key
  (bucket, pickWayLoop g r bucket (H.keyHash128 key) (List.range g.ways) none 0 none)

/-- The next even sequence number of a local write. -/
def nextSeq (seq : Nat) : Nat := if seq % 2 = 0 then seq + 2 else seq + 1

/-- `_mark_seq` and `_write_header` -/
def markSeq (H : SlotHash) (m : Mem) (off seq : Nat) (key : String) (length : Nat) : Option Mem :=
  (encodeHeader H key length seq).map (fun hdr => m.write off hdr)

/-- `write_local`.  The outer `none` is the exception of `encode_header`; the inner one a page
    too big for the size class. -/
def writeLocal (H : SlotHash) (g : SlotGeometry) (r : SlotRegion) (key : String)
    (data : Bytes) : Option (Option Nat × SlotRegion) :=
  if g.maxPayload < data.length then some (none, r)
  else
    let (bucket, way) := pickWay H g r key
    let off := g.slotOffset bucket way
    let newSeq := nextSeq (r.seqOf bucket way)
    (markSeq H r.mem off (newSeq ||| 1) key data.length).bind fun marked =>
      let copied := marked.write (off + headerSize) data
      (markSeq H copied off newSeq key data.length).map fun done =>
        (some off, ⟨done, r.seq.set (bucket, way) newSeq⟩)

/-- `read_local`: the payload on a hit. -/
def readLocal (H : SlotHash) (g : SlotGeometry) (r : SlotRegion) (key : String) (length : Nat) :
    Option Bytes :=
  let bucket := g.bucketIndex H key
  ((List.range g.ways).find? (fun way => slotMatches H (headerAt g r.mem bucket way) key length)).map
    (fun way => payloadAt g r.mem bucket way length)

/-- `exists_local`: the stored length. -/
def existsLocal (H : SlotHash) (g : SlotGeometry) (r : SlotRegion) (key : String) : Option Nat :=
  (List.range g.ways).findSome?
    (fun way => slotPresent H (headerAt g r.mem (g.bucketIndex H key) way) key)

/-- The scan of a bucket snapshot in `_fetch_slotmap`. -/
def readSnapshot (H : SlotHash) (g : SlotGeometry) (snap : Bytes) (key : String)
    (length : Nat) : Option Bytes :=
  ((List.range g.ways).find? (fun way => slotMatches H (snapHeader g snap way) key length)).map
    (fun way => snapPayload g snap way length)

/-- The ways of a bucket as their owner counts them: the keys of the headers, and the numbers
    of the private table. -/
def ownWays (g : SlotGeometry) (r : SlotRegion) (b : Nat) : Ways (Nat × Nat) where
  key w := headerKey (headerAt g r.mem b w)
  seq w := r.seqOf b w

@[simp] lemma ownWays_key (r : SlotRegion) (b w : Nat) :
    (ownWays g r b).key w = headerKey (headerAt g r.mem b w) := by
  rw [ownWays]

@[simp] lemma ownWays_seq (r : SlotRegion) (b w : Nat) :
    (ownWays g r b).seq w = r.seqOf b w := rfl

lemma pickWayLoop_settles (r : SlotRegion) (b : Nat) (kh : Nat × Nat) :
    ∀ (n i : Nat) (emptyWay : Option Nat) (oldestWay : Nat) (oldestSeq : Option Nat),
      i + n = g.ways → (∀ v < i, (ownWays g r b).key v ≠ some kh) →
      Seen (ownWays g r b) i emptyWay oldestWay oldestSeq →
      Settles g.ways (ownWays g r b) kh
          (pickWayLoop g r b kh (List.range' i n) emptyWay oldestWay oldestSeq)
        ∧ ∀ v < g.ways, (ownWays g r b).key v = some kh →
          pickWayLoop g r b kh (List.range' i n) emptyWay oldestWay oldestSeq ≤ v := by
  intro n
  induction n with
  | zero =>
    intro i emptyWay oldestWay oldestSeq hi hnew hseen
    obtain rfl : i = g.ways := by omega
    exact ⟨hseen.settles g.ways_pos hnew, fun v hv hk => absurd hk (hnew v hv)⟩
  | succ n ih =>
    intro i emptyWay oldestWay oldestSeq hi hnew hseen
    rw [range'_succ, pickWayLoop]
    rw [← ownWays_key, ← ownWays_seq]
    by_cases hk : (ownWays g r b).key i = some kh
    · rw [if_pos hk]
      refine ⟨settles_held (by omega) hk, ?_⟩
      intro v _ hv
      exact Nat.not_lt.mp (fun hc => hnew v hc hv)
    · rw [if_neg hk]
      have hnew' : ∀ v < i + 1, (ownWays g r b).key v ≠ some kh := by
        intro v hv
        rcases Nat.lt_succ_iff_lt_or_eq.mp hv with hv | rfl
        · exact hnew v hv
        · exact hk
      have hturn := hseen.turn
      by_cases hold : older ((ownWays g r b).seq i) oldestSeq
      · rw [if_pos hold]
        rw [if_pos hold, if_pos hold] at hturn
        exact ih (i + 1) _ _ _ (by omega) hnew' hturn
      · rw [if_neg hold]
        rw [if_neg hold, if_neg hold] at hturn
        exact ih (i + 1) _ _ _ (by omega) hnew' hturn

/-- **THE OWNER'S CHOICE**, to the last detail. -/
lemma pickWay_settles (r : SlotRegion) (key : String) :
    Settles g.ways (ownWays g r (g.bucketIndex H key)) (H.keyHash128 key) (pickWay H g r key).2
      ∧ ∀ v < g.ways, (ownWays g r (g.bucketIndex H key)).key v = some (H.keyHash128 key) →
        (pickWay H g r key).2 ≤ v := by
  have hloop := pickWayLoop_settles (g := g) r (g.bucketIndex H key) (H.keyHash128 key) g.ways 0 none
    0 none (Nat.zero_add _) (fun v hv => absurd hv (Nat.not_lt_zero v)) seen_zero
  rwa [← range_eq_range'] at hloop

/-- **THE OWNER'S CHOOSER** makes a choice among its own numbers. -/
lemma pickWay_chooses (r : SlotRegion) (key : String) :
    Chooses g.ways (ownWays g r (g.bucketIndex H key)) (H.keyHash128 key) (pickWay H g r key).2 :=
  (pickWay_settles r key).1.toChooses

/-- **THE OWNER'S CHOOSER** obeys the rule. -/
lemma pickWay_picks (r : SlotRegion) (key : String) :
    PicksHolder (H.keyHash128 key) (headerAt g r.mem (g.bucketIndex H key)) g.ways
      (pickWay H g r key).2 :=
  ⟨(pickWay_chooses r key).lt, (pickWay_chooses r key).holder⟩

lemma nextSeq_even (seq : Nat) : nextSeq seq % 2 = 0 := by
  rw [nextSeq]
  split_ifs with h
  · omega
  · omega

lemma or_one_odd (h : n % 2 = 0) : n ||| 1 = n + 1 := by
  obtain ⟨m, rfl⟩ := Nat.dvd_of_mod_eq_zero h
  exact (Nat.two_pow_add_eq_or_of_lt (i := 1) (by decide) m).symm

private lemma find_map_eq_some {p : Nat → Bool} {f : Nat → Bytes} {bytes : Bytes}
    (h : ((List.range ways).find? p).map f = some bytes) : ∃ w < ways, p w = true ∧ bytes = f w := by
  obtain ⟨w, hw, rfl⟩ := map_eq_some_iff.mp h
  exact ⟨w, mem_range.mp (mem_of_find?_eq_some hw), find?_some hw, rfl⟩

lemma readLocal_eq_some {key : String} {bytes : Bytes} (h : readLocal H g r key n = some bytes) :
    ∃ w < g.ways, slotMatches H (headerAt g r.mem (g.bucketIndex H key) w) key n = true
      ∧ bytes = payloadAt g r.mem (g.bucketIndex H key) w n := find_map_eq_some h

lemma readSnapshot_eq_some {key : String} {bytes : Bytes}
    (h : readSnapshot H g snap key n = some bytes) :
    ∃ w < g.ways, slotMatches H (snapHeader g snap w) key n = true
      ∧ bytes = snapPayload g snap w n := find_map_eq_some h

lemma existsLocal_sound {key : String} (h : existsLocal H g r key = some n) :
    (readLocal H g r key n).isSome := by
  obtain ⟨w, hw, hp⟩ := exists_of_findSome?_eq_some h
  rw [readLocal, isSome_map, find?_isSome]
  exact ⟨w, hw, slotPresent_iff.mp hp⟩

/-! ## The smallest region two keys can meet in -/

/-- Two keys with different hashes, in one bucket. -/
def twoKeyHash : SlotHash where
  keyHash128 k := (if k = "a" then 1 else 2, 0)
  bucketHash _ := 0
  hi_lt k := by by_cases h : k = "a" <;> simp [h]
  lo_lt := zero_lt_digest

/-- One bucket of one way, pages of at most one byte. -/
def oneSlot : SlotGeometry := ⟨1, 1, 1, by decide, by decide⟩

lemma twoKeyHash_injOn : Set.InjOn twoKeyHash.keyHash128 {"a", "b"} := by
  rintro k (rfl | rfl) k' (rfl | rfl) h
  · rfl
  · exact absurd h (by decide)
  · exact absurd h (by decide)
  · rfl

/-- Keys told apart by their length, in one bucket. -/
def lengthHash : SlotHash where
  keyHash128 k := (k.length % 256 ^ 8, 0)
  bucketHash _ := 0
  hi_lt k := Nat.mod_lt _ (by decide)
  lo_lt := zero_lt_digest

/-- One bucket of two ways, pages of at most one byte. -/
def twoWays : SlotGeometry := ⟨1, 1, 2, by decide, by decide⟩

end PeerCacheSlot
