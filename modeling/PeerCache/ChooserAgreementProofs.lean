import PeerCache.SlotRunProofs

/-! # Where the two writers of a bucket agree

    The owner of a region picks a way with `pick_way`, everybody else with
    `pick_way_from_bucket`.  Both prefer the way of the key, then an empty way, then the
    oldest one, but they look for these differently.  The owner stops at the FIRST way of
    the key and counts ages in its private table; the other keeps the LAST way of the key
    and counts ages in the headers. -/

namespace PeerCacheSlot

open Transition WayClaims

variable {H : SlotHash} {g : SlotGeometry}

/-! ## Agreement -/

/-- The key is in at most one way of the bucket. -/
def HeldOnce (g : SlotGeometry) (r : SlotRegion) (b : Nat) (kh : Nat × Nat) : Prop :=
  ∀ v < g.ways, ∀ w < g.ways, headerKey (headerAt g r.mem b v) = some kh →
    headerKey (headerAt g r.mem b w) = some kh → v = w

/-- If the bucket is full of other keys, the first way of least number in the owner's table is the
    first of least number in the headers. -/
def SameVictim (g : SlotGeometry) (r : SlotRegion) (b : Nat) (kh : Nat × Nat) : Prop :=
  (∀ v < g.ways, headerKey (headerAt g r.mem b v) ≠ some kh
    ∧ headerKey (headerAt g r.mem b v) ≠ none) →
  ∀ w < g.ways, (∀ v < g.ways, r.seqOf b w ≤ r.seqOf b v ∧ (v < w → r.seqOf b w < r.seqOf b v)) →
    ∀ v < g.ways, headerSeq (headerAt g r.mem b w) ≤ headerSeq (headerAt g r.mem b v)
      ∧ (v < w → headerSeq (headerAt g r.mem b w) < headerSeq (headerAt g r.mem b v))

/-- `pick_way` and `pick_way_from_bucket`, on the live bytes of the bucket, return the same way. -/
def Agree (H : SlotHash) (g : SlotGeometry) (r : SlotRegion) (key : String) : Prop :=
  (pickWay H g r key).2 = (pickWayFromBucket H g (readBucket g r.mem (pickWay H g r key).1) key).1

lemma agree_iff (r : SlotRegion) (key : String) :
    Agree H g r key ↔ HeldOnce g r (g.bucketIndex H key) (H.keyHash128 key)
      ∧ SameVictim g r (g.bucketIndex H key) (H.keyHash128 key) := by
  show (pickWay H g r key).2
      = (pickWayFromBucket H g (readBucket g r.mem (g.bucketIndex H key)) key).1 ↔ _
  obtain ⟨hown, hfirst⟩ := pickWay_settles (H := H) (g := g) r key
  obtain ⟨hsnap, hlast⟩ := pickWayFromBucket_settles (H := H) (g := g)
    (readBucket g r.mem (g.bucketIndex H key)) key
  generalize g.bucketIndex H key = b at *
  -- a header of the snapshot is the header in memory
  have hsame : ∀ v < g.ways, snapHeader g (readBucket g r.mem b) v = headerAt g r.mem b v :=
    fun v hv => snapHeader_readBucket hv
  have hkeys : ∀ v < g.ways, (waysOf (snapHeader g (readBucket g r.mem b))).key v
      = (ownWays g r b).key v := by
    intro v hv
    rw [waysOf_key, hsame v hv, ownWays_key]
  rw [hown.agree_iff hsnap hkeys hfirst ?_]
  · refine and_congr ?_ ?_
    · simp only [ownWays_key]; exact Iff.rfl
    · simp only [ownWays_key, ownWays_seq, waysOf_seq]
      refine imp_congr_right fun _ => forall₂_congr fun w hw => imp_congr_right fun _ => ?_
      refine forall₂_congr fun v hv => ?_
      rw [hsame w hw, hsame v hv]
  · intro v hv hk
    rw [ownWays_key, ← hsame v hv] at hk
    exact hlast v hv hk

/-! ## A region that only its owner writes -/

variable (H g) in
/-- One `write_local`. -/
def ownStep (r : SlotRegion) (page : String × Bytes) : Option SlotRegion :=
  (writeLocal H g r page.1 page.2).map Prod.snd

/-- The table says what the headers say. -/
def InSync (g : SlotGeometry) (r : SlotRegion) : Prop :=
  ∀ b, ∀ w < g.ways, headerSeq (headerAt g r.mem b w) = r.seqOf b w

lemma inSync_zero : InSync g SlotRegion.zero := by
  intro b w _
  have hnone : headerKey (headerAt g SlotRegion.zero.mem b w) = none := by
    rw [headerAt_zero, headerKey, decodeHeader_zero]
  rw [headerSeq_of_invalid hnone]
  rfl

variable {r : SlotRegion}

lemma inSync_writeLocal {r' : SlotRegion} (h : InSync g r) {key : String} {data : Bytes}
    {off : Option Nat} (hw : writeLocal H g r key data = some (off, r')) : InSync g r' := by
  rcases writeLocal_cases hw with ⟨-, -, rfl⟩ | ⟨-, hdr, henc, hst, hseq⟩
  · exact h
  · intro b w hlt
    rw [SlotRegion.seqOf, hseq, OrderedDict.get?_set]
    split_ifs with hslot
    · rw [Option.getD_some]
      cases hslot
      rw [hst.header]
      exact (headerKey_stamp henc).2
    · rw [(hst.others b w hlt (fun hc => hslot hc.symm)).1]; exact h b w hlt

lemma run_own {pages : List (String × Bytes)}
    (hrun : run (ownStep H g) SlotRegion.zero pages = some r) : SlotsOk g r ∧ InSync g r := by
  have hstep : ∀ r page r', page ∈ pages → SlotsOk g r ∧ InSync g r → True →
      ownStep H g r page = some r' → SlotsOk g r' ∧ InSync g r' := by
    rintro r page r' - ⟨hok, hsync⟩ - hstep
    obtain ⟨x, hw, rfl⟩ := Option.map_eq_some_iff.mp hstep
    exact ⟨hok.writeLocal hw, inSync_writeLocal hsync hw⟩
  exact run_invariant hstep ⟨slotsOk_zero, inSync_zero⟩ (guarded_trivial _ pages) hrun

lemma agree_of_inSync (hok : SlotsOk g r) (hsync : InSync g r) (key : String) :
    Agree H g r key := by
  refine (agree_iff r key).mpr ⟨?_, ?_⟩
  · intro v hv w hw hkv hkw; exact hok.unique _ v hv w hw _ hkv hkw
  · intro _ w hw hleast v hv
    rw [hsync _ w hw, hsync _ v hv]
    exact hleast v hv

/-! ## The main result -/

/-- **THE TWO WRITERS AGREE EXACTLY WHERE THE TABLE AND THE HEADERS DO.**  For every region, whatever
    its bytes and its table, and every key, the two choosers return the same way if and only if the
    key is held at most once and, in a bucket full of other keys, both have the same victim.  After
    any writes of the owner alone this is so for every key. -/
theorem choosers_agree_iff (H : SlotHash) (g : SlotGeometry) :
    (∀ (r : SlotRegion) (key : String),
        Agree H g r key ↔ HeldOnce g r (g.bucketIndex H key) (H.keyHash128 key)
          ∧ SameVictim g r (g.bucketIndex H key) (H.keyHash128 key))
      ∧ ∀ (pages : List (String × Bytes)) (r : SlotRegion),
        run (ownStep H g) SlotRegion.zero pages = some r → ∀ key, Agree H g r key := by
  refine ⟨agree_iff, ?_⟩
  intro pages r hrun key
  obtain ⟨hok, hsync⟩ := run_own hrun
  exact agree_of_inSync hok hsync key

/-- Two pages of the owner, and a third. -/
theorem choosers_agree_iff_own_pages :
    ∃ r, run (ownStep lengthHash twoWays) SlotRegion.zero [("", [1]), ("x", [1])] = some r
      ∧ Agree lengthHash twoWays r "xx" := by
  have hrun : (run (ownStep lengthHash twoWays) SlotRegion.zero [("", [1]), ("x", [1])]).isSome
      = true := by decide +kernel
  obtain ⟨r, hr⟩ := Option.isSome_iff_exists.mp hrun
  exact ⟨r, hr, (choosers_agree_iff lengthHash twoWays).2 _ r hr "xx"⟩

/-- The owner has written one page twice and another once, then a third one was sent: the numbers
    are 4 and 2 in the table, 4 and 4 in the headers.  For a fourth page the owner picks way 1, any
    other node way 0. -/
theorem choosers_differ :
    ∃ c, run (clusterStep lengthHash twoWays) Cluster.zero [.writeLocal "n" "" [1],
        .writeLocal "n" "" [1], .writeLocal "n" "x" [1], .publish [⟨0, "xx", "n", [1]⟩]] = some c
      ∧ (pickWay lengthHash twoWays (c "n") "xxx").2 = 1
      ∧ (pickWayFromBucket lengthHash twoWays (readBucket twoWays (c "n").mem 0) "xxx").1 = 0
      ∧ ¬ Agree lengthHash twoWays (c "n") "xxx" := by
  have hrun : (run (clusterStep lengthHash twoWays) Cluster.zero [.writeLocal "n" "" [1],
        .writeLocal "n" "" [1], .writeLocal "n" "x" [1], .publish [⟨0, "xx", "n", [1]⟩]]).map
      (fun c => (pickWay lengthHash twoWays (c "n") "xxx",
        (pickWayFromBucket lengthHash twoWays (readBucket twoWays (c "n").mem 0) "xxx").1))
      = some ((0, 1), 0) := by decide +kernel
  obtain ⟨c, hc, hobs⟩ := Option.map_eq_some_iff.mp hrun
  obtain ⟨hown, hsnap⟩ := Prod.mk.inj hobs
  refine ⟨c, hc, by rw [hown], hsnap, ?_⟩
  rw [Agree, hown, hsnap]
  exact Nat.one_ne_zero

end PeerCacheSlot
