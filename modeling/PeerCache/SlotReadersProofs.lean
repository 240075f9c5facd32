import PeerCache.ProbeProofs
import PeerCache.SlotForkProofs

/-! # The readers of a slot

    A page in a slot is read in four ways.  Its owner scans the headers in place
    (`read_local`, `exists_local`); any other node READs the whole bucket and scans the copy
    (`_fetch_slotmap`, `_exists_slotmap`).  The owner's read compares the length asked for
    with the header only, the other one with `max_payload` first; the probes compare no
    length at all. -/

namespace PeerCacheSlot

open Transition List

variable {H : SlotHash} {g : SlotGeometry}

/-- Every slot with a valid header announces a payload that fits the size class. -/
def PayloadsFit (g : SlotGeometry) (m : Mem) : Prop :=
  ∀ b < g.numBuckets, ∀ w < g.ways, ∀ hi lo plen seq,
    decodeHeader (headerAt g m b w) = some (true, hi, lo, plen, seq) → plen ≤ g.maxPayload

/-! ## In place and from a copy -/

variable {n : Nat} {r : SlotRegion} {p : Publishing}

lemma readSnapshot_readBucket (r : SlotRegion) (key : String) (hn : n ≤ g.maxPayload) :
    readSnapshot H g (readBucket g r.mem (g.bucketIndex H key)) key n = readLocal H g r key n := by
  have hfind : (range g.ways).find? (fun way =>
        slotMatches H (snapHeader g (readBucket g r.mem (g.bucketIndex H key)) way) key n)
      = (range g.ways).find? (fun way =>
        slotMatches H (headerAt g r.mem (g.bucketIndex H key) way) key n) := by
    refine find?_congr ?_
    intro way hway
    rw [snapHeader_readBucket (mem_range.mp hway)]
  rw [readSnapshot, readLocal, hfind]
  refine Option.map_congr ?_
  intro way hway
  have hlt := mem_range.mp (mem_of_find?_eq_some hway)
  exact snapPayload_readBucket hlt hn

lemma readLocal_oversized (hfit : PayloadsFit g r.mem) (key : String) (hn : g.maxPayload < n) :
    readLocal H g r key n = none := by
  refine Option.eq_none_iff_forall_ne_some.mpr ?_
  intro bytes hhit
  obtain ⟨way, hway, hmatch, -⟩ := readLocal_eq_some hhit
  obtain ⟨seq, -, hdec⟩ := slotMatches_iff.mp hmatch
  exact absurd (hfit _ (Nat.mod_lt _ g.numBuckets_pos) way hway _ _ _ _ hdec) (Nat.not_le.mpr hn)

/-- **READS AGREE** from every node, the owner included. -/
lemma fetchOne_eq_readLocal {owner : String → Option String} {c : Cluster} {o key : String}
    (howner : owner key = some o) (hfit : PayloadsFit g (c o).mem) (me : String) (n : Nat) :
    fetchOne H g owner c me key n = readLocal H g (c o) key n := by
  rw [fetchOne, howner]
  simp only
  by_cases hme : o = me
  · rw [if_pos hme, hme]
  · rw [if_neg hme]
    split_ifs with hn
    · rw [readLocal_oversized hfit key hn]
    · rw [readSnapshot_readBucket (c o) key (Nat.not_lt.mp hn)]

/-! ## Probes -/

lemma existsLocal_isSome {key : String} :
    (existsLocal H g r key).isSome = true ↔ ∃ way < g.ways,
      (slotPresent H (headerAt g r.mem (g.bucketIndex H key) way) key).isSome = true := by
  rw [existsLocal, findSome?_isSome_iff]
  simp only [mem_range]

lemma existsLocal_iff_read (r : SlotRegion) (key : String) :
    (existsLocal H g r key).isSome = true ↔ ∃ n, (readLocal H g r key n).isSome = true := by
  constructor
  · intro h
    obtain ⟨n, hn⟩ := Option.isSome_iff_exists.mp h
    exact ⟨n, existsLocal_sound hn⟩
  · rintro ⟨n, hn⟩
    obtain ⟨bytes, hbytes⟩ := Option.isSome_iff_exists.mp hn
    obtain ⟨way, hway, hmatch, -⟩ := readLocal_eq_some hbytes
    refine existsLocal_isSome.mpr ⟨way, hway, ?_⟩
    rw [slotPresent_iff.mpr hmatch]
    rfl

/-! ## Regions that are written to -/

lemma payloadsFit_zero : PayloadsFit g SlotRegion.zero.mem := by
  intro b _ w _ hi lo plen seq hdec
  rw [headerAt_zero, decodeHeader_zero] at hdec
  cases hdec

lemma payloadsFit_stamp {m m' : Mem} {b way seq : Nat} {key : String} {hdr data : Bytes}
    (h : PayloadsFit g m) (hst : Stamped g m m' b way hdr data)
    (henc : encodeHeader H key data.length seq = some hdr) (hdata : data.length ≤ g.maxPayload) :
    PayloadsFit g m' := by
  intro b' hb' way' hway' hi lo plen seq' hdec
  by_cases hslot : (b, way) = (b', way')
  · cases hslot
    rw [hst.header, decodeHeader_encodeHeader henc] at hdec
    simp only [Option.some.injEq, Prod.mk.injEq] at hdec
    rw [← hdec.2.2.2.1]
    exact hdata
  · rw [(hst.others b' way' hway' hslot).1] at hdec
    exact h b' hb' way' hway' hi lo plen seq' hdec

lemma payloadsFit_own {owner : String → Option String} {me : String} {r : SlotRegion}
    {pages : List ((String × Bytes) × Nat)} {own : List Nat × SlotRegion}
    (h : PayloadsFit g r.mem) (hown : publishOwn H g owner me pages r = some own) :
    PayloadsFit g own.2.mem := by
  induction pages generalizing r own with
  | nil =>
    cases hown
    exact h
  | cons q pages ih =>
    obtain ⟨⟨key, data⟩, i⟩ := q
    rw [publishOwn] at hown
    split_ifs at hown
    · obtain ⟨⟨off, r'⟩, hw, hrest⟩ := Option.bind_eq_some_iff.mp hown
      obtain ⟨⟨idxs, r''⟩, hown', rfl⟩ := Option.map_eq_some_iff.mp hrest
      refine @ih _ (idxs, r'') ?_ hown'
      rcases writeLocal_cases hw with ⟨-, -, rfl⟩ | ⟨hdata, hdr, henc, hst, -⟩
      · exact h
      · exact payloadsFit_stamp h hst henc hdata
    · exact ih h hown

lemma payloadsFit_applyWrites {ws : List SlotWrite} {c : Cluster}
    (hok : ∀ x ∈ ws, WellStamped H g x ∧ x.page.Fits g) (h : ∀ node, PayloadsFit g (c node).mem) :
    ∀ node, PayloadsFit g (applyWrites g c ws node).mem := by
  induction ws generalizing c with
  | nil => exact h
  | cons x ws ih =>
    obtain ⟨⟨hstamp, hfit⟩, hrest⟩ := forall_mem_cons.mp hok
    obtain ⟨seq, -, henc⟩ := hstamp.stamped
    refine ih (c := applyWrites g c [x]) hrest ?_
    intro node
    by_cases hn : node = x.page.owner
    · subst hn
      rw [applyWrites_self]
      exact payloadsFit_stamp (h _)
        (stamped_apply hstamp.way_lt (length_encodeHeader henc) hfit _) henc hfit
    · rw [applyWrites_of_ne _ hn]; exact h node

/-- **EVERY RUN**, whatever transfers fail, leaves pages that fit. -/
lemma payloadsFit_of_run {owner : String → Option String} {batches : List Batch} {c : Cluster}
    (hrun : run (batchStep H g owner) Cluster.zero batches = some c) (node : String) :
    PayloadsFit g (c node).mem := by
  refine run_invariant (I := fun c : Cluster => ∀ node, PayloadsFit g (c node).mem) ?_
    (fun _ => payloadsFit_zero) (guarded_trivial _ batches) hrun node
  rintro c a c' - h - hstep
  obtain ⟨res, hres, rfl⟩ := Option.map_eq_some_iff.mp hstep
  obtain ⟨own, hown, hrest⟩ := Option.bind_eq_some_iff.mp hres
  obtain ⟨ws, hws, rfl⟩ := Option.map_eq_some_iff.mp hrest
  refine payloadsFit_applyWrites (H := H) ?_ ?_
  · exact fun x hx => planFaulty_ok (fun s hs => (sent_fits hs).2) hws x (mem_of_arrived hx)
  · intro node
    by_cases hn : node = a.me
    · subst hn
      rw [Function.update_self]
      exact payloadsFit_own (h _) hown
    · rw [Function.update_of_ne hn]; exact h node

end PeerCacheSlot

namespace PeerCacheKeys

open PeerCacheSlot

/-- **PROBES AGREE** from every node, on any bytes. -/
lemma existsOne_eq_existsLocal {n : Node} (s : Place) {o key : String}
    (howner : n.dataOwner key = some o) :
    existsOne n s key = (existsLocal n.hash n.geom (s.cluster o) key).isSome := by
  rw [existsOne, howner]
  simp only
  split_ifs with hme
  · rw [hme]
  · rw [Bool.eq_iff_iff, existsLocal_isSome, List.any_eq_true]
    constructor
    · rintro ⟨way, hway, hfound⟩
      have hlt := List.mem_range.mp hway
      rw [snapHeader_readBucket hlt] at hfound
      exact ⟨way, hlt, hfound⟩
    · rintro ⟨way, hlt, hfound⟩
      refine ⟨way, List.mem_range.mpr hlt, ?_⟩
      rw [snapHeader_readBucket hlt]
      exact hfound

/-- **ALL READERS OF A SLOT AGREE.**  For every geometry, every key and its owner, and any contents of
    the owner's region in which valid headers announce no more than `max_payload`: `read_local` and
    the read of any other node return the same bytes or both miss, at every length; `exists_local`
    and the probe of any other node agree; a key is found exactly when a read of it hits for some
    length; and a read of the length that `exists_local` answers hits. -/
theorem slot_readers_agree (n : Node) (s : Place) {o key : String} (howner : n.dataOwner key = some o)
    (hfit : PayloadsFit n.geom (s.cluster o).mem) :
    (∀ me length, fetchOne n.hash n.geom n.dataOwner s.cluster me key length
        = readLocal n.hash n.geom (s.cluster o) key length)
      ∧ (∀ me, existsOne { n with me := me } s key
        = (existsLocal n.hash n.geom (s.cluster o) key).isSome)
      ∧ (existsOne n s key = true ↔ ∃ length,
        (readLocal n.hash n.geom (s.cluster o) key length).isSome = true)
      ∧ ∀ length, existsLocal n.hash n.geom (s.cluster o) key = some length →
        (readLocal n.hash n.geom (s.cluster o) key length).isSome = true := by
  refine ⟨fetchOne_eq_readLocal howner hfit, ?_, ?_, fun _ => existsLocal_sound⟩
  · intro me
    exact existsOne_eq_existsLocal (n := { n with me := me }) s howner
  · rw [existsOne_eq_existsLocal s howner]
    exact existsLocal_iff_read _ key

/-- A page that its owner wrote, read by any node. -/
theorem slot_readers_agree_own_page :
    ∃ c, Transition.run (batchStep lengthHash twoWays fun _ => some "n") Cluster.zero
        [⟨"n", [("x", [5])], fun _ => true, fun _ => true, []⟩] = some c
      ∧ PayloadsFit twoWays (c "n").mem
      ∧ ∀ me, fetchOne lengthHash twoWays (fun _ => some "n") c me "x" 1
        = readLocal lengthHash twoWays (c "n") "x" 1 := by
  have hsome : (Transition.run (batchStep lengthHash twoWays fun _ => some "n") Cluster.zero
      [⟨"n", [("x", [5])], fun _ => true, fun _ => true, []⟩]).isSome = true := by decide +kernel
  obtain ⟨c, hc⟩ := Option.isSome_iff_exists.mp hsome
  have hfit := payloadsFit_of_run hc "n"
  have howner : (loneNode "").dataOwner "x" = some "n" := rfl
  have hagree := slot_readers_agree (loneNode "")
    ⟨true, fun _ => OrderedDict.empty, fun _ => none, c⟩ howner hfit
  exact ⟨c, hc, hfit, fun me => hagree.1 me 1⟩

end PeerCacheKeys
