import PeerCache.SlotBatchProofs
import PeerCache.LandingProofs
import PeerCache.RailProofs

/-! # Slotmap batches

    Owners write their own pages with `write_local`; the other pages go through a READ of
    each bucket, a plan and one WRITE each.  The WRITEs are striped over the rails of the
    writer: op `i` goes over rail `i % N`, or over rail 0 where its owner has fewer.  One
    rail to one owner is a queue; between rails there is no order. -/

namespace PeerCacheSlot

open Landing OrderedDict Function Option List

/-! ## Batches -/

/-- The region of every node. -/
abbrev Cluster : Type := String → SlotRegion

/-- `results[i] = True` for each index listed. -/
def setTrue (results : List Bool) (idxs : List Nat) : List Bool :=
  idxs.foldl (fun rs i => rs.set i true) results

section

variable (H : SlotHash) (g : SlotGeometry) (owner : String → Option String)

/-- The own-key branch of the loop of `_publish_slotmap`: the indices written, and the region.
    `none` is an exception of `encode_header`. -/
def publishOwn (me : String) :
    List ((String × Bytes) × Nat) → SlotRegion → Option (List Nat × SlotRegion)
  | [], r => some ([], r)
  | ((key, data), i) :: rest, r =>
      if owner key = some me then
        (writeLocal H g r key data).bind fun (off, r') =>
          (publishOwn me rest r').map fun (idxs, r'') =>
            (if off.isSome then i :: idxs else idxs, r'')
      else publishOwn me rest r

/-- WRITEs, in the order in which they land. -/
def applyWrites (c : Cluster) (ws : List SlotWrite) : Cluster :=
  ws.foldl (fun c x => Function.update c x.page.owner
    { c x.page.owner with mem := x.apply g (c x.page.owner).mem }) c

/-- `_publish_slotmap` by node `me`, every READ and WRITE succeeding.  `order` is the order in
    which the engine lands the WRITEs, by their numbers in `batch_write_multi`. -/
def publishSlotmap (c : Cluster) (me : String) (pages : List (String × Bytes))
    (order : List Nat) : Option (List Bool × Cluster) :=
  (publishOwn H g owner me pages.zipIdx (c me)).bind fun (own, r) =>
    let c := Function.update c me r
    let remote := remotePages owner g me pages
    -- Phase A reads every bucket before Phase B writes any
    let got := remote.map fun p =>
      (p, readBucket g (c p.owner).mem (g.bucketIndex H p.key))
    (planWrites H g OrderedDict.empty got).map fun ws =>
      (setTrue (setTrue (List.replicate pages.length false) own) (ws.map (fun x => x.page.idx)),
        applyWrites g c (landed ws order))

/-- One page of `_fetch_slotmap` by node `me`: the bytes on a hit. -/
def fetchOne (c : Cluster) (me key : String) (n : Nat) : Option Bytes :=
  match owner key with
  | none => none
  | some o =>
      if o = me then readLocal H g (c me) key n
      else if g.maxPayload < n then none
      else readSnapshot H g (readBucket g (c o).mem (g.bucketIndex H key)) key n

end

variable {H : SlotHash} {g : SlotGeometry} {owner : String → Option String}

lemma length_setTrue (results : List Bool) (idxs : List Nat) :
    (setTrue results idxs).length = results.length := by
  induction idxs generalizing results with
  | nil => rfl
  | cons i idxs ih => exact (ih (results.set i true)).trans length_set

/-- One answer for each page. -/
lemma length_publishSlotmap {c c' : Cluster} {me : String} {pages : List (String × Bytes)}
    {order : List Nat} {results : List Bool}
    (h : publishSlotmap H g owner c me pages order = some (results, c')) :
    results.length = pages.length := by
  obtain ⟨own, -, hrest⟩ := bind_eq_some_iff.mp h
  obtain ⟨ws, -, hws⟩ := map_eq_some_iff.mp hrest
  obtain ⟨rfl, -⟩ := Prod.mk.inj hws
  rw [length_setTrue, length_setTrue, length_replicate]

lemma applyWrites_self (c : Cluster) (x : SlotWrite) : applyWrites g c [x] x.page.owner
    = { c x.page.owner with mem := x.apply g (c x.page.owner).mem } := Function.update_self _ _ _

lemma applyWrites_of_ne (c : Cluster) {x : SlotWrite} {o : String} (h : o ≠ x.page.owner) :
    applyWrites g c [x] o = c o := Function.update_of_ne h _ _

/-! ## Writing one page -/

/-- `m'` is `m` with one slot rewritten to this header and payload. -/
structure Stamped (g : SlotGeometry) (m m' : Mem) (b way : Nat) (hdr data : Bytes) : Prop where
  way_lt : way < g.ways
  header : headerAt g m' b way = hdr
  payload : payloadAt g m' b way data.length = data
  others : ∀ b' way', way' < g.ways → (b, way) ≠ (b', way') → SameSlot g m m' b' way'

lemma stamped_apply {x : SlotWrite} (hway : x.way < g.ways) (hlen : x.hdr.length = headerSize)
    (hfit : x.page.data.length ≤ g.maxPayload) (m : Mem) :
    Stamped g m (x.apply g m) x.bucket x.way x.hdr x.page.data := by
  refine ⟨hway, ?_, ?_, ?_⟩
  · rw [SlotWrite.apply, write_slot hlen, headerAt_copy, headerAt_stamp hlen]
  · rw [SlotWrite.apply, write_slot hlen, payloadAt_copy rfl]
  · intro b' way' hway' hne
    refine sameSlot_write (o := 0) hway hway' hne ?_
    rw [length_append, hlen, Nat.zero_add]
    exact SlotGeometry.fits hfit

variable {data hdr : Bytes}

lemma stamped_local {m : Mem} {b way : Nat} {odd even : Bytes} (hway : way < g.ways)
    (hodd : odd.length = headerSize) (heven : even.length = headerSize)
    (hfit : data.length ≤ g.maxPayload) :
    Stamped g m (((m.write (g.slotOffset b way) odd).write (g.slotOffset b way + headerSize)
      data).write (g.slotOffset b way) even) b way even data := by
  refine ⟨hway, headerAt_stamp heven, ?_, ?_⟩
  · rw [payloadAt_stamp heven, payloadAt_copy rfl]
  · intro b' way' hway' hne
    have hfits := SlotGeometry.fits hfit
    have h0 : headerSize + 0 ≤ g.slotStride := SlotGeometry.fits (Nat.zero_le _)
    exact (sameSlot_write (o := 0) hway hway' hne (by rw [hodd]; omega)).trans
      ((sameSlot_write hway hway' hne hfits).trans
        (sameSlot_write (o := 0) hway hway' hne (by rw [heven]; omega)))

lemma unique_stamp_iff {m m' : Mem} {b way : Nat} {kh : Nat × Nat}
    (h : ∀ b, ∀ v < g.ways, ∀ w < g.ways, ∀ kh, headerKey (headerAt g m b v) = some kh →
      headerKey (headerAt g m b w) = some kh → v = w) (hst : Stamped g m m' b way hdr data)
    (hkey : headerKey hdr = some kh) :
    (∀ b, ∀ v < g.ways, ∀ w < g.ways, ∀ kh, headerKey (headerAt g m' b v) = some kh →
        headerKey (headerAt g m' b w) = some kh → v = w)
      ↔ ∀ v < g.ways, headerKey (headerAt g m b v) = some kh → v = way := by
  -- a slot that was not written reads as before
  have hold : ∀ b' v, v < g.ways → (b, way) ≠ (b', v) → headerAt g m' b' v = headerAt g m b' v :=
    fun b' v hv hne => (hst.others b' v hv hne).1
  have hnew : headerKey (headerAt g m' b way) = some kh := by rw [hst.header, hkey]
  constructor
  · intro h' v hv hk
    by_cases hvw : way = v
    · exact hvw.symm
    · rw [← hold b v hv (fun hc => hvw (Prod.mk.inj hc).2)] at hk
      exact h' b v hv way hst.way_lt kh hk hnew
  · intro helse
    have hother : ∀ v < g.ways, way ≠ v → headerKey (headerAt g m' b v) ≠ some kh := by
      intro v hv hne hk
      rw [hold b v hv (fun hc => hne (Prod.mk.inj hc).2)] at hk
      exact hne (helse v hv hk).symm
    intro b' v hv w hw kh' hkv hkw
    by_cases hb : b = b'
    · subst hb
      by_cases hvw : way = v
      · by_cases hww : way = w
        · rw [← hvw, ← hww]
        · rw [← hvw, hnew] at hkv
          cases hkv
          exact absurd hkw (hother w hw hww)
      · by_cases hww : way = w
        · rw [← hww, hnew] at hkw
          cases hkw
          exact absurd hkv (hother v hv hvw)
        · rw [hold b v hv (fun hc => hvw (Prod.mk.inj hc).2)] at hkv
          rw [hold b w hw (fun hc => hww (Prod.mk.inj hc).2)] at hkw
          exact h b v hv w hw kh' hkv hkw
    · rw [hold b' v hv (fun hc => hb (Prod.mk.inj hc).1)] at hkv
      rw [hold b' w hw (fun hc => hb (Prod.mk.inj hc).1)] at hkw
      exact h b' v hv w hw kh' hkv hkw

lemma headerKey_of_decode {hi lo plen seq : Nat}
    (h : decodeHeader hdr = some (true, hi, lo, plen, seq)) : headerKey hdr = some (hi, lo) := by
  rw [headerKey, h]

lemma headerSeq_of_decode {hi lo plen seq : Nat}
    (h : decodeHeader hdr = some (true, hi, lo, plen, seq)) : headerSeq hdr = seq := by
  rw [headerSeq, h]

lemma headerSeq_of_invalid (h : headerKey hdr = none) : headerSeq hdr = 0 := by
  rw [headerSeq]
  split
  · rename_i heq
    rw [headerKey_of_decode heq] at h
    cases h
  · rfl

/-! ## The overlay shows a page the writes before it -/

/-- The headers claimed in a bucket, written to memory. -/
def writeClaims (g : SlotGeometry) (b : Nat) (m : Mem) (items : List (Nat × Bytes)) : Mem :=
  items.foldl (fun m claim => m.write (g.slotOffset b claim.1) claim.2) m

variable {b way : Nat} {c0 : Cluster} {claimed : Claimed}

lemma foldl_layOver (items : List (Nat × Bytes)) (m : Mem)
    (hok : ∀ claim ∈ items, claim.1 < g.ways ∧ claim.2.length = headerSize) :
    items.foldl (layOver g) (readBucket g m b) = readBucket g (writeClaims g b m items) b := by
  induction items generalizing m with
  | nil => rfl
  | cons claim items ih =>
    obtain ⟨⟨hway, hlen⟩, hrest⟩ := forall_mem_cons.mp hok
    have hin := SlotGeometry.way_le_bucketStride hway
    have h0 : headerSize + 0 ≤ g.slotStride := SlotGeometry.fits (Nat.zero_le _)
    have hone : layOver g (readBucket g m b) claim
        = readBucket g (m.write (g.slotOffset b claim.1) claim.2) b := by
      rw [layOver, readBucket, readBucket, SlotGeometry.slotOffset,
        Mem.read_write_inside m (by rw [hlen]; omega), hlen]
    rw [foldl_cons, hone]
    exact ih _ hrest

lemma headerAt_writeClaims (hway : way < g.ways) (items : List (Nat × Bytes))
    (hnodup : (items.map Prod.fst).Nodup) (m : Mem)
    (hok : ∀ claim ∈ items, claim.1 < g.ways ∧ claim.2.length = headerSize) :
    headerAt g (writeClaims g b m items) b way = (items.lookup way).getD (headerAt g m b way) := by
  induction items generalizing m with
  | nil => rfl
  | cons claim items ih =>
    obtain ⟨w, hdr⟩ := claim
    obtain ⟨⟨hw, hlen⟩, hrest⟩ := forall_mem_cons.mp hok
    obtain ⟨hnot, hnodup'⟩ := nodup_cons.mp hnodup
    show headerAt g (writeClaims g b (m.write (g.slotOffset b w) hdr) items) b way = _
    rw [ih hnodup' _ hrest]
    by_cases heq : way = w
    · subst heq
      have hnone : items.lookup way = none := lookup_eq_none_iff.mpr (by
        intro q hq
        refine bne_iff_ne.mpr ?_
        rintro rfl
        exact hnot (mem_map.mpr ⟨q, hq, rfl⟩))
      rw [hnone, lookup_cons_self]
      exact headerAt_stamp hlen
    · rw [lookup_cons, show (way == w) = false from beq_false_of_ne heq]
      have h0 : headerSize + 0 ≤ g.slotStride := SlotGeometry.fits (Nat.zero_le _)
      have hsame : headerAt g (m.write (g.slotOffset b w + 0) hdr) b way = headerAt g m b way :=
        headerAt_write_other hw hway (fun h => heq (Prod.mk.inj h).2.symm) (by rw [hlen]; omega)
      exact congrArg (getD (items.lookup way)) hsame

/-- `claimed` records how `c` differs from the snapshot cluster `c0`, header by header. -/
structure Overlaid (g : SlotGeometry) (c0 c : Cluster) (claimed : Claimed) : Prop where
  claim_ok : ∀ o b claims, claimed.get? (o, b) = some claims → ∀ way hdr,
    claims.get? way = some hdr → way < g.ways ∧ hdr.length = headerSize
  headers : ∀ o b way, way < g.ways → headerAt g (c o).mem b way
    = (((claimed.get? (o, b)).getD OrderedDict.empty).get? way).getD (headerAt g (c0 o).mem b way)

lemma overlaid_refl (c : Cluster) : Overlaid g c c OrderedDict.empty :=
  ⟨fun _ _ _ h => (nomatch h), fun _ _ _ _ => rfl⟩

variable {o : String}

lemma Overlaid.claims_ok {c : Cluster} (h : Overlaid g c0 c claimed) {hdr : Bytes}
    (hc : ((claimed.get? (o, b)).getD OrderedDict.empty).get? way = some hdr) :
    way < g.ways ∧ hdr.length = headerSize := by
  cases hcl : claimed.get? (o, b) with
  | none => rw [hcl] at hc; cases hc
  | some claims => rw [hcl] at hc; exact h.claim_ok o b claims hcl way hdr hc

lemma pickWay_overlay {c : Cluster} (h : Overlaid g c0 c claimed) (o : String) (b : Nat)
    (key : String) :
    pickWayFromBucket H g (overlay g (readBucket g (c0 o).mem b)
        ((claimed.get? (o, b)).getD OrderedDict.empty)) key
      = pickWayFromBucket H g (readBucket g (c o).mem b) key := by
  refine pickWayFromBucket_congr key ?_
  intro way hway
  have hok : ∀ claim ∈ ((claimed.get? (o, b)).getD empty).items,
      claim.1 < g.ways ∧ claim.2.length = headerSize :=
    fun claim hmem => h.claims_ok (get?_eq_some.mpr hmem)
  rw [overlay, foldl_layOver _ _ hok, snapHeader_readBucket hway, snapHeader_readBucket hway,
    headerAt_writeClaims hway _ (nodup _) _ hok, h.headers o b way hway]
  rfl

lemma overlaid_write {c : Cluster} (h : Overlaid g c0 c claimed) {hdr data : Bytes}
    (r' : SlotRegion) (hlen : hdr.length = headerSize)
    (hst : Stamped g (c o).mem r'.mem b way hdr data) :
    Overlaid g c0 (Function.update c o r') (claimed.set (o, b)
      (((claimed.get? (o, b)).getD OrderedDict.empty).set way hdr)) := by
  constructor
  · intro o' b' claims hcl w hdr' hw
    rw [get?_set] at hcl
    split_ifs at hcl with heq
    · cases hcl
      rw [get?_set] at hw
      by_cases hww : w = way
      · rw [if_pos hww] at hw
        cases hw
        exact ⟨hww ▸ hst.way_lt, hlen⟩
      · rw [if_neg hww] at hw; exact h.claims_ok hw
    · exact h.claim_ok o' b' claims hcl w hdr' hw
  · intro o' b' w hw
    rw [get?_set]
    by_cases ho : o' = o
    · subst ho
      rw [update_self]
      by_cases hb : b' = b
      · subst hb
        rw [if_pos rfl, getD_some, get?_set]
        split_ifs with hww
        · rw [hww]; exact hst.header
        · rw [(hst.others b' w hw (fun e => hww (Prod.mk.inj e).2.symm)).1]
          exact h.headers o' b' w hw
      · rw [if_neg (fun e => hb (Prod.mk.inj e).2),
          (hst.others b' w hw (fun e => hb (Prod.mk.inj e).1.symm)).1]
        exact h.headers o' b' w hw
    · rw [update_of_ne ho, if_neg (fun e => ho (Prod.mk.inj e).1)]
      exact h.headers o' b' w hw

/-- A slot of its owner answers for this page. -/
def Present (H : SlotHash) (g : SlotGeometry) (owner : String → Option String) (c : Cluster)
    (key : String) (n : Nat) : Prop :=
  ∃ node, owner key = some node ∧ ∃ way < g.ways,
    slotMatches H (headerAt g (c node).mem (g.bucketIndex H key) way) key n = true

/-! ## Queues -/

/-- The queue of op `i` of a batch of `me`: its owner, and the rail. -/
def laneOf (rails : String → Nat) (me : String) (remote : List RemotePage) (i : Nat) :
    Option (String × Nat) :=
  remote[i]?.map fun p => (p.owner, PeerCacheEngine.railIndex (rails me) (rails p.owner) i)

/-- The page goes to bucket `b` of node `o`. -/
def RemotePage.In (H : SlotHash) (g : SlotGeometry) (p : RemotePage) (o : String) (b : Nat) : Prop :=
  p.owner = o ∧ g.bucketIndex H p.key = b

instance (p : RemotePage) (o : String) (b : Nat) : Decidable (p.In H g o b) :=
  inferInstanceAs (Decidable (_ ∧ _))

/-- All WRITEs of the batch to this bucket go through one queue. -/
def OneLane (H : SlotHash) (g : SlotGeometry) (rails : String → Nat) (me : String)
    (remote : List RemotePage) (o : String) (b : Nat) : Prop :=
  ∀ (i j : Nat) (p q : RemotePage), remote[i]? = some p → remote[j]? = some q → p.In H g o b → q.In H g o b →
    laneOf rails me remote i = laneOf rails me remote j

instance (rails : String → Nat) (me : String) (remote : List RemotePage) (o : String) (b : Nat) :
    Decidable (OneLane H g rails me remote o b) :=
  decidable_of_iff (∀ i j : Fin remote.length, (remote.get i).In H g o b → (remote.get j).In H g o b →
      laneOf rails me remote i = laneOf rails me remote j) <| by
    refine ⟨?_, fun h i j => h i j _ _ (List.getElem?_eq_getElem i.2) (List.getElem?_eq_getElem j.2)⟩
    intro h i j p q hp hq
    obtain ⟨hi, rfl⟩ := List.getElem?_eq_some_iff.mp hp
    obtain ⟨hj, rfl⟩ := List.getElem?_eq_some_iff.mp hq
    exact h ⟨i, hi⟩ ⟨j, hj⟩

/-! ## What a slot holds after any list of WRITEs -/

section

variable {c : Cluster} {ws ws' : List SlotWrite} {x : SlotWrite} {v b : Nat}
  {o : String}

/-- The last WRITE to a slot. -/
def lastTo (ws : List SlotWrite) (s : SlotId) : Option SlotWrite :=
  (ws.filter fun x => decide (x.slot = s)).getLast?

lemma mem_of_lastTo {s : SlotId} (h : lastTo ws s = some x) : x ∈ ws ∧ x.slot = s := by
  obtain ⟨hmem, hslot⟩ := mem_filter.mp (mem_of_getLast? h)
  exact ⟨hmem, of_decide_eq_true hslot⟩

lemma lastTo_none {s : SlotId} (h : lastTo ws s = none) : ∀ x ∈ ws, x.slot ≠ s := by
  intro x hx hslot
  have hnil := getLast?_eq_none_iff.mp h
  exact absurd (mem_filter.mpr ⟨hx, decide_eq_true hslot⟩) (by rw [hnil]; exact not_mem_nil)

lemma lastTo_concat (ws : List SlotWrite) (x : SlotWrite) (s : SlotId) :
    lastTo (ws ++ [x]) s = if x.slot = s then some x else lastTo ws s := by
  rw [lastTo, filter_append]
  split_ifs with hslot
  · rw [filter_cons_of_pos (by simpa using hslot), filter_nil, getLast?_concat]
  · rw [filter_cons_of_neg (by simpa using hslot), filter_nil, append_nil]
    rfl

lemma applyWrites_concat (ws : List SlotWrite) (x : SlotWrite) :
    applyWrites g c (ws ++ [x]) = applyWrites g (applyWrites g c ws) [x] := List.foldl_append

/-- What the slot of the last WRITE reads as, and a slot without one. -/
structure SlotAfter (g : SlotGeometry) (c c' : Cluster) (o : String) (b v : Nat)
    (last : Option SlotWrite) : Prop where
  same : last = none → SameSlot g (c o).mem (c' o).mem b v
  written : ∀ x, last = some x → headerAt g (c' o).mem b v = x.hdr
    ∧ payloadAt g (c' o).mem b v x.page.data.length = x.page.data

/-- **THE LAST WRITE TO A SLOT IS WHAT IT HOLDS.** -/
lemma slotAfter (c : Cluster) (hok : ∀ x ∈ ws, WellStamped H g x ∧ x.page.Fits g) (o : String) (b : Nat)
    (hv : v < g.ways) : SlotAfter g c (applyWrites g c ws) o b v (lastTo ws (o, b, v)) := by
  induction ws using reverseRecOn with
  | nil => exact ⟨fun _ => ⟨rfl, fun _ _ => rfl⟩, by rintro _ ⟨⟩⟩
  | append_singleton ws x ih =>
    obtain ⟨hx, hxfit⟩ := hok x (mem_append_right _ (.head _))
    obtain ⟨seq, -, henc⟩ := hx.stamped
    have hst : Stamped g (applyWrites g c ws x.page.owner).mem _ x.bucket x.way x.hdr x.page.data :=
      stamped_apply hx.way_lt (length_encodeHeader henc) hxfit _
    have hbefore := ih fun y hy => hok y (mem_append_left _ hy)
    rw [applyWrites_concat, lastTo_concat]
    by_cases hslot : x.slot = (o, b, v)
    · rw [if_pos hslot]
      obtain ⟨rfl, hbw⟩ := Prod.mk.inj hslot
      obtain ⟨rfl, rfl⟩ := Prod.mk.inj hbw
      refine ⟨by rintro ⟨⟩, ?_⟩
      rintro _ ⟨⟩
      rw [applyWrites_self]
      exact ⟨hst.header, hst.payload⟩
    · rw [if_neg hslot]
      -- a slot that `x` does not go to reads as before it
      have hsame : SameSlot g (applyWrites g c ws o).mem
          (applyWrites g (applyWrites g c ws) [x] o).mem b v := by
        by_cases ho : o = x.page.owner
        · subst ho
          rw [applyWrites_self]
          exact hst.others b v hv (fun hbw => hslot (by rw [SlotWrite.slot, hbw]))
        · rw [applyWrites_of_ne _ ho]; exact ⟨rfl, fun _ _ => rfl⟩
      refine ⟨fun hnone => (hbefore.same hnone).trans hsame, ?_⟩
      intro y hy
      obtain ⟨hhdr, hpay⟩ := hbefore.written y hy
      obtain ⟨hmem, -⟩ := mem_of_lastTo hy
      have hfits := (hok y (mem_append_left _ hmem)).2
      exact ⟨hsame.1.trans hhdr, (hsame.2 _ hfits).trans hpay⟩

lemma headerAt_of_lastTo (hok : ∀ x ∈ ws, WellStamped H g x ∧ x.page.Fits g)
    (hok' : ∀ x ∈ ws', WellStamped H g x ∧ x.page.Fits g) (hv : v < g.ways)
    (hlast : lastTo ws' (o, b, v) = lastTo ws (o, b, v)) :
    headerAt g (applyWrites g c ws' o).mem b v = headerAt g (applyWrites g c ws o).mem b v := by
  have hafter := slotAfter c hok o b hv
  have hafter' := slotAfter c hok' o b hv
  rw [hlast] at hafter'
  cases hx : lastTo ws (o, b, v) with
  | none => rw [(hafter'.same hx).1, (hafter.same hx).1]
  | some x => rw [(hafter'.written x hx).1, (hafter.written x hx).1]

end

end PeerCacheSlot
