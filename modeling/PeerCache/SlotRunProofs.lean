import PeerCache.SlotPublishProofs
import PeerCache.TransitionProofs
import PeerCache.WayClaimsProofs

/-! # Regions under local writes and remote batches

    A batch claims ways with `pick_way_from_bucket` (`pickWayFromBucket_live`); the owner writes
    with `pick_way`.  Over any run of both, the slots of every region stay in order. -/

namespace PeerCacheSlot

open Transition WayClaims Option

variable {H : SlotHash} {g : SlotGeometry}

/-! ## The ways of a region -/

/-- The ways of a bucket of a region. -/
def bucketWays (g : SlotGeometry) (r : SlotRegion) (b : Nat) : Ways (Nat × Nat) :=
  waysOf (headerAt g r.mem b)

lemma pickWayFromBucket_live (r : SlotRegion) (b : Nat) (key : String) :
    Picks g.ways (bucketWays g r b) (H.keyHash128 key)
      (pickWayFromBucket H g (readBucket g r.mem b) key).1
      (pickWayFromBucket H g (readBucket g r.mem b) key).2 := by
  refine (pickWayFromBucket_claims (readBucket g r.mem b) key).congr ?_ ?_
  · intro v hv
    rw [waysOf_key, bucketWays, waysOf_key, snapHeader_readBucket hv]
  · intro v hv
    rw [waysOf_seq, bucketWays, waysOf_seq, snapHeader_readBucket hv]

/-! ## Batches, planned from one snapshot -/

variable (H g) in
/-- Phases A and B of `_publish_slotmap_remote`: a READ of the bucket of every page, then a
    way and a header for each. -/
def planBatch (c : Cluster) (pages : List RemotePage) : Option (List SlotWrite) :=
  planWrites H g OrderedDict.empty
    (pages.map fun p => (p, readBucket g (c p.owner).mem (g.bucketIndex H p.key)))

variable (H g) in
/-- `_publish_slotmap_remote`, every READ and WRITE succeeding. -/
def publishRemote (c : Cluster) (pages : List RemotePage) : Option Cluster :=
  (planBatch H g c pages).map (applyWrites g c)

/-- One page of the batch on the live bucket: the slot WRITE that `pick_way_from_bucket` and
    `encode_header` make. -/
structure LiveWrite (H : SlotHash) (g : SlotGeometry) (c : Cluster) (x : SlotWrite) : Prop where
  bucket : x.bucket = g.bucketIndex H x.page.key
  stamped : ∃ seq, pickWayFromBucket H g (readBucket g (c x.page.owner).mem x.bucket) x.page.key
      = (x.way, seq)
    ∧ encodeHeader H x.page.key x.page.data.length seq = some x.hdr

variable {c : Cluster} {x : SlotWrite} {r r' : SlotRegion} {data : Bytes}

lemma LiveWrite.claims (h : LiveWrite H g c x) :
    ∃ seq, Picks g.ways (bucketWays g (c x.page.owner) x.bucket) (H.keyHash128 x.page.key) x.way seq
      ∧ encodeHeader H x.page.key x.page.data.length seq = some x.hdr := by
  obtain ⟨seq, hpick, henc⟩ := h.stamped
  have hclaim := pickWayFromBucket_live (H := H) (g := g) (c x.page.owner) x.bucket x.page.key
  rw [hpick] at hclaim
  exact ⟨seq, hclaim, henc⟩

lemma LiveWrite.holder (h : LiveWrite H g c x) :
    ∀ v < g.ways, headerKey (headerAt g (c x.page.owner).mem x.bucket v)
        = some (H.keyHash128 x.page.key) →
      headerKey (headerAt g (c x.page.owner).mem x.bucket x.way) = some (H.keyHash128 x.page.key) := by
  obtain ⟨seq, hclaim, -⟩ := h.claims
  intro v hv hk
  have := hclaim.holder v hv
  rw [bucketWays, waysOf_key, waysOf_key] at this
  exact this hk

lemma LiveWrite.lands (h : LiveWrite H g c x) (hfit : x.page.Fits g) :
    Stamped g (c x.page.owner).mem (x.apply g (c x.page.owner).mem) x.bucket x.way x.hdr x.page.data := by
  obtain ⟨seq, hclaim, henc⟩ := h.claims
  exact stamped_apply hclaim.lt (length_encodeHeader henc) hfit _

lemma planWrites_live {pages : List RemotePage} (hfit : ∀ p ∈ pages, p.Fits g) :
    ∀ {c0 c : Cluster} {claimed : Claimed}, Overlaid g c0 c claimed →
      planWrites H g claimed (pages.map fun p =>
          (p, readBucket g (c0 p.owner).mem (g.bucketIndex H p.key)))
        = planBatch H g c pages := by
  induction pages with
  | nil => intro c0 c claimed _; rfl
  | cons p pages ih =>
    intro c0 c claimed hover
    obtain ⟨hp, hrest⟩ := List.forall_mem_cons.mp hfit
    have hsame := pickWay_overlay (H := H) hover p.owner (g.bucketIndex H p.key) p.key
    have hself := pickWay_overlay (H := H) (overlaid_refl (g := g) c) p.owner
      (g.bucketIndex H p.key) p.key
    rw [planBatch, List.map_cons, List.map_cons, planWrites, planWrites, hsame, hself]
    cases hpick : pickWayFromBucket H g (readBucket g (c p.owner).mem (g.bucketIndex H p.key))
        p.key with
    | mk way seq =>
      show (encodeHeader H p.key p.data.length seq).bind _
        = (encodeHeader H p.key p.data.length seq).bind _
      cases henc : encodeHeader H p.key p.data.length seq with
      | none => rfl
      | some hdr =>
        -- both plans go on as the plan of the cluster after this write
        have hlive : LiveWrite H g c ⟨p, g.bucketIndex H p.key, way, hdr⟩ := ⟨rfl, seq, hpick, henc⟩
        have hst := hlive.lands hp
        have hlen := length_encodeHeader henc
        have h1 := ih hrest (overlaid_write hover { c p.owner with
          mem := SlotWrite.apply g ⟨p, g.bucketIndex H p.key, way, hdr⟩ (c p.owner).mem } hlen hst)
        have h2 := ih hrest (overlaid_write (overlaid_refl (g := g) c) { c p.owner with
          mem := SlotWrite.apply g ⟨p, g.bucketIndex H p.key, way, hdr⟩ (c p.owner).mem } hlen hst)
        rw [bind_some, bind_some, h1, h2]

/-- **A BATCH IS ITS PAGES, ONE AFTER THE OTHER**: the first page is planned on the live
    bucket, the others on the cluster its WRITE leaves. -/
lemma planBatch_cons {p : RemotePage} {pages : List RemotePage} {ws : List SlotWrite}
    (hfit : ∀ q ∈ p :: pages, q.Fits g) (h : planBatch H g c (p :: pages) = some ws) :
    ∃ x ws', ws = x :: ws' ∧ x.page = p ∧ LiveWrite H g c x
      ∧ planBatch H g (applyWrites g c [x]) pages = some ws' := by
  obtain ⟨hp, hrest⟩ := List.forall_mem_cons.mp hfit
  obtain ⟨claims, way, seq, hdr, ws', hclaims, hpick, henc, hws', rfl⟩ := planWrites_cons h
  rw [hclaims, pickWay_overlay (H := H) (overlaid_refl (g := g) c)] at hpick
  have hlive : LiveWrite H g c ⟨p, g.bucketIndex H p.key, way, hdr⟩ := ⟨rfl, seq, hpick.symm, henc⟩
  refine ⟨_, ws', rfl, rfl, hlive, ?_⟩
  rw [hclaims] at hws'
  rw [← hws']
  exact (planWrites_live hrest (overlaid_write (overlaid_refl (g := g) c) _
    (length_encodeHeader henc) (hlive.lands hp))).symm

/-! ## What every write keeps -/

/-- No key is held twice in a bucket, and every sequence number is even. -/
structure SlotsOk (g : SlotGeometry) (r : SlotRegion) : Prop where
  unique : ∀ b, ∀ v < g.ways, ∀ w < g.ways, ∀ kh, headerKey (headerAt g r.mem b v) = some kh →
    headerKey (headerAt g r.mem b w) = some kh → v = w
  even : ∀ b, ∀ w < g.ways, headerSeq (headerAt g r.mem b w) % 2 = 0
  book : ∀ b w, r.seqOf b w % 2 = 0

lemma SlotsOk.tidy (h : SlotsOk g r) (b : Nat) : Tidy g.ways (bucketWays g r b) where
  vacant_seq v _ hnone := by
    rw [bucketWays, waysOf_key] at hnone
    rw [bucketWays, waysOf_seq]
    exact headerSeq_of_invalid hnone
  unique v hv w hw kh hkv hkw := by
    rw [bucketWays, waysOf_key] at hkv hkw
    exact h.unique b v hv w hw kh hkv hkw

variable {kh : Nat × Nat} {hdr : Bytes} {off : Option Nat}

lemma SlotsOk.own_unique (h : SlotsOk g r) (b : Nat) {v w : Nat} (hv : v < g.ways) (hw : w < g.ways)
    (hkv : (ownWays g r b).key v = some kh) (hkw : (ownWays g r b).key w = some kh) : v = w := by
  rw [ownWays_key] at hkv hkw
  exact h.unique b v hv w hw kh hkv hkw

lemma slotsOk_zero : SlotsOk g SlotRegion.zero := by
  have hnone : ∀ b w, headerKey (headerAt g SlotRegion.zero.mem b w) = none := by
    intro b w
    rw [headerAt_zero, headerKey, decodeHeader_zero]
  refine ⟨?_, ?_, fun _ _ => rfl⟩
  · intro b v _ w _ kh hk
    rw [hnone] at hk
    cases hk
  · intro b w _
    rw [headerSeq_of_invalid (hnone b w)]

/-- **ONE WRITE**: an even header on the way of the key, or on a way of a key that is not
    held. -/
lemma SlotsOk.stamp (h : SlotsOk g r) {b way : Nat} (hst : Stamped g r.mem r'.mem b way hdr data)
    (hrule : ∀ v < g.ways, headerKey (headerAt g r.mem b v) = some kh →
      headerKey (headerAt g r.mem b way) = some kh) (hkey : headerKey hdr = some kh)
    (heven : headerSeq hdr % 2 = 0) (hbook : ∀ b w, r'.seqOf b w % 2 = 0) : SlotsOk g r' := by
  refine ⟨(unique_stamp_iff h.unique hst hkey).mpr ?_, ?_, hbook⟩
  · exact fun v hv hk => h.unique b v hv way hst.way_lt kh hk (hrule v hv hk)
  · intro b' w hw
    by_cases hslot : (b, way) = (b', w)
    · cases hslot
      rw [hst.header]
      exact heven
    · rw [(hst.others b' w hw hslot).1]; exact h.even b' w hw

lemma headerKey_stamp {key : String} {n seq : Nat} (h : encodeHeader H key n seq = some hdr) :
    headerKey hdr = some (H.keyHash128 key) ∧ headerSeq hdr = seq :=
  ⟨headerKey_of_decode (decodeHeader_encodeHeader h),
    headerSeq_of_decode (decodeHeader_encodeHeader h)⟩

/-- **WHAT `write_local` CAN DO**: refuse a page that is too big, or stamp the slot of its
    chooser with the number after the table's. -/
lemma writeLocal_cases {key : String} (h : writeLocal H g r key data = some (off, r')) :
    (g.maxPayload < data.length ∧ off = none ∧ r' = r) ∨ (data.length ≤ g.maxPayload ∧ ∃ hdr,
          encodeHeader H key data.length
              (nextSeq (r.seqOf (g.bucketIndex H key) (pickWay H g r key).2)) = some hdr
            ∧ Stamped g r.mem r'.mem (g.bucketIndex H key) (pickWay H g r key).2 hdr data
            ∧ r'.seq = r.seq.set (g.bucketIndex H key, (pickWay H g r key).2)
              (nextSeq (r.seqOf (g.bucketIndex H key) (pickWay H g r key).2))) := by
  rw [writeLocal] at h
  split_ifs at h with hbig
  · cases h; exact .inl ⟨hbig, rfl, rfl⟩
  · have hfit := Nat.not_lt.mp hbig
    have hway := (pickWay_chooses (H := H) (g := g) r key).lt
    have hpick : pickWay H g r key = (g.bucketIndex H key, (pickWay H g r key).2) := rfl
    generalize (pickWay H g r key).2 = way at *
    generalize g.bucketIndex H key = b at *
    rw [hpick] at h
    simp only [markSeq] at h
    obtain ⟨marked, hmarked, hdone⟩ := bind_eq_some_iff.mp h
    obtain ⟨odd, hodd, rfl⟩ := map_eq_some_iff.mp hmarked
    obtain ⟨done, hd, hr⟩ := map_eq_some_iff.mp hdone
    obtain ⟨hdr, henc, rfl⟩ := map_eq_some_iff.mp hd
    obtain ⟨-, rfl⟩ := Prod.mk.inj hr
    refine .inr ⟨hfit, hdr, henc, ?_, rfl⟩
    exact stamped_local hway (length_encodeHeader hodd) (length_encodeHeader henc) hfit

lemma SlotsOk.writeLocal (h : SlotsOk g r) {key : String}
    (hw : writeLocal H g r key data = some (off, r')) : SlotsOk g r' := by
  rcases writeLocal_cases hw with ⟨-, -, rfl⟩ | ⟨-, hdr, henc, hst, hseq⟩
  · exact h
  · obtain ⟨hkey, hhdr⟩ := headerKey_stamp henc
    have heven := nextSeq_even (r.seqOf (g.bucketIndex H key) (pickWay H g r key).2)
    refine h.stamp hst (pickWay_picks r key).2 hkey (by rw [hhdr]; exact heven) ?_
    intro b w
    rw [SlotRegion.seqOf, hseq, OrderedDict.get?_set]
    split_ifs with hslot
    · rw [getD_some]; exact heven
    · exact h.book b w

/-- Every region of the cluster is in order. -/
def ClusterOk (g : SlotGeometry) (c : Cluster) : Prop := ∀ node, SlotsOk g (c node)

lemma ClusterOk.liveWrite (h : ClusterOk g c) (hx : LiveWrite H g c x) (hfit : x.page.Fits g) :
    ClusterOk g (applyWrites g c [x]) := by
  intro node
  show SlotsOk g (Function.update c x.page.owner _ node)
  by_cases hn : node = x.page.owner
  · subst hn
    rw [Function.update_self]
    obtain ⟨seq, hclaim, henc⟩ := hx.claims
    obtain ⟨hkey, hhdr⟩ := headerKey_stamp henc
    refine (h x.page.owner).stamp (hx.lands hfit) hx.holder hkey ?_ (h x.page.owner).book
    obtain ⟨v, -, -, hseq⟩ := hclaim.stamp
    rw [hhdr, hseq, nextStamp]
    omega
  · rw [Function.update_of_ne hn]; exact h node

/-! ## Runs -/

/-- A call: a page its owner writes itself, or a batch sent to the owners of its pages. -/
inductive ClusterOp where
  | writeLocal (node key : String) (data : Bytes)
  | publish (pages : List RemotePage)

variable (H g) in
/-- One call; `none` is an exception, or a batch with a page that is never sent. -/
def clusterStep (c : Cluster) : ClusterOp → Option Cluster
  | .writeLocal node key data =>
      (writeLocal H g (c node) key data).map fun x => Function.update c node x.2
  | .publish pages => if ∀ p ∈ pages, p.Fits g then publishRemote H g c pages else none

/-- The regions as they are allocated. -/
def Cluster.zero : Cluster := fun _ => SlotRegion.zero

lemma clusterOk_planned {pages : List RemotePage} (hfit : ∀ p ∈ pages, p.Fits g) :
    ∀ {c : Cluster} {ws : List SlotWrite}, ClusterOk g c → planBatch H g c pages = some ws →
      ClusterOk g (applyWrites g c ws) := by
  induction pages with
  | nil =>
    intro c ws h hws
    cases hws
    exact h
  | cons p pages ih =>
    intro c ws h hws
    obtain ⟨x, ws', rfl, hpage, hlive, hrest⟩ := planBatch_cons hfit hws
    obtain ⟨hp, hpages⟩ := List.forall_mem_cons.mp hfit
    show ClusterOk g (applyWrites g (applyWrites g c [x]) ws')
    exact ih hpages (h.liveWrite hlive (hpage ▸ hp)) hrest

lemma clusterStep_ok {c' : Cluster} {op : ClusterOp} (h : ClusterOk g c)
    (hstep : clusterStep H g c op = some c') : ClusterOk g c' := by
  cases op with
  | writeLocal node key data =>
    obtain ⟨⟨off, r'⟩, hw, rfl⟩ := map_eq_some_iff.mp hstep
    intro node'
    by_cases hn : node' = node
    · subst hn
      rw [Function.update_self]
      exact (h node').writeLocal hw
    · rw [Function.update_of_ne hn]; exact h node'
  | publish pages =>
    rw [clusterStep] at hstep
    by_cases hfit : ∀ p ∈ pages, p.Fits g
    · rw [if_pos hfit] at hstep
      obtain ⟨ws, hws, rfl⟩ := map_eq_some_iff.mp hstep
      exact clusterOk_planned hfit h hws
    · rw [if_neg hfit] at hstep; cases hstep

/-- **EVERY RUN** keeps the regions in order. -/
lemma run_clusterOk {ops : List ClusterOp} (hrun : run (clusterStep H g) Cluster.zero ops = some c) :
    ClusterOk g c := by
  have hstep : ∀ c op c', op ∈ ops → ClusterOk g c → True → clusterStep H g c op = some c' →
      ClusterOk g c' := fun _ _ _ _ h _ hs => clusterStep_ok h hs
  exact run_invariant hstep (fun _ => slotsOk_zero) (guarded_trivial _ ops) hrun

end PeerCacheSlot
