import PeerCache.SlotRegionProofs

/-! # Planning a batch of remote slot writes

    `_publish_slotmap` sends the pages it does not own through `_publish_slotmap_remote`:
    one READ of the bucket of each page, then a way for each page, then one WRITE for
    each.  Pages of one batch do not see each other's writes, so the chooser is shown the
    snapshot with the headers claimed by the earlier pages of the batch laid over it. -/

namespace PeerCacheSlot

/-- An entry of the list `remote` of `_publish_slotmap`: the page's index in the batch, its key,
    its owner and its bytes. -/
structure RemotePage where
  idx : Nat
  key : String
  owner : String
  data : Bytes

/-- One slot WRITE: `[header | payload]` of a page at `(owner, bucket, way)`. -/
structure SlotWrite where
  page : RemotePage
  bucket : Nat
  way : Nat
  hdr : Bytes

/-- A slot of the cluster: a node, a bucket of its region and a way. -/
abbrev SlotId : Type := String × Nat × Nat

/-- The slot that a WRITE goes to. -/
def SlotWrite.slot (x : SlotWrite) : SlotId := (x.page.owner, x.bucket, x.way)

/-- `claimed`: the headers picked so far, per `(owner, bucket)` and way. -/
abbrev Claimed : Type := OrderedDict (String × Nat) (OrderedDict Nat Bytes)

/-- `snap[off:off + HEADER_SIZE] = hdr` -/
def layOver (g : SlotGeometry) (snap : Bytes) (claim : Nat × Bytes) : Bytes :=
  let off := claim.1 * g.slotStride
  snap.take off ++ claim.2 ++ snap.drop (off + headerSize)

/-- The snapshot with this batch's earlier picks folded in. -/
def overlay (g : SlotGeometry) (snap : Bytes) (claims : OrderedDict Nat Bytes) :
    Bytes :=
  claims.items.foldl (layOver g) snap

/-- The pages of a batch that go to another owner and fit (`remote` in `_publish_slotmap`). -/
def remotePages (owner : String → Option String) (g : SlotGeometry) (me : String)
    (pages : List (String × Bytes)) : List RemotePage :=
  pages.zipIdx.filterMap fun ((key, data), i) =>
    match owner key with
    | none => none
    | some o =>
        if o = me then none
        else if g.maxPayload < data.length then none
        else some ⟨i, key, o, data⟩

/-- Phase B of `_publish_slotmap_remote`: a way and a header for each page, given the snapshot
    of its bucket.  `none` is the exception of `encode_header`. -/
def planWrites (H : SlotHash) (g : SlotGeometry) :
    Claimed → List (RemotePage × Bytes) → Option (List SlotWrite)
  | _, [] => some []
  | claimed, (p, snap) :: rest =>
      let bucket := g.bucketIndex H p.key
      let claims := (claimed.get? (p.owner, bucket)).getD OrderedDict.empty
      let (way, newSeq) := pickWayFromBucket H g (overlay g snap claims) p.key
      (encodeHeader H p.key p.data.length newSeq).bind fun hdr =>
        (planWrites H g (claimed.set (p.owner, bucket) (claims.set way hdr)) rest).map
          (⟨p, bucket, way, hdr⟩ :: ·)

/-- The WRITE of one slot (`_pack_slot` and its place). -/
def SlotWrite.apply (g : SlotGeometry) (x : SlotWrite) (m : Mem) : Mem :=
  m.write (g.slotOffset x.bucket x.way) (x.hdr ++ x.page.data)

variable {H : SlotHash} {g : SlotGeometry}

/-- The page fits the size class, as `_publish_slotmap` makes sure before it sends it. -/
def RemotePage.Fits (g : SlotGeometry) (p : RemotePage) : Prop := p.data.length ≤ g.maxPayload

instance (p : RemotePage) : Decidable (p.Fits g) := Nat.decLe p.data.length g.maxPayload

/-- A write carries an even header for its own page into a way of the page's bucket. -/
structure WellStamped (H : SlotHash) (g : SlotGeometry) (x : SlotWrite) : Prop where
  bucket_eq : x.bucket = g.bucketIndex H x.page.key
  way_lt : x.way < g.ways
  stamped : ∃ seq, seq % 2 = 0 ∧ encodeHeader H x.page.key x.page.data.length seq = some x.hdr

variable {p : RemotePage}

lemma planWrites_cons {claimed : Claimed} {snap : Bytes}
    {rest : List (RemotePage × Bytes)} {ws : List SlotWrite}
    (h : planWrites H g claimed ((p, snap) :: rest) = some ws) :
    ∃ claims way newSeq hdr ws',
      claims = (claimed.get? (p.owner, g.bucketIndex H p.key)).getD OrderedDict.empty
        ∧ (way, newSeq) = pickWayFromBucket H g (overlay g snap claims) p.key
        ∧ encodeHeader H p.key p.data.length newSeq = some hdr
        ∧ planWrites H g (claimed.set (p.owner, g.bucketIndex H p.key) (claims.set way hdr)) rest
          = some ws'
        ∧ ws = ⟨p, g.bucketIndex H p.key, way, hdr⟩ :: ws' := by
  rw [planWrites] at h
  obtain ⟨hdr, hhdr, hrest⟩ := Option.bind_eq_some_iff.mp h
  obtain ⟨ws', hws', rfl⟩ := Option.map_eq_some_iff.mp hrest
  exact ⟨_, _, _, hdr, ws', rfl, rfl, hhdr, hws', rfl⟩

/-- There is one WRITE for each page, in the order of the pages. -/
lemma planWrites_pages {pages : List (RemotePage × Bytes)} :
    ∀ {claimed : Claimed} {ws : List SlotWrite}, planWrites H g claimed pages = some ws →
      ws.map (fun x => x.page) = pages.map Prod.fst := by
  induction pages with
  | nil =>
    intro claimed ws h
    cases h
    rfl
  | cons q rest ih =>
    obtain ⟨p, snap⟩ := q
    intro claimed ws h
    obtain ⟨claims, way, newSeq, hdr, ws', -, -, -, hws', rfl⟩ := planWrites_cons h
    rw [List.map_cons, List.map_cons, ih hws']

/-- **EVERY PLANNED WRITE IS WELL STAMPED** and carries a page of the batch. -/
lemma planWrites_wellStamped {pages : List (RemotePage × Bytes)} :
    ∀ {claimed : Claimed} {ws : List SlotWrite}, planWrites H g claimed pages = some ws →
      ∀ x ∈ ws, WellStamped H g x ∧ ∃ q ∈ pages, x.page = q.1 := by
  induction pages with
  | nil =>
    intro claimed ws h x hx
    cases h
    cases hx
  | cons q rest ih =>
    obtain ⟨p, snap⟩ := q
    intro claimed ws h x hx
    obtain ⟨claims, way, newSeq, hdr, ws', -, hpick, hhdr, hws', rfl⟩ := planWrites_cons h
    rcases List.mem_cons.mp hx with rfl | hx
    · obtain ⟨hrule, heven, -⟩ :=
        pickWayFromBucket_spec (H := H) (g := g) (overlay g snap claims) p.key
      rw [← hpick] at hrule heven
      exact ⟨⟨rfl, hrule.1, newSeq, heven, hhdr⟩, (p, snap), (.head _), rfl⟩
    · obtain ⟨hstamp, q, hq, hpage⟩ := ih hws' x hx
      exact ⟨hstamp, q, .tail _ hq, hpage⟩

lemma mem_remotePages {owner : String → Option String} {me : String}
    {pages : List (String × Bytes)} (h : p ∈ remotePages owner g me pages) :
    pages[p.idx]? = some (p.key, p.data) ∧ owner p.key = some p.owner ∧ p.owner ≠ me
      ∧ p.data.length ≤ g.maxPayload := by
  obtain ⟨⟨⟨key, data⟩, i⟩, hmem, hp⟩ := List.mem_filterMap.mp h
  have hget : pages[i]? = some (key, data) := List.mem_zipIdx_iff_getElem?.mp hmem
  cases ho : owner key with
  | none => simp only [ho] at hp; cases hp
  | some o =>
    simp only [ho] at hp
    by_cases hme : o = me
    · rw [if_pos hme] at hp; cases hp
    · rw [if_neg hme] at hp
      by_cases hbig : g.maxPayload < data.length
      · rw [if_pos hbig] at hp; cases hp
      · rw [if_neg hbig] at hp
        cases hp
        exact ⟨hget, ho, hme, Nat.not_lt.mp hbig⟩

end PeerCacheSlot
