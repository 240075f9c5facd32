import PeerCache.SlotBatchProofs

/-! # The bytes a slot write touches

    Owner and remote writers compute the place of a page from the same geometry: the key selects the
    bucket, the chooser the way, and header and payload go into the slot of the two.  The slots tile
    the region and the slots of a bucket are what a bucket READ covers, so a write changes no byte of
    any other slot. -/

namespace PeerCacheSlot

namespace SlotGeometry

variable {g : SlotGeometry} {b w a : Nat}

/-- Address `a` lies in slot `(b, w)`. -/
def InSlot (g : SlotGeometry) (b w a : Nat) : Prop := g.slotOffset b w ≤ a ∧ a < g.slotOffset b w + g.slotStride

lemma bucketIndex_lt (H : SlotHash) (key : String) : g.bucketIndex H key < g.numBuckets :=
  Nat.mod_lt _ g.numBuckets_pos

lemma slot_le_capacity (hb : b < g.numBuckets) (hw : w < g.ways) :
    g.slotOffset b w + g.slotStride ≤ g.capacity := by
  have hway := way_le_bucketStride hw
  calc g.slotOffset b w + g.slotStride ≤ b * g.bucketStride + g.bucketStride := by
        rw [slotOffset]
        omega
    _ = g.bucketStride * (b + 1) := by rw [Nat.mul_comm, Nat.mul_succ]
    _ ≤ g.capacity := Nat.mul_le_mul_left _ hb

lemma inSlot_unique {b' w' : Nat} (hw : w < g.ways) (hw' : w' < g.ways) (h : g.InSlot b w a)
    (h' : g.InSlot b' w' a) : (b, w) = (b', w') := by
  by_contra hne
  obtain ⟨hle, hlt⟩ := h
  obtain ⟨hle', hlt'⟩ := h'
  rcases slots_apart hw hw' hne with hbefore | hbehind
  · omega
  · omega

lemma inSlot_bucket : (b * g.bucketStride ≤ a ∧ a < b * g.bucketStride + g.bucketStride)
    ↔ ∃ w < g.ways, g.InSlot b w a := by
  constructor
  · rintro ⟨hle, hlt⟩
    obtain ⟨x, rfl⟩ := Nat.exists_eq_add_of_le hle
    have hx : x < g.slotStride * g.ways := Nat.lt_of_add_lt_add_left hlt
    have hpos : 0 < g.slotStride := Nat.pos_of_mul_pos_right (Nat.zero_lt_of_lt hx)
    refine ⟨x / g.slotStride, Nat.div_lt_of_lt_mul hx, ?_⟩
    have hdiv := Nat.div_add_mod x g.slotStride
    have hmod := Nat.mod_lt x hpos
    rw [Nat.mul_comm] at hdiv
    rw [InSlot, slotOffset]
    omega
  · rintro ⟨w, hw, hle, hlt⟩
    have hway := way_le_bucketStride hw
    rw [slotOffset] at hle hlt
    omega

end SlotGeometry

variable {H : SlotHash} {g : SlotGeometry}

/-- The range of a write into slot `(b, w)` that begins where the slot does. -/
structure WritesSlot (g : SlotGeometry) (b w off n : Nat) : Prop where
  bucket : b < g.numBuckets
  way : w < g.ways
  offset : off = g.slotOffset b w
  inside : off + n ≤ off + g.slotStride
  bounded : off + n ≤ g.capacity

variable {n off : Nat}

lemma writesSlot {key : String} {w : Nat} (hw : w < g.ways) (hn : n ≤ g.maxPayload) :
    WritesSlot g (g.bucketIndex H key) w (g.slotOffset (g.bucketIndex H key) w) (headerSize + n) := by
  have hfits := SlotGeometry.fits hn
  have hcap := SlotGeometry.slot_le_capacity (SlotGeometry.bucketIndex_lt H key) hw
  exact ⟨SlotGeometry.bucketIndex_lt H key, hw, rfl, by omega, by omega⟩

/-- **WHAT `write_local` WRITES**: header, payload, header, all in the slot it returns the offset of. -/
lemma writeLocal_writes {r r' : SlotRegion} {key : String} {data : Bytes}
    (h : writeLocal H g r key data = some (some off, r')) :
    ∃ w ws, WritesSlot g (g.bucketIndex H key) w off (headerSize + data.length)
      ∧ r'.mem = r.mem.writes ws
      ∧ ∀ x ∈ ws, off ≤ x.1 ∧ x.1 + x.2.length ≤ off + (headerSize + data.length) := by
  rw [writeLocal] at h
  split_ifs at h with hbig
  · cases h
  · have hway := (@pickWay_picks H g r key).1
    have hpick : pickWay H g r key = (g.bucketIndex H key, (pickWay H g r key).2) := rfl
    generalize (pickWay H g r key).2 = w at hway hpick
    rw [hpick] at h
    simp only [markSeq] at h
    obtain ⟨marked, hmarked, hdone⟩ := Option.bind_eq_some_iff.mp h
    obtain ⟨odd, hodd, rfl⟩ := Option.map_eq_some_iff.mp hmarked
    obtain ⟨done, hd, hr⟩ := Option.map_eq_some_iff.mp hdone
    obtain ⟨even, heven, rfl⟩ := Option.map_eq_some_iff.mp hd
    cases hr
    have hlen := length_encodeHeader hodd
    have hlen' := length_encodeHeader heven
    generalize hoff : g.slotOffset (g.bucketIndex H key) w = off
    refine ⟨w, [(off, odd), (off + headerSize, data), (off, even)], ?_, rfl, ?_⟩
    · rw [← hoff]; exact writesSlot hway (Nat.not_lt.mp hbig)
    · simp [hlen, hlen', Nat.add_assoc]

lemma planWrites_writes {owner : String → Option String} {me : String}
    {batch : List (String × Bytes)} {claimed : Claimed} {pages : List (RemotePage × Bytes)}
    {ws : List SlotWrite} (hpages : ∀ q ∈ pages, q.1 ∈ remotePages owner g me batch)
    (h : planWrites H g claimed pages = some ws) : ∀ x ∈ ws, x.bucket = g.bucketIndex H x.page.key
      ∧ (x.hdr ++ x.page.data).length = headerSize + x.page.data.length
      ∧ WritesSlot g x.bucket x.way (g.slotOffset x.bucket x.way) (x.hdr ++ x.page.data).length := by
  intro x hx
  obtain ⟨hstamp, q, hq, hpage⟩ := planWrites_wellStamped h x hx
  obtain ⟨-, -, -, hfits⟩ := mem_remotePages (hpages q hq)
  obtain ⟨seq, -, henc⟩ := hstamp.stamped
  have hlen : (x.hdr ++ x.page.data).length = headerSize + x.page.data.length := by
    rw [List.length_append, length_encodeHeader henc]
  refine ⟨hstamp.bucket_eq, hlen, ?_⟩
  rw [hlen, hstamp.bucket_eq]
  exact writesSlot hstamp.way_lt (hpage ▸ hfits)

lemma writes_outside {m : Mem} {ws : List (Nat × Bytes)} {a : Nat}
    (h : ∀ x ∈ ws, off ≤ x.1 ∧ x.1 + x.2.length ≤ off + n) (ha : ¬ (off ≤ a ∧ a < off + n)) :
    m.writes ws a = m a := by
  induction ws generalizing m with
  | nil => rfl
  | cons x ws ih =>
    obtain ⟨hx, hws⟩ := List.forall_mem_cons.mp h
    exact (@ih (m.write x.1 x.2) hws).trans (m.write_apply_outside x.1 x.2 (by omega))

lemma WritesSlot.outside {b w b' w' a : Nat} (h : WritesSlot g b w off n) (hw' : w' < g.ways)
    (hne : (b', w') ≠ (b, w)) (ha : g.InSlot b' w' a) : ¬ (off ≤ a ∧ a < off + n) := by
  rintro ⟨hle, hlt⟩
  have hinside := h.inside
  refine hne (SlotGeometry.inSlot_unique hw' h.way ha ?_)
  rw [SlotGeometry.InSlot, ← h.offset]
  omega

/-- **A SLOT WRITE TOUCHES ONE SLOT**: for every geometry.  The slots lie in the region and have no byte
    in common, and a bucket READ covers the slots of the bucket.  `write_local` and every remote slot
    WRITE stay in one slot of the key's bucket, so the bytes of every other slot are as before. -/
theorem slot_writes_touch_one_slot (H : SlotHash) (g : SlotGeometry) :
    (∀ b < g.numBuckets, ∀ w < g.ways, g.slotOffset b w + g.slotStride ≤ g.capacity)
      ∧ (∀ b b' a, ∀ w < g.ways, ∀ w' < g.ways, g.InSlot b w a → g.InSlot b' w' a → (b, w) = (b', w'))
      ∧ (∀ key a, (g.bucketIndex H key * g.bucketStride ≤ a
            ∧ a < g.bucketIndex H key * g.bucketStride + g.bucketStride)
          ↔ ∃ w < g.ways, g.InSlot (g.bucketIndex H key) w a)
      ∧ (∀ r r' key data off, writeLocal H g r key data = some (some off, r') →
          ∃ w ws, WritesSlot g (g.bucketIndex H key) w off (headerSize + data.length)
            ∧ r'.mem = r.mem.writes ws
            ∧ (∀ x ∈ ws, off ≤ x.1 ∧ x.1 + x.2.length ≤ off + (headerSize + data.length))
            ∧ ∀ b' a, ∀ w' < g.ways, (b', w') ≠ (g.bucketIndex H key, w) → g.InSlot b' w' a →
              r'.mem a = r.mem a)
      ∧ ∀ owner me batch claimed (pages : List (RemotePage × Bytes)) ws,
          (∀ q ∈ pages, q.1 ∈ remotePages owner g me batch) → planWrites H g claimed pages = some ws →
          ∀ x ∈ ws, x.bucket = g.bucketIndex H x.page.key
            ∧ (x.hdr ++ x.page.data).length = headerSize + x.page.data.length
            ∧ WritesSlot g x.bucket x.way (g.slotOffset x.bucket x.way) (x.hdr ++ x.page.data).length
            ∧ ∀ m b' a, ∀ w' < g.ways, (b', w') ≠ (x.bucket, x.way) → g.InSlot b' w' a →
              x.apply g m a = m a := by
  refine ⟨fun b hb w hw => SlotGeometry.slot_le_capacity hb hw,
    fun b b' a w hw w' hw' => SlotGeometry.inSlot_unique hw hw',
    fun key a => SlotGeometry.inSlot_bucket, ?_, ?_⟩
  · intro r r' key data off h
    obtain ⟨w, ws, hslot, hmem, hws⟩ := writeLocal_writes h
    refine ⟨w, ws, hslot, hmem, hws, ?_⟩
    intro b' a w' hw' hne ha
    rw [hmem]
    exact writes_outside hws (hslot.outside hw' hne ha)
  · intro owner me batch claimed pages ws hpages h x hx
    obtain ⟨hbucket, hlen, hslot⟩ := planWrites_writes hpages h x hx
    refine ⟨hbucket, hlen, hslot, ?_⟩
    intro m b' a w' hw' hne ha
    have hout := hslot.outside hw' hne ha
    exact m.write_apply_outside _ _ (by omega)

end PeerCacheSlot
