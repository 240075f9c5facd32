import PeerCache.SlotRunProofs

/-! # The pages of one remote batch, way by way

    `_publish_slotmap_remote` plans a way for each page of the batch and then issues all
    WRITEs at once; a multi-rail transport may apply them in any order.  That is safe when
    pages of one bucket have different ways. -/

namespace PeerCacheSlot

open Transition WayClaims Function List

variable {H : SlotHash} {g : SlotGeometry}

/-! ## One bucket of a batch -/

/-- The pages of the batch that fall in bucket `b` of `owner`. -/
def pagesAt (H : SlotHash) (g : SlotGeometry) (owner : String) (b : Nat) (pages : List RemotePage) :
    List RemotePage :=
  pages.filter fun p => decide (p.owner = owner ∧ g.bucketIndex H p.key = b)

/-- The WRITEs of the batch into that bucket. -/
def writesAt (owner : String) (b : Nat) (ws : List SlotWrite) : List SlotWrite :=
  ws.filter fun x => decide (x.page.owner = owner ∧ x.bucket = b)

variable {owner : String} {b : Nat} {ws : List SlotWrite} {x : SlotWrite} {c : Cluster}

lemma mem_writesAt : x ∈ writesAt owner b ws ↔ x ∈ ws ∧ x.page.owner = owner ∧ x.bucket = b := by
  rw [writesAt, mem_filter, decide_eq_true_eq]

variable {p : RemotePage} {v : Nat}

lemma pagesAt_cons_pos {pages : List RemotePage} (h : p.owner = owner ∧ g.bucketIndex H p.key = b) :
    pagesAt H g owner b (p :: pages) = p :: pagesAt H g owner b pages :=
  filter_cons_of_pos (decide_eq_true h)

lemma pagesAt_cons_neg {pages : List RemotePage}
    (h : ¬ (p.owner = owner ∧ g.bucketIndex H p.key = b)) :
    pagesAt H g owner b (p :: pages) = pagesAt H g owner b pages :=
  filter_cons_of_neg (fun hc => h (of_decide_eq_true hc))

lemma writesAt_cons_pos (h : x.page.owner = owner ∧ x.bucket = b) :
    writesAt owner b (x :: ws) = x :: writesAt owner b ws :=
  filter_cons_of_pos (decide_eq_true h)

lemma writesAt_cons_neg (h : ¬ (x.page.owner = owner ∧ x.bucket = b)) :
    writesAt owner b (x :: ws) = writesAt owner b ws :=
  filter_cons_of_neg (fun hc => h (of_decide_eq_true hc))

lemma bucketWays_write_other (hx : LiveWrite H g c x) (hfit : x.page.Fits g)
    (hne : ¬ (x.page.owner = owner ∧ x.bucket = b)) (hv : v < g.ways) :
    headerAt g (applyWrites g c [x] owner).mem b v = headerAt g (c owner).mem b v := by
  show headerAt g (update c x.page.owner _ owner).mem b v = _
  by_cases ho : owner = x.page.owner
  · subst ho
    rw [update_self]
    have hb : (x.bucket, x.way) ≠ (b, v) := fun hc => hne ⟨rfl, (Prod.mk.inj hc).1⟩
    exact ((hx.lands hfit).others b v hv hb).1
  · rw [update_of_ne ho]

lemma bucketWays_write (hx : LiveWrite H g c x) (hfit : x.page.Fits g) {seq : Nat}
    (henc : encodeHeader H x.page.key x.page.data.length seq = some x.hdr) (hv : v < g.ways) :
    ((bucketWays g (c x.page.owner) x.bucket).put x.way (H.keyHash128 x.page.key) seq).key v
        = (bucketWays g (applyWrites g c [x] x.page.owner) x.bucket).key v
      ∧ ((bucketWays g (c x.page.owner) x.bucket).put x.way (H.keyHash128 x.page.key) seq).seq v
        = (bucketWays g (applyWrites g c [x] x.page.owner) x.bucket).seq v := by
  have hmem : (applyWrites g c [x] x.page.owner).mem = x.apply g (c x.page.owner).mem := by
    show (update c x.page.owner _ x.page.owner).mem = _
    rw [update_self]
  have hst := hx.lands hfit
  obtain ⟨hkey, hseq⟩ := headerKey_stamp henc
  rw [bucketWays, bucketWays, waysOf_key, waysOf_seq, hmem]
  by_cases hvw : v = x.way
  · rw [hvw, Ways.put_key_self, Ways.put_seq_self, hst.header, hkey, hseq]
    exact ⟨rfl, rfl⟩
  · have hsame := (hst.others x.bucket v hv (fun hc => hvw (Prod.mk.inj hc).2.symm)).1
    rw [Ways.put_key_of_ne _ _ _ hvw, Ways.put_seq_of_ne _ _ _ hvw, waysOf_key, waysOf_seq, hsame]
    exact ⟨rfl, rfl⟩

/-- **IN ONE BUCKET A BATCH IS A LIST OF CLAIMS.** -/
lemma claims_planBatch (owner : String) (b : Nat) {pages : List RemotePage}
    (hfit : ∀ p ∈ pages, p.Fits g) :
    ∀ {c : Cluster} {ws : List SlotWrite}, planBatch H g c pages = some ws →
      Claims g.ways (bucketWays g (c owner) b)
        ((pagesAt H g owner b pages).map fun p => H.keyHash128 p.key)
        ((writesAt owner b ws).map SlotWrite.way) := by
  induction pages with
  | nil =>
    intro c ws hws
    cases hws
    exact .nil _
  | cons p pages ih =>
    intro c ws hws
    obtain ⟨x, ws', rfl, rfl, hlive, hrest⟩ := planBatch_cons hfit hws
    obtain ⟨hp, hpages⟩ := forall_mem_cons.mp hfit
    obtain ⟨seq, hclaim, henc⟩ := hlive.claims
    have hih := ih hpages hrest
    by_cases hat : x.page.owner = owner ∧ x.bucket = b
    · have hpage : x.page.owner = owner ∧ g.bucketIndex H x.page.key = b :=
        ⟨hat.1, hlive.bucket ▸ hat.2⟩
      rw [pagesAt_cons_pos hpage, map_cons, writesAt_cons_pos hat, map_cons]
      obtain ⟨rfl, rfl⟩ := hat
      refine .cons hclaim (hih.congr ?_ ?_)
      · exact fun v hv => (bucketWays_write hlive hp henc hv).1.symm
      · exact fun v hv => (bucketWays_write hlive hp henc hv).2.symm
    · have hpage : ¬ (x.page.owner = owner ∧ g.bucketIndex H x.page.key = b) :=
        fun hc => hat ⟨hc.1, hlive.bucket.trans hc.2⟩
      rw [pagesAt_cons_neg hpage, writesAt_cons_neg hat]
      refine hih.congr ?_ ?_
      · intro v hv
        rw [bucketWays, bucketWays, waysOf_key, waysOf_key, bucketWays_write_other hlive hp hat hv]
      · intro v hv
        rw [bucketWays, bucketWays, waysOf_seq, waysOf_seq, bucketWays_write_other hlive hp hat hv]

/-! ## WRITEs in any order -/

/-- The bytes of two WRITEs into one region do not meet. -/
def NoOverlap (g : SlotGeometry) (x y : SlotWrite) : Prop :=
  g.slotOffset x.bucket x.way + (headerSize + x.page.data.length) ≤ g.slotOffset y.bucket y.way
    ∨ g.slotOffset y.bucket y.way + (headerSize + y.page.data.length) ≤ g.slotOffset x.bucket x.way

/-- Some way of the bucket answers for the key and holds these bytes. -/
def HoldsPage (H : SlotHash) (g : SlotGeometry) (r : SlotRegion) (b : Nat) (key : String)
    (data : Bytes) : Prop :=
  ∃ w < g.ways, slotMatches H (headerAt g r.mem b w) key data.length = true
    ∧ payloadAt g r.mem b w data.length = data

/-- **THE PAGES OF THE BATCH STAY APART** in bucket `b` of `owner`: different keys have
    different ways, after the WRITEs in any order each page is in its bucket, and no two
    WRITEs overlap. -/
structure ApartAt (H : SlotHash) (g : SlotGeometry) (c : Cluster) (owner : String) (b : Nat)
    (ws : List SlotWrite) : Prop where
  ways : ∀ x ∈ writesAt owner b ws, ∀ y ∈ writesAt owner b ws, x.page.key ≠ y.page.key →
    x.way ≠ y.way
  present : ∀ ws', ws'.Perm ws → ∀ x ∈ writesAt owner b ws,
    HoldsPage H g (applyWrites g c ws' owner) b x.page.key x.page.data
  apart : (writesAt owner b ws).Pairwise (NoOverlap g)

/-- A WRITE that lands in one slot. -/
structure Lands (H : SlotHash) (g : SlotGeometry) (x : SlotWrite) : Prop where
  way_lt : x.way < g.ways
  fits : x.page.data.length ≤ g.maxPayload
  matched : slotMatches H x.hdr x.page.key x.page.data.length = true
  length : x.hdr.length = headerSize

lemma lands_planBatch {pages : List RemotePage} (hfit : ∀ p ∈ pages, p.Fits g)
    (hws : planBatch H g c pages = some ws) : ∀ x ∈ ws, Lands H g x := by
  intro x hx
  obtain ⟨hstamp, q, hq, hpage⟩ := planWrites_wellStamped hws x hx
  obtain ⟨p, hp, rfl⟩ := mem_map.mp hq
  obtain ⟨seq, heven, henc⟩ := hstamp.stamped
  refine ⟨hstamp.way_lt, ?_, (slotMatches_stamp henc).mpr ⟨heven, rfl, rfl⟩, length_encodeHeader henc⟩
  rw [hpage]
  exact hfit p hp

lemma sameSlot_applyWrites (hws : ∀ y ∈ ws, Lands H g y) {w : Nat} (hw : w < g.ways)
    (hother : ∀ y ∈ ws, y.page.owner = owner → (y.bucket, y.way) ≠ (b, w)) (c : Cluster) :
    SameSlot g (c owner).mem (applyWrites g c ws owner).mem b w := by
  induction ws generalizing c with
  | nil => exact ⟨rfl, fun _ _ => rfl⟩
  | cons y ws ih =>
    obtain ⟨hy, hrest⟩ := forall_mem_cons.mp hws
    obtain ⟨hne, hother'⟩ := forall_mem_cons.mp hother
    have hstep : SameSlot g (c owner).mem (applyWrites g c [y] owner).mem b w := by
      show SameSlot g (c owner).mem (update c y.page.owner _ owner).mem b w
      by_cases ho : owner = y.page.owner
      · subst ho
        rw [update_self]
        exact (stamped_apply hy.way_lt hy.length hy.fits _).others b w hw (hne rfl)
      · rw [update_of_ne ho]; exact ⟨rfl, fun _ _ => rfl⟩
    exact hstep.trans (ih hrest hother' (applyWrites g c [y]))

/-- **THE LAST WRITE OF A SLOT STAYS**: what a WRITE put in its slot is there at the end, if
    no later one goes to that slot. -/
lemma holdsPage_applyWrites {before after : List SlotWrite} (hx : Lands H g x)
    (hafter : ∀ y ∈ after, Lands H g y)
    (hother : ∀ y ∈ after, y.page.owner = x.page.owner → (y.bucket, y.way) ≠ (x.bucket, x.way))
    (c : Cluster) :
    HoldsPage H g (applyWrites g c (before ++ x :: after) x.page.owner) x.bucket x.page.key
      x.page.data := by
  have hsplit : applyWrites g c (before ++ x :: after)
      = applyWrites g (applyWrites g (applyWrites g c before) [x]) after := by
    rw [applyWrites, foldl_append]
    rfl
  rw [hsplit]
  have hst := stamped_apply hx.way_lt hx.length hx.fits (applyWrites g c before x.page.owner).mem
  have hmem : (applyWrites g (applyWrites g c before) [x] x.page.owner).mem
      = x.apply g (applyWrites g c before x.page.owner).mem := by
    show (update (applyWrites g c before) x.page.owner _ x.page.owner).mem = _
    rw [update_self]
  obtain ⟨hhdr, hpay⟩ := sameSlot_applyWrites hafter hx.way_lt hother
    (applyWrites g (applyWrites g c before) [x])
  refine ⟨x.way, hx.way_lt, ?_, ?_⟩
  · rw [hhdr, hmem, hst.header]; exact hx.matched
  · rw [hpay _ hx.fits, hmem, hst.payload]

lemma noOverlap_of_way_ne {y : SlotWrite} (hx : Lands H g x) (hy : Lands H g y)
    (hne : (x.bucket, x.way) ≠ (y.bucket, y.way)) : NoOverlap g x y := by
  have hfx := SlotGeometry.fits hx.fits
  have hfy := SlotGeometry.fits hy.fits
  rcases SlotGeometry.slots_apart hx.way_lt hy.way_lt hne with h | h
  · exact .inl (by omega)
  · exact .inr (by omega)

lemma apartAt_iff_nodup (hws : ∀ x ∈ ws, Lands H g x) (c : Cluster) (owner : String) (b : Nat) :
    ApartAt H g c owner b ws ↔ ((writesAt owner b ws).map SlotWrite.way).Nodup := by
  constructor
  · intro h
    rw [List.Nodup, pairwise_map]
    refine h.apart.imp_of_mem ?_
    intro x y hx hy hover heq
    obtain ⟨-, -, hbx⟩ := mem_writesAt.mp hx
    obtain ⟨-, -, hby⟩ := mem_writesAt.mp hy
    have hpos : 0 < headerSize := by decide
    rw [NoOverlap, hbx, hby, heq] at hover
    omega
  · intro hnd
    refine ⟨?_, ?_, ?_⟩
    · intro x hx y hy hkey hway
      exact hkey (by rw [inj_on_of_nodup_map hnd hx hy hway])
    · intro ws' hperm x hx
      obtain ⟨hmem, rfl, rfl⟩ := mem_writesAt.mp hx
      obtain ⟨before, after, rfl⟩ := append_of_mem (hperm.mem_iff.mpr hmem)
      have hlands : ∀ y ∈ after, Lands H g y := fun y hy =>
        hws y (hperm.mem_iff.mp (mem_append_right _ (mem_cons_of_mem x hy)))
      refine holdsPage_applyWrites (hws x hmem) hlands ?_ c
      -- in the permuted list the ways of the bucket are still pairwise different
      have hnd' : ((writesAt x.page.owner x.bucket (before ++ x :: after)).map SlotWrite.way).Nodup :=
        ((hperm.filter _).map SlotWrite.way).nodup_iff.mpr hnd
      have happ : writesAt x.page.owner x.bucket (before ++ x :: after)
          = writesAt x.page.owner x.bucket before ++ x :: writesAt x.page.owner x.bucket after := by
        rw [← writesAt_cons_pos ⟨rfl, rfl⟩]
        exact filter_append ..
      rw [happ, map_append, map_cons] at hnd'
      intro y hy howner hslot
      obtain ⟨hb, hway⟩ := Prod.mk.inj hslot
      have hin : y ∈ writesAt x.page.owner x.bucket after := mem_writesAt.mpr ⟨hy, howner, hb⟩
      have hfirst := (nodup_cons.mp (nodup_append.mp hnd').2.1).1
      exact hfirst (hway ▸ mem_map_of_mem hin)
    · rw [List.Nodup, pairwise_map] at hnd
      refine hnd.imp_of_mem ?_
      intro x y hx hy hne
      refine noOverlap_of_way_ne (hws x (mem_writesAt.mp hx).1) (hws y (mem_writesAt.mp hy).1) ?_
      exact fun hc => hne (Prod.mk.inj hc).2

/-! ## The main result -/

/-- **PAGES OF ONE BATCH STAY APART IF AND ONLY IF THE BUCKET HAS ENOUGH WAYS.**  After any
    sequence of local writes and remote batches, for any batch of pages that fit, planned
    with all READs succeeding, and any bucket of any owner: the ways of the batch's keys in
    that bucket are different, each page is there after the WRITEs in any order, and no two
    WRITEs overlap, exactly when no key (by its hash) comes twice among the bucket's pages
    and the bucket has enough ways for them. -/
theorem batch_apart_iff (H : SlotHash) (g : SlotGeometry) {ops : List ClusterOp} {c : Cluster}
    (hrun : run (clusterStep H g) Cluster.zero ops = some c) {pages : List RemotePage}
    (hfit : ∀ p ∈ pages, p.Fits g) {ws : List SlotWrite} (hplan : planBatch H g c pages = some ws)
    (owner : String) (b : Nat) :
    ApartAt H g c owner b ws
      ↔ ((pagesAt H g owner b pages).map fun p => H.keyHash128 p.key).Nodup
        ∧ EnoughWays g.ways (bucketWays g (c owner) b)
          ((pagesAt H g owner b pages).map fun p => H.keyHash128 p.key) := by
  rw [apartAt_iff_nodup (lands_planBatch hfit hplan) c owner b]
  exact claims_nodup_iff g.ways_pos ((run_clusterOk hrun owner).tidy b)
    (claims_planBatch owner b hfit hplan)

/-- A batch of two pages for the same bucket. -/
def twoPages : List RemotePage := [⟨0, "xx", "n", [3]⟩, ⟨1, "xxx", "n", [4]⟩]

/-- An empty bucket has two ways for two pages. -/
theorem batch_apart_iff_empty_bucket :
    ∃ ws, planBatch lengthHash twoWays Cluster.zero twoPages = some ws
      ∧ ApartAt lengthHash twoWays Cluster.zero "n" 0 ws := by
  have hplan : ((planBatch lengthHash twoWays Cluster.zero twoPages).map
      fun ws => ws.map SlotWrite.way) = some [0, 1] := by decide +kernel
  obtain ⟨ws, hws, -⟩ := Option.map_eq_some_iff.mp hplan
  refine ⟨ws, hws, ?_⟩
  have hrun : run (clusterStep lengthHash twoWays) Cluster.zero [] = some Cluster.zero := rfl
  exact (batch_apart_iff lengthHash twoWays hrun (by decide) hws "n" 0).mpr
    ⟨by decide +kernel, by decide +kernel⟩

/-- The owner has written one page three times and another once.  The two pages of the batch
    are both sent to the way of the second: the first of them is stamped 4, which is still
    the least number of the bucket. -/
theorem both_pages_in_one_way :
    ∃ c ws, run (clusterStep lengthHash twoWays) Cluster.zero
        [.writeLocal "n" "" [1], .writeLocal "n" "" [1], .writeLocal "n" "" [1],
          .writeLocal "n" "x" [2]] = some c
      ∧ planBatch lengthHash twoWays c twoPages = some ws
      ∧ (pagesAt lengthHash twoWays "n" 0 twoPages).length = twoWays.ways
      ∧ ¬ ApartAt lengthHash twoWays c "n" 0 ws := by
  have hplan : ((run (clusterStep lengthHash twoWays) Cluster.zero
        [.writeLocal "n" "" [1], .writeLocal "n" "" [1], .writeLocal "n" "" [1],
          .writeLocal "n" "x" [2]]).bind fun c =>
      (planBatch lengthHash twoWays c twoPages).map fun ws =>
        (writesAt "n" 0 ws).map fun x => (x.page.key, x.way)) = some [("xx", 1), ("xxx", 1)] := by
    decide +kernel
  obtain ⟨c, hc, hplan⟩ := Option.bind_eq_some_iff.mp hplan
  obtain ⟨ws, hws, hways⟩ := Option.map_eq_some_iff.mp hplan
  refine ⟨c, ws, hc, hws, by decide +kernel, ?_⟩
  intro h
  have hsame : ∀ x ∈ writesAt "n" 0 ws, x.way = 1 := by
    intro x hx
    have hmem := List.mem_map_of_mem (f := fun x : SlotWrite => (x.page.key, x.way)) hx
    rw [hways] at hmem
    rcases List.mem_cons.mp hmem with hx1 | hmem
    · exact (Prod.mk.inj hx1).2
    · exact (Prod.mk.inj (List.mem_singleton.mp hmem)).2
  have hkey : ∀ k, (k, 1) ∈ [("xx", 1), ("xxx", 1)] → ∃ x ∈ writesAt "n" 0 ws, x.page.key = k := by
    intro k hk
    rw [← hways] at hk
    obtain ⟨x, hx, hxk⟩ := List.mem_map.mp hk
    exact ⟨x, hx, (Prod.mk.inj hxk).1⟩
  obtain ⟨x, hx, hxk⟩ := hkey "xx" (by decide)
  obtain ⟨y, hy, hyk⟩ := hkey "xxx" (by decide)
  refine h.ways x hx y hy ?_ ((hsame x hx).trans (hsame y hy).symm)
  rw [hxk, hyk]
  decide

end PeerCacheSlot
