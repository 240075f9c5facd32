import PeerCache.HandledPagesProofs
import PeerCache.OwnerStepsProofs
import PeerCache.StorageBatchProofs

/-! # `_publish_storage` — a batch whose storage writes all succeed

    Every owner is reached and answers, every WRITE arrives, and reserving the pages one after
    the other takes no page of the batch away.  All of this is said of the state before the
    call (`StorageWrites`).  Then the directory names a storage node's copy of every page, and
    its bytes are there. -/

namespace PeerCacheStorageWrite

open PeerCachePool PeerCacheDirectory PeerCacheDisk PeerCacheOwner PeerCacheStorage Tiling
  OrderedDict List

/-! ## Reserving pages in turn -/

/-- The pages are reserved one after the other: each is in the pool already, or finds a slot and
    takes no page of `keys` away. -/
def FitsInTurn (keys : List String) : List Page → PublishedPool String → Prop
  | [], _ => True
  | q :: qs, p =>
      (q.key ∈ p.entries.keys ∨ (HasSlot q.size p ∧ ∀ k ∈ victims p q.size, k ∉ keys))
        ∧ FitsInTurn keys qs (reserve p q.key q.size).pool

section

variable {owners : Owners} {me : String} {keys : List String} {s t u : PageOwner}
  {content : String → Bytes} {mem : Mem}

/-- The pages of `keys` stay in the pool, and so do their entries in the directory. -/
structure Steady (keys : List String) (s t : PageOwner) : Prop where
  dir : ∀ k ∈ keys, ∀ node, (t.dir node).get? k = (s.dir node).get? k
  pool : ∀ k ∈ keys, ∀ x, s.pool.entries.get? k = some x → t.pool.entries.get? k = some x

lemma Steady.refl (keys : List String) (s : PageOwner) : Steady keys s s :=
  ⟨fun _ _ _ => rfl, fun _ _ _ h => h⟩

lemma Steady.trans (h : Steady keys s t) (h' : Steady keys t u) : Steady keys s u where
  dir k hk node := (h'.dir k hk node).trans (h.dir k hk node)
  pool k hk x hx := h'.pool k hk x (h.pool k hk x hx)

lemma Steady.view (h : Steady keys s t) {k : String} (hk : k ∈ keys) :
    view owners t.dir k = view owners s.dir k := by
  rw [PeerCacheDirectory.view, PeerCacheDirectory.view]
  cases owners k with
  | nil => rfl
  | cons primary rest => exact h.dir k hk primary

variable {length : Nat} {f : Faults} {ps : List (Page × Nat)}

lemma steady_store (s : PageOwner) {key : String} {copy : Nat → Mem → Mem}
    (hev : ∀ k ∈ (place s.pool key length copy).evicted, k ∉ keys) :
    Steady keys s (store me owners s (place s.pool key length copy)).owner where
  dir := by
    intro k hk node
    refine (onPoolEvict_get? (s.setPool (place s.pool key length copy).pool) _ node k).trans
      (if_neg ?_)
    exact fun hc => hev k hc.1 hk
  pool := by
    intro k hk x hx
    rw [show (store me owners s (place s.pool key length copy)).owner.pool
      = (place s.pool key length copy).pool from onPoolEvict_pool _ _]
    exact place_get?_of_not_evicted hx (fun hmem => hev k hmem hk)

/-- What is asked of a page: it has a key of the batch that the directory does not know, and a
    size. -/
structure PageOk (existing : String → Bool) (keys : List String) (p : Page) : Prop where
  new : existing p.key = false
  named : p.key ≠ ""
  sized : p.size ≠ 0
  batch : p.key ∈ keys

variable (me owners) in
/-- **ONE PAGE RESERVED**: it gets the slot of its entry in the pool. -/
lemma prepareOne_fits {existing : String → Bool} {p : Page} (hp : PageOk existing keys p)
    (hi : Inv s.pool) (hlen : p.size = (content p.key).length) (hl : SizedFor content s.pool p.key)
    (hfit : p.key ∈ s.pool.entries.keys
      ∨ (HasSlot p.size s.pool ∧ ∀ k ∈ victims s.pool p.size, k ∉ keys)) :
    ∃ slot t ev, prepareOne me owners s p.key p.size (existing p.key) = ⟨some slot, t, ev⟩
      ∧ Steady keys s t ∧ t.pool = (reserve s.pool p.key p.size).pool
      ∧ t.pool.entries.get? p.key = some (extentOf t.pool slot) ∧ slot.length = p.size := by
  have hone : prepareOne me owners s p.key p.size (existing p.key)
      = prepareNew me owners s p.key p.size := by
    rw [prepareOne, if_neg (fun hbad => hbad.elim hp.named hp.sized), hp.new]
    rfl
  have hpool : (prepareNew me owners s p.key p.size).owner.pool
      = (reserve s.pool p.key p.size).pool := prepareNew_pool s p.key p.size
  obtain ⟨addr, ha⟩ : ∃ addr, (reserve s.pool p.key p.size).addr = some addr := by
    by_cases hin : p.key ∈ s.pool.entries.keys
    · obtain ⟨x, hx⟩ := mem_keys.mp hin
      rcases place_cases s.pool p.key p.size (fun _ m => m) with ⟨e, -, heq⟩ | ⟨hout, -⟩ | ⟨hout, -⟩
      · rw [reserve, heq]; exact ⟨_, rfl⟩
      · exact absurd hin hout
      · exact absurd hin hout
    · exact (place_addr_iff hi hin _).mpr (hfit.resolve_left hin).1
  have hst : Steady keys s (prepareNew me owners s p.key p.size).owner := by
    refine steady_store s ?_
    intro k hk
    obtain ⟨hout, hv⟩ := mem_place_evicted.mp hk
    exact (hfit.resolve_left hout).2 k hv
  obtain ⟨x, hx, rfl, hsize⟩ := place_addr ha
  refine ⟨_, _, _, hone.trans (by rw [prepareNew, show (reservePage me owners s p.key p.size).addr
    = some (s.pool.base + x.1) from ha]; rfl), hst, hpool, ?_, rfl⟩
  have hx2 : x.2 = p.size := hsize.elim (fun h => (hl x h).trans hlen.symm) (fun h => h.2)
  have hbase : (reserve s.pool p.key p.size).pool.base = s.pool.base :=
    (place_region s.pool p.key _ _).base
  show (prepareNew me owners s p.key p.size).owner.pool.entries.get? p.key
    = some (s.pool.base + x.1 - (prepareNew me owners s p.key p.size).owner.pool.base, p.size)
  rw [hpool, hbase, Nat.add_sub_cancel_left, show (x.1, p.size) = x from Prod.ext rfl hx2.symm]
  exact hx

/-- **THE PREPARE** of pages that fit: a WRITE is posted for each, to its entry in the pool. -/
lemma prepareLoop_fits {existing : String → Bool} (ps : List (Page × Nat))
    (hps : ∀ q ∈ ps, PageOk existing keys q.1) (hi : Inv s.pool) (hlen : SizedPages content ps)
    (hl : ∀ q ∈ ps, SizedFor content s.pool q.1.key)
    (hfit : FitsInTurn keys (ps.map Prod.fst) s.pool) {r : PreparedAll}
    (hr : prepareLoop me owners (request existing ps) s = r) :
    Steady keys s r.owner
      ∧ (posted ps r.slots).map (fun y => (y.page, y.idx)) = ps
      ∧ ∀ y ∈ posted ps r.slots, r.owner.pool.entries.get? y.page.key
          = some (extentOf r.owner.pool y.slot) ∧ y.slot.length = y.page.size := by
  induction ps generalizing s r with
  | nil =>
    cases hr
    exact ⟨Steady.refl keys s, rfl, forall_mem_nil _⟩
  | cons q ps ih =>
    obtain ⟨hq, hrest⟩ := forall_mem_cons.mp hps
    obtain ⟨hlenq, hlens⟩ := forall_mem_cons.mp hlen
    obtain ⟨hlq, hls⟩ := forall_mem_cons.mp hl
    obtain ⟨slot, t, ev, hone, hst, hpool, hentry, hslot⟩ :=
      prepareOne_fits owners me hq hi hlenq hlq hfit.1
    have heff := ownerEffect_prepareOne me owners hi hlenq (existing q.1.key)
    rw [hone] at heff
    have htail := ownerEffect_prepareLoop me owners (request existing ps)
      (request_sized hlens) heff.pool.inv
    obtain ⟨hsteady, hposted, hslots⟩ := ih hrest heff.pool.inv hlens
      (fun r hr => heff.pool.sized _ (hls r hr)) (hpool ▸ hfit.2) rfl
    subst hr
    have hloop : prepareLoop me owners (request existing (q :: ps)) s
        = ⟨some slot :: (prepareLoop me owners (request existing ps) t).slots,
          (prepareLoop me owners (request existing ps) t).owner,
          ev ++ (prepareLoop me owners (request existing ps) t).evicted⟩ := by
      show prepareLoop me owners (((q.1.key, q.1.size), existing q.1.key) :: request existing ps) s
        = _
      rw [prepareLoop, hone]
    rw [hloop]
    refine ⟨hst.trans hsteady, congrArg (cons q) hposted, forall_mem_cons.mpr ⟨⟨?_, hslot⟩,
      hslots⟩⟩
    rw [extentOf_congr htail.pool.region.base slot]
    exact hsteady.pool _ hq.batch _ hentry

/-! ## One group -/

/-- A group whose writes succeed, in the state of its owner before it: the pages fit, the requests
    are answered, the WRITEs succeed and all of them land. -/
structure GroupWrites (owners : Owners) (content : String → Bytes)
    (keys : List String) (f : Faults) (s : PageOwner) (ps : List (Page × Nat)) : Prop where
  inv : Inv s.pool
  ok : ∀ q ∈ ps, PageOk (existMap owners s.dir) keys q.1
  sized : SizedPages content ps
  lens : ∀ q ∈ ps, SizedFor content s.pool q.1.key
  nodup : (ps.map fun q => q.1.key).Nodup
  fits : FitsInTurn keys (ps.map Prod.fst) s.pool
  prepare : f.prepare = .answered
  writes : ∀ q ∈ ps, (f.write q.2).isOk = true
  lands : f.order.Perm (List.range ps.length)
  commit : f.commit = .answered

variable (me) in
/-- **THE COMMIT LOOP** has a current entry for each of its keys that is in the pool. -/
lemma commitLoop_get? (ks : List String) (s : PageOwner)
    (entries : Locations) :
    (commitLoop me ks s entries).owner.dir = s.dir
      ∧ (commitLoop me ks s entries).owner.pool.base = s.pool.base
      ∧ (∀ k, (commitLoop me ks s entries).owner.pool.entries.get? k = s.pool.entries.get? k)
      ∧ (∀ k ∉ ks, (commitLoop me ks s entries).entries.get? k = entries.get? k)
      ∧ ∀ k ∈ ks, k ∈ s.pool.entries.keys → ∃ loc,
          (commitLoop me ks s entries).entries.get? k = some loc ∧ loc.nodeId = me
            ∧ Current s.pool k loc := by
  induction ks generalizing s entries with
  | nil => exact ⟨rfl, rfl, fun _ => rfl, fun _ _ => rfl, forall_mem_nil _⟩
  | cons key ks ih =>
    rw [commitLoop, addressOf_fst]
    cases hx : s.pool.entries.get? key with
    | none =>
      obtain ⟨hdir, hbase, hpool, hother, hin⟩ := ih s entries
      refine ⟨hdir, hbase, hpool, fun k hk => hother k (fun h => hk (.tail _ h)), ?_⟩
      intro k hk hmem
      refine hin k ((mem_cons.mp hk).resolve_left ?_) hmem
      rintro rfl
      obtain ⟨x, hkx⟩ := mem_keys.mp hmem
      cases hx.symm.trans hkx
    | some e =>
      obtain ⟨hdir, hbase, hpool, hother, hin⟩ := ih (commitPage s key (s.pool.base + e.1) e.2)
        (entries.set key (residentLocation me (commitPage s key (s.pool.base + e.1) e.2).pool
          (s.pool.base + e.1) e.2))
      have hsame : ∀ k, (commitPage s key (s.pool.base + e.1) e.2).pool.entries.get? k
          = s.pool.entries.get? k := fun k => addressOf_get? s.pool key k
      have hbase' : (commitPage s key (s.pool.base + e.1) e.2).pool.base = s.pool.base :=
        (addressOf_region s.pool key).base
      refine ⟨hdir, hbase.trans hbase', fun k => (hpool k).trans (hsame k), ?_, ?_⟩
      · intro k hk
        rw [mem_cons, not_or] at hk
        refine (hother k hk.2).trans ?_
        rw [get?_set, if_neg hk.1]
      · intro k hk hmem
        by_cases hks : k ∈ ks
        · obtain ⟨x, hkx⟩ := mem_keys.mp hmem
          obtain ⟨loc, hloc, hme, y, hy, haddr, hlen⟩ :=
            hin k hks (mem_keys.mpr ⟨x, (hsame k).trans hkx⟩)
          exact ⟨loc, hloc, hme, y, (hsame k).symm.trans hy, hbase' ▸ haddr, hlen⟩
        · obtain rfl := (mem_cons.mp hk).resolve_right hks
          refine ⟨residentLocation me (commitPage s k (s.pool.base + e.1) e.2).pool
            (s.pool.base + e.1) e.2, (hother k hks).trans ?_, rfl, e, hx, rfl, rfl⟩
          rw [get?_set, if_pos rfl]

lemma publishLoop_known (pages : List ((String × Bytes) × Admission))
    (h : ∀ q ∈ pages, q.2 = .existing) (s : PageOwner) (entries : Locations) :
    publishLoop me owners pages s entries = ⟨pages.map (fun _ => true), entries, s, []⟩ := by
  induction pages with
  | nil => rfl
  | cons q pages ih =>
    obtain ⟨⟨key, data⟩, adm⟩ := q
    obtain ⟨hq, htail⟩ := forall_mem_cons.mp h
    cases hq
    rw [publishLoop, ih htail]
    rfl

/-- The directory names the copy of the key at `o`, and its content is there. -/
def StoredAt (owners : Owners) (content : String → Bytes) (o k : String)
    (s : PageOwner) : Prop :=
  ∃ loc, view owners s.dir k = some loc ∧ loc.nodeId = o ∧ Current s.pool k loc
    ∧ HoldsFor content s.pool k

/-- **THE WRITES OF A GROUP** land in the pages they were posted for. -/
lemma GroupWrites.all_land (h : GroupWrites owners content keys f s ps)
    (hbytes : BytesOf content mem ps) {prep : PreparedAll}
    (hprep : prepareGroup me owners s ps = prep) :
    Steady keys s prep.owner ∧ commitKeys f (posted ps prep.slots) = ps.map (fun q => q.1.key)
      ∧ ∀ q ∈ ps, q.1.key ∈ prep.owner.pool.entries.keys
        ∧ HoldsFor content (written mem f ps prep).pool q.1.key := by
  have hinv : Inv prep.owner.pool := by
    rw [← hprep]
    exact (ownerEffect_prepareLoop me owners _ (request_sized h.sized) h.inv).pool.inv
  obtain ⟨hst, hposted, hslots⟩ := prepareLoop_fits ps h.ok h.inv h.sized h.lens h.fits hprep
  have hkeys : (posted ps prep.slots).map (fun y => y.page.key) = ps.map (fun q => q.1.key) := by
    rw [← hposted, map_map, hposted]
    rfl
  have hmem : ∀ y ∈ posted ps prep.slots, (y.page, y.idx) ∈ ps := fun y hy => (posted_mem hy).1
  have hlands : (Landing.landed (posted ps prep.slots) f.order).Perm (posted ps prep.slots) := by
    refine Landing.perm_landed ?_
    rw [← length_map (fun y : Posted => (y.page, y.idx)), hposted]
    exact h.lands
  refine ⟨hst, ?_, ?_⟩
  · rw [commitKeys, filter_eq_self.mpr (fun y hy => h.writes _ (hmem y hy)), hkeys]
  · intro q hq
    obtain ⟨y, hy, rfl⟩ := mem_map.mp (hposted.symm ▸ hq)
    obtain ⟨hentry, hlength⟩ := hslots y hy
    refine ⟨mem_keys.mpr ⟨_, hentry⟩, ?_⟩
    obtain ⟨before, after, hsplit⟩ := append_of_mem (hlands.mem_iff.mpr hy)
    have hlast : LandsLast prep.owner.pool f (posted ps prep.slots) y.page.key
        (extentOf prep.owner.pool y.slot) := by
      refine ⟨before, y, after, hsplit, rfl, h.writes _ (hmem y hy), rfl, ?_⟩
      intro z hz
      -- the keys of the WRITEs are distinct, so their pages are
      have hnodup : ((before ++ y :: after).map (fun y => y.page.key)).Nodup := by
        rw [← hsplit]
        exact (hlands.map _).nodup_iff.mpr (hkeys ▸ h.nodup)
      rw [map_append, map_cons] at hnodup
      have hne : z.page.key ≠ y.page.key := fun heq =>
        (nodup_cons.mp (nodup_append.mp hnodup).2.1).1 (heq ▸ mem_map_of_mem hz)
      have hz' : z ∈ posted ps prep.slots :=
        hlands.mem_iff.mp (hsplit ▸ mem_append_right _ (.tail _ hz))
      exact entries_apart hinv hentry (hslots z hz').1 (Ne.symm hne)
    refine hlast.holds hentry (hlength.trans (h.sized _ (hmem y hy))) ?_
    intro z hz
    rw [← h.sized _ (hmem z hz)]
    exact hbytes _ (hmem z hz)

/-- **A GROUP WHOSE WRITES SUCCEED**: its pages are stored, and the entries of the rest of the batch
    stay as they are. -/
lemma GroupWrites.stored (hring : ∀ k, owners k ≠ []) (h : GroupWrites owners content keys f s ps)
    (hbytes : BytesOf content mem ps) (hne : ps ≠ []) (pages : List Page) (results : List Bool)
    {t : PageOwner} (ht : (writeGroup owners mem pages me f ps (prepareGroup me owners s ps)
      results).2 = t) :
    (∀ q ∈ ps, StoredAt owners content me q.1.key t)
      ∧ ∀ k ∈ keys, k ∉ ps.map (fun q => q.1.key) → view owners t.dir k = view owners s.dir k := by
  have heff : OwnerEffect owners content s (prepareGroup me owners s ps).owner _ _ :=
    ownerEffect_prepareLoop me owners _ (request_sized h.sized) h.inv
  generalize hprep : prepareGroup me owners s ps = prep at ht heff
  obtain ⟨hst, hkeys, hin⟩ := h.all_land hbytes hprep
  obtain ⟨buf, hbuf⟩ := written_frame mem f ps prep
  obtain ⟨⟨ev, hceff⟩, -⟩ : (∃ evicted, Effect content (written mem f ps prep).pool
      (committedGroup owners mem me f ps prep).2.pool evicted []) ∧ _ :=
    committedGroup_spec mem f ps owners me content heff.pool.inv
  have hcommit : (committedGroup owners mem me f ps prep).2
      = (dataCommitWrites me owners (written mem f ps prep) (ps.map (fun q => q.1.key))).owner := by
    rw [committedGroup, hkeys, commitCall, if_neg (fun hnil => hne (map_eq_nil_iff.mp hnil)),
      h.commit]
  obtain ⟨hdir, hbase, hpool, hother, hent⟩ := commitLoop_get? me
    (ps.map (fun q => q.1.key)) (written mem f ps prep) OrderedDict.empty
  have hview : ∀ k, view owners (committedGroup owners mem me f ps prep).2.dir k
      = ((commitLoop me (ps.map (fun q => q.1.key)) (written mem f ps prep)
          OrderedDict.empty).entries.get? k).or (view owners prep.owner.dir k) := by
    intro k
    rw [hcommit]
    show view owners (put owners (commitLoop me _ _ _).owner.dir _) k = _
    rw [view_put _ _ (hring k), hdir, hbuf]
    rfl
  have hstored : ∀ q ∈ ps, StoredAt owners content me q.1.key
      (committedGroup owners mem me f ps prep).2 := by
    intro q hq
    obtain ⟨hmem, hholds⟩ := hin q hq
    obtain ⟨loc, hloc, hme, x, hx, haddr, hlen⟩ := hent q.1.key (mem_map_of_mem hq)
      (by rw [hbuf]; exact hmem)
    refine ⟨loc, by rw [hview, hloc]; rfl, hme, ⟨x, ?_, ?_, hlen⟩,
      hceff.holds _ (.inr not_mem_nil) hholds⟩
    · rw [hcommit]
      exact (hpool _).trans hx
    · rw [hcommit]
      exact haddr.trans (congrArg (· + x.1) hbase.symm)
  -- the ingest, if there is one, finds every page in the directory
  have hingest : t = (committedGroup owners mem me f ps prep).2 := by
    rw [← ht, writeGroup, ingestCall, dataIngest_eq]
    have hknown : ∀ q ∈ ingestPages owners mem (committedGroup owners mem me f ps prep).2.dir
        (fallbackOf ps (reported owners mem pages me f ps prep results)), q.2 = .existing := by
      intro q hq
      obtain ⟨r, hr, rfl⟩ := mem_map.mp hq
      have hmem := (mem_filter.mp hr).1
      obtain ⟨loc, hloc, -⟩ := hstored r hmem
      show admission r.1.key _ = _
      rw [admission, if_neg (h.ok r hmem).named, existMap, hloc]
      rfl
    have hquiet : (publishPages me owners (committedGroup owners mem me f ps prep).2
        (ingestPages owners mem (committedGroup owners mem me f ps prep).2.dir
          (fallbackOf ps (reported owners mem pages me f ps prep results)))).owner
        = (committedGroup owners mem me f ps prep).2 := by
      rw [publishPages, publishLoop_known _ hknown]
      rfl
    split_ifs with hnil
    · rfl
    · cases f.ingest with
      | lostRequest => rfl
      | lostReply => exact hquiet
      | answered => exact hquiet
  rw [hingest]
  refine ⟨hstored, ?_⟩
  intro k hk hout
  rw [hview, hother k hout, hst.view hk]
  rfl

/-! ## All groups -/

variable {dataOwner : String → Option String} {reachable : String → Bool}
  {faults : String → Faults} {w : Cluster} {pages : List Page} {g : String × List (Page × Nat)}
  {groups : List (String × List (Page × Nat))}

/-- A group that reaches its owner, and whose writes succeed. -/
structure GroupReady (owners : Owners) (content : String → Bytes) (mem : Mem)
    (keys : List String) (dataOwner : String → Option String) (reachable : String → Bool)
    (faults : String → Faults) (w : Cluster) (g : String × List (Page × Nat)) : Prop where
  reach : reachable g.1 = true
  writes : GroupWrites owners content keys (faults g.1) (w.node g.1) g.2
  bytes : BytesOf content mem g.2
  ne_nil : g.2 ≠ []
  owner : ∀ q ∈ g.2, dataOwner q.1.key = some g.1

variable (pages) in
/-- **THE GROUPS ONE AFTER THE OTHER** store all their pages. -/
lemma publishGroups_stored (hring : ∀ k, owners k ≠ []) (hnodup : (groups.map Prod.fst).Nodup)
    (h : ∀ g ∈ groups, GroupReady owners content mem keys dataOwner reachable faults w g)
    (results : List Bool) {last : List Bool × Cluster}
    (hlast : groups.foldl (publishGroup owners mem pages reachable faults) (results, w) = last) :
    (∀ g ∈ groups, ∀ q ∈ g.2, StoredAt owners content g.1 q.1.key (last.2.node g.1))
      ∧ (∀ k ∈ keys, (∀ g ∈ groups, dataOwner k ≠ some g.1) →
          view owners last.2.dir k = view owners w.dir k)
      ∧ ∀ n ∉ groups.map Prod.fst, last.2.hosts n = w.hosts n := by
  induction groups generalizing w results with
  | nil =>
    cases hlast
    exact ⟨forall_mem_nil _, fun _ _ _ => rfl, fun _ _ => rfl⟩
  | cons g groups ih =>
    obtain ⟨hg, hrest⟩ := forall_mem_cons.mp h
    rw [map_cons, nodup_cons] at hnodup
    have hstep : publishGroup owners mem pages reachable faults (results, w) g
        = ((writeGroup owners mem pages g.1 (faults g.1) g.2 (prepareGroup g.1 owners (w.node g.1)
            g.2) results).1, w.setNode g.1 (writeGroup owners mem pages g.1 (faults g.1) g.2
              (prepareGroup g.1 owners (w.node g.1) g.2) results).2) := by
      rw [publishGroup]
      simp only [dataPrepareWrites_eq]
      rw [if_pos hg.reach, hg.writes.prepare]
    obtain ⟨hstored, hviews⟩ := hg.writes.stored hring hg.bytes hg.ne_nil pages results rfl
    rw [foldl_cons, hstep] at hlast
    generalize writeGroup owners mem pages g.1 (faults g.1) g.2 (prepareGroup g.1 owners (w.node g.1)
      g.2) results = r at hstored hviews hlast
    have hview : ∀ k ∈ keys, dataOwner k ≠ some g.1 →
        view owners (w.setNode g.1 r.2).dir k = view owners w.dir k := by
      intro k hk hne
      refine hviews k hk ?_
      intro hmem
      obtain ⟨q, hq, rfl⟩ := mem_map.mp hmem
      exact hne (hg.owner q hq)
    have hhost : ∀ n, n ≠ g.1 → (w.setNode g.1 r.2).hosts n = w.hosts n :=
      fun n hn => Function.update_of_ne hn _ _
    -- the groups that follow are as they were
    have hready : ∀ g' ∈ groups, GroupReady owners content mem keys dataOwner reachable faults
        (w.setNode g.1 r.2) g' := by
      intro g' hg'
      have hne : g'.1 ≠ g.1 := fun heq => hnodup.1 (heq ▸ mem_map_of_mem hg')
      have hold := hrest g' hg'
      have hpool : ((w.setNode g.1 r.2).node g'.1).pool = (w.node g'.1).pool :=
        congrArg Host.pool (hhost g'.1 hne)
      refine { hold with writes := { hold.writes with
        inv := hpool ▸ hold.writes.inv, lens := hpool ▸ hold.writes.lens,
        fits := hpool ▸ hold.writes.fits, ok := ?_ } }
      intro q hq
      have hok := hold.writes.ok q hq
      refine { hok with new := ?_ }
      rw [← hok.new, existMap, existMap]
      refine congrArg Option.isSome (hview _ hok.batch ?_)
      rw [hold.owner q hq]
      exact fun heq => hne (Option.some.inj heq)
    obtain ⟨hall, hviews', hhosts⟩ := ih hnodup.2 hready r.1 hlast
    refine ⟨forall_mem_cons.mpr ⟨?_, hall⟩, ?_, ?_⟩
    · intro q hq
      obtain ⟨loc, hloc, hme, hcur, hholds⟩ := hstored q hq
      have hpool : (last.2.node g.1).pool = r.2.pool :=
        congrArg Host.pool ((hhosts g.1 hnodup.1).trans (Function.update_self _ _ _))
      refine ⟨loc, (hviews' _ (hg.writes.ok q hq).batch ?_).trans hloc, hme, hpool ▸ hcur,
        hpool ▸ hholds⟩
      intro g' hg' heq
      rw [hg.owner q hq] at heq
      exact hnodup.1 (Option.some.inj heq ▸ mem_map_of_mem hg')
    · intro k hk hne
      obtain ⟨hne, hne'⟩ := forall_mem_cons.mp hne
      exact (hviews' k hk hne').trans (hview k hk hne)
    · intro n hn
      obtain ⟨hne, hne'⟩ := not_or.mp (fun h => hn (mem_cons.mpr h))
      exact (hhosts n hne').trans (hhost n hne)

end

/-! ## The whole call -/

/-- The page goes to the owner. -/
def ownedBy (dataOwner : String → Option String) (o : String) (p : Page) : Bool :=
  decide (dataOwner p.key = some o)

/-- **THE STORAGE WRITES OF A BATCH ALL SUCCEED**, said of the state before the call.  The keys are
    distinct and new; each has a storage node that is reached and answers; no node has an entry of
    another length for a page, and reserving its pages in turn takes no page of the batch away; and
    every WRITE succeeds and lands. -/
structure StorageWrites (owners : Owners) (storageNodes : List String)
    (dataOwner : String → Option String) (reachable : String → Bool) (faults : String → Faults)
    (w : Cluster) (pages : List Page) : Prop where
  distinct : (pages.map Page.key).Nodup
  ok : ∀ p ∈ pages, PageOk (existMap owners w.dir) (pages.map Page.key) p
  owner : ∀ p ∈ pages, ∃ o ∈ storageNodes, dataOwner p.key = some o ∧ reachable o = true
    ∧ (faults o).prepare = .answered ∧ (faults o).commit = .answered
  lens : ∀ p ∈ pages, ∀ o, dataOwner p.key = some o →
    ∀ x, (w.hosts o).pool.entries.get? p.key = some x → x.2 = p.size
  fits : ∀ o ∈ storageNodes,
    FitsInTurn (pages.map Page.key) (pages.filter (ownedBy dataOwner o)) (w.hosts o).pool
  writes : ∀ o ∈ storageNodes, ∀ i < pages.length, ((faults o).write i).isOk = true
  lands : ∀ o ∈ storageNodes,
    (faults o).order.Perm (List.range (pages.filter (ownedBy dataOwner o)).length)

/-- The bytes of a key's page in the batch. -/
def bytesIn (mem : Mem) (pages : List Page) (k : String) : Bytes :=
  ((pages.find? (fun p => p.key = k)).map (fun p => mem.read p.ptr p.size)).getD []

section

variable {owners : Owners} {mem : Mem} {dataOwner : String → Option String}
  {reachable : String → Bool} {faults : String → Faults} {w : Cluster} {pages : List Page}
  {storageNodes : List String} {dir : Shards} {o : String} {g : String × List (Page × Nat)}

lemma bytesIn_eq (hnodup : (pages.map Page.key).Nodup) {p : Page} (hp : p ∈ pages) :
    bytesIn mem pages p.key = mem.read p.ptr p.size := by
  rw [bytesIn]
  cases hf : pages.find? (fun q => q.key = p.key) with
  | none => exact absurd (decide_eq_true rfl) (find?_eq_none.mp hf p hp)
  | some q =>
    have hkey : q.key = p.key := by simpa using find?_some hf
    rw [inj_on_of_nodup_map hnodup (mem_of_find?_eq_some hf) hp hkey]
    rfl

lemma pending_ne_nil (h : g ∈ (pending owners dir dataOwner pages).items) : g.2 ≠ [] := by
  have hget : (pending owners dir dataOwner pages).get? g.1 = some g.2 :=
    get?_eq_some.mpr h
  rw [pending, pending_foldl] at hget
  split_ifs at hget with hnil
  · cases hget
  · rw [← Option.some.inj hget]; exact hnil

/-- **A NEW PAGE** with an owner is pending there. -/
lemma exists_pending {q : Page × Nat} (hq : q ∈ pages.zipIdx)
    (hnew : existMap owners dir q.1.key = false) (ho : dataOwner q.1.key = some o) :
    ∃ g ∈ (pending owners dir dataOwner pages).items, g.1 = o ∧ q ∈ g.2 := by
  have hmem : q ∈ pages.zipIdx.filter (goesTo owners dir dataOwner o) := by
    refine mem_filter.mpr ⟨hq, ?_⟩
    rw [goesTo, hnew, ho]
    simp
  have hget : (pending owners dir dataOwner pages).get? o
      = some (pages.zipIdx.filter (goesTo owners dir dataOwner o)) := by
    rw [pending, pending_foldl, if_neg (ne_nil_of_mem hmem)]
    rfl
  exact ⟨(o, _), get?_eq_some.mp hget, rfl, hmem⟩

lemma groupReady_pending
    (h : StorageWrites owners storageNodes dataOwner reachable faults w pages)
    (hi : ∀ n, Inv (w.hosts n).pool)
    (hg : g ∈ (pending owners w.dir dataOwner pages).items) :
    GroupReady owners (bytesIn mem pages) mem (pages.map Page.key) dataOwner reachable faults w g := by
  obtain ⟨hidx, howner⟩ := pending_spec hg
  have hpage : ∀ q ∈ g.2, q.1 ∈ pages := fun q hq => mem_of_getElem? (hidx q hq)
  have hbytes : BytesOf (bytesIn mem pages) mem g.2 :=
    fun q hq => (bytesIn_eq h.distinct (hpage q hq)).symm
  have hsized : SizedPages (bytesIn mem pages) g.2 := by
    intro q hq
    rw [← hbytes q hq, Mem.length_read]
  -- the group's pages are those of the batch that go to the owner
  have hpages : g.2.map Prod.fst = pages.filter (ownedBy dataOwner g.1) := by
    have hgo : pages.zipIdx.filter (goesTo owners w.dir dataOwner g.1)
        = pages.zipIdx.filter (ownedBy dataOwner g.1 ∘ Prod.fst) := by
      refine filter_congr ?_
      intro q hq
      have hin : q.1 ∈ pages := mem_of_getElem? (mem_zipIdx_iff_getElem?.mp hq)
      rw [goesTo, (h.ok q.1 hin).new]
      rfl
    rw [mem_pending hg, hgo, ← filter_map, zipIdx_map_fst]
  obtain ⟨q, hq⟩ := exists_mem_of_ne_nil _ (pending_ne_nil hg)
  obtain ⟨o, hnode, ho, hreach, hprep, hcommit⟩ := h.owner q.1 (hpage q hq)
  obtain rfl : g.1 = o := Option.some.inj ((howner q hq).symm.trans ho)
  refine ⟨hreach, ⟨hi g.1, fun q hq => h.ok q.1 (hpage q hq), hsized, ?_, ?_, ?_, hprep, ?_, ?_,
    hcommit⟩, hbytes, pending_ne_nil hg, howner⟩
  · intro q hq x hx
    exact (h.lens q.1 (hpage q hq) g.1 (howner q hq) x hx).trans (hsized q hq)
  · have hsub := (filter_sublist (p := ownedBy dataOwner g.1) (l := pages)).map Page.key
    rw [← hpages, map_map] at hsub
    exact h.distinct.sublist hsub
  · rw [hpages]
    exact h.fits g.1 hnode
  · intro q hq
    exact h.writes g.1 hnode q.2 (List.getElem?_eq_some_iff.mp (hidx q hq)).1
  · rw [← length_map Prod.fst, hpages]
    exact h.lands g.1 hnode

variable (mem) in
/-- **A BATCH WHOSE STORAGE WRITES SUCCEED** is stored, every page at its storage node. -/
lemma publishStorage_stored (hring : ∀ k, owners k ≠ []) (hi : ∀ n, Inv (w.hosts n).pool)
    (h : StorageWrites owners storageNodes dataOwner reachable faults w pages) {p : Page}
    (hp : p ∈ pages) : ∃ o ∈ storageNodes, StoredAt owners (bytesIn mem pages) o p.key
      ((publishStorage owners mem storageNodes dataOwner reachable faults w pages).2.node o) := by
  obtain ⟨o, hnode, ho, -⟩ := h.owner p hp
  obtain ⟨i, hi'⟩ := mem_iff_getElem?.mp hp
  obtain ⟨g, hg, rfl, hmem⟩ := exists_pending (q := (p, i))
    (mem_zipIdx_iff_getElem?.mpr hi') (h.ok p hp).new ho
  obtain ⟨hstored, -⟩ := publishGroups_stored pages hring
    (pending owners w.dir dataOwner pages).nodup (fun g hg => groupReady_pending h hi hg)
    (pages.map (fun q => existMap owners w.dir q.key)) rfl
  rw [publishStorage, if_neg (ne_nil_of_mem hnode)]
  exact ⟨g.1, hnode, hstored g hg (p, i) hmem⟩

lemma publishStorage_hosts {me : String} (hme : ∀ k, dataOwner k ≠ some me) :
    (publishStorage owners mem storageNodes dataOwner reachable faults w pages).2.hosts me
      = w.hosts me := by
  rw [publishStorage]
  by_cases hstorage : storageNodes = []
  · rw [if_pos hstorage]
  · rw [if_neg hstorage]
    refine foldlRecOn
      (motive := fun acc : List Bool × Cluster => acc.2.hosts me = w.hosts me) _ _ rfl ?_
    intro acc hacc g hg
    refine (publishGroup_hosts owners reachable faults acc.1 acc.2 ?_).trans hacc
    intro hgm
    obtain ⟨q, hq⟩ := exists_mem_of_ne_nil _ (pending_ne_nil hg)
    exact hme q.1.key (hgm ▸ (pending_spec hg).2 q hq)

end

end PeerCacheStorageWrite
