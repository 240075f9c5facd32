import PeerCache.DiskAccountsProofs
import PeerCache.StorageServerProofs

/-! # The owner of pages, step by step

    The loops of `_publish_p2p`, `_on_data_ingest` and `_ensure_resident` are chains of six
    operations of a node on its own pages: look a page up, read it from disk, store it in the
    pool, note it, store it again from disk, note its length.  `OwnerStep` is that list.  What
    each operation keeps is kept by all the loops, so an invariant of the system is proved
    six times here instead of once per loop and caller. -/

namespace PeerCacheOwner

open PeerCachePool PeerCacheDirectory PeerCacheDisk PeerCacheStorage OrderedDict Option

/-! ## Reading from disk -/

lemma diskGet_disk (s : PageOwner) (key : String) :
    (s.diskGet key).2.disk = s.disk.map (fun d => (PeerCacheDisk.get d key).2) := by
  rw [PageOwner.diskGet]
  cases hd : s.disk with
  | none => exact hd
  | some d => rfl

lemma diskGet_fst (s : PageOwner) (key : String) :
    (s.diskGet key).1 = s.disk.bind (fun d => (PeerCacheDisk.get d key).1) := by
  rw [PageOwner.diskGet]
  cases hd : s.disk with
  | none => rfl
  | some d => rfl

lemma diskGet_again (s t : PageOwner) (key k : String) (h : t.disk = (s.diskGet k).2.disk) :
    (t.diskGet key).1 = (s.diskGet key).1 := by
  rw [diskGet_fst, diskGet_fst, h, diskGet_disk]
  cases hd : s.disk with
  | none => rfl
  | some d =>
    obtain ⟨index, heq, -, hget⟩ := get_frame d k
    show (PeerCacheDisk.get (PeerCacheDisk.get d k).2 key).1 = (PeerCacheDisk.get d key).1
    rw [heq]
    exact get_congr (hget key) rfl

/-! ## The steps -/

section

variable (me : String) (owners : Owners) (stores : String → Bytes → Prop)
  (promotes : String → Prop)

/-- One operation of a node on its own pages; `stores` says which pages it may publish, `promotes`
    which it may bring back from disk. -/
inductive OwnerStep : PageOwner → PageOwner → Prop where
  /-- `address_of` -/
  | touch (s : PageOwner) (k : String) : OwnerStep s (s.setPool (addressOf s.pool k).2)
  /-- `DiskStore.get` -/
  | read (s : PageOwner) (k : String) : OwnerStep s (s.diskGet k).2
  /-- `publish` of a page of the batch, with its callback -/
  | store (s : PageOwner) (k : String) (data : Bytes) (h : stores k data) :
      OwnerStep s (publishPage me owners s k data).owner
  /-- the write-through to disk -/
  | note (s : PageOwner) (k : String) (data : Bytes) (h : stores k data) :
      OwnerStep s (noteStored s k data)
  /-- `publish` of a page read from disk, with its callback -/
  | restore (s : PageOwner) (k : String) (data : Bytes) (h : promotes k)
      (hdata : (s.diskGet k).1 = some data) : OwnerStep s (publishPage me owners s k data).owner
  /-- the length of a page read from disk -/
  | noteLength (s : PageOwner) (k : String) (data : Bytes) (h : promotes k)
      (hdata : (s.diskGet k).1 = some data) : OwnerStep s (s.setLen k data.length)

/-- A chain of operations. -/
abbrev OwnerSteps : PageOwner → PageOwner → Prop :=
  Relation.ReflTransGen (OwnerStep me owners stores promotes)

variable {me owners stores promotes}

/-- **CHAIN RULE**: what every operation keeps, a chain keeps. -/
lemma OwnerSteps.keeps {P : PageOwner → Prop}
    (hstep : ∀ s t, OwnerStep me owners stores promotes s t → P s → P t) {s t : PageOwner}
    (h : OwnerSteps me owners stores promotes s t) (hs : P s) : P t := by
  induction h with
  | refl => exact hs
  | tail _ hlast ih => exact hstep _ _ hlast ih

lemma ensureOne_steps (s : PageOwner) {k : String} (hk : promotes k) :
    OwnerSteps me owners stores promotes s (ensureOne me owners s k).owner := by
  have hread : OwnerSteps me owners stores promotes s (s.diskGet k).2 := .single (.read s k)
  rcases ensureOne_split me owners s k with
    ⟨x, -, heq⟩ | ⟨-, ⟨-, heq⟩ | ⟨data, r, hdata, rfl, ⟨-, heq⟩ | ⟨addr, -, heq⟩⟩⟩
  · rw [heq]; exact .single (.touch s k)
  · rw [heq]; exact hread
  · rw [heq]
    refine hread.tail (.restore _ k data hk ?_)
    rw [diskGet_again s _ k k rfl, hdata]
  · rw [heq]
    refine (hread.tail (.restore _ k data hk ?_)).tail (.noteLength _ k data hk ?_)
    · rw [diskGet_again s _ k k rfl, hdata]
    · exact (diskGet_again s _ k k (store_disk _ _)).trans hdata

/-- **`_ensure_resident` IS A CHAIN**, up to the put at its end. -/
lemma ensureLoop_steps (keys : List String) (hkeys : ∀ k ∈ keys, promotes k) (s : PageOwner)
    (promoted : Locations) :
    OwnerSteps me owners stores promotes s (ensureLoop me owners keys s promoted).owner := by
  induction keys generalizing s promoted with
  | nil => exact .refl
  | cons k keys ih =>
    obtain ⟨hk, htail⟩ := List.forall_mem_cons.mp hkeys
    exact (ensureOne_steps s hk).trans (ih htail _ _)

/-- **THE PUBLISH LOOP IS A CHAIN.** -/
lemma publishLoop_steps (pages : List ((String × Bytes) × Admission))
    (hpages : ∀ q ∈ pages, q.2 = .fresh → stores q.1.1 q.1.2) (s : PageOwner)
    (entries : Locations) :
    OwnerSteps me owners stores promotes s (publishLoop me owners pages s entries).owner := by
  fun_induction publishLoop me owners pages s entries with
  | case1 => exact .refl
  | case2 _ _ _ _ _ ih | case3 _ _ _ _ _ ih => exact ih (List.forall_mem_cons.mp hpages).2
  | case4 key data _ s _ _ _ _ ih =>
    obtain ⟨hq, htail⟩ := List.forall_mem_cons.mp hpages
    exact .head (.store s key data (hq rfl)) (ih htail)
  | case5 key data _ s _ st _ _ _ _ ih =>
    obtain ⟨hq, htail⟩ := List.forall_mem_cons.mp hpages
    exact .head (.store s key data (hq rfl)) (.head (.note st.owner key data (hq rfl)) (ih htail))

lemma reconcile_steps (keys : List String) (s : PageOwner)
    (entries : Locations) :
    OwnerSteps me owners stores promotes s (reconcile me keys s entries).2 := by
  induction keys generalizing s entries with
  | nil => exact .refl
  | cons k keys ih => exact .head (.touch s k) (ih _ _)

lemma ensureLoop_chain (me : String) (owners : Owners)
    (stores : String → Bytes → Prop) (s : PageOwner) (keys : List String) :
    OwnerSteps me owners stores (fun _ => True) s
      (ensureLoop me owners keys s OrderedDict.empty).owner :=
  ensureLoop_steps keys (fun _ _ => trivial) s OrderedDict.empty

/-- **PUBLISH, RECONCILE, PUT**: a chain, and the put at its end. -/
lemma publishPages_chain (me : String) (owners : Owners)
    (stores : String → Bytes → Prop) (s : PageOwner)
    (pages : List ((String × Bytes) × Admission))
    (hpages : ∀ q ∈ pages, q.2 = .fresh → stores q.1.1 q.1.2) :
    ∃ t, OwnerSteps me owners stores (fun _ => False) s t ∧ (publishPages me owners s pages).owner
      = t.setDir (put owners t.dir (publishPages me owners s pages).entries) :=
  ⟨_, (publishLoop_steps pages hpages s OrderedDict.empty).trans (reconcile_steps _ _ _), rfl⟩

end

/-! ## What every step keeps -/

section

variable {me : String} {owners : Owners} {stores : String → Bytes → Prop}
  {promotes : String → Prop} {s t : PageOwner}

lemma publishPage_pool (s : PageOwner) (k : String) (data : Bytes) :
    (publishPage me owners s k data).owner.pool = (publish s.pool k data).pool := onPoolEvict_pool _ _

lemma publishPage_disk (s : PageOwner) (k : String) (data : Bytes) :
    (publishPage me owners s k data).owner.disk = s.disk := onPoolEvict_disk _ _

lemma publishPage_keyLen (s : PageOwner) (k : String) (data : Bytes) :
    (publishPage me owners s k data).owner.keyLen = s.keyLen := onPoolEvict_keyLen _ _

lemma inv_ownerStep (h : OwnerStep me owners stores promotes s t) (hi : Inv s.pool) : Inv t.pool := by
  cases h with
  | touch k => exact inv_addressOf hi k
  | read k => rw [diskGet_pool]; exact hi
  | store k data _ | restore k data _ _ => rw [publishPage_pool]; exact inv_place hi k _ _
  | note k data _ => exact hi
  | noteLength k data _ _ => exact hi

lemma region_ownerStep (h : OwnerStep me owners stores promotes s t) : SameRegion s.pool t.pool := by
  cases h with
  | touch k => exact addressOf_region s.pool k
  | read k => rw [diskGet_pool]; exact SameRegion.refl _
  | store k data _ | restore k data _ _ => rw [publishPage_pool]; exact place_region s.pool k _ _
  | note k data _ => exact SameRegion.refl _
  | noteLength k data _ _ => exact SameRegion.refl _

variable {k : String}

lemma lens_ownerStep (h : OwnerStep me owners stores promotes s t) (hk : k ∈ s.keyLen.keys) :
    k ∈ t.keyLen.keys := by
  cases h with
  | touch j => exact hk
  | read j => rw [diskGet_keyLen]; exact hk
  | store j data _ | restore j data _ _ => rw [publishPage_keyLen]; exact hk
  | note j data _ | noteLength j data _ _ => exact mem_keys_set.mpr (.inr hk)

variable {j : String}

lemma onDisk_diskPut {data : Bytes} (h : OnDisk s.disk k) :
    OnDisk (s.diskPut j data).disk k := by
  obtain ⟨d, hd, hk⟩ := h
  show OnDisk (s.disk.map _) k
  rw [hd]
  exact onDisk_put ⟨d, rfl, hk⟩

lemma onDisk_diskGet (h : OnDisk s.disk k) : OnDisk (s.diskGet j).2.disk k := by
  obtain ⟨d, hd, hk⟩ := h
  rw [diskGet_disk, hd]
  exact (onDisk_get d j k).mpr ⟨d, rfl, hk⟩

lemma onDisk_ownerStep (h : OwnerStep me owners stores promotes s t) (hk : OnDisk s.disk k) :
    OnDisk t.disk k := by
  cases h with
  | touch j => exact hk
  | read j => exact onDisk_diskGet hk
  | store j data _ | restore j data _ _ => rw [publishPage_disk]; exact hk
  | note j data _ => exact onDisk_diskPut hk
  | noteLength j data _ _ => exact hk

/-- The keys in the index of the disk tier. -/
def indexed (disk : Option DiskStore) : List String := (disk.map (fun d => d.index.keys)).getD []

lemma mem_indexed {disk : Option DiskStore} :
    k ∈ indexed disk ↔ ∃ d, disk = some d ∧ k ∈ d.index.keys := by
  cases disk with
  | none => exact ⟨fun h => absurd h List.not_mem_nil, fun ⟨_, h, _⟩ => (nomatch h)⟩
  | some d => exact ⟨fun h => ⟨d, rfl, h⟩, fun ⟨_, h, hk⟩ => some.inj h ▸ hk⟩

lemma indexed_ownerStep (h : OwnerStep me owners stores promotes s t) (hk : k ∈ indexed s.disk) :
    k ∈ indexed t.disk := by
  obtain ⟨d, hd, hin⟩ := mem_indexed.mp hk
  cases h with
  | touch j => exact hk
  | read j =>
    obtain ⟨index, heq, -, hget⟩ := get_frame d j
    refine mem_indexed.mpr ⟨{ d with index := index }, ?_, ?_⟩
    · rw [diskGet_disk, hd, ← heq]; rfl
    rw [mem_keys, hget, ← mem_keys]
    exact hin
  | store j data _ | restore j data _ _ => rw [publishPage_disk]; exact hk
  | note j data _ =>
    refine mem_indexed.mpr ⟨PeerCacheDisk.put d j data, ?_, ?_⟩
    · show s.disk.map _ = _
      rw [hd]; rfl
    · rcases put_queue_cases d j data with ⟨heq, -⟩ | ⟨heq, -⟩
      · rw [heq]; exact hin
      · rw [heq]; exact hin
  | noteLength j data _ _ => exact hk

/-- What the callback of a pool eviction makes of the entry of an evicted key. -/
def evictedEntry (me : String) (s : PageOwner) (k : String) (old : Option DataLocation) :
    Option DataLocation :=
  match s.disk with
  | none => none
  | some _ => ((s.keyLen.get? k).map (nonResident me)).or old

lemma onPoolEvict_get? (s : PageOwner) (evicted : List String) (node k : String) :
    ((onPoolEvict me owners s evicted).dir node).get? k
      = if k ∈ evicted ∧ node ∈ owners k then evictedEntry me s k ((s.dir node).get? k)
        else (s.dir node).get? k := by
  rw [onPoolEvict, evictedEntry]
  cases hd : s.disk with
  | none => exact delete_get? s.dir evicted node k
  | some d =>
    show (put owners s.dir (spilled me s.keyLen evicted) node).get? k = _
    rw [put_get?, spilled_get?]
    by_cases hk : k ∈ evicted
    · by_cases hn : node ∈ owners k
      · simp [hk, hn]
      · simp [hn]
    · simp [hk]

/-- **FRAME**: the entries of a key that is not in the pool, and is not to come in, stay as they
    are. -/
lemma frame_ownerStep (h : OwnerStep me owners stores promotes s t)
    (hstores : ∀ data, ¬ stores k data) (hpromotes : ¬ promotes k) (hk : k ∉ s.pool.entries.keys) :
    k ∉ t.pool.entries.keys ∧ ∀ node, (t.dir node).get? k = (s.dir node).get? k := by
  have hplace : ∀ j data, j ≠ k → k ∉ (publishPage me owners s j data).owner.pool.entries.keys
      ∧ ∀ node, ((publishPage me owners s j data).owner.dir node).get? k = (s.dir node).get? k := by
    intro j data hjk
    constructor
    · rw [publishPage_pool]
      intro hmem
      obtain ⟨x, hx⟩ := mem_keys.mp hmem
      rcases place_get?_from hx with hold | ⟨rfl, -⟩
      · exact hk (mem_keys.mpr ⟨x, hold⟩)
      · exact hjk rfl
    · intro node
      refine (onPoolEvict_get? (s.setPool (publish s.pool j data).pool) _ node k).trans (if_neg ?_)
      rintro ⟨hev, -⟩
      exact hk (((place_evicted s.pool j _ _).2 k).mp hev).1
  cases h with
  | touch j =>
    refine ⟨?_, fun _ => rfl⟩
    rw [mem_keys] at hk ⊢
    rwa [show (s.setPool (addressOf s.pool j).2).pool.entries.get? k = s.pool.entries.get? k from
      addressOf_get? s.pool j k]
  | read j => rw [diskGet_pool, diskGet_dir]; exact ⟨hk, fun _ => rfl⟩
  | store j data hst => exact hplace j data (fun hjk => hstores data (hjk ▸ hst))
  | note j data _ => exact ⟨hk, fun _ => rfl⟩
  | restore j data hpr _ => exact hplace j data (fun hjk => hpromotes (hjk ▸ hpr))
  | noteLength j data _ _ => exact ⟨hk, fun _ => rfl⟩

/-- **AN ENTRY OF THE POOL** after a step was there before, or is of the page just stored. -/
lemma entry_ownerStep (h : OwnerStep me owners stores promotes s t) {x : Tiling.Extent}
    (hx : t.pool.entries.get? k = some x) :
    s.pool.entries.get? k = some x
      ∨ ∃ data, x.2 = data.length ∧ (stores k data ∨ (promotes k ∧ (s.diskGet k).1 = some data)) := by
  cases h with
  | touch j => exact .inl ((addressOf_get? s.pool j k).symm.trans hx)
  | read j => rw [diskGet_pool] at hx; exact .inl hx
  | store j data hst =>
    rw [publishPage_pool] at hx
    rcases place_get?_from hx with hold | ⟨rfl, -, hlen, -⟩
    · exact .inl hold
    · exact .inr ⟨data, hlen, .inl hst⟩
  | note j data _ => exact .inl hx
  | restore j data hpr hdata =>
    rw [publishPage_pool] at hx
    rcases place_get?_from hx with hold | ⟨rfl, -, hlen, -⟩
    · exact .inl hold
    · exact .inr ⟨data, hlen, .inr ⟨hpr, hdata⟩⟩
  | noteLength j data _ _ => exact .inl hx

lemma tidy_ownerStep (h : OwnerStep me owners stores promotes s t) (ht : ∀ d ∈ s.disk, Tidy d) :
    ∀ d ∈ t.disk, Tidy d := by
  cases h with
  | touch j => exact ht
  | read j =>
    rw [diskGet_disk]
    intro d hd
    obtain ⟨d', hd', rfl⟩ := map_eq_some_iff.mp hd
    exact tidy_get (ht d' hd') j
  | store j data _ | restore j data _ _ => rw [publishPage_disk]; exact ht
  | note j data _ =>
    intro d hd
    obtain ⟨d', hd', rfl⟩ := map_eq_some_iff.mp hd
    exact tidy_put (ht d' hd') j data
  | noteLength j data _ _ => exact ht

/-- The size of the disk tier. -/
def diskLimit (disk : Option DiskStore) : Option Nat := disk.map DiskStore.maxBytes

lemma diskLimit_ownerStep (h : OwnerStep me owners stores promotes s t) :
    diskLimit t.disk = diskLimit s.disk := by
  cases h with
  | touch j => rfl
  | read j =>
    rw [diskGet_disk, diskLimit, map_map]
    refine map_congr ?_
    intro d _
    obtain ⟨index, heq, -⟩ := get_frame d j
    show (PeerCacheDisk.get d j).2.maxBytes = d.maxBytes
    rw [heq]
  | store j data _ => rw [publishPage_disk]
  | note j data _ =>
    show diskLimit (s.disk.map _) = _
    rw [diskLimit, map_map]
    exact map_congr (fun d _ => put_maxBytes d j data)
  | restore j data _ _ => rw [publishPage_disk]
  | noteLength j data _ _ => rfl

end

end PeerCacheOwner
