import PeerCache.DirectoryProofs
import PeerCache.DiskStoreProofs

/-! # The owner of pages — pool, disk tier and directory entries

    `PeerCacheStore` in peer-to-peer mode and `StorageServer` hold pages in the same way:
    a pool, an optional disk tier below it, the length of every page published, and
    directory entries that follow what the pool does.  This file has the code the two
    share: the eviction callbacks, `_ensure_resident` and `_republish_directory`. -/

namespace PeerCacheOwner

open PeerCachePool PeerCacheDirectory PeerCacheDisk OrderedDict

/-- What a node knows of its pages, and the directory it writes to. -/
structure PageOwner where
  pool : PublishedPool String
  disk : Option DiskStore
  keyLen : OrderedDict String Nat
  dir : Shards

namespace PageOwner

def setPool (s : PageOwner) (pool : PublishedPool String) : PageOwner := { s with pool := pool }

def setDisk (s : PageOwner) (disk : Option DiskStore) : PageOwner := { s with disk := disk }

def setLen (s : PageOwner) (key : String) (length : Nat) : PageOwner :=
  { s with keyLen := s.keyLen.set key length }

def setDir (s : PageOwner) (dir : Shards) : PageOwner := { s with dir := dir }

/-- `self._disk.put`, if there is a disk tier. -/
def diskPut (s : PageOwner) (key : String) (data : Bytes) : PageOwner :=
  s.setDisk (s.disk.map (fun d => PeerCacheDisk.put d key data))

/-- `self._disk.get`, if there is a disk tier. -/
def diskGet (s : PageOwner) (key : String) : Option Bytes × PageOwner :=
  match s.disk with
  | none => (none, s)
  | some d => ((PeerCacheDisk.get d key).1, s.setDisk (some (PeerCacheDisk.get d key).2))

end PageOwner

section

variable (me : String) (owners : Owners)

/-- The entries `_on_pool_evict` puts for pages that are still on disk. -/
def spilled (keyLen : OrderedDict String Nat) (evicted : List String) :
    Locations :=
  evicted.foldl (fun entries k =>
    match keyLen.get? k with
    | none => entries
    | some length => entries.set k (nonResident me length)) OrderedDict.empty

/-- `_on_pool_evict` -/
def onPoolEvict (s : PageOwner) (evicted : List String) : PageOwner :=
  match s.disk with
  | none => s.setDir (delete owners s.dir evicted)
  | some _ => s.setDir (put owners s.dir (spilled me s.keyLen evicted))

/-- `_on_disk_evict` -/
def onDiskEvict (s : PageOwner) (evicted : List String) : PageOwner :=
  { s with
    keyLen := evicted.foldl OrderedDict.erase s.keyLen
    dir := delete owners s.dir evicted }

/-- A turn of the disk worker, with its callback. -/
def diskWork (safeName : String → String) (s : PageOwner) : PageOwner :=
  match s.disk with
  | none => s
  | some d =>
      let r := work safeName d
      onDiskEvict owners (s.setDisk (some r.1)) r.2

/-- What `publish` or `reserve` of the pool leaves behind. -/
structure Stored where
  addr : Option Nat
  owner : PageOwner
  evicted : List String

/-- A pool operation with its eviction callback. -/
def store (s : PageOwner) (r : Placed String) : Stored :=
  ⟨r.addr, onPoolEvict me owners (s.setPool r.pool) r.evicted, r.evicted⟩

/-- `self._pool.publish` -/
def publishPage (s : PageOwner) (key : String) (data : Bytes) : Stored :=
  store me owners s (publish s.pool key data)

/-- `self._pool.reserve` -/
def reservePage (s : PageOwner) (key : String) (length : Nat) : Stored :=
  store me owners s (reserve s.pool key length)

/-! ## `_ensure_resident` -/

/-- One key of `_ensure_resident`: its location, and whether it was promoted. -/
structure Ensured where
  loc : Option DataLocation
  promoted : Bool
  owner : PageOwner
  evicted : List String

def ensureOne (s : PageOwner) (k : String) : Ensured :=
  let (al, pool) := addressOf s.pool k
  let s := s.setPool pool
  match al with
  | some (addr, length) => ⟨some (residentLocation me s.pool addr length), false, s, []⟩
  | none =>
      let (data, s) := s.diskGet k
      match data with
      | none => ⟨none, false, s, []⟩
      | some data =>
          let r := publishPage me owners s k data
          match r.addr with
          | none => ⟨none, false, r.owner, r.evicted⟩
          | some addr =>
              ⟨some (residentLocation me r.owner.pool addr data.length), true,
                r.owner.setLen k data.length, r.evicted⟩

/-- The keys of `_ensure_resident`: locations, the entries promoted, the state. -/
structure EnsuredAll where
  locs : List (Option DataLocation)
  promoted : Locations
  owner : PageOwner
  evicted : List String

/-- A promoted key's location is to be put. -/
def addPromoted (promoted : Locations) (k : String) (e : Ensured) :
    Locations :=
  match e.loc with
  | none => promoted
  | some loc => if e.promoted then promoted.set k loc else promoted

def ensureLoop : List String → PageOwner → Locations → EnsuredAll
  | [], s, promoted => ⟨[], promoted, s, []⟩
  | k :: keys, s, promoted =>
      let e := ensureOne me owners s k
      let r := ensureLoop keys e.owner (addPromoted promoted k e)
      { r with locs := e.loc :: r.locs, evicted := e.evicted ++ r.evicted }

/-- `_ensure_resident` -/
def ensureResident (s : PageOwner) (keys : List String) : EnsuredAll :=
  let r := ensureLoop me owners keys s OrderedDict.empty
  { r with owner := r.owner.setDir (put owners r.owner.dir r.promoted) }

/-! ## `_republish_directory` -/

/-- The resident entries a republish puts. -/
def snapshotEntries (pool : PublishedPool String) : Locations :=
  (snapshot pool).foldl (fun entries e =>
    entries.set e.1 (residentLocation me pool e.2.1 e.2.2)) OrderedDict.empty

/-- The entries of `_republish_directory`: the pool's pages, and those on disk only. -/
def republishEntries (s : PageOwner) : Locations :=
  let entries := snapshotEntries me s.pool
  match s.disk with
  | none => entries
  | some _ =>
      (s.keyLen.items.filter (fun e => decide (e.1 ∉ entries.keys))).foldl
        (fun entries e => entries.set e.1 (nonResident me e.2)) entries

/-- `_republish_directory`; the chunks it puts have disjoint keys and are put here at once. -/
def republishDirectory (s : PageOwner) : PageOwner :=
  s.setDir (put owners s.dir (republishEntries me s))

end

/-! ## What a callback leaves -/

section

variable {me : String} {owners : Owners}

@[simp] lemma onPoolEvict_pool (s : PageOwner) (evicted : List String) :
    (onPoolEvict me owners s evicted).pool = s.pool := by
  rw [onPoolEvict]
  cases s.disk with
  | none => rfl
  | some d => rfl

@[simp] lemma onPoolEvict_keyLen (s : PageOwner) (evicted : List String) :
    (onPoolEvict me owners s evicted).keyLen = s.keyLen := by
  rw [onPoolEvict]
  cases s.disk with
  | none => rfl
  | some d => rfl

@[simp] lemma onPoolEvict_disk (s : PageOwner) (evicted : List String) :
    (onPoolEvict me owners s evicted).disk = s.disk := by
  rw [onPoolEvict]
  cases hd : s.disk with
  | none => exact hd
  | some d => exact hd

lemma foldl_spilled_get? (keyLen : OrderedDict String Nat) (evicted : List String)
    (entries : Locations) (k : String) :
    (evicted.foldl (fun entries k =>
      match keyLen.get? k with
      | none => entries
      | some length => entries.set k (nonResident me length)) entries).get? k
      = (if k ∈ evicted then (keyLen.get? k).map (nonResident me) else none).or (entries.get? k) := by
  induction evicted generalizing entries with
  | nil => rfl
  | cons j evicted ih =>
    rw [List.foldl_cons, ih]
    cases hj : keyLen.get? j with
    | none =>
      by_cases hkj : k = j
      · subst hkj; simp [hj]
      · simp [hkj]
    | some length =>
      simp only [get?_set]
      by_cases hkj : k = j
      · subst hkj
        by_cases hk : k ∈ evicted
        · simp [hj, hk]
        · simp [hj, hk]
      · simp [hkj]

lemma spilled_get? (keyLen : OrderedDict String Nat) (evicted : List String) (k : String) :
    (spilled me keyLen evicted).get? k
      = if k ∈ evicted then (keyLen.get? k).map (nonResident me) else none := by
  rw [spilled, foldl_spilled_get?, get?_empty, Option.or_none]

/-- **EVICTION NAMES NO PAGE**: a resident entry found after the callback was there before, and is
    not of an evicted key of known length. -/
lemma onPoolEvict_resident {s : PageOwner} {evicted : List String} {node k : String}
    {loc : DataLocation} (h : ((onPoolEvict me owners s evicted).dir node).get? k = some loc)
    (hres : loc.resident = true) :
    (s.dir node).get? k = some loc ∧ (node ∈ owners k → k ∈ s.keyLen.keys → k ∉ evicted) := by
  rw [onPoolEvict] at h
  cases hd : s.disk with
  | none =>
    rw [hd] at h
    obtain ⟨hold, hev⟩ := delete_get?_some h
    exact ⟨hold, fun hn _ => hev hn⟩
  | some d =>
    rw [hd] at h
    rcases put_get?_cases h with ⟨-, hput⟩ | ⟨hold, hnone⟩
    · rw [spilled_get?] at hput
      by_cases hk : k ∈ evicted
      · rw [if_pos hk] at hput
        obtain ⟨length, -, rfl⟩ := Option.map_eq_some_iff.mp hput
        cases hres
      · rw [if_neg hk] at hput; cases hput
    · refine ⟨hold, ?_⟩
      intro hn hlen hk
      obtain ⟨length, hl⟩ := mem_keys.mp hlen
      have := hnone hn
      rw [spilled_get?, if_pos hk, hl] at this
      cases this

/-! ## Effects -/

variable {content : String → Bytes}

/-- What the owner does before it puts entries: the pool changes, no page becomes named, and the
    pages evicted are no longer named where their keys are owned. -/
structure OwnerEffect (owners : Owners) (content : String → Bytes)
    (s t : PageOwner) (evicted reserved : List String) : Prop where
  pool : Effect content s.pool t.pool evicted reserved
  lens : ∀ k ∈ s.keyLen.keys, k ∈ t.keyLen.keys
  resident : ∀ node k loc, (t.dir node).get? k = some loc → loc.resident = true →
    (s.dir node).get? k = some loc ∧ (node ∈ owners k → k ∈ s.keyLen.keys → k ∉ evicted)

namespace OwnerEffect

variable {s t u : PageOwner} {evicted reserved evicted' reserved' : List String}

lemma refl (hi : Inv s.pool) : OwnerEffect owners content s s [] [] where
  pool := Effect.refl hi
  lens := fun _ h => h
  resident := fun _ _ _ h _ => ⟨h, fun _ _ => List.not_mem_nil⟩

lemma trans (h : OwnerEffect owners content s t evicted reserved)
    (h' : OwnerEffect owners content t u evicted' reserved') :
    OwnerEffect owners content s u (evicted ++ evicted') (reserved ++ reserved') where
  pool := h.pool.trans h'.pool
  lens := fun k hk => h'.lens k (h.lens k hk)
  resident := by
    intro node k loc hk hres
    obtain ⟨hk', hev'⟩ := h'.resident node k loc hk hres
    obtain ⟨hk'', hev⟩ := h.resident node k loc hk' hres
    refine ⟨hk'', ?_⟩
    intro hn hlen hmem
    rcases List.mem_append.mp hmem with hmem | hmem
    · exact hev hn hlen hmem
    · exact hev' hn (h.lens k hlen) hmem

lemma mono (h : OwnerEffect owners content s t evicted reserved) (hsub : reserved ⊆ reserved') :
    OwnerEffect owners content s t evicted reserved' :=
  ⟨h.pool.mono hsub, h.lens, h.resident⟩

lemma note (h : OwnerEffect owners content s t evicted reserved) (hpool : u.pool = t.pool)
    (hdir : u.dir = t.dir) (hlen : ∀ k ∈ t.keyLen.keys, k ∈ u.keyLen.keys) :
    OwnerEffect owners content s u evicted reserved where
  pool := hpool ▸ h.pool
  lens := fun k hk => hlen k (h.lens k hk)
  resident := fun node k loc hk => h.resident node k loc (hdir ▸ hk)

end OwnerEffect

lemma ownerEffect_store {s : PageOwner} {r : Placed String} {reserved : List String}
    (h : Effect content s.pool r.pool r.evicted reserved) :
    OwnerEffect owners content s (store me owners s r).owner (store me owners s r).evicted reserved where
  pool := by
    show Effect content s.pool (onPoolEvict me owners (s.setPool r.pool) r.evicted).pool _ _
    rw [onPoolEvict_pool]
    exact h
  lens := by
    intro k hk
    show k ∈ (onPoolEvict me owners (s.setPool r.pool) r.evicted).keyLen.keys
    rw [onPoolEvict_keyLen]
    exact hk
  resident := fun _ _ _ hk hres => onPoolEvict_resident (s := s.setPool r.pool) hk hres

lemma ownerEffect_publishPage {s : PageOwner} (hi : Inv s.pool) (key : String) :
    OwnerEffect owners content s (publishPage me owners s key (content key)).owner
      (publishPage me owners s key (content key)).evicted [] :=
  ownerEffect_store (effect_publish hi key)

lemma ownerEffect_reservePage {s : PageOwner} (hi : Inv s.pool) (key : String) :
    OwnerEffect owners content s (reservePage me owners s key (content key).length).owner
      (reservePage me owners s key (content key).length).evicted [key] :=
  ownerEffect_store (effect_reserve hi key)

lemma ownerEffect_addressOf {s : PageOwner} (hi : Inv s.pool) (key : String) :
    OwnerEffect owners content s (s.setPool (addressOf s.pool key).2) [] [] where
  pool := effect_addressOf hi key
  lens := fun _ h => h
  resident := fun _ _ _ h _ => ⟨h, fun _ _ => List.not_mem_nil⟩

/-! ## The disk tier -/

variable {safeName : String → String} {keysUsed : Set String}

/-- The disk tier, if there is one, agrees with the contents. -/
def DiskSound (safeName : String → String) (content : String → Bytes) (keysUsed : Set String)
    (s : PageOwner) : Prop := ∀ d, s.disk = some d → DiskOk safeName content keysUsed d

lemma DiskSound.congr {s t : PageOwner} (h : DiskSound safeName content keysUsed s)
    (hdisk : t.disk = s.disk) : DiskSound safeName content keysUsed t :=
  fun d hd => h d (hdisk ▸ hd)

lemma store_disk (s : PageOwner) (r : Placed String) :
    (store me owners s r).owner.disk = s.disk := onPoolEvict_disk _ _

lemma diskSound_diskPut {s : PageOwner} (h : DiskSound safeName content keysUsed s) {key : String}
    (hkey : key ∈ keysUsed) : DiskSound safeName content keysUsed (s.diskPut key (content key)) := by
  intro d hd
  obtain ⟨d', hd', rfl⟩ := Option.map_eq_some_iff.mp hd
  exact diskOk_put (h d' hd') hkey

variable {k : String}

lemma diskGet_content {s : PageOwner} (h : DiskSound safeName content keysUsed s)
    {data : Bytes} (hget : (s.diskGet k).1 = some data) : data = content k := by
  rw [PageOwner.diskGet] at hget
  cases hd : s.disk with
  | none => rw [hd] at hget; cases hget
  | some d => rw [hd] at hget; exact get_eq_content (h d hd) hget

lemma diskSound_diskGet {s : PageOwner} (h : DiskSound safeName content keysUsed s) (k : String) :
    DiskSound safeName content keysUsed (s.diskGet k).2 := by
  rw [PageOwner.diskGet]
  cases hd : s.disk with
  | none => exact h
  | some d =>
    intro d' hd'
    cases hd'
    exact diskOk_get (h d hd) k

lemma diskGet_eq (s : PageOwner) (k : String) : ∃ disk, (s.diskGet k).2 = s.setDisk disk := by
  rw [PageOwner.diskGet]
  cases hd : s.disk with
  | none => exact ⟨s.disk, rfl⟩
  | some d => exact ⟨_, rfl⟩

lemma diskGet_pool (s : PageOwner) (k : String) : (s.diskGet k).2.pool = s.pool := by
  obtain ⟨disk, heq⟩ := diskGet_eq s k
  rw [heq]; rfl

lemma diskGet_keyLen (s : PageOwner) (k : String) : (s.diskGet k).2.keyLen = s.keyLen := by
  obtain ⟨disk, heq⟩ := diskGet_eq s k
  rw [heq]; rfl

lemma diskGet_dir (s : PageOwner) (k : String) : (s.diskGet k).2.dir = s.dir := by
  obtain ⟨disk, heq⟩ := diskGet_eq s k
  rw [heq]; rfl

lemma diskSound_diskWork (hinj : Set.InjOn safeName keysUsed) {s : PageOwner}
    (h : DiskSound safeName content keysUsed s) :
    DiskSound safeName content keysUsed (diskWork owners safeName s) := by
  rw [diskWork]
  cases hd : s.disk with
  | none => exact h
  | some d =>
    intro d' hd'
    cases hd'
    exact diskOk_work hinj (h d hd)

lemma diskWork_spec (owners : Owners) (safeName : String → String) (s : PageOwner) :
    (diskWork owners safeName s).pool = s.pool
      ∧ ∀ node k loc, ((diskWork owners safeName s).dir node).get? k = some loc →
        (s.dir node).get? k = some loc
          ∧ (node ∈ owners k → k ∈ s.keyLen.keys → k ∈ (diskWork owners safeName s).keyLen.keys) := by
  rw [diskWork]
  cases hd : s.disk with
  | none => exact ⟨rfl, fun _ _ _ h => ⟨h, fun _ hk => hk⟩⟩
  | some d =>
    refine ⟨rfl, ?_⟩
    intro node k loc h
    obtain ⟨hold, hev⟩ := delete_get?_some h
    refine ⟨hold, ?_⟩
    intro hn hk
    obtain ⟨length, hl⟩ := mem_keys.mp hk
    refine mem_keys.mpr ⟨length, ?_⟩
    show ((work safeName d).2.foldl OrderedDict.erase s.keyLen).get? k = some length
    rw [get?_foldl_erase, if_neg (hev hn)]
    exact hl

/-! ## `_ensure_resident` -/

/-- **ONE KEY OF `_ensure_resident`**: it is in the pool, or it is nowhere, or it comes from disk
    and the pool takes it or not. -/
lemma ensureOne_split (me : String) (owners : Owners) (s : PageOwner) (k : String) :
    (∃ x, s.pool.entries.get? k = some x ∧ ensureOne me owners s k
          = ⟨some (residentLocation me (addressOf s.pool k).2 (s.pool.base + x.1) x.2), false,
              s.setPool (addressOf s.pool k).2, []⟩)
      ∨ (k ∉ s.pool.entries.keys
        ∧ (((s.diskGet k).1 = none ∧ ensureOne me owners s k = ⟨none, false, (s.diskGet k).2, []⟩)
          ∨ ∃ data r, (s.diskGet k).1 = some data ∧ r = publishPage me owners (s.diskGet k).2 k data
            ∧ ((r.addr = none ∧ ensureOne me owners s k = ⟨none, false, r.owner, r.evicted⟩)
              ∨ ∃ addr, r.addr = some addr ∧ ensureOne me owners s k
                = ⟨some (residentLocation me r.owner.pool addr data.length), true,
                    r.owner.setLen k data.length, r.evicted⟩))) := by
  cases hk : s.pool.entries.get? k with
  | some x =>
    refine .inl ⟨x, rfl, ?_⟩
    rw [ensureOne]
    simp only [addressOf_fst, hk, Option.map_some]
    rfl
  | none =>
    have hpool : addressOf s.pool k = (none, s.pool) := by rw [addressOf, hk]
    have hs : s.setPool s.pool = s := rfl
    refine .inr ⟨get?_eq_none.mp hk, ?_⟩
    cases hdata : (s.diskGet k).1 with
    | none =>
      refine .inl ⟨rfl, ?_⟩
      rw [ensureOne, hpool]
      simp only [hs, hdata]
    | some data =>
      refine .inr ⟨data, _, rfl, rfl, ?_⟩
      rw [ensureOne, hpool]
      simp only [hs, hdata]
      cases haddr : (publishPage me owners (s.diskGet k).2 k data).addr with
      | none => exact .inl ⟨rfl, rfl⟩
      | some addr => exact .inr ⟨addr, rfl, rfl⟩

lemma ensureOne_cases (me : String) (owners : Owners) {s : PageOwner}
    (hd : DiskSound safeName content keysUsed s) (k : String) :
    (∃ x, s.pool.entries.get? k = some x ∧ ensureOne me owners s k
          = ⟨some (residentLocation me (addressOf s.pool k).2 (s.pool.base + x.1) x.2), false,
              s.setPool (addressOf s.pool k).2, []⟩)
      ∨ (k ∉ s.pool.entries.keys ∧ ∃ disk, DiskSound safeName content keysUsed (s.setDisk disk)
          ∧ (ensureOne me owners s k = ⟨none, false, s.setDisk disk, []⟩
            ∨ ∃ r, r = publishPage me owners (s.setDisk disk) k (content k)
              ∧ ((r.addr = none ∧ ensureOne me owners s k = ⟨none, false, r.owner, r.evicted⟩)
                ∨ ∃ addr, r.addr = some addr ∧ ensureOne me owners s k
                  = ⟨some (residentLocation me r.owner.pool addr (content k).length), true,
                      r.owner.setLen k (content k).length, r.evicted⟩))) := by
  rcases ensureOne_split me owners s k with hin | ⟨hout, hdisk⟩
  · exact .inl hin
  · obtain ⟨disk, hget⟩ := diskGet_eq s k
    refine .inr ⟨hout, disk, hget ▸ diskSound_diskGet hd k, ?_⟩
    rw [hget] at hdisk
    rcases hdisk with ⟨-, heq⟩ | ⟨data, r, hdata, hr, hcase⟩
    · exact .inl heq
    · obtain rfl := diskGet_content hd hdata
      exact .inr ⟨r, hr, hcase⟩

lemma ownerEffect_ensureOne {s : PageOwner} (hi : Inv s.pool)
    (hd : DiskSound safeName content keysUsed s) (k : String) :
    OwnerEffect owners content s (ensureOne me owners s k).owner
      (ensureOne me owners s k).evicted [] := by
  have hget : ∀ disk, OwnerEffect owners content s (s.setDisk disk) [] [] :=
    fun _ => (OwnerEffect.refl hi).note rfl rfl (fun _ h => h)
  have hpub : ∀ disk, OwnerEffect owners content s
      (publishPage me owners (s.setDisk disk) k (content k)).owner
      (publishPage me owners (s.setDisk disk) k (content k)).evicted [] :=
    fun disk => (hget disk).trans (ownerEffect_publishPage (s := s.setDisk disk) hi k)
  rcases ensureOne_cases me owners hd k with
    ⟨x, -, heq⟩ | ⟨-, disk, -, heq | ⟨r, rfl, ⟨-, heq⟩ | ⟨addr, -, heq⟩⟩⟩
  · rw [heq]; exact ownerEffect_addressOf hi k
  · rw [heq]; exact hget disk
  · rw [heq]; exact hpub disk
  · rw [heq]
    exact (hpub disk).note rfl rfl (fun _ hk => mem_keys_set.mpr (.inr hk))

lemma diskSound_ensureOne {s : PageOwner} (hd : DiskSound safeName content keysUsed s) (k : String) :
    DiskSound safeName content keysUsed (ensureOne me owners s k).owner := by
  rcases ensureOne_cases me owners hd k with
    ⟨x, -, heq⟩ | ⟨-, disk, hdisk, heq | ⟨r, rfl, ⟨-, heq⟩ | ⟨addr, -, heq⟩⟩⟩
  · rw [heq]; exact hd
  · rw [heq]; exact hdisk
  · rw [heq]; exact hdisk.congr (store_disk _ _)
  · rw [heq]; exact hdisk.congr (store_disk _ _)

variable {loc : DataLocation}

/-- **THE LOCATION RETURNED IS CURRENT.** -/
lemma ensureOne_current {s : PageOwner} (hd : DiskSound safeName content keysUsed s)
    (h : (ensureOne me owners s k).loc = some loc) :
    Current (ensureOne me owners s k).owner.pool k loc := by
  rcases ensureOne_cases me owners hd k with
    ⟨x, hx, heq⟩ | ⟨hout, disk, -, heq | ⟨r, rfl, ⟨-, heq⟩ | ⟨addr, haddr, heq⟩⟩⟩
  · rw [heq] at h ⊢
    cases h
    refine ⟨x, (addressOf_get? s.pool k k).trans hx, ?_, rfl⟩
    exact congrArg (· + x.1) (addressOf_region s.pool k).base.symm
  · rw [heq] at h; cases h
  · rw [heq] at h; cases h
  · rw [heq] at h ⊢
    cases h
    obtain ⟨x, hx, hax, hold | ⟨-, hlen⟩⟩ := place_addr haddr
    · exact absurd (mem_keys.mpr ⟨x, hold⟩) hout
    · have hpool : (publishPage me owners (s.setDisk disk) k (content k)).owner.pool
          = (publish s.pool k (content k)).pool := onPoolEvict_pool _ _
      refine ⟨x, ?_, ?_, hlen.symm⟩
      · exact (congrArg (fun p => p.entries.get? k) hpool).trans hx
      · show addr = (publishPage me owners (s.setDisk disk) k (content k)).owner.pool.base + x.1
        rw [hpool]
        exact hax.trans (congrArg (· + x.1) (place_region s.pool k _ _).base.symm)

lemma ensureOne_promoted {s : PageOwner} (hd : DiskSound safeName content keysUsed s)
    (h : (ensureOne me owners s k).promoted = true) :
    k ∉ s.pool.entries.keys ∧ k ∈ (ensureOne me owners s k).owner.keyLen.keys := by
  rcases ensureOne_cases me owners hd k with
    ⟨x, -, heq⟩ | ⟨hout, disk, -, heq | ⟨r, rfl, ⟨-, heq⟩ | ⟨addr, -, heq⟩⟩⟩
  · rw [heq] at h; cases h
  · rw [heq] at h; cases h
  · rw [heq] at h; cases h
  · refine ⟨hout, ?_⟩
    rw [heq]
    exact mem_keys.mpr ⟨_, (get?_set _ k k _).trans (if_pos rfl)⟩

lemma addPromoted_get? {promoted : Locations} {k j : String} {e : Ensured}
    {loc : DataLocation} (h : (addPromoted promoted k e).get? j = some loc) :
    promoted.get? j = some loc ∨ (j = k ∧ e.promoted = true ∧ e.loc = some loc) := by
  rw [addPromoted] at h
  cases hloc : e.loc with
  | none => rw [hloc] at h; exact .inl h
  | some new =>
    rw [hloc] at h
    by_cases hp : e.promoted = true
    · simp only [hp, if_true, get?_set] at h
      split_ifs at h with hjk
      · exact .inr ⟨hjk, hp, h⟩
      · exact .inl h
    · simp only [if_neg hp] at h; exact .inl h

/-- **THE LOOP OF `_ensure_resident`**: its effect, and what it promotes was out of the pool at
    some time since the start. -/
lemma ensureLoop_spec (me : String) (owners : Owners) (keys : List String) {s : PageOwner} (hi : Inv s.pool)
    (hd : DiskSound safeName content keysUsed s) (promoted : Locations) :
    OwnerEffect owners content s (ensureLoop me owners keys s promoted).owner
        (ensureLoop me owners keys s promoted).evicted []
      ∧ DiskSound safeName content keysUsed (ensureLoop me owners keys s promoted).owner
      ∧ ∀ k loc, (ensureLoop me owners keys s promoted).promoted.get? k = some loc →
        promoted.get? k = some loc
          ∨ (k ∈ s.pool.entries.keys → k ∈ (ensureLoop me owners keys s promoted).evicted) := by
  induction keys generalizing s promoted with
  | nil => exact ⟨OwnerEffect.refl hi, hd, fun _ _ h => .inl h⟩
  | cons j keys ih =>
    have heff : OwnerEffect owners content s (ensureOne me owners s j).owner
        (ensureOne me owners s j).evicted [] := ownerEffect_ensureOne hi hd j
    obtain ⟨hrest, hdisk, hprom⟩ := ih heff.pool.inv (diskSound_ensureOne hd j) _
    refine ⟨heff.trans hrest, hdisk, ?_⟩
    intro k loc hk
    rcases hprom k loc hk with hk | hk
    · rcases addPromoted_get? hk with hk | ⟨rfl, hp, -⟩
      · exact .inl hk
      · exact .inr (fun hmem => absurd hmem (ensureOne_promoted hd hp).1)
    · refine Or.inr ?_
      intro hmem
      by_cases hev : k ∈ (ensureOne me owners s j).evicted
      · exact List.mem_append_left _ hev
      · exact List.mem_append_right _ (hk (heff.pool.mem_keys hmem hev))

/-! ## `_republish_directory` -/

lemma republishEntries_resident {s : PageOwner} (h : (republishEntries me s).get? k = some loc)
    (hres : loc.resident = true) : k ∈ s.pool.entries.keys := by
  have hsnap : ∀ loc, (snapshotEntries me s.pool).get? k = some loc → k ∈ s.pool.entries.keys := by
    intro loc hloc
    rcases foldl_set_cases (fun e : String × Nat × Nat => e.1)
        (fun e => residentLocation me s.pool e.2.1 e.2.2) hloc with ⟨e, he, rfl, -⟩ | hnone
    · obtain ⟨x, hx, rfl⟩ := List.mem_map.mp he
      exact List.mem_map.mpr ⟨x, hx, rfl⟩
    · cases hnone
  rw [republishEntries] at h
  cases hd : s.disk with
  | none => rw [hd] at h; exact hsnap loc h
  | some d =>
    rw [hd] at h
    rcases foldl_set_cases (fun e : String × Nat => e.1)
        (fun e => nonResident me e.2) h with ⟨e, -, -, rfl⟩ | hloc
    · cases hres
    · exact hsnap loc hloc

end

end PeerCacheOwner
