import PeerCache.LruProofs
import PeerCache.NoDanglingProofs

/-! # The hand-over from the pool to the disk

    A page that is set is in the pool at once, and on disk after a turn of the worker.  Evicted
    in between, it is in neither index, and `data_promote`, which takes a page that it does not
    find for lost, deletes its directory entry (`lost_in_hand_over`). -/

namespace PeerCacheCluster

open PeerCachePool PeerCacheDirectory PeerCacheDisk PeerCacheOwner PeerCacheStorage OrderedDict Option
  PeerCacheStorageWrite Transition List Function

open PeerCacheP2pDisk (KeySpace componentKeys multiplier pageResults publishP2p)

open PeerCacheP2pRace (remoteByOwner)

open PeerCacheLru (UniformExtents uniform_place uniform_place_addr)

/-! ## Requests that find their pages -/

/-- Each page that the directory knows is on disk, or is in the pool with those before it. -/
def Ready (owners : Owners) (w : Cluster) (me : String) (keys : List String) : Prop :=
  ∀ q ∈ keys.zipIdx, (view owners w.dir q.1).isSome = true →
    q.1 ∈ indexed (w.hosts me).disk ∨ ∀ k ∈ keys.take (q.2 + 1), k ∈ (w.hosts me).pool.entries.keys

instance (owners : Owners) (w : Cluster) (me : String) (keys : List String) :
    Decidable (Ready owners w me keys) :=
  inferInstanceAs (Decidable (∀ q ∈ _, _ → _ ∨ _))

/-- Pages of one length, and a disk tier that does not fill. -/
def Fits (L : Nat) (w : World) : Op → Prop
  | .set _ _ pages => ∀ page ∈ pages, page.length = L
  | .worker me => ∀ d ∈ (w.cluster.hosts me).disk, ∀ q ∈ d.queue.head?, d.used + q.2.length ≤ d.maxBytes
  | _ => True

instance (L : Nat) (w : World) (a : Op) : Decidable (Fits L w a) :=
  match a with
  | .set _ _ _ => inferInstanceAs (Decidable (∀ page ∈ _, _))
  | .exists _ _ _ => isTrue trivial
  | .get _ _ _ _ => isTrue trivial
  | .promote _ _ => isTrue trivial
  | .worker _ => inferInstanceAs (Decidable (∀ d ∈ _, ∀ q ∈ _, _))

/-- **READY OPERATIONS.** -/
def AllReady (owners : Owners) (space : String → KeySpace) (L : Nat) (w : World)
    (a : Op) : Prop :=
  Fits L w a ∧ PromotesMeet owners space (Ready owners) w a

instance (owners : Owners) (space : String → KeySpace) (L : Nat) (w : World) (a : Op) :
    Decidable (AllReady owners space L w a) :=
  inferInstanceAs (Decidable (_ ∧ _))

/-! ## The invariant -/

/-- A disk tier with pages of length `L`, each of which can be read. -/
structure DiskHolds (L : Nat) (d : DiskStore) : Prop where
  tidy : Tidy d
  large : L ≤ d.maxBytes
  file : ∀ k v, d.index.get? k = some v → v.2 = L ∧ ∃ f, d.files.get? v.1 = some f ∧ f.2.length = L
  queue : ∀ q ∈ d.queue, q.2.length = L

/-- A node with pages of length `L`, all of them on disk or on their way there. -/
structure Uniform (L : Nat) (h : Host) : Prop where
  pool : Inv h.pool
  extents : UniformExtents L h.pool
  room : L ≤ h.pool.capacity
  disk : ∃ d, h.disk = some d ∧ DiskHolds L d
  lens : ∀ k n, h.keyLen.get? k = some n → n = L ∧ OnDisk h.disk k

/-- An entry of a page of length `L`; one that is not resident is on disk or on its way there. -/
structure OneLength (L : Nat) (h : Host) (k : String) (loc : DataLocation) : Prop where
  length : loc.length = L
  spilled : loc.resident = false → OnDisk h.disk k

/-- All nodes and entries are of that kind. -/
abbrev Handed (owners : Owners) (L : Nat) : Cluster → Prop :=
  Entries owners (Uniform L) (OneLength L)

section

variable {L : Nat} {d : DiskStore}

variable {data : Bytes}

lemma diskHolds_put (h : DiskHolds L d) (key : String) (hdata : data.length = L) :
    DiskHolds L (PeerCacheDisk.put d key data) := by
  have htidy := tidy_put h.tidy key data
  rcases put_queue_cases d key data with ⟨heq, -⟩ | ⟨heq, -⟩
  · rw [heq]; exact h
  · rw [heq] at htidy ⊢
    refine ⟨htidy, h.large, h.file, ?_⟩
    intro q hq
    rcases mem_append.mp hq with hq | hq
    · exact h.queue q hq
    · rw [mem_singleton.mp hq]; exact hdata

lemma diskHolds_get (h : DiskHolds L d) (key : String) : DiskHolds L (PeerCacheDisk.get d key).2 := by
  have htidy := tidy_get h.tidy key
  obtain ⟨index, heq, -, hget⟩ := get_frame d key
  rw [heq] at htidy ⊢
  exact ⟨htidy, h.large, fun k v hk => h.file k v ((hget k).symm.trans hk), h.queue⟩

/-- **WHAT IS INDEXED CAN BE READ.** -/
lemma diskHolds_read (h : DiskHolds L d) {key : String} (hk : key ∈ d.index.keys) :
    ∃ data, (PeerCacheDisk.get d key).1 = some data ∧ data.length = L := by
  obtain ⟨⟨name, length⟩, hv⟩ := mem_keys.mp hk
  obtain ⟨hlen, ⟨fkey, data⟩, hf, hdata⟩ := h.file key _ hv
  refine ⟨data.take length, ?_, ?_⟩
  · rw [PeerCacheDisk.get, hv]; simp only [hf]
  · rw [length_take, show length = L from hlen, show data.length = L from hdata, Nat.min_self]

lemma diskHolds_read_length (h : DiskHolds L d) {key : String}
    (hk : (PeerCacheDisk.get d key).1 = some data) : data.length = L := by
  obtain ⟨data', hread, hlen⟩ := diskHolds_read h (get_some hk)
  rw [some.inj (hk.symm.trans hread)]
  exact hlen

/-- **A TURN OF THE WORKER**, with room: nothing is handed to `on_evict`. -/
lemma diskHolds_work (safeName : String → String) (h : DiskHolds L d)
    (hroom : ∀ q ∈ d.queue.head?, d.used + q.2.length ≤ d.maxBytes) :
    DiskHolds L (work safeName d).1 ∧ (work safeName d).2 = [] := by
  have htidy := tidy_work safeName h.tidy
  rcases work_room safeName h.tidy hroom with ⟨-, heq⟩ | ⟨key, data, queue, hq, -, heq⟩
  · rw [heq]; exact ⟨h, rfl⟩
  · have hdata : data.length = L := h.queue (key, data) (by rw [hq]; exact (.head _))
    rw [heq] at htidy ⊢
    refine ⟨⟨htidy, h.large, ?_, ?_⟩, rfl⟩
    · -- a file of another key under the same name has the same length
      have hfile : ∀ name, (∃ f, d.files.get? name = some f ∧ f.2.length = L) ∨ name = safeName key →
          ∃ f, (d.files.set (safeName key) (key, data)).get? name = some f ∧ f.2.length = L := by
        intro name hname
        rw [get?_set]
        split_ifs with hn
        · exact ⟨_, rfl, hdata⟩
        · exact hname.resolve_right hn
      intro k v hk
      have hk' : ((d.index.set key (safeName key, data.length)).moveToEnd key).get? k = some v := hk
      rw [get?_moveToEnd, get?_set] at hk'
      split_ifs at hk' with hkk
      · cases hk'; exact ⟨hdata, hfile _ (.inr rfl)⟩
      · exact ⟨(h.file k v hk').1, hfile _ (.inl (h.file k v hk').2)⟩
    · intro q hmem
      exact h.queue q (by rw [hq]; exact .tail _ hmem)

end

section

variable {owners : Owners} {me : String} {w : Cluster} {s t : PageOwner} {L : Nat}
  {promotes : String → Prop}

lemma Uniform.disk_ne_none {h : Host} (hu : Uniform L h) : h.disk ≠ none := by
  obtain ⟨d, hd, -⟩ := hu.disk
  rw [hd]
  exact nofun

variable {k : String}

variable {data : Bytes} {j : String}

lemma Uniform.read (hu : Uniform L (hostOf s)) (hdata : (s.diskGet k).1 = some data) :
    data.length = L ∧ k ∈ indexed s.disk := by
  obtain ⟨d, hd, hholds⟩ := hu.disk
  rw [diskGet_fst, show s.disk = some d from hd] at hdata
  exact ⟨diskHolds_read_length hholds hdata, mem_indexed.mpr ⟨d, hd, get_some hdata⟩⟩

lemma Uniform.onDisk_of_indexed {disk : Option DiskStore} (hk : k ∈ indexed disk) :
    OnDisk disk k := by
  obtain ⟨d, hd, hin⟩ := mem_indexed.mp hk
  exact ⟨d, hd, .inl hin⟩

lemma uniform_publishPage (hu : Uniform L (hostOf s)) (k : String) (hdata : data.length = L) :
    Uniform L (hostOf (publishPage me owners s k data).owner) := by
  have hpool : (publishPage me owners s k data).owner.pool = (publish s.pool k data).pool :=
    publishPage_pool s k data
  have hdisk : (publishPage me owners s k data).owner.disk = s.disk := publishPage_disk s k data
  have hlen : (publishPage me owners s k data).owner.keyLen = s.keyLen := publishPage_keyLen s k data
  rw [show hostOf (publishPage me owners s k data).owner
    = ⟨(publish s.pool k data).pool, s.disk, s.keyLen⟩ by rw [hostOf, hpool, hdisk, hlen]]
  refine ⟨inv_place hu.pool k _ _, ?_, ?_, hu.disk, hu.lens⟩
  · subst hdata; exact uniform_place hu.extents k _
  · exact (place_region s.pool k _ _).capacity.symm ▸ hu.room

/-- **EVERY STEP** keeps a node uniform. -/
lemma uniform_ownerStep (h : OwnerStep me owners (fun _ data => data.length = L) promotes s t)
    (hu : Uniform L (hostOf s)) : Uniform L (hostOf t) := by
  have hmono : ∀ k, OnDisk s.disk k → OnDisk t.disk k := fun k => onDisk_ownerStep h
  obtain ⟨d, hd, hholds⟩ := hu.disk
  have hd' : s.disk = some d := hd
  cases h with
  | touch k =>
    refine ⟨inv_addressOf hu.pool k, ?_, ?_, hu.disk, hu.lens⟩
    · exact fun e he => hu.extents e ((addressOf_extents s.pool k).mem_iff.mp he)
    · exact (addressOf_region s.pool k).capacity.symm ▸ hu.room
  | read k =>
    rw [show hostOf (s.diskGet k).2 = ⟨s.pool, (s.diskGet k).2.disk, s.keyLen⟩ by
      rw [hostOf, diskGet_pool, diskGet_keyLen]]
    refine ⟨hu.pool, hu.extents, hu.room, ⟨_, ?_, diskHolds_get hholds k⟩, ?_⟩
    · rw [diskGet_disk, hd']; rfl
    · exact fun j n hj => ⟨(hu.lens j n hj).1, hmono j (hu.lens j n hj).2⟩
  | store k data hdata => exact uniform_publishPage hu k hdata
  | note k data hdata =>
    refine ⟨hu.pool, hu.extents, hu.room, ⟨_, ?_, diskHolds_put hholds k hdata⟩, ?_⟩
    · show s.disk.map _ = _
      rw [hd']; rfl
    · intro j n hj
      have hj' : (s.keyLen.set k data.length).get? j = some n := hj
      rw [get?_set] at hj'
      split_ifs at hj' with hjk
      · refine ⟨(some.inj hj').symm.trans hdata, ?_⟩
        show OnDisk (s.disk.map _) j
        rw [hd', hjk]
        exact onDisk_put_self hholds.tidy.inflight (hdata.trans_le hholds.large)
      · exact ⟨(hu.lens j n hj').1, hmono j (hu.lens j n hj').2⟩
  | restore k data _ hdata => exact uniform_publishPage hu k (hu.read hdata).1
  | noteLength k data _ hdata =>
    refine ⟨hu.pool, hu.extents, hu.room, hu.disk, ?_⟩
    intro j n hj
    have hj' : (s.keyLen.set k data.length).get? j = some n := hj
    rw [get?_set] at hj'
    split_ifs at hj' with hjk
    · rw [hjk]
      exact ⟨(some.inj hj').symm.trans (hu.read hdata).1,
        Uniform.onDisk_of_indexed (hu.read hdata).2⟩
    · exact hu.lens j n hj'

/-- **EVERY STEP** keeps the entries right: an evicted page is on disk or on its way there. -/
lemma handed_ownerStep (hstep : OwnerStep me owners (fun _ data => data.length = L) promotes s t)
    (h : Handed owners L (w.setNode me s)) : Handed owners L (w.setNode me t) := by
  have hs := h.self
  have ht := uniform_ownerStep hstep hs
  have hstay : ∀ k loc, OneLength L (hostOf s) k loc → OneLength L (hostOf t) k loc :=
    fun k loc hb => ⟨hb.length, fun hr => onDisk_ownerStep hstep (hb.spilled hr)⟩
  have hspill : ∀ k n, s.keyLen.get? k = some n → OneLength L (hostOf t) k (nonResident me n) :=
    fun k n hk => ⟨(hs.lens k n hk).1, fun _ => onDisk_ownerStep hstep (hs.lens k n hk).2⟩
  cases hstep with
  | touch k => exact h.keep ht rfl hstay
  | read k => exact h.keep ht (diskGet_dir s k) hstay
  | store k data _ | restore k data _ _ =>
    exact h.publishPage k data ht (fun j loc hb _ => hstay j loc hb) (fun j n _ hj => hspill j n hj)
  | note k data _ => exact h.keep ht rfl hstay
  | noteLength k data _ _ => exact h.keep ht rfl hstay

lemma handed_ownerSteps (hsteps : OwnerSteps me owners (fun _ data => data.length = L) promotes s t)
    (h : Handed owners L (w.setNode me s)) : Handed owners L (w.setNode me t) :=
  OwnerSteps.keeps (P := fun u => Handed owners L (w.setNode me u))
    (fun _ _ hab ha => handed_ownerStep hab ha) hsteps h

/-! ## Promoting -/

/-- A location from which a page of length `L` can be read. -/
def Good (L : Nat) (oloc : Option DataLocation) : Prop :=
  ∃ loc, oloc = some loc ∧ loc.resident = true ∧ loc.length = L

lemma ensureOne_length (hu : Uniform L (hostOf s)) {loc : DataLocation}
    (hloc : (ensureOne me owners s k).loc = some loc) : loc.length = L := by
  rcases ensureOne_split me owners s k with
    ⟨x, hx, heq⟩ | ⟨-, ⟨-, heq⟩ | ⟨data, r, hdata, -, ⟨-, heq⟩ | ⟨addr, -, heq⟩⟩⟩
  · rw [heq] at hloc
    cases hloc
    refine hu.extents x (mem_append_left _ (mem_map.mpr ⟨(k, x), ?_, rfl⟩))
    exact get?_eq_some.mp hx
  · rw [heq] at hloc; cases hloc
  · rw [heq] at hloc; cases hloc
  · rw [heq] at hloc
    cases hloc
    exact (hu.read hdata).1

/-- **A PAGE IN THE POOL OR ON DISK** is found. -/
lemma ensureOne_good (hu : Uniform L (hostOf s)) (hk : k ∈ s.pool.entries.keys ∨ k ∈ indexed s.disk) :
    Good L (ensureOne me owners s k).loc := by
  have hsome : (ensureOne me owners s k).loc ≠ none := by
    rcases ensureOne_split me owners s k with
      ⟨x, -, heq⟩ | ⟨hout, ⟨hnone, -⟩ | ⟨data, r, hdata, rfl, ⟨hnone, -⟩ | ⟨addr, -, heq⟩⟩⟩
    · rw [heq]; rintro ⟨⟩
    · obtain ⟨d, hd, hin⟩ := mem_indexed.mp (hk.resolve_left hout)
      obtain ⟨d', hd', hholds⟩ := hu.disk
      obtain rfl := some.inj (hd.symm.trans hd')
      obtain ⟨data, hread, -⟩ := diskHolds_read hholds hin
      rw [diskGet_fst, hd] at hnone
      cases hread.symm.trans hnone
    · obtain ⟨hlen, -⟩ := hu.read hdata
      rw [publishPage, store, diskGet_pool, publish, hlen] at hnone
      exact absurd hnone (uniform_place_addr hu.pool hu.extents hu.room k _)
    · rw [heq]; rintro ⟨⟩
  obtain ⟨loc, hloc⟩ := ne_none_iff_exists'.mp hsome
  exact ⟨loc, hloc, (ensureOne_loc hloc).2.1, ensureOne_length hu hloc⟩

lemma ensureOne_chain (s : PageOwner) (k : String) :
    OwnerSteps me owners (fun _ data => data.length = L) (fun _ => True) s
      (ensureOne me owners s k).owner := ensureOne_steps s trivial

lemma uniform_ensureOne (hu : Uniform L (hostOf s)) (k : String) :
    Uniform L (hostOf (ensureOne me owners s k).owner) :=
  OwnerSteps.keeps (P := fun u => Uniform L (hostOf u)) (fun _ _ hab ha => uniform_ownerStep hab ha)
    (ensureOne_chain s k) hu

lemma indexed_ensureOne (k : String) (hj : j ∈ indexed s.disk) :
    j ∈ indexed (ensureOne me owners s k).owner.disk := by
  have hchain : OwnerSteps me owners (fun _ data => data.length = 0) (fun _ => True) s
      (ensureOne me owners s k).owner := ensureOne_chain s k
  exact OwnerSteps.keeps (P := fun u => j ∈ indexed u.disk) (fun _ _ hab ha => indexed_ownerStep hab ha)
    hchain hj

lemma ensureLoop_promoted (keys : List String) (hu : Uniform L (hostOf s))
    {promoted : Locations}
    (hp : ∀ k loc, promoted.get? k = some loc → loc.length = L) :
    ∀ k loc, (ensureLoop me owners keys s promoted).promoted.get? k = some loc → loc.length = L := by
  induction keys generalizing s promoted with
  | nil => exact hp
  | cons j keys ih =>
    refine ih (uniform_ensureOne hu j) ?_
    intro k loc hk
    rcases addPromoted_get? hk with hold | ⟨-, -, hloc⟩
    · exact hp k loc hold
    · exact ensureOne_length hu hloc

/-- **A READY PAGE OF A REQUEST** is found. -/
lemma ensureLoop_good (keys : List String) (hu : Uniform L (hostOf s))
    (promoted : Locations) {i : Nat} (hi : keys[i]? = some k)
    (hk : k ∈ indexed s.disk ∨ ∀ j ∈ keys.take (i + 1), j ∈ s.pool.entries.keys) :
    ∃ oloc, (ensureLoop me owners keys s promoted).locs[i]? = some oloc ∧ Good L oloc := by
  induction keys generalizing s promoted i with
  | nil => cases hi
  | cons j keys ih =>
    cases i with
    | zero =>
      obtain rfl := some.inj hi
      refine ⟨_, rfl, ensureOne_good hu (hk.symm.imp_left ?_)⟩
      exact fun hall => hall j (.head _)
    | succ i =>
      refine ih (uniform_ensureOne hu j) _ hi ?_
      rcases hk with hk | hall
      · exact .inl (indexed_ensureOne j hk)
      · -- the pages before it are in the pool, so they evict nothing
        refine Or.inr ?_
        intro l hl
        have hj : j ∈ s.pool.entries.keys := hall j (.head _)
        have hl' : l ∈ s.pool.entries.keys := hall l (.tail _ hl)
        rcases ensureOne_split me owners s j with ⟨x, -, heq⟩ | ⟨hout, -⟩
        · rw [heq]
          obtain ⟨y, hy⟩ := mem_keys.mp hl'
          exact mem_keys.mpr ⟨y, (addressOf_get? s.pool j l).trans hy⟩
        · exact absurd hj hout

lemma ensureLoop_length (keys : List String) (s : PageOwner)
    (promoted : Locations) :
    (ensureLoop me owners keys s promoted).locs.length = keys.length := by
  induction keys generalizing s promoted with
  | nil => rfl
  | cons k keys ih => exact congrArg (· + 1) (ih _ _)

/-- **PROMOTING** keeps the entries right. -/
lemma handed_ensureResident (h : Handed owners L (w.setNode me s)) (keys : List String) :
    Handed owners L (w.setNode me (ensureResident me owners s keys).owner) := by
  refine (handed_ownerSteps (ensureLoop_chain me owners _ s keys) h).put ?_
  intro k loc hk
  obtain ⟨hme, hres, -⟩ := promotedOk_ensureLoop keys promotedOk_empty k loc hk
  have hempty : ∀ k loc, (empty : Locations).get? k = some loc →
      loc.length = L := fun _ _ hnone => nomatch hnone
  exact ⟨hme, ensureLoop_promoted keys h.self hempty k loc hk, fun hr => nomatch hres.symm.trans hr⟩

lemma indexed_ensureResident (keys : List String) (hj : j ∈ indexed s.disk) :
    j ∈ indexed (ensureResident me owners s keys).owner.disk :=
  (OwnerSteps.keeps (P := fun u => j ∈ indexed u.disk) (fun _ _ hab ha => indexed_ownerStep hab ha)
    (ensureLoop_chain me owners (fun _ _ => False) s keys) hj :)

/-! ## No entry is deleted -/

/-- The directory has an entry for the key. -/
def Present (owners : Owners) (dir : Shards) (k : String) : Prop :=
  (view owners dir k).isSome = true

lemma present_put (hring : ∀ k, owners k ≠ []) {dir : Shards} (hk : Present owners dir k)
    (entries : Locations) : Present owners (put owners dir entries) k := by
  rw [Present, view_put dir entries (hring k)]
  cases entries.get? k with
  | none => exact hk
  | some loc => rfl

lemma present_ensureResident (hring : ∀ k, owners k ≠ []) (hdisk : s.disk ≠ none)
    (keys : List String) (hk : Present owners s.dir k) :
    Present owners (ensureResident me owners s keys).owner.dir k :=
  present_put hring (steps_present (ensureLoop_chain me owners (fun _ _ => False) s keys) hdisk hk) _

/-- **A READY REQUEST** deletes no entry. -/
lemma present_dataPromote (hring : ∀ k, owners k ≠ []) (hu : Uniform L (hostOf s))
    {keys : List String} (hready : ∀ q ∈ keys.zipIdx, (view owners s.dir q.1).isSome = true →
      q.1 ∈ indexed s.disk ∨ ∀ k ∈ keys.take (q.2 + 1), k ∈ s.pool.entries.keys)
    (hk : Present owners s.dir k) : Present owners (dataPromote me owners s keys).owner.dir k := by
  have hstay : Present owners (ensureResident me owners s keys).owner.dir k :=
    present_ensureResident hring hu.disk_ne_none keys hk
  show (view owners (delete owners (ensureResident me owners s keys).owner.dir _) k).isSome = true
  rw [view_delete, if_neg ?_]
  · exact hstay
  · intro hmiss
    obtain ⟨⟨j, oloc⟩, hq, rfl⟩ := mem_map.mp hmiss
    obtain ⟨hzip, hnone⟩ := mem_filter.mp hq
    obtain ⟨i, hi⟩ := mem_iff_getElem?.mp hzip
    obtain ⟨hj, hloc⟩ := getElem?_zip_eq_some.mp hi
    obtain ⟨oloc', hloc', loc, rfl, -⟩ := ensureLoop_good keys hu empty hj
      (hready (j, i) (mem_zipIdx_iff_getElem?.mpr hj) hk)
    have hsome : oloc = some loc := some.inj (hloc.symm.trans hloc')
    exact nomatch hsome.symm.trans (of_decide_eq_true hnone)

/-- **A SET** keeps the entries right, deletes none, and adds one for each page it reports. -/
lemma handed_publishP2p (hring : ∀ k, owners k ≠ []) (h : Handed owners L (w.setNode me s))
    {pages : List (String × Bytes)} (hpages : ∀ q ∈ pages, q.2.length = L) :
    Handed owners L (w.setNode me (publishP2p me owners s pages).owner)
      ∧ (∀ k, Present owners s.dir k → Present owners (publishP2p me owners s pages).owner.dir k)
      ∧ ∀ q ∈ pages.zip (publishP2p me owners s pages).results, q.2 = true →
        Present owners (publishP2p me owners s pages).owner.dir q.1.1 := by
  rw [publishP2p_eq]
  generalize hps : (pages.map fun q => (q, if (view owners s.dir q.1).isSome then
    Admission.existing else Admission.fresh)) = ps
  have hmem : ∀ q ∈ ps, q.1.2.length = L := by
    intro q hq
    rw [← hps] at hq
    obtain ⟨r, hr, rfl⟩ := mem_map.mp hq
    exact hpages r hr
  have hloop : OwnerSteps me owners (fun _ data => data.length = L) (fun _ => False) s
      (publishLoop me owners ps s empty).owner :=
    publishLoop_steps ps (fun q hq _ => hmem q hq) s empty
  have hrec : OwnerSteps me owners (fun _ data => data.length = L) (fun _ => False)
      (publishLoop me owners ps s empty).owner
      (reconcile me (publishLoop me owners ps s empty).entries.keys
        (publishLoop me owners ps s empty).owner
        (publishLoop me owners ps s empty).entries).2 := reconcile_steps _ _ _
  have hafter := handed_ownerSteps hloop h
  have hmono : ∀ k, Present owners s.dir k → Present owners (publishPages me owners s ps).owner.dir k :=
    fun k hk => present_put hring (steps_present (hloop.trans hrec) h.self.disk_ne_none hk) _
  refine ⟨(handed_ownerSteps hrec hafter).put ?_, hmono, ?_⟩
  · intro k loc hk
    obtain ⟨old, hold, rfl⟩ := reconcile_entries hk
    obtain ⟨hme, hres, hkl, q, hq, -, -, hlen⟩ :=
      (publishLoop_entries me owners ps s empty hold).resolve_left nofun
    obtain ⟨n, hn⟩ := mem_keys.mp hkl
    obtain ⟨hn', hdisk⟩ := hafter.self.lens k n hn
    rw [settle]
    cases (publishLoop me owners ps s empty).owner.pool.entries.get? k with
    | none =>
      refine ⟨rfl, ?_, fun _ => ?_⟩
      · rw [show (nonResident me _).length = _ from rfl, hn]; exact hn'
      · exact OwnerSteps.keeps (P := fun u => OnDisk u.disk k)
          (fun _ _ hab ha => onDisk_ownerStep hab ha) hrec hdisk
    | some x => exact ⟨hme, hlen.trans (hmem q hq), fun hr => by cases hres.symm.trans hr⟩
  · intro q hq htrue
    obtain ⟨i, hi⟩ := mem_iff_getElem?.mp hq
    obtain ⟨hpage, hres⟩ := getElem?_zip_eq_some.mp hi
    have hadm : ps[i]? = some (q.1, if (view owners s.dir q.1.1).isSome then
        Admission.existing else Admission.fresh) := by
      rw [← hps, getElem?_map, hpage]; rfl
    rcases publishLoop_true ps s empty (_, q.2)
      (mem_of_getElem? (getElem?_zip_eq_some.mpr ⟨hadm, hres⟩)) htrue with hex | hkey
    · refine hmono _ ?_
      by_contra hnone
      simp only [Present] at hnone
      rw [if_neg hnone] at hex
      cases hex
    · obtain ⟨old, hold⟩ := mem_keys.mp hkey
      show (view owners (put owners _ (reconcile me _ _ _).1) q.1.1).isSome = true
      rw [view_put _ _ (hring _), reconcile_get?, if_pos hkey, hold]
      rfl

/-- **A TURN OF THE DISK WORKER**, with room. -/
lemma handed_diskWork (h : Handed owners L (w.setNode me s)) (safeName : String → String)
    (hroom : ∀ d ∈ s.disk, ∀ q ∈ d.queue.head?, d.used + q.2.length ≤ d.maxBytes) :
    Handed owners L (w.setNode me (diskWork owners safeName s))
      ∧ (diskWork owners safeName s).dir = s.dir := by
  have hs := h.self
  obtain ⟨d, hd, hholds⟩ := hs.disk
  have hd' : s.disk = some d := hd
  obtain ⟨hwork, hnone⟩ := diskHolds_work safeName hholds (hroom d hd')
  have heq : diskWork owners safeName s = s.setDisk (some (work safeName d).1) := by
    rw [diskWork, hd']
    show onDiskEvict owners (s.setDisk (some (work safeName d).1)) (work safeName d).2 = _
    rw [hnone]
    rfl
  have hmono : ∀ k, OnDisk s.disk k → OnDisk (some (work safeName d).1) k := by
    intro k hk
    rw [hd'] at hk
    refine (onDisk_work safeName hk).resolve_right ?_
    rw [hnone]
    exact not_mem_nil
  rw [heq]
  refine ⟨h.keep ⟨hs.pool, hs.extents, hs.room, ⟨_, rfl, hwork⟩, ?_⟩ rfl ?_, rfl⟩
  · exact fun k n hk => ⟨(hs.lens k n hk).1, hmono k (hs.lens k n hk).2⟩
  · exact fun k loc hb => ⟨hb.length, fun hr => hmono k (hb.spilled hr)⟩

end

/-! ## Runs -/

section

variable {owners : Owners} {space : String → KeySpace} {cap ttl : Nat}
  {safeName : String → String} {L : Nat}

/-- The cluster is handed over well, and what is primed has length `L`. -/
structure WorldHanded (owners : Owners) (L : Nat) (w : World) : Prop where
  cluster : Handed owners L w.cluster
  primed : ∀ n, Primed (fun loc => loc.length = L) (w.readers n).primed

/-- **ONE READY OPERATION** keeps the entries right and deletes none. -/
lemma worldHanded_step (hring : ∀ k, owners k ≠ []) {w : World} {a : Op}
    (hok : AllReady owners space L w a) (h : WorldHanded owners L w) :
    WorldHanded owners L (step owners space cap ttl safeName w a)
      ∧ ∀ k, Present owners w.cluster.dir k →
        Present owners (step owners space cap ttl safeName w a).cluster.dir k := by
  obtain ⟨hc, hp⟩ := h
  have hself : ∀ (c : Cluster) (n : String), Handed owners L c → Handed owners L (c.setNode n (c.node n)) :=
    fun c n hc => (setNode_node c n).symm ▸ hc
  have hcluster : Handed owners L (step owners space cap ttl safeName w a).cluster
      ∧ ∀ k, Present owners w.cluster.dir k →
        Present owners (step owners space cap ttl safeName w a).cluster.dir k := by
    refine step_keeps (P := fun c => Handed owners L c
      ∧ ∀ k, Present owners w.cluster.dir k → Present owners c.dir k) ?_ ?_ ?_ ?_ ?_
      ⟨hc, fun _ hk => hk⟩ hok.2
    · intro n keys pages ha hlen
      subst ha
      have hpages : ∀ q ∈ (componentKeys (space n) keys).1.zip pages, q.2.length = L :=
        fun q hq => hok.1 q.2 (of_mem_zip hq).2
      obtain ⟨hset, hdir, -⟩ := handed_publishP2p hring (hself w.cluster n hc) hpages
      simp only [setNode_dir]
      exact ⟨hset, hdir⟩
    · rintro c n k ⟨hc, hdir⟩
      refine ⟨handed_ensureResident (hself c n hc) [k], ?_⟩
      exact fun j hj => present_ensureResident hring (hc.node n).disk_ne_none [k] (hdir j hj)
    · rintro c n keys ⟨hc, hdir⟩ hready
      refine ⟨(handed_ensureResident (hself c n hc) keys).delete _, ?_⟩
      exact fun j hj => present_dataPromote (s := c.node n) hring (hc.node n) hready (hdir j hj)
    · rintro c n k ⟨hc, hdir⟩
      have htouch : OwnerStep n owners (fun _ data => data.length = L) (fun _ => False) (c.node n)
          ((c.node n).setPool (addressOf (c.node n).pool k).2) := .touch _ k
      exact ⟨handed_ownerStep htouch (hself c n hc), hdir⟩
    · intro n ha
      subst ha
      obtain ⟨hwork, hdir⟩ := handed_diskWork (hself w.cluster n hc) safeName hok.1
      refine ⟨hwork, ?_⟩
      intro k hk
      show Present owners (diskWork owners safeName (w.cluster.node n)).dir k
      rw [hdir]
      exact hk
  refine ⟨⟨hcluster.1, readers_step ?_ hp a⟩, hcluster.2⟩
  intro _ k loc hk
  obtain ⟨node, -, hentry⟩ := view_mem hk
  exact (hc.entry node k loc hentry).2.length

lemma worldHanded_init {cfg : String → NodeConfig} (hpool : ∀ n, L ≤ (cfg n).pool.capacity)
    (hdisk : ∀ n, ∃ m, (cfg n).disk = some m ∧ L ≤ m) : WorldHanded owners L (World.init cfg) where
  cluster :=
    { node := by
        intro n
        obtain ⟨m, hm, hfit⟩ := hdisk n
        refine ⟨inv_new _ _ _ _ _, forall_mem_nil _, hpool n,
          ⟨DiskStore.empty m, ?_, tidy_empty m, hfit, nofun,
            forall_mem_nil _⟩, fun _ _ h => nomatch h⟩
        show (cfg n).disk.map DiskStore.empty = _
        rw [hm]; rfl
      entry := fun _ _ _ h => nomatch h }
  primed _ _ _ h := nomatch h

/-! ## Reading a page -/

variable {i : Nat} {v : Option DataLocation}

lemma good_set {locs : List (Option DataLocation)} (hi : ∃ v, locs[i]? = some v ∧ Good L v)
    (j : Nat) (hv : Good L v) : ∃ u, (locs.set j v)[i]? = some u ∧ Good L u := by
  obtain ⟨u, hu, hgood⟩ := hi
  rw [getElem?_set]
  by_cases hj : j = i
  · subst hj
    rw [if_pos rfl, if_pos (List.getElem?_eq_some_iff.mp hu).1]
    exact ⟨v, rfl, hv⟩
  · rw [if_neg hj]; exact ⟨u, hu, hgood⟩

lemma good_set_self {locs : List (Option DataLocation)} (hi : i < locs.length) (hv : Good L v) :
    ∃ u, (locs.set i v)[i]? = some u ∧ Good L u :=
  ⟨v, getElem?_set_self hi, hv⟩

/-- While locations are resolved: the list keeps its length, the cluster is handed over well, and
    what was on disk is. -/
structure Resolving (owners : Owners) (L : Nat) (w : Cluster)
    (locs : List (Option DataLocation)) (acc : List (Option DataLocation) × Cluster) : Prop where
  length : acc.1.length = locs.length
  handed : Handed owners L acc.2
  indexed : ∀ n k, k ∈ indexed (w.hosts n).disk → k ∈ indexed (acc.2.hosts n).disk

section

variable {w : Cluster} {locs : List (Option DataLocation)} {me : String} {keys : List String}
  {acc : List (Option DataLocation) × Cluster}

lemma Resolving.change (h : Resolving owners L w locs acc) {locs' : List (Option DataLocation)}
    (hlen : locs'.length = acc.1.length) {n : String} {t : PageOwner}
    (ht : Handed owners L (acc.2.setNode n t))
    (hin : ∀ k, k ∈ PeerCacheOwner.indexed (acc.2.node n).disk → k ∈ PeerCacheOwner.indexed t.disk) :
    Resolving owners L w locs (locs', acc.2.setNode n t) where
  length := hlen.trans h.length
  handed := ht
  indexed := by
    intro m k hk
    by_cases hm : m = n
    · subst hm
      rw [setNode_hosts_self]
      exact hin k (h.indexed m k hk)
    · rw [setNode_hosts_ne _ hm]; exact h.indexed m k hk

/-- **A LOCAL PAGE** is resolved. -/
lemma resolving_ensureLocal (h : Resolving owners L w locs acc) {i : Nat}
    (hi : keyAt keys i ∈ indexed (w.hosts me).disk) :
    Resolving owners L w locs (ensureLocal owners me keys acc i)
      ∧ Good L ((ensureResident me owners (acc.2.node me) [keyAt keys i]).locs.headD none) := by
  have hself : Handed owners L (acc.2.setNode me (acc.2.node me)) := (setNode_node acc.2 me).symm ▸ h.handed
  refine ⟨h.change (length_set) (handed_ensureResident hself _)
    (fun k hk => indexed_ensureResident _ hk), ?_⟩
  exact ensureOne_good (h.handed.node me) (.inr (h.indexed me _ hi))

/-- **THE PAGES OF AN OWNER** are resolved. -/
lemma resolving_promoteAt (h : Resolving owners L w locs acc) {g : String × List Nat}
    (hg : ∀ i ∈ g.2, keyAt keys i ∈ indexed (w.hosts g.1).disk) :
    Resolving owners L w locs (promoteAt owners (fun _ => true) keys acc g)
      ∧ ∀ q ∈ g.2.zip (dataPromote g.1 owners (acc.2.node g.1) (g.2.map (keyAt keys))).locs, Good L q.2 := by
  have hself : Handed owners L (acc.2.setNode g.1 (acc.2.node g.1)) :=
    (setNode_node acc.2 g.1).symm ▸ h.handed
  constructor
  · refine h.change ?_ ((handed_ensureResident hself _).delete _) (fun k hk => indexed_ensureResident _ hk)
    refine foldlRecOn (motive := fun l : List (Option DataLocation) => l.length = acc.1.length)
      _ _ rfl ?_
    exact fun l hl q _ => length_set.trans hl
  · intro q hq
    obtain ⟨j, hj⟩ := mem_iff_getElem?.mp hq
    obtain ⟨hidx, hloc⟩ := getElem?_zip_eq_some.mp hj
    have hkey : (g.2.map (keyAt keys))[j]? = some (keyAt keys q.1) := by
      rw [getElem?_map, hidx]; rfl
    obtain ⟨v, hv, hgood⟩ := ensureLoop_good (s := acc.2.node g.1) _ (h.handed.node g.1)
      empty hkey (.inl (h.indexed g.1 _ (hg q.1 (mem_of_getElem? hidx))))
    rw [some.inj (hloc.symm.trans hv)]
    exact hgood

/-- **EVERY LOCATION IS RESOLVED** if the pages that are not resident are on disk. -/
lemma resolve_good (h : Handed owners L w)
    (hlocs : ∀ i < locs.length, ∃ loc, locs[i]? = some (some loc) ∧ loc.length = L
      ∧ (loc.resident = false → keyAt keys i ∈ indexed (w.hosts loc.nodeId).disk)) :
    (resolveNonResident owners (fun _ => true) me w keys locs).1.length = locs.length
      ∧ ∀ i < locs.length, ∃ v, (resolveNonResident owners (fun _ => true) me w keys locs).1[i]? = some v
        ∧ Good L v := by
  have hlocal : ∀ i ∈ localIdx me locs, keyAt keys i ∈ indexed (w.hosts me).disk := by
    intro i hi
    obtain ⟨loc, hloc, hr, rfl⟩ := mem_localIdx hi
    obtain ⟨loc', hloc', -, hin⟩ := hlocs i (List.getElem?_eq_some_iff.mp hloc).1
    obtain rfl := some.inj (some.inj (hloc.symm.trans hloc'))
    exact hin hr
  have hremote : ∀ g ∈ (remoteByOwner me locs).items, ∀ i ∈ g.2,
      keyAt keys i ∈ indexed (w.hosts g.1).disk := by
    intro g hg i hi
    obtain ⟨loc, hloc, hr, hid⟩ := mem_remoteByOwner hg hi
    obtain ⟨loc', hloc', -, hin⟩ := hlocs i (List.getElem?_eq_some_iff.mp hloc).1
    obtain rfl := some.inj (some.inj (hloc.symm.trans hloc'))
    exact hid ▸ hin hr
  have hstart : Resolving owners L w locs (locs, w) := ⟨rfl, h, fun _ _ hk => hk⟩
  have hmid : Resolving owners L w locs (resolveLocal owners me w keys locs) := by
    refine foldlRecOn (motive := Resolving owners L w locs) _ _ hstart ?_
    exact fun acc hacc i hi => (resolving_ensureLocal hacc (hlocal i hi)).1
  -- what is good stays good in either loop
  have hkeep₁ : ∀ i : Nat, ∀ acc, ∀ j ∈ localIdx me locs, Resolving owners L w locs acc →
      (∃ v, acc.1[i]? = some v ∧ Good L v) →
      ∃ v, (ensureLocal owners me keys acc j).1[i]? = some v ∧ Good L v :=
    fun i acc j hj hacc hi => good_set hi j (resolving_ensureLocal hacc (hlocal j hj)).2
  have hkeep₂ : ∀ i : Nat, ∀ acc, ∀ g ∈ (remoteByOwner me locs).items, Resolving owners L w locs acc →
      (∃ v, acc.1[i]? = some v ∧ Good L v) →
      ∃ v, (promoteAt owners (fun _ => true) keys acc g).1[i]? = some v ∧ Good L v := by
    intro i acc g hg hacc hi
    refine foldlRecOn (motive := fun l : List (Option DataLocation) =>
      ∃ v, l[i]? = some v ∧ Good L v) _ _ hi ?_
    exact fun l hl q hq => good_set hl q.1 ((resolving_promoteAt hacc (hremote g hg)).2 q hq)
  have hlast : Resolving owners L w locs (resolveNonResident owners (fun _ => true) me w keys locs) := by
    refine foldlRecOn (motive := Resolving owners L w locs) _ _ hmid ?_
    exact fun acc hacc g hg => (resolving_promoteAt hacc (hremote g hg)).1
  have hsecond : ∀ i : Nat, (∃ v, (resolveLocal owners me w keys locs).1[i]? = some v ∧ Good L v) →
      ∃ v, (resolveNonResident owners (fun _ => true) me w keys locs).1[i]? = some v ∧ Good L v := by
    intro i hi
    refine (foldlRecOn (motive := fun acc : List (Option DataLocation) × Cluster =>
      Resolving owners L w locs acc ∧ ∃ v, acc.1[i]? = some v ∧ Good L v) _ _ ⟨hmid, hi⟩ ?_).2
    exact fun acc hacc g hg => ⟨(resolving_promoteAt hacc.1 (hremote g hg)).1,
      hkeep₂ i acc g hg hacc.1 hacc.2⟩
  refine ⟨hlast.length, ?_⟩
  intro i hi
  obtain ⟨loc, hloc, hlen, -⟩ := hlocs i hi
  by_cases hr : loc.resident = true
  · -- resident from the start
    refine hsecond i ?_
    refine (foldlRecOn (motive := fun acc : List (Option DataLocation) × Cluster =>
      Resolving owners L w locs acc ∧ ∃ v, acc.1[i]? = some v ∧ Good L v) _ _
      ⟨hstart, some loc, hloc, loc, rfl, hr, hlen⟩ ?_).2
    exact fun acc hacc j hj => ⟨(resolving_ensureLocal hacc.1 (hlocal j hj)).1,
      hkeep₁ i acc j hj hacc.1 hacc.2⟩
  · rcases resolve_complete me hloc (Bool.not_eq_true _ ▸ hr) with hmem | ⟨g, hg, hmem⟩
    · refine hsecond i (foldl_reaches (Q := Resolving owners L w locs)
        (P := fun acc => ∃ v, acc.1[i]? = some v ∧ Good L v) hmem
        (fun acc j hj hacc => (resolving_ensureLocal hacc (hlocal j hj)).1) ?_
        (fun acc j hj hacc hgood => hkeep₁ i acc j hj hacc hgood) hstart)
      intro acc hacc
      exact good_set_self (hacc.length.symm ▸ hi) (resolving_ensureLocal hacc (hlocal i hmem)).2
    · refine foldl_reaches (Q := Resolving owners L w locs)
        (P := fun acc => ∃ v, acc.1[i]? = some v ∧ Good L v) hg
        (fun acc g hg hacc => (resolving_promoteAt hacc (hremote g hg)).1) ?_
        (fun acc g hg hacc hgood => hkeep₂ i acc g hg hacc hgood) hmid
      intro acc hacc
      have hgood := (resolving_promoteAt hacc (hremote g hg)).2
      -- the answer for `i` is among the locations that are written back
      obtain ⟨j, hj⟩ := List.mem_iff_getElem?.mp hmem
      obtain ⟨v, hv⟩ : ∃ v, (i, v) ∈ g.2.zip
          (dataPromote g.1 owners (acc.2.node g.1) (g.2.map (keyAt keys))).locs := by
        have hlen : (dataPromote g.1 owners (acc.2.node g.1) (g.2.map (keyAt keys))).locs.length
            = g.2.length := (ensureLoop_length _ _ _).trans (length_map _)
        have hlt := (List.getElem?_eq_some_iff.mp hj).1
        exact ⟨_, mem_of_getElem? (getElem?_zip_eq_some.mpr
          ⟨hj, getElem?_eq_getElem (hlen.symm ▸ hlt)⟩)⟩
      refine foldl_reaches (Q := fun l : List (Option DataLocation) => l.length = acc.1.length)
        (P := fun l => ∃ v, l[i]? = some v ∧ Good L v) hv
        (fun l q _ hl => length_set.trans hl) ?_ (fun l q hq _ hl => good_set hl q.1 (hgood q hq)) rfl
      intro l hl
      exact good_set_self (by rw [hl, hacc.length]; exact hi) (hgood _ hv)

end

/-- **A PAGE WHOSE COMPONENTS HAVE ENTRIES** can be read once nothing waits for a disk worker. -/
lemma batchGet_present {w : World} (h : WorldHanded owners L w) (hdrained : Drained w.cluster)
    {n key : String}
    (hkey : ∀ k ∈ (componentKeys (space n) [key]).1, Present owners w.cluster.dir k) (now : Nat) :
    (batchGet owners (fun _ => true) space false n now w [key]
      (List.replicate (componentKeys (space n) [key]).1.length L)).1 = [true] := by
  have hmult := PeerCacheP2pDisk.length_componentKeys_single (space n) key
  generalize hks : (componentKeys (space n) [key]).1 = ks at hkey hmult
  have hlen : (fetchLocs owners n now w ks).1.length = ks.length :=
    fetchLocs_length owners (h.primed n) now ks
  have hlocs : ∀ i < (fetchLocs owners n now w ks).1.length,
      ∃ loc, (fetchLocs owners n now w ks).1[i]? = some (some loc) ∧ loc.length = L
        ∧ (loc.resident = false → keyAt ks i ∈ indexed (w.cluster.hosts loc.nodeId).disk) := by
    intro i hi
    rw [hlen] at hi
    rcases fetchLocs_cases owners (h.primed n) now hi with ⟨loc, hloc, hr, hl⟩ | hview
    · exact ⟨loc, hloc, hl, fun hf => nomatch hf.symm.trans hr⟩
    · have hmem : keyAt ks i ∈ ks := by
        rw [keyAt, getElem?_eq_getElem hi]
        exact getElem_mem hi
      obtain ⟨loc, hloc⟩ := isSome_iff_exists.mp (hkey _ hmem)
      obtain ⟨node, -, hentry⟩ := view_mem hloc
      have hone := (h.cluster.entry node _ loc hentry).2
      refine ⟨loc, hview.trans (congrArg some hloc), hone.length, ?_⟩
      intro hr
      obtain ⟨d, hd, hin | hin⟩ := hone.spilled hr
      · exact mem_indexed.mpr ⟨d, hd, hin⟩
      · rw [hdrained _ d hd] at hin; cases hin
  obtain ⟨hreslen, hres⟩ : (resolveNonResident owners (fun _ => true) n w.cluster ks
      (fetchLocs owners n now w ks).1).1.length = _ ∧ _ := resolve_good h.cluster hlocs
  have hwork : ∀ q ∈ (ks.zip (replicate ks.length L)).zip (resolveNonResident owners
      (fun _ => true) n w.cluster ks (fetchLocs owners n now w ks).1).1,
      ∃ l, q.2 = some l ∧ l.resident = true ∧ l.length = q.1.2 := by
    intro q hq
    obtain ⟨i, hi⟩ := mem_iff_getElem?.mp hq
    obtain ⟨hquery, hloc⟩ := getElem?_zip_eq_some.mp hi
    obtain ⟨-, hsize⟩ := getElem?_zip_eq_some.mp hquery
    have hsize' : q.1.2 = L := eq_of_mem_replicate (mem_of_getElem? hsize)
    have hlt : i < (fetchLocs owners n now w ks).1.length := by
      rw [← hreslen]
      exact (List.getElem?_eq_some_iff.mp hloc).1
    obtain ⟨v, hv, loc, rfl, hr, hl⟩ := hres i hlt
    exact ⟨loc, some.inj (hloc.symm.trans hv), hr, hl.trans hsize'.symm⟩
  have hall : (fetch owners (fun _ => true) false n now w (ks.zip (replicate ks.length L))).1.map
      isSome = replicate ks.length true := by
    rw [fetch]
    simp only [map_fst_zip length_replicate.ge]
    rw [copyPages_true hwork, length_zip, length_zip, length_replicate, hreslen, hlen,
      Nat.min_self, Nat.min_self]
  rw [batchGet]
  simp only [hks, length_replicate, if_true]
  rw [hall, hmult]
  exact PeerCacheP2pDisk.pageResults_replicate (space n)

/-- **A PAGE REPORTED `True`** has entries for all its components. -/
lemma batchSet_present (hring : ∀ k, owners k ≠ []) {w : World} (h : WorldHanded owners L w)
    {me : String} {keys : List String} {pages : List Bytes}
    (hpages : ∀ page ∈ pages, page.length = L) {i : Nat} {key : String} (hi : keys[i]? = some key)
    (htrue : (batchSet owners space me w keys pages).1[i]? = some true) :
    ∀ k ∈ (componentKeys (space me) [key]).1,
      Present owners (batchSet owners space me w keys pages).2.cluster.dir k := by
  have hself : Handed owners L (w.cluster.setNode me (w.cluster.node me)) :=
    (setNode_node w.cluster me).symm ▸ h.cluster
  rw [batchSet, PeerCacheP2pDisk.batchSetV1] at htrue ⊢
  by_cases hlen : (componentKeys (space me) keys).1.length = pages.length
  · simp only [if_pos hlen, World.setCluster_cluster, setNode_dir] at htrue ⊢
    have hzip : ∀ q ∈ (componentKeys (space me) keys).1.zip pages, q.2.length = L :=
      fun q hq => hpages q.2 (of_mem_zip hq).2
    obtain ⟨-, -, hrep⟩ := handed_publishP2p hring hself hzip
    refine PeerCacheP2pDisk.components_of_true ?_ ?_ hi htrue
    · rw [publishP2p_length, length_zip, ← hlen, Nat.min_self]
    · intro q hq ht
      obtain ⟨j, hj⟩ := mem_iff_getElem?.mp hq
      obtain ⟨hk, hr⟩ := getElem?_zip_eq_some.mp hj
      have hlt : j < pages.length := hlen ▸ (List.getElem?_eq_some_iff.mp hk).1
      have hpage : pages[j]? = some pages[j] := getElem?_eq_getElem hlt
      refine hrep ((q.1, pages[j]), q.2) (mem_of_getElem? (getElem?_zip_eq_some.mpr
        ⟨getElem?_zip_eq_some.mpr ⟨hk, hpage⟩, hr⟩)) ht
  · simp only [if_neg hlen, getElem?_map, hi] at htrue; cases htrue

end

/-- **NO PAGE IS LOST** between the pool and the disk when the requests are ready: from the call
    on that reported the page, the directory has its entries, and whenever nothing waits for a
    disk worker any node can read it. -/
theorem handed_over_when_ready (owners : Owners) (hring : ∀ k, owners k ≠ [])
    (space : String → KeySpace) (cap ttl : Nat) (safeName : String → String)
    (cfg : String → NodeConfig) (L : Nat) (hpool : ∀ n, L ≤ (cfg n).pool.capacity)
    (hdisk : ∀ n, ∃ m, (cfg n).disk = some m ∧ L ≤ m) (before later : List Op) (me : String)
    (keys : List String) (pages : List Bytes)
    (hok : Guarded (fun w a => some (step owners space cap ttl safeName w a)) (AllReady owners space L)
      (World.init cfg) (before ++ .set me keys pages :: later))
    (i : Nat) (key : String) (hi : keys[i]? = some key)
    (htrue : (batchSet owners space me (after owners space cap ttl safeName cfg before) keys
      pages).1[i]? = some true) :
    (∀ k ∈ (componentKeys (space me) [key]).1, (view owners (after owners space cap ttl safeName cfg
        (before ++ .set me keys pages :: later)).cluster.dir k).isSome = true)
      ∧ (Drained (after owners space cap ttl safeName cfg
          (before ++ .set me keys pages :: later)).cluster →
        ∀ n now, space n = space me →
          (batchGet owners (fun _ => true) space false n now (after owners space cap ttl safeName cfg
              (before ++ .set me keys pages :: later)) [key]
            (List.replicate (componentKeys (space n) [key]).1.length L)).1 = [true]) := by
  obtain ⟨hfirst, hset, hrest⟩ := guarded_append hok
  have hbefore : WorldHanded owners L (after owners space cap ttl safeName cfg before) :=
    foldl_invariant (P := WorldHanded owners L) (fun w a _ hw ha => (worldHanded_step hring ha hw).1)
      (worldHanded_init hpool hdisk) hfirst
  have hnow := batchSet_present hring hbefore hset.1 hi htrue
  -- from the call on: the entries of the page stay
  have hafter : WorldHanded owners L (after owners space cap ttl safeName cfg
        (before ++ .set me keys pages :: later))
      ∧ ∀ k ∈ (componentKeys (space me) [key]).1, Present owners (after owners space cap ttl safeName
        cfg (before ++ .set me keys pages :: later)).cluster.dir k := by
    rw [after, foldl_append, foldl_cons]
    refine foldl_invariant (P := fun w : World => WorldHanded owners L w
      ∧ ∀ k ∈ (componentKeys (space me) [key]).1, Present owners w.cluster.dir k) ?_
      ⟨(worldHanded_step hring hset hbefore).1, hnow⟩ (hrest _ rfl)
    intro w a _ hw ha
    obtain ⟨hstep, hpres⟩ := worldHanded_step hring ha hw.1
    exact ⟨hstep, fun k hk => hpres k (hw.2 k hk)⟩
  refine ⟨hafter.2, ?_⟩
  intro hdrained n now hspace
  exact batchGet_present hafter.1 hdrained (by rw [hspace]; exact hafter.2) now

/-- Every node has room for one page in its pool and for eight on disk. -/
def onePageTiers (_ : String) : NodeConfig := ⟨smallPool 1, some 8⟩

/-- Two sets, each followed by a turn of the disk worker. -/
def workerFirst : List Op :=
  [.set "a" ["p"] [[1]], .worker "a", .set "a" ["q"] [[2]], .worker "a"]

lemma drained_workerFirst :
    Drained (after (fun _ => ["a"]) (fun _ => mla) 8 4 id onePageTiers workerFirst).cluster := by
  intro n d hd
  by_cases hn : n = "a"
  · subst hn
    have hq : ∀ d ∈ ((after (fun _ => ["a"]) (fun _ => mla) 8 4 id onePageTiers
        workerFirst).cluster.hosts "a").disk, d.queue = [] := by decide +kernel
    exact hq d hd
  · -- every step is one of `a`, and leaves the other nodes as they were
    rw [after, workerFirst, foldl_cons, foldl_cons, foldl_cons, foldl_cons, foldl_nil] at hd
    simp only [step, batchSet, World.setCluster_cluster, setNode_hosts_ne _ hn] at hd
    cases hd
    rfl

/-- The page `p` reaches the disk before `q` takes its place in the pool, and is read from there. -/
theorem handed_over_when_ready_worker_first :
    Guarded (fun w a => some (step (fun _ => ["a"]) (fun _ => mla) 8 4 id w a))
        (AllReady (fun _ => ["a"]) (fun _ => mla) 1) (World.init onePageTiers) workerFirst
      ∧ (view (fun _ => ["a"]) (after (fun _ => ["a"]) (fun _ => mla) 8 4 id onePageTiers
          workerFirst).cluster.dir "p_r_k").isSome = true
      ∧ (batchGet (fun _ => ["a"]) (fun _ => true) (fun _ => mla) false "b" 0 (after (fun _ => ["a"])
          (fun _ => mla) 8 4 id onePageTiers workerFirst) ["p"] [1]).1 = [true] := by
  have hok : Guarded (fun w a => some (step (fun _ => ["a"]) (fun _ => mla) 8 4 id w a))
      (AllReady (fun _ => ["a"]) (fun _ => mla) 1) (World.init onePageTiers) workerFirst := by
    decide +kernel
  obtain ⟨hentries, hread⟩ := handed_over_when_ready (fun _ => ["a"]) (fun _ => cons_ne_nil _ _)
    (fun _ => mla) 8 4 id onePageTiers 1 (fun _ => Nat.le_refl 1) (fun _ => ⟨8, rfl, by decide⟩)
    [] [.worker "a", .set "a" ["q"] [[2]], .worker "a"] "a" ["p"] [[1]] hok 0 "p" rfl
    (by decide +kernel)
  exact ⟨hok, hentries "p_r_k" (by decide +kernel), hread drained_workerFirst "b" 0 rfl⟩

/-- The page `p` is evicted while its write waits for the worker; a read of it by `b` deletes its
    entry, and the page is not found any more when it is on disk. -/
theorem lost_in_hand_over :
    Guarded (fun w a => some (step (fun _ => ["a"]) (fun _ => mla) 8 4 id w a)) (Fits 1)
        (World.init onePageTiers)
        [.set "a" ["p"] [[1]], .set "a" ["q"] [[2]], .get "b" 0 ["p"] [1], .worker "a", .worker "a"]
      ∧ (batchSet (fun _ => ["a"]) (fun _ => mla) "a" (World.init onePageTiers) ["p"] [[1]]).1 = [true]
      ∧ view (fun _ => ["a"]) (after (fun _ => ["a"]) (fun _ => mla) 8 4 id onePageTiers
        [.set "a" ["p"] [[1]], .set "a" ["q"] [[2]], .get "b" 0 ["p"] [1], .worker "a",
          .worker "a"]).cluster.dir "p_r_k" = none
      ∧ (batchGet (fun _ => ["a"]) (fun _ => true) (fun _ => mla) false "b" 1 (after (fun _ => ["a"])
        (fun _ => mla) 8 4 id onePageTiers [.set "a" ["p"] [[1]], .set "a" ["q"] [[2]],
          .get "b" 0 ["p"] [1], .worker "a", .worker "a"]) ["p"] [1]).1 = [false] := by
  decide +kernel

end PeerCacheCluster
