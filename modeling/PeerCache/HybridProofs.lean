import PeerCache.P2pClusterProofs
import PeerCache.StorageEntriesProofs

/-! # Hybrid mode — `_publish` under the three write policies

    A hybrid node writes a batch to its own pool, to the storage tier, or to both.  The dual write
    runs `_publish_storage` and then `_publish_p2p` without its directory update, and reports a page
    if either of them does.  The second call asks the directory again which pages exist, and by then
    the first has put its entries there. -/

namespace PeerCacheHybrid

open PeerCachePool PeerCacheDirectory PeerCacheDisk PeerCacheOwner PeerCacheStorage
  PeerCacheStorageWrite PeerCacheCluster List

/-! ## The model -/

/-- `write_policy` -/
inductive WritePolicy where
  | «local»
  | storage
  | both
deriving DecidableEq

/-- The pages as `_publish_p2p` copies them. -/
def batchOf (mem : Mem) (pages : List Page) : List (String × Bytes) :=
  pages.map fun p => (p.key, mem.read p.ptr p.size)

section

variable (owners : Owners) (me : String)

/-- `_publish_p2p` with its `update_directory`. -/
def publishLocal (updateDirectory : Bool) (s : PageOwner) (pages : List (String × Bytes)) :
    List Bool × PageOwner :=
  let existing := existsKeys owners s.dir (pages.map Prod.fst)
  let r := publishLoop me owners
    (pages.zip (existing.map fun b => if b then Admission.existing else Admission.fresh)) s
    OrderedDict.empty
  let (entries, s) := reconcile me r.entries.keys r.owner r.entries
  (r.results, if updateDirectory then s.setDir (put owners s.dir entries) else s)

variable (mem : Mem)

/-- The node publishes in its own pool. -/
def publishOwn (updateDirectory : Bool) (w : Cluster) (pages : List Page) : List Bool × Cluster :=
  let r := publishLocal owners me updateDirectory (w.node me) (batchOf mem pages)
  (r.1, w.setNode me r.2)

variable (storageNodes : List String) (dataOwner : String → Option String) (reachable : String → Bool)
  (faults : String → Faults)

/-- `_publish` in hybrid mode. -/
def publishHybrid (policy : WritePolicy) (w : Cluster) (pages : List Page) : List Bool × Cluster :=
  if policy = .local ∨ storageNodes = [] then publishOwn owners me mem true w pages
  else if policy = .storage then
    publishStorage owners mem storageNodes dataOwner reachable faults w pages
  else
    let storageRes := publishStorage owners mem storageNodes dataOwner reachable faults w pages
    let localRes := publishOwn owners me mem false storageRes.2 pages
    (List.zipWith (fun s l => s || l) storageRes.1 localRes.1, localRes.2)

end

/-! ## `_publish_p2p` -/

section

variable {owners : Owners} {me : String} {mem : Mem} {s : PageOwner} {w : Cluster}
  {pages : List Page}

/-- What the publish loop does with each page. -/
def admissions (owners : Owners) (dir : Shards) (batch : List (String × Bytes)) :
    List ((String × Bytes) × Admission) :=
  batch.map fun q => (q, if (view owners dir q.1).isSome then .existing else .fresh)

lemma zip_existing (dir : Shards) (batch : List (String × Bytes)) :
    batch.zip ((existsKeys owners dir (batch.map Prod.fst)).map
      fun b => if b then Admission.existing else Admission.fresh) = admissions owners dir batch := by
  rw [existsKeys_eq_view, map_map, map_map]
  exact map_prod_left_eq_zip.symm

lemma publishLocal_loop (s : PageOwner) (batch : List (String × Bytes)) :
    publishLocal owners me false s batch
      = ((publishLoop me owners (admissions owners s.dir batch) s OrderedDict.empty).results,
        (reconcile me
          (publishLoop me owners (admissions owners s.dir batch) s OrderedDict.empty).entries.keys
          (publishLoop me owners (admissions owners s.dir batch) s OrderedDict.empty).owner
          (publishLoop me owners (admissions owners s.dir batch) s OrderedDict.empty).entries).2) := by
  rw [publishLocal, zip_existing]
  rfl

/-- **THE SECOND HALF OF A DUAL WRITE** does nothing once the directory knows the pages. -/
lemma publishOwn_existing (h : ∀ p ∈ pages, (view owners w.dir p.key).isSome = true) :
    (publishOwn owners me mem false w pages).2 = w := by
  have hknown : ∀ q ∈ admissions owners w.dir (batchOf mem pages), q.2 = .existing := by
    intro q hq
    obtain ⟨_, hb, rfl⟩ := mem_map.mp hq
    obtain ⟨p, hp, rfl⟩ := mem_map.mp hb
    exact if_pos (h p hp)
  rw [publishOwn, publishLocal_loop, show (w.node me).dir = w.dir from rfl, publishLoop_known _ hknown]
  exact setNode_node w me

/-! ## Both copies -/

/-- The pool has the page, with its bytes. -/
def PoolHolds (mem : Mem) (pool : PublishedPool String) (p : Page) : Prop :=
  ∃ e, pool.entries.get? p.key = some e ∧ pool.buf.read e.1 e.2 = mem.read p.ptr p.size

/-- The directory names a storage node's copy of the page, and its bytes are there. -/
def StorageHolds (owners : Owners) (mem : Mem) (storageNodes : List String) (w : Cluster)
    (p : Page) : Prop :=
  ∃ loc, view owners w.dir p.key = some loc ∧ loc.nodeId ∈ storageNodes
    ∧ Current (w.hosts loc.nodeId).pool p.key loc
    ∧ readLocation (w.hosts loc.nodeId).pool loc = mem.read p.ptr p.size

end

/-- A pool with room for two pages of one byte. -/
def roomy : PublishedPool String := new 100 2 7 [7] (fun _ => 0)

/-- The node `a` with the pool given, and the storage node `s`. -/
def beside (pool : PublishedPool String) : Cluster :=
  ⟨fun n => ⟨if n = "a" then pool else roomy, none, OrderedDict.empty⟩, fun _ => OrderedDict.empty⟩

/-- `a` writes the pages to both tiers, and nothing fails. -/
def writeBoth (w : Cluster) (pages : List Page) : List Bool × Cluster :=
  publishHybrid (fun _ => ["s"]) "a" countUp ["s"] (fun _ => some "s") (fun _ => true)
    (onlyWrite .ok) .both w pages

/-- The pool of `a` after an earlier write of both pages. -/
def leftBehind : PublishedPool String := (publish (publish roomy "k" [1]).pool "l" [2]).pool

lemma storageWrites_leftBehind : StorageWrites (fun _ => ["s"]) ["s"] (fun _ => some "s")
    (fun _ => true) (onlyWrite .ok) (beside leftBehind) twoPages where
  distinct := by decide
  ok := forall_mem_cons.mpr ⟨⟨rfl, by decide, by decide, by decide⟩,
    forall_mem_singleton.mpr ⟨rfl, by decide, by decide, by decide⟩⟩
  owner _ _ := ⟨"s", .head _, rfl, rfl, rfl, rfl⟩
  lens p _ o ho x hx := by
    obtain rfl : "s" = o := Option.some.inj ho
    cases hx
  fits := forall_mem_singleton.mpr
    ⟨.inr ⟨.inr (by decide), by decide⟩, .inr ⟨.inr (by decide), by decide +kernel⟩, trivial⟩
  writes _ _ _ _ := rfl
  lands := forall_mem_singleton.mpr (List.Perm.refl _)

end PeerCacheHybrid
