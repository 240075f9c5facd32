import PeerCache.P2pDiskProofs
import PeerCache.P2pRaceProofs
import PeerCache.PromoteStepsProofs
import PeerCache.StorageWriteProofs

/-! # Peer-to-peer mode — a cluster of nodes, whole calls

    Any number of nodes, each with its pool and an optional disk tier, share the directory.
    A call of `batch_set_v1`, `batch_exists` or `batch_get_v1` at one node is atomic; what
    it asks of other nodes, `data_promote`, is served in its course.  The disk workers take
    their turns between the calls, in any order, and `data_promote` may also arrive from
    outside. -/

namespace PeerCacheCluster

open PeerCachePool PeerCacheDirectory PeerCacheDisk PeerCacheOwner PeerCacheStorage OrderedDict Function
  PeerCacheStorageWrite Transition

open PeerCacheP2pDisk (KeySpace componentKeys pageResults batchSetV1 publishP2p Got)

open PeerCacheP2pRace (hitPrefix prime takePrimed fillMisses remoteByOwner primed_prime
  takePrimed_spec)

/-! ## `_resolve_non_resident` -/

/-- `comp_keys[i]` -/
def keyAt (keys : List String) (i : Nat) : String := (keys[i]?).getD ""

/-- `local_idx`: where the node's own non-resident locations are. -/
def localIdx (me : String) (locs : List (Option DataLocation)) : List Nat :=
  locs.zipIdx.filterMap fun q =>
    match q.1 with
    | none => none
    | some loc => if ¬ loc.resident ∧ loc.nodeId = me then some q.2 else none

section

variable (owners : Owners) (reachable : String → Bool)

/-- The node promotes one page of its own. -/
def ensureLocal (me : String) (keys : List String) (acc : List (Option DataLocation) × Cluster)
    (i : Nat) : List (Option DataLocation) × Cluster :=
  let r := ensureResident me owners (acc.2.node me) [keyAt keys i]
  (acc.1.set i (r.locs.headD none), acc.2.setNode me r.owner)

/-- The node asks an owner to promote its pages. -/
def promoteAt (keys : List String) (acc : List (Option DataLocation) × Cluster)
    (group : String × List Nat) : List (Option DataLocation) × Cluster :=
  if reachable group.1 then
    let r := dataPromote group.1 owners (acc.2.node group.1) (group.2.map (keyAt keys))
    ((group.2.zip r.locs).foldl (fun locs q => locs.set q.1 q.2) acc.1,
      acc.2.setNode group.1 r.owner)
  else (group.2.foldl (fun locs i => locs.set i none) acc.1, acc.2)

/-- The first loop of `_resolve_non_resident`. -/
def resolveLocal (me : String) (w : Cluster) (keys : List String)
    (locs : List (Option DataLocation)) : List (Option DataLocation) × Cluster :=
  (localIdx me locs).foldl (ensureLocal owners me keys) (locs, w)

/-- `_resolve_non_resident` -/
def resolveNonResident (me : String) (w : Cluster) (keys : List String)
    (locs : List (Option DataLocation)) : List (Option DataLocation) × Cluster :=
  (remoteByOwner me locs).items.foldl (promoteAt owners reachable keys)
    (resolveLocal owners me w keys locs)

/-- Every `data_promote` request of a resolve meets `ok` when it arrives. -/
def RequestsMeet (ok : Cluster → String → List String → Prop) (me : String) (w : Cluster)
    (keys : List String) (locs : List (Option DataLocation)) : Prop :=
  Guarded (fun acc group => some (promoteAt owners reachable keys acc group))
    (fun acc group => ok acc.2 group.1 (group.2.map (keyAt keys)))
    (resolveLocal owners me w keys locs) (remoteByOwner me locs).items

instance (ok : Cluster → String → List String → Prop) [∀ w o keys, Decidable (ok w o keys)]
    (me : String) (w : Cluster) (keys : List String) (locs : List (Option DataLocation)) :
    Decidable (RequestsMeet owners reachable ok me w keys locs) :=
  inferInstanceAs (Decidable (Guarded _ _ _ _))

/-! ## `_fetch` -/

/-- What `_fetch` copies to the destination of a page, if anything; `True` is reported exactly when
    it copies.  With `both`, in hybrid mode with dual writes, the node's own copy goes first. -/
def copyPage (both : Bool) (me : String) (w : Cluster) (key : String) (size : Nat)
    (loc : Option DataLocation) : Option Bytes × Cluster :=
  match loc with
  | none => (none, w)
  | some loc =>
      if loc.resident ∧ loc.length = size then
        let remote := fun w : Cluster => readLocation (w.hosts loc.nodeId).pool loc
        if both then
          let (al, pool) := addressOf (w.node me).pool key
          let w := w.setNode me ((w.node me).setPool pool)
          match al with
          | none => (some (remote w), w)
          | some (addr, length) =>
              if length = size then (some (pool.buf.read (addr - pool.base) length), w)
              else (some (remote w), w)
        else (some (remote w), w)
      else (none, w)

def copyPages (both : Bool) (me : String) :
    List ((String × Nat) × Option DataLocation) → Cluster → List (Option Bytes) × Cluster
  | [], w => ([], w)
  | (q, loc) :: rest, w =>
      let (bytes, w) := copyPage both me w q.1 q.2 loc
      let (copied, w) := copyPages both me rest w
      (bytes :: copied, w)

/-- `_raw_keys` and `_keyspace_detected`: raw keys are looked up only once that was decided. -/
structure Keyspace where
  rawKeys : Bool
  detected : Bool
  locked : rawKeys = true → detected = true

namespace Keyspace

/-- As `__init__` leaves it. -/
def start : Keyspace := ⟨false, false, fun h => h⟩

/-- As the generic `batch_set` and `batch_get` leave it. -/
def generic : Keyspace := ⟨true, true, fun h => h⟩

/-- The keyspace in use is the one found. -/
def detect (f : Keyspace) : Keyspace := ⟨f.rawKeys, true, fun _ => rfl⟩

end Keyspace

/-- What a node remembers between its reads. -/
structure Reader where
  primed : OrderedDict String (DataLocation × Nat)
  keyspace : Keyspace

/-- Nothing primed, the keyspace not known. -/
def Reader.init : Reader := ⟨OrderedDict.empty, Keyspace.start⟩

/-- The nodes, the directory, and what the nodes remember. -/
structure World where
  cluster : Cluster
  readers : String → Reader

def World.setReader (w : World) (me : String) (r : Reader) : World :=
  { w with readers := Function.update w.readers me r }

def World.setCluster (w : World) (c : Cluster) : World := { w with cluster := c }

@[simp] lemma World.setCluster_cluster (w : World) (c : Cluster) : (w.setCluster c).cluster = c := rfl

/-- The locations `_fetch` starts from, and what stays primed. -/
def fetchLocs (me : String) (now : Nat) (w : World) (keys : List String) :
    List (Option DataLocation) × OrderedDict String (DataLocation × Nat) :=
  let (out, primed) := takePrimed now (w.readers me).primed keys
  (fillMisses owners w.cluster.dir keys out, primed)

/-- `_fetch` -/
def fetch (both : Bool) (me : String) (now : Nat) (w : World) (queries : List (String × Nat)) :
    List (Option Bytes) × World :=
  let keys := queries.map Prod.fst
  let (locs, primed) := fetchLocs owners me now w keys
  let (locs, c) := resolveNonResident owners reachable me w.cluster keys locs
  let (copied, c) := copyPages both me (queries.zip locs) c
  (copied, (w.setReader me { w.readers me with primed := primed }).setCluster c)

/-! ## The calls -/

variable (space : String → KeySpace) (cap ttl : Nat)

/-- `batch_set_v1` in peer-to-peer mode. -/
def batchSet (me : String) (w : World) (keys : List String) (pages : List Bytes) :
    List Bool × World :=
  let r := batchSetV1 me owners (space me) (w.cluster.node me) keys pages
  (r.1, w.setCluster (w.cluster.setNode me r.2))

/-- `batch_get_v1` -/
def batchGet (both : Bool) (me : String) (now : Nat) (w : World) (keys : List String)
    (sizes : List Nat) : List Bool × World :=
  let (compKeys, mult) := componentKeys (space me) keys
  if compKeys.length = sizes.length then
    let r := fetch owners reachable both me now w (compKeys.zip sizes)
    (pageResults (r.1.map Option.isSome) mult, r.2)
  else (keys.map (fun _ => false), w)

/-- What `batch_exists` finds before it primes. -/
structure Probe where
  compKeys : List String
  mult : Nat
  locs : List (Option DataLocation)
  pages : Nat
  keyspace : Keyspace

/-- `_lookup_keys` in a given keyspace. -/
def lookupKeys (space : KeySpace) (raw : Bool) (keys : List String) : List String × Nat :=
  if raw then (keys, 1) else componentKeys space keys

/-- The lookups of `batch_exists`: the active keyspace, and the other one once if that misses and
    none was seen yet. -/
def probeKeys (space : KeySpace) (dirGet : List String → List (Option DataLocation))
    (f : Keyspace) (keys : List String) : Probe :=
  let (compKeys, mult) := lookupKeys space f.rawKeys keys
  let locs := dirGet compKeys
  let n := hitPrefix locs mult
  if n ≠ 0 then ⟨compKeys, mult, locs, n, f.detect⟩
  else if f.detected then ⟨compKeys, mult, locs, n, f⟩
  else
    let altRaw := !f.rawKeys
    let (altKeys, altMult) := lookupKeys space altRaw keys
    let altLocs := dirGet altKeys
    let altN := hitPrefix altLocs altMult
    if altN ≠ 0 then ⟨altKeys, altMult, altLocs, altN, ⟨altRaw, true, fun _ => rfl⟩⟩
    else ⟨compKeys, mult, locs, n, f⟩

/-- The lookups of a node. -/
def probe (me : String) (w : World) (keys : List String) : Probe :=
  probeKeys (space me) (get owners w.cluster.dir) (w.readers me).keyspace keys

/-- `_prefetch_async`, run to its end. -/
def prefetch (me : String) (w : Cluster) (keys : List String) : Cluster :=
  (resolveNonResident owners reachable me w keys (get owners w.dir keys)).2

/-- `batch_exists` -/
def batchExists (me : String) (now : Nat) (w : World) (keys : List String) : Nat × World :=
  let p := probe owners space me w keys
  let hit := p.pages * p.mult
  let old := (w.readers me).primed
  let primed := if hit ≠ 0 then prime cap ttl now old (p.compKeys.take hit) (p.locs.take hit)
    else old
  let c := if p.pages ≠ 0 ∧ (w.cluster.hosts me).disk.isSome then
    prefetch owners reachable me w.cluster (p.compKeys.take hit)
    else w.cluster
  (p.pages, (w.setReader me ⟨primed, p.keyspace⟩).setCluster c)

/-! ## Runs -/

/-- What happens at a node. -/
inductive Op where
  | set (me : String) (keys : List String) (pages : List Bytes)
  | exists (me : String) (now : Nat) (keys : List String)
  | get (me : String) (now : Nat) (keys : List String) (sizes : List Nat)
  /-- a `data_promote` request that is not part of a call -/
  | promote (me : String) (keys : List String)
  /-- a turn of the node's disk worker -/
  | worker (me : String)

variable (safeName : String → String)

/-- One operation; every request is answered. -/
def step (w : World) : Op → World
  | .set me keys pages => (batchSet owners space me w keys pages).2
  | .exists me now keys => (batchExists owners (fun _ => true) space cap ttl me now w keys).2
  | .get me now keys sizes => (batchGet owners (fun _ => true) space false me now w keys sizes).2
  | .promote me keys =>
      w.setCluster (w.cluster.setNode me (dataPromote me owners (w.cluster.node me) keys).owner)
  | .worker me =>
      w.setCluster (w.cluster.setNode me (diskWork owners safeName (w.cluster.node me)))

/-- Every `data_promote` request of an operation meets `ok` when it arrives. -/
def PromotesMeet (ok : Cluster → String → List String → Prop) (w : World) : Op → Prop
  | .set _ _ _ => True
  | .exists me _ keys =>
      let p := probe owners space me w keys
      let hit := p.compKeys.take (p.pages * p.mult)
      p.pages ≠ 0 ∧ (w.cluster.hosts me).disk.isSome →
        RequestsMeet owners (fun _ => true) ok me w.cluster hit (get owners w.cluster.dir hit)
  | .get me now keys sizes =>
      let compKeys := (componentKeys (space me) keys).1
      compKeys.length = sizes.length →
        RequestsMeet owners (fun _ => true) ok me w.cluster compKeys
          (fetchLocs owners me now w compKeys).1
  | .promote me keys => ok w.cluster me keys
  | .worker _ => True

instance (ok : Cluster → String → List String → Prop) [∀ w o keys, Decidable (ok w o keys)]
    (w : World) (a : Op) : Decidable (PromotesMeet owners space ok w a) :=
  match a with
  | .set _ _ _ => isTrue trivial
  | .exists _ _ _ => inferInstanceAs (Decidable (_ → _))
  | .get _ _ _ _ => inferInstanceAs (Decidable (_ → _))
  | .promote _ _ => inferInstanceAs (Decidable (ok _ _ _))
  | .worker _ => isTrue trivial

end

/-- How a node is created: its pool, and the size of its disk tier if it has one. -/
structure NodeConfig where
  pool : PeerCacheP2pRace.PoolConfig
  disk : Option Nat

/-- Fresh nodes and an empty directory. -/
def World.init (cfg : String → NodeConfig) : World where
  cluster :=
    { hosts := fun n =>
        ⟨new (cfg n).pool.base (cfg n).pool.capacity (cfg n).pool.rkey (cfg n).pool.rkeys
          (cfg n).pool.buf, (cfg n).disk.map DiskStore.empty, OrderedDict.empty⟩
      dir := fun _ => OrderedDict.empty }
  readers _ := Reader.init

/-! ## Whose pages a resolve asks for -/

variable {me : String} {locs : List (Option DataLocation)} {i : Nat} {w : World}

lemma mem_localIdx (h : i ∈ localIdx me locs) :
    ∃ loc, locs[i]? = some (some loc) ∧ loc.resident = false ∧ loc.nodeId = me := by
  obtain ⟨⟨oloc, j⟩, hmem, hq⟩ := List.mem_filterMap.mp h
  have hget := List.mem_zipIdx_iff_getElem?.mp hmem
  cases oloc with
  | none => cases hq
  | some loc =>
    simp only at hq
    by_cases hc : ¬ loc.resident ∧ loc.nodeId = me
    · rw [if_pos hc] at hq
      cases hq
      exact ⟨loc, hget, Bool.not_eq_true _ ▸ hc.1, hc.2⟩
    · rw [if_neg hc] at hq; cases hq

lemma mem_remoteByOwner {g : String × List Nat} (hg : g ∈ (remoteByOwner me locs).items)
    (hi : i ∈ g.2) : ∃ loc, locs[i]? = some (some loc) ∧ loc.resident = false ∧ loc.nodeId = g.1 := by
  -- over any prefix of the locations the groups are of that kind
  have hall : ∀ (l : List (Option DataLocation × Nat)) (groups : OrderedDict String (List Nat)),
      (∀ q ∈ l, locs[q.2]? = some q.1) →
      (∀ o idxs, groups.get? o = some idxs → ∀ i ∈ idxs, ∃ loc, locs[i]? = some (some loc)
        ∧ loc.resident = false ∧ loc.nodeId = o) →
      ∀ o idxs, (l.foldl (fun groups (q : Option DataLocation × Nat) =>
          match q.1 with
          | none => groups
          | some loc =>
            if loc.resident ∨ loc.nodeId = me then groups
            else groups.set loc.nodeId ((groups.get? loc.nodeId).getD [] ++ [q.2])) groups).get? o
        = some idxs → ∀ i ∈ idxs, ∃ loc, locs[i]? = some (some loc)
          ∧ loc.resident = false ∧ loc.nodeId = o := by
    intro l
    induction l with
    | nil => exact fun groups _ h => h
    | cons q l ih =>
      intro groups hl h
      obtain ⟨hq, htail⟩ := List.forall_mem_cons.mp hl
      obtain ⟨oloc, j⟩ := q
      refine ih _ htail ?_
      cases oloc with
      | none => exact h
      | some loc =>
        simp only
        split_ifs with hc
        · exact h
        · intro o idxs ho i hi
          rw [get?_set] at ho
          split_ifs at ho with hoo
          · cases ho
            rcases List.mem_append.mp hi with hi | hi
            · cases hold : groups.get? loc.nodeId with
              | none => rw [hold] at hi; cases hi
              | some idxs =>
                rw [hold] at hi
                exact hoo ▸ h loc.nodeId idxs hold i hi
            · obtain rfl := List.mem_singleton.mp hi
              exact ⟨loc, hq, by simpa using fun hr => hc (.inl hr), hoo.symm⟩
          · exact h o idxs ho i hi
  refine hall locs.zipIdx OrderedDict.empty ?_ (by rintro _ _ ⟨⟩) g.1 g.2
    (get?_eq_some.mpr hg) i hi
  exact fun q hq => List.mem_zipIdx_iff_getElem?.mp hq

variable {loc : DataLocation} {primed : OrderedDict String (DataLocation × Nat)}

/-- **NO NON-RESIDENT LOCATION IS LEFT OUT**: it is the node's own, or is asked of its owner. -/
lemma resolve_complete (me : String) (hi : locs[i]? = some (some loc)) (hr : loc.resident = false) :
    i ∈ localIdx me locs ∨ ∃ g ∈ (remoteByOwner me locs).items, i ∈ g.2 := by
  have hmem : (some loc, i) ∈ locs.zipIdx := List.mem_zipIdx_iff_getElem?.mpr hi
  by_cases hme : loc.nodeId = me
  · refine .inl (List.mem_filterMap.mpr ⟨_, hmem, ?_⟩)
    simp only [hr, hme]
    rfl
  · have hgroup : ∃ idxs, (remoteByOwner me locs).get? loc.nodeId = some idxs ∧ i ∈ idxs := by
      rw [remoteByOwner]
      refine foldl_reaches (Q := fun _ => True) (P := fun groups : OrderedDict String (List Nat) =>
          ∃ idxs, groups.get? loc.nodeId = some idxs ∧ i ∈ idxs)
        hmem (fun _ _ _ _ => trivial) ?_ ?_ trivial
      · intro groups _
        simp only [hr, hme, Bool.false_eq_true, or_self, if_false]
        refine ⟨_, (get?_set _ _ _ _).trans (if_pos rfl), ?_⟩
        exact List.mem_append_right _ (.head _)
      · rintro groups ⟨oloc, j⟩ - - ⟨idxs, hidxs, hin⟩
        cases oloc with
        | none => exact ⟨idxs, hidxs, hin⟩
        | some l =>
          simp only
          split_ifs with hc
          · exact ⟨idxs, hidxs, hin⟩
          · rw [get?_set]
            split_ifs with hl
            · rw [← hl, hidxs]; exact ⟨_, rfl, List.mem_append_left _ hin⟩
            · exact ⟨idxs, hidxs, hin⟩
    obtain ⟨idxs, hidxs, hin⟩ := hgroup
    exact .inr ⟨(loc.nodeId, idxs), get?_eq_some.mp hidxs, hin⟩

/-! ## What is primed -/

/-- The primed locations are resident ones of a kind. -/
abbrev Primed (P : DataLocation → Prop) (primed : OrderedDict String (DataLocation × Nat)) : Prop :=
  PeerCacheP2pRace.Primed (fun _ => P) primed

/-- **WHAT `_fetch` STARTS FROM**: a primed location, or what the directory says. -/
lemma fetchLocs_cases (owners : Owners) {P : DataLocation → Prop}
    (h : Primed P (w.readers me).primed) (now : Nat) {keys : List String} (hi : i < keys.length) :
    (∃ loc, (fetchLocs owners me now w keys).1[i]? = some (some loc) ∧ loc.resident = true ∧ P loc)
      ∨ (fetchLocs owners me now w keys).1[i]? = some (view owners w.cluster.dir (keyAt keys i)) := by
  obtain ⟨hlen, htaken, -⟩ := takePrimed_spec h now keys
  have hk : keys[i]? = some (keyAt keys i) := by
    rw [keyAt, List.getElem?_eq_getElem hi]; rfl
  obtain ⟨out, hout⟩ : ∃ out, (takePrimed now (w.readers me).primed keys).1[i]? = some out :=
    ⟨_, List.getElem?_eq_getElem (hlen.symm ▸ hi)⟩
  have hzip : (keys.zip (takePrimed now (w.readers me).primed keys).1)[i]?
      = some (keyAt keys i, out) := List.getElem?_zip_eq_some.mpr ⟨hk, hout⟩
  have hval : (fetchLocs owners me now w keys).1[i]?
      = some (out.or (view owners w.cluster.dir (keyAt keys i))) := by
    show (fillMisses owners w.cluster.dir keys (takePrimed now (w.readers me).primed keys).1)[i]? = _
    rw [fillMisses, List.getElem?_map, hzip]
    rfl
  cases out with
  | none => exact .inr hval
  | some loc =>
    obtain ⟨hr, hp⟩ := htaken _ loc (List.mem_of_getElem? hzip)
    exact .inl ⟨loc, hval, hr, hp⟩

lemma fetchLocs_length (owners : Owners) {P : DataLocation → Prop}
    (h : Primed P (w.readers me).primed) (now : Nat) (keys : List String) :
    (fetchLocs owners me now w keys).1.length = keys.length := by
  obtain ⟨hlen, -, -⟩ := takePrimed_spec h now keys
  show (fillMisses owners w.cluster.dir keys (takePrimed now (w.readers me).primed keys).1).length = _
  rw [fillMisses, List.length_map, List.length_zip, hlen, Nat.min_self]

lemma fetchLocs_view {owners : Owners} {P : DataLocation → Prop}
    (h : Primed P (w.readers me).primed) (now : Nat) (keys : List String)
    (hi : (fetchLocs owners me now w keys).1[i]? = some (some loc)) (hr : loc.resident = false) :
    view owners w.cluster.dir (keyAt keys i) = some loc := by
  have hlt : i < keys.length := by
    rw [← fetchLocs_length owners h now keys]
    exact (List.getElem?_eq_some_iff.mp hi).1
  rcases fetchLocs_cases owners h now hlt with ⟨l, hl, hres, -⟩ | hview
  · obtain rfl := Option.some.inj (Option.some.inj (hi.symm.trans hl))
    exact nomatch hr.symm.trans hres
  · exact (Option.some.inj (hi.symm.trans hview)).symm

/-! ## What a call keeps -/

section

variable {owners : Owners} {reachable : String → Bool} {space : String → KeySpace}
  {cap ttl : Nat} {safeName : String → String} {P : Cluster → Prop}
  {ok : Cluster → String → List String → Prop}

@[simp] lemma setNode_node (w : Cluster) (n : String) : w.setNode n (w.node n) = w := by
  obtain ⟨hosts, dir⟩ := w
  show Cluster.mk (update hosts n (hosts n)) dir = _
  rw [Function.update_eq_self]

@[simp] lemma node_setNode (w : Cluster) (n : String) (s : PageOwner) : (w.setNode n s).node n = s := by
  show PageOwner.mk _ _ _ _ = s
  simp [Cluster.setNode]

@[simp] lemma setNode_setNode (w : Cluster) (n : String) (s t : PageOwner) :
    (w.setNode n s).setNode n t = w.setNode n t := by
  simp [Cluster.setNode]

@[simp] lemma setNode_dir (w : Cluster) (n : String) (s : PageOwner) :
    (w.setNode n s).dir = s.dir := rfl

lemma setNode_hosts_ne (w : Cluster) {n m : String} (h : m ≠ n) (s : PageOwner) :
    (w.setNode n s).hosts m = w.hosts m := update_of_ne h _ _

/-- A node without the directory. -/
def hostOf (s : PageOwner) : Host := ⟨s.pool, s.disk, s.keyLen⟩

lemma setNode_hosts_self (w : Cluster) (n : String) (s : PageOwner) :
    (w.setNode n s).hosts n = hostOf s := update_self _ _ _

variable {me : String} {w : Cluster}

/-- **RESOLVING**: what the node's own promotes and the owners' promotes keep. -/
lemma resolve_keeps {keys : List String} {locs : List (Option DataLocation)}
    (hlocal : ∀ w, ∀ i ∈ localIdx me locs, P w →
      P (w.setNode me (ensureResident me owners (w.node me) [keyAt keys i]).owner))
    (hremote : ∀ w, ∀ g ∈ (remoteByOwner me locs).items, P w → ok w g.1 (g.2.map (keyAt keys)) →
      P (w.setNode g.1 (dataPromote g.1 owners (w.node g.1) (g.2.map (keyAt keys))).owner))
    (hok : RequestsMeet owners reachable ok me w keys locs) (hw : P w) :
    P (resolveNonResident owners reachable me w keys locs).2 := by
  have hfirst : P (resolveLocal owners me w keys locs).2 := by
    rw [resolveLocal]
    refine List.foldlRecOn (motive := fun acc : List (Option DataLocation) × Cluster => P acc.2) _ _ hw ?_
    intro acc hacc i hi
    exact hlocal acc.2 i hi hacc
  refine foldl_invariant (P := fun acc => P acc.2) ?_ hfirst hok
  intro acc g hg hacc hmeet
  rw [promoteAt]
  split_ifs with hr
  · exact hremote acc.2 g hg hacc hmeet
  · exact hacc

/-- **`True` IS REPORTED** for a resident location of the size asked for. -/
lemma copyPage_isSome (both : Bool) (me : String) (w : Cluster) (key : String) (size : Nat)
    (loc : Option DataLocation) :
    (copyPage both me w key size loc).1.isSome = true
      ↔ ∃ l, loc = some l ∧ l.resident = true ∧ l.length = size := by
  cases loc with
  | none => exact ⟨fun h => (nomatch h), fun ⟨_, h, _⟩ => (nomatch h)⟩
  | some l =>
    have hiff : (∃ l', some l = some l' ∧ l'.resident = true ∧ l'.length = size)
        ↔ l.resident = true ∧ l.length = size :=
      ⟨fun ⟨_, hl, h⟩ => Option.some.inj hl ▸ h, fun h => ⟨l, rfl, h⟩⟩
    rw [hiff, copyPage]
    by_cases hc : l.resident = true ∧ l.length = size
    · rw [if_pos hc]
      refine ⟨fun _ => hc, fun _ => ?_⟩
      cases both with
      | false => rfl
      | true =>
        simp only [if_true]
        cases (addressOf (w.node me).pool key).1 with
        | none => rfl
        | some x =>
          simp only
          split_ifs
          · rfl
          · rfl
    · rw [if_neg hc]; exact ⟨fun h => (nomatch h), fun h => absurd h hc⟩

variable {both : Bool} {loc : DataLocation}

lemma copyPages_true {work : List ((String × Nat) × Option DataLocation)}
    (h : ∀ q ∈ work, ∃ l, q.2 = some l ∧ l.resident = true ∧ l.length = q.1.2) (w : Cluster) :
    (copyPages both me work w).1.map Option.isSome = List.replicate work.length true := by
  induction work generalizing w with
  | nil => rfl
  | cons q work ih =>
    obtain ⟨hq, htail⟩ := List.forall_mem_cons.mp h
    exact congrArg₂ List.cons ((copyPage_isSome both me w q.1.1 q.1.2 q.2).mpr hq) (ih htail _)

/-- **COPYING** only touches the reader's pool. -/
lemma copyPages_keeps
    (htouch : ∀ w k, P w → P (w.setNode me ((w.node me).setPool (addressOf (w.node me).pool k).2)))
    (work : List ((String × Nat) × Option DataLocation)) (hw : P w) :
    P (copyPages both me work w).2 := by
  have hone : ∀ w k size loc, P w → P (copyPage both me w k size loc).2 := by
    intro w k size loc hw
    cases loc with
    | none => exact hw
    | some loc =>
      rw [copyPage]
      by_cases hc : loc.resident ∧ loc.length = size
      · rw [if_pos hc]
        cases both with
        | false => exact hw
        | true =>
          have ht := htouch w k hw
          simp only [if_true]
          cases hal : (addressOf (w.node me).pool k).1 with
          | none => exact ht
          | some x =>
            obtain ⟨addr, length⟩ := x
            by_cases hl : length = size
            · simp only [if_pos hl]; exact ht
            · simp only [if_neg hl]; exact ht
      · rw [if_neg hc]; exact hw
  induction work generalizing w with
  | nil => exact hw
  | cons q rest ih => exact ih (hone w q.1.1 q.1.2 q.2 hw)

lemma publishP2p_eq (me : String) (s : PageOwner) (pages : List (String × Bytes)) :
    publishP2p me owners s pages = publishPages me owners s (pages.map fun q =>
      (q, if (view owners s.dir q.1).isSome then Admission.existing else Admission.fresh)) := by
  rw [publishP2p, existsKeys_eq_view, List.map_map, List.map_map]
  congr 1
  exact List.map_prod_left_eq_zip.symm

lemma publishP2p_length (me : String) (s : PageOwner) (pages : List (String × Bytes)) :
    (publishP2p me owners s pages).results.length = pages.length := by
  rw [publishP2p_eq]
  exact (publishLoop_length _ s _).trans (List.length_map _)

lemma fetch_cluster (both : Bool) (me : String) (now : Nat) (w : World)
    (queries : List (String × Nat)) :
    (fetch owners reachable both me now w queries).2.cluster
      = (copyPages both me (queries.zip (resolveNonResident owners reachable me w.cluster
            (queries.map Prod.fst) (fetchLocs owners me now w (queries.map Prod.fst)).1).1)
          (resolveNonResident owners reachable me w.cluster (queries.map Prod.fst)
            (fetchLocs owners me now w (queries.map Prod.fst)).1).2).2 := rfl

lemma fetch_readers (both : Bool) (me : String) (now : Nat) (w : World)
    (queries : List (String × Nat)) :
    (fetch owners reachable both me now w queries).2.readers
      = (w.setReader me { w.readers me with
          primed := (takePrimed now (w.readers me).primed (queries.map Prod.fst)).2 }).readers := rfl

/-- **ONE OPERATION** keeps what a set, the promotes, a lookup and a turn of the disk worker
    keep. -/
lemma step_keeps {w : World} {a : Op} (hset : ∀ me keys pages, a = .set me keys pages →
      (componentKeys (space me) keys).1.length = pages.length →
      P (w.cluster.setNode me (publishP2p me owners (w.cluster.node me)
        ((componentKeys (space me) keys).1.zip pages)).owner))
    (hensure : ∀ w me k, P w → P (w.setNode me (ensureResident me owners (w.node me) [k]).owner))
    (hpromote : ∀ w me keys, P w → ok w me keys →
      P (w.setNode me (dataPromote me owners (w.node me) keys).owner))
    (htouch : ∀ w me k, P w → P (w.setNode me ((w.node me).setPool (addressOf (w.node me).pool k).2)))
    (hwork : ∀ me, a = .worker me →
      P (w.cluster.setNode me (diskWork owners safeName (w.cluster.node me))))
    (hw : P w.cluster) (hok : PromotesMeet owners space ok w a) :
    P (step owners space cap ttl safeName w a).cluster := by
  cases a with
  | set me keys pages =>
    show P (w.cluster.setNode me (batchSetV1 me owners (space me) (w.cluster.node me) keys pages).2)
    rw [batchSetV1]
    by_cases hlen : (componentKeys (space me) keys).1.length = pages.length
    · simp only [if_pos hlen]; exact hset me keys pages rfl hlen
    · simp only [if_neg hlen, setNode_node]; exact hw
  | «exists» me now keys =>
    show P (if _ ∧ _ then _ else _)
    split_ifs with hc
    · exact resolve_keeps (fun w i _ hw => hensure w me _ hw)
        (fun w g _ hw hg => hpromote w g.1 _ hw hg) (hok hc) hw
    · exact hw
  | get me now keys sizes =>
    show P (batchGet owners (fun _ => true) space false me now w keys sizes).2.cluster
    rw [batchGet]
    by_cases hlen : (componentKeys (space me) keys).1.length = sizes.length
    · simp only [if_pos hlen, fetch_cluster, List.map_fst_zip hlen.le]
      refine copyPages_keeps (fun w k hw => htouch w me k hw) _ ?_
      exact resolve_keeps (fun w i _ hw => hensure w me _ hw)
        (fun w g _ hw hg => hpromote w g.1 _ hw hg) (hok hlen) hw
    · simp only [if_neg hlen]; exact hw
  | promote me keys => exact hpromote w.cluster me keys hw hok
  | worker me => exact hwork me rfl

lemma promotesMeet_trivial (w : World) (a : Op) :
    PromotesMeet owners space (fun _ _ _ => True) w a := by
  cases a with
  | set me keys pages => exact trivial
  | «exists» me now keys | get me now keys sizes => exact fun _ => guarded_trivial _ _
  | promote me keys => exact trivial
  | worker me => exact trivial

/-! ## What the readers remember -/

lemma get_view {keys : List String} {i : Nat} (h : (get owners w.dir keys)[i]? = some (some loc)) :
    view owners w.dir (keyAt keys i) = some loc := by
  rw [get_eq_view, List.getElem?_map, Option.map_eq_some_iff] at h
  obtain ⟨k, hk, hv⟩ := h
  rw [keyAt, hk]
  exact hv

lemma mem_probe_locs {w : World} {keys : List String}
    (h : some loc ∈ (probe owners space me w keys).locs) :
    ∃ k, view owners w.cluster.dir k = some loc := by
  have hget : ∀ ks, some loc ∈ get owners w.cluster.dir ks → ∃ k, view owners w.cluster.dir k = some loc := by
    intro ks hks
    rw [get_eq_view] at hks
    obtain ⟨k, -, hk⟩ := List.mem_map.mp hks
    exact ⟨k, hk⟩
  rw [probe, probeKeys] at h
  simp only at h
  split_ifs at h
  · exact hget _ h
  · exact hget _ h
  · exact hget _ h
  · exact hget _ h

/-- **WHAT IS PRIMED** at a node comes from the directory. -/
lemma readers_step {P : String → DataLocation → Prop} {w : World}
    (hdir : ∀ n k loc, view owners w.cluster.dir k = some loc → P n loc)
    (hp : ∀ n, Primed (P n) (w.readers n).primed) (a : Op) :
    ∀ n, Primed (P n) ((step owners space cap ttl safeName w a).readers n).primed := by
  have hreader : ∀ (me : String) (r : Reader), Primed (P me) r.primed →
      ∀ n, Primed (P n) ((w.setReader me r).readers n).primed := by
    intro me r hr n
    show Primed (P n) (update w.readers me r n).primed
    by_cases hn : n = me
    · rw [hn, update_self]; exact hr
    · rw [update_of_ne hn]; exact hp n
  cases a with
  | set me keys pages => exact hp
  | «exists» me now keys =>
    refine hreader me _ ?_
    show Primed (P me) (if _ then _ else _)
    split_ifs
    · refine primed_prime (hp me) cap ttl now ?_
      intro _ loc hloc
      obtain ⟨k, hk⟩ := mem_probe_locs (List.mem_of_mem_take (List.of_mem_zip hloc).2)
      exact hdir me k loc hk
    · exact hp me
  | get me now keys sizes =>
    show ∀ n, Primed (P n)
      ((batchGet owners (fun _ => true) space false me now w keys sizes).2.readers n).primed
    rw [batchGet]
    by_cases hlen : (componentKeys (space me) keys).1.length = sizes.length
    · simp only [if_pos hlen, fetch_readers]
      exact hreader me _ (takePrimed_spec (hp me) now _).2.2
    · simp only [if_neg hlen]; exact hp
  | promote me keys => exact hp
  | worker me => exact hp

/-! ## The size of the disk tier -/

lemma diskLimit_ownerSteps {stores : String → Bytes → Prop} {promotes : String → Prop}
    {s t : PageOwner} (h : OwnerSteps me owners stores promotes s t) :
    diskLimit t.disk = diskLimit s.disk :=
  OwnerSteps.keeps (P := fun u => diskLimit u.disk = diskLimit s.disk)
    (fun _ _ hab ha => (diskLimit_ownerStep hab).trans ha) h rfl

lemma diskLimit_ensureResident (me : String) (s : PageOwner) (keys : List String) :
    diskLimit (ensureResident me owners s keys).owner.disk = diskLimit s.disk :=
  (diskLimit_ownerSteps (ensureLoop_chain me owners (fun _ _ => False) s keys) :)

lemma diskLimit_publishPages (me : String) (s : PageOwner)
    (pages : List ((String × Bytes) × Admission)) :
    diskLimit (publishPages me owners s pages).owner.disk = diskLimit s.disk := by
  obtain ⟨t, hsteps, heq⟩ := publishPages_chain me owners (fun _ _ => True) s pages
    (fun _ _ _ => trivial)
  rw [heq]
  exact (diskLimit_ownerSteps hsteps :)

lemma diskLimit_diskWork (safeName : String → String) (s : PageOwner) :
    diskLimit (diskWork owners safeName s).disk = diskLimit s.disk := by
  rw [diskWork]
  cases hd : s.disk with
  | none => rw [hd]
  | some d => exact congrArg some (work_maxBytes safeName d)

/-- **NO OPERATION** adds a disk tier, removes it or changes its size. -/
lemma diskLimit_step (w : World) (a : Op) (n : String) :
    diskLimit ((step owners space cap ttl safeName w a).cluster.hosts n).disk
      = diskLimit (w.cluster.hosts n).disk := by
  have hnode : ∀ (c : Cluster) (me : String) (t : PageOwner),
      diskLimit t.disk = diskLimit (c.node me).disk →
      (∀ n, diskLimit (c.hosts n).disk = diskLimit (w.cluster.hosts n).disk) →
      ∀ n, diskLimit ((c.setNode me t).hosts n).disk = diskLimit (w.cluster.hosts n).disk := by
    intro c me t ht hc n
    by_cases hn : n = me
    · rw [hn, setNode_hosts_self]; exact ht.trans (hc me)
    · rw [setNode_hosts_ne c hn]; exact hc n
  have hall : PromotesMeet owners space (fun _ _ _ => True) w a := promotesMeet_trivial w a
  refine step_keeps (P := fun c => ∀ n, diskLimit (c.hosts n).disk = diskLimit (w.cluster.hosts n).disk)
    ?_ ?_ ?_ ?_ ?_ (fun _ => rfl) hall n
  · intro me keys pages _ _
    exact hnode _ me _ (diskLimit_publishPages me _ _) (fun _ => rfl)
  · exact fun c me k hc => hnode c me _ (diskLimit_ensureResident me _ _) hc
  · exact fun c me keys hc _ => hnode c me _ (diskLimit_ensureResident me _ _) hc
  · exact fun c me k hc => hnode c me _ rfl hc
  · exact fun me _ => hnode _ me _ (diskLimit_diskWork safeName _) (fun _ => rfl)

/-- The world after a list of operations. -/
def after (owners : Owners) (space : String → KeySpace) (cap ttl : Nat)
    (safeName : String → String) (cfg : String → NodeConfig) (acts : List Op) : World :=
  acts.foldl (step owners space cap ttl safeName) (World.init cfg)

lemma diskLimit_after (owners : Owners) (space : String → KeySpace) (cap ttl : Nat)
    (safeName : String → String) (cfg : String → NodeConfig) (acts : List Op) (n : String) :
    diskLimit ((after owners space cap ttl safeName cfg acts).cluster.hosts n).disk = (cfg n).disk := by
  rw [after]
  refine List.foldlRecOn (motive := fun w : World => diskLimit (w.cluster.hosts n).disk = (cfg n).disk)
    _ _ ?_ ?_
  · show ((cfg n).disk.map DiskStore.empty).map DiskStore.maxBytes = (cfg n).disk
    cases (cfg n).disk with
    | none => rfl
    | some m => rfl
  · exact fun w hw a _ => (diskLimit_step w a n).trans hw

end

end PeerCacheCluster
