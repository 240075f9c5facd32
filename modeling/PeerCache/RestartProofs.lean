import PeerCache.ClusterEntriesProofs
import PeerCache.RepublishProofs

/-! # Addresses that outlive a pool

    The local branch of `_fetch` copies from `remote_addr` of a location that names the node
    itself, without a look at its pool.  The location comes from the directory, or was primed
    from it, and a node that leaves and comes back under its name finds the entries of its
    former pool in the shards of the others. -/

namespace PeerCacheCluster

open PeerCachePool PeerCacheDirectory PeerCacheDisk PeerCacheOwner PeerCacheStorage Function
  PeerCacheStorageWrite Transition List

open PeerCacheP2pDisk (KeySpace componentKeys publishP2p batchSetV1)

open PeerCacheP2pRace (takePrimed fillMisses remoteByOwner PoolConfig)

/-! ## Addresses of a pool -/

/-- Every address of the location is in `[base, base + capacity)`. -/
def InPool (pool : PublishedPool String) (loc : DataLocation) : Prop :=
  ∀ a, loc.remoteAddr ≤ a → a < loc.remoteAddr + loc.length →
    pool.base ≤ a ∧ a < pool.base + pool.capacity

section

variable {me : String} {owners : Owners} {stores : String → Bytes → Prop}
  {promotes : String → Prop} {p q : PublishedPool String} {s t u : PageOwner}

variable {loc : DataLocation} {k : String}

lemma InPool.congr (h : InPool p loc) (hsame : SameRegion p q) : InPool q loc := by
  intro a ha hb
  rw [hsame.base, hsame.capacity]
  exact h a ha hb

lemma inPool_of_entry (hi : Inv p) {x : Tiling.Extent} (hx : p.entries.get? k = some x)
    (haddr : loc.remoteAddr = p.base + x.1) (hlen : loc.length ≤ x.2) : InPool p loc := by
  intro a ha hb
  have hmem : x ∈ p.extents :=
    mem_append_left _ (mem_map.mpr ⟨(k, x), OrderedDict.get?_eq_some.mp hx, rfl⟩)
  have hcover : Tiling.Covers x (a - p.base) := ⟨by omega, by omega⟩
  have hlt := (hi.tiles.cover (a - p.base)).mpr ⟨x, hmem, hcover⟩
  have hle := hi.next_le
  omega

lemma inPool_of_current (hi : Inv p) (h : Current p k loc) : InPool p loc := by
  obtain ⟨x, hx, haddr, hlen⟩ := h
  exact inPool_of_entry hi hx haddr hlen.le

/-! ## What a node does to its pool and to the directory -/

/-- A change at node `me` keeps its pool in order and in place, and adds no resident entry but of the
    node itself, in its pool. -/
structure StaysIn (me : String) (s t : PageOwner) : Prop where
  inv : Inv t.pool
  region : SameRegion s.pool t.pool
  entry : ∀ node k loc, (t.dir node).get? k = some loc → loc.resident = true →
    (s.dir node).get? k = some loc ∨ (loc.nodeId = me ∧ InPool s.pool loc)

lemma StaysIn.trans (h : StaysIn me s t) (h' : StaysIn me t u) : StaysIn me s u where
  inv := h'.inv
  region := h.region.trans h'.region
  entry := by
    intro node k loc hk hres
    rcases h'.entry node k loc hk hres with hold | ⟨hme, hin⟩
    · exact h.entry node k loc hold hres
    · exact .inr ⟨hme, hin.congr h.region.symm⟩

lemma resident_ownerStep (h : OwnerStep me owners stores promotes s t) {node : String}
    (hk : (t.dir node).get? k = some loc) (hres : loc.resident = true) :
    (s.dir node).get? k = some loc := by
  rcases dir_ownerStep h with hdir | ⟨evicted, hdir⟩
  · rw [hdir] at hk; exact hk
  · rw [hdir] at hk
    split_ifs at hk
    · rw [evictedEntry] at hk
      cases hd : s.disk with
      | none => rw [hd] at hk; cases hk
      | some d =>
        rw [hd] at hk
        cases hl : s.keyLen.get? k with
        | none => rw [hl] at hk; exact hk
        | some length =>
          rw [hl] at hk
          cases hk
          cases hres
    · exact hk

lemma staysIn_ownerSteps (hi : Inv s.pool) (h : OwnerSteps me owners stores promotes s t) :
    StaysIn me s t := by
  refine OwnerSteps.keeps (P := StaysIn me s) ?_ h ⟨hi, SameRegion.refl _, fun _ _ _ hk _ => .inl hk⟩
  intro a b hab ha
  refine ha.trans ⟨inv_ownerStep hab ha.inv, region_ownerStep hab, ?_⟩
  exact fun node k loc hk hres => .inl (resident_ownerStep hab hk hres)

lemma staysIn_put (hi : Inv s.pool) {entries : Locations}
    (hent : ∀ k loc, owners k ≠ [] → entries.get? k = some loc → loc.resident = true →
      loc.nodeId = me ∧ InPool s.pool loc) :
    StaysIn me s (s.setDir (put owners s.dir entries)) where
  inv := hi
  region := SameRegion.refl _
  entry := by
    intro node k loc hk hres
    rcases put_get?_cases hk with ⟨hn, hput⟩ | ⟨hold, -⟩
    · exact .inr (hent k loc (ne_nil_of_mem hn) hput hres)
    · exact .inl hold

lemma staysIn_delete (hi : Inv s.pool) (keys : List String) :
    StaysIn me s (s.setDir (delete owners s.dir keys)) where
  inv := hi
  region := SameRegion.refl _
  entry := fun _ _ _ hk _ => .inl (delete_get?_some hk).1

/-! ## `_ensure_resident`, `_republish_directory`, the disk worker -/

lemma ensureOne_inPool (hi : Inv s.pool) (hloc : (ensureOne me owners s k).loc = some loc) :
    loc.nodeId = me ∧ InPool s.pool loc := by
  rcases ensureOne_split me owners s k with
    ⟨x, hx, heq⟩ | ⟨hout, ⟨-, heq⟩ | ⟨data, r, hdata, rfl, ⟨-, heq⟩ | ⟨addr, haddr, heq⟩⟩⟩
  · rw [heq] at hloc
    cases hloc
    exact ⟨rfl, inPool_of_entry hi hx rfl le_rfl⟩
  · rw [heq] at hloc; cases hloc
  · rw [heq] at hloc; cases hloc
  · rw [heq] at hloc
    cases hloc
    have hout' : k ∉ (s.diskGet k).2.pool.entries.keys := by rw [diskGet_pool]; exact hout
    have hpool : (publishPage me owners (s.diskGet k).2 k data).owner.pool
        = (publish s.pool k data).pool := by rw [publishPage_pool, diskGet_pool]
    have hin := inPool_of_current (hpool ▸ inv_place hi k _ _) (publishPage_current hout' haddr)
    have hsame := place_region s.pool k data.length (fun off m => m.write off data)
    refine ⟨rfl, hin.congr ?_⟩
    rw [hpool]
    exact hsame.symm

lemma ensureOne_staysIn (hi : Inv s.pool) (k : String) :
    StaysIn me s (ensureOne me owners s k).owner := by
  have hsteps : OwnerSteps me owners (fun _ _ => False) (fun _ => True) s
      (ensureOne me owners s k).owner := ensureOne_steps s trivial
  exact staysIn_ownerSteps hi hsteps

lemma ensureLoop_inPool (me : String) (owners : Owners) (keys : List String)
    (hi : Inv s.pool) (promoted : Locations)
    (hp : ∀ k loc, promoted.get? k = some loc → loc.nodeId = me ∧ InPool s.pool loc) :
    (∀ k loc, (ensureLoop me owners keys s promoted).promoted.get? k = some loc →
        loc.nodeId = me ∧ InPool s.pool loc)
      ∧ ∀ loc, some loc ∈ (ensureLoop me owners keys s promoted).locs →
        loc.nodeId = me ∧ InPool s.pool loc := by
  induction keys generalizing s promoted with
  | nil => exact ⟨hp, fun _ h => absurd h not_mem_nil⟩
  | cons j keys ih =>
    have hstay : StaysIn me s (ensureOne me owners s j).owner := ensureOne_staysIn hi j
    have hback : ∀ loc, InPool (ensureOne me owners s j).owner.pool loc → InPool s.pool loc :=
      fun loc h => h.congr hstay.region.symm
    have hadd : ∀ k loc, (addPromoted promoted j (ensureOne me owners s j)).get? k = some loc →
        loc.nodeId = me ∧ InPool (ensureOne me owners s j).owner.pool loc := by
      intro k loc hk
      rcases addPromoted_get? hk with hold | ⟨-, -, hloc⟩
      · obtain ⟨hme, hin⟩ := hp k loc hold
        exact ⟨hme, hin.congr hstay.region⟩
      · obtain ⟨hme, hin⟩ := ensureOne_inPool hi hloc
        exact ⟨hme, hin.congr hstay.region⟩
    obtain ⟨hprom, hlocs⟩ := ih hstay.inv _ hadd
    refine ⟨fun k loc hk => (hprom k loc hk).imp_right (hback loc), ?_⟩
    intro loc hloc
    rcases mem_cons.mp hloc with hfirst | hrest
    · exact ensureOne_inPool hi hfirst.symm
    · exact (hlocs loc hrest).imp_right (hback loc)

/-- **`_ensure_resident`** stays in the pool, and so do the locations it answers. -/
lemma staysIn_ensureResident (me : String) (owners : Owners) (hi : Inv s.pool)
    (keys : List String) :
    StaysIn me s (ensureResident me owners s keys).owner
      ∧ ∀ loc, some loc ∈ (ensureResident me owners s keys).locs →
        loc.nodeId = me ∧ InPool s.pool loc := by
  have hloop := staysIn_ownerSteps hi (ensureLoop_chain me owners (fun _ _ => False) s keys)
  obtain ⟨hprom, hlocs⟩ := ensureLoop_inPool me owners keys hi OrderedDict.empty nofun
  refine ⟨hloop.trans (staysIn_put hloop.inv ?_), hlocs⟩
  intro k loc _ hk _
  exact (hprom k loc hk).imp_right fun hin => hin.congr hloop.region

lemma staysIn_dataPromote (hi : Inv s.pool) (keys : List String) :
    StaysIn me s (dataPromote me owners s keys).owner := by
  obtain ⟨hstay, -⟩ := staysIn_ensureResident me owners hi keys
  exact hstay.trans (staysIn_delete hstay.inv _)

lemma staysIn_touch (hi : Inv s.pool) (k : String) :
    StaysIn me s (s.setPool (addressOf s.pool k).2) :=
  ⟨inv_addressOf hi k, addressOf_region s.pool k, fun _ _ _ hk _ => .inl hk⟩

lemma staysIn_diskWork (hi : Inv s.pool) (safeName : String → String) :
    StaysIn me s (diskWork owners safeName s) := by
  obtain ⟨hpool, hdir⟩ := diskWork_spec owners safeName s
  refine ⟨hpool ▸ hi, hpool ▸ SameRegion.refl _, ?_⟩
  exact fun node k loc hk _ => .inl (hdir node k loc hk).1

lemma republishEntries_current (h : (republishEntries me s).get? k = some loc)
    (hres : loc.resident = true) : loc.nodeId = me ∧ Current s.pool k loc := by
  have hsnap : ∀ loc, (snapshotEntries me s.pool).get? k = some loc →
      loc.nodeId = me ∧ Current s.pool k loc := by
    intro loc hloc
    rw [PeerCacheDirectoryClient.snapshotEntries_get?] at hloc
    obtain ⟨x, hx, rfl⟩ := Option.map_eq_some_iff.mp hloc
    exact ⟨rfl, x, hx, rfl, rfl⟩
  rw [republishEntries] at h
  cases hd : s.disk with
  | none => rw [hd] at h; exact hsnap loc h
  | some d =>
    rw [hd] at h
    rcases OrderedDict.foldl_set_cases (fun e : String × Nat => e.1)
        (fun e => nonResident me e.2) h with ⟨e, -, -, rfl⟩ | hloc
    · cases hres
    · exact hsnap loc hloc

lemma staysIn_republish (hi : Inv s.pool) : StaysIn me s (republishDirectory me owners s) := by
  refine staysIn_put hi ?_
  intro k loc _ hk hres
  exact (republishEntries_current hk hres).imp_right (inPool_of_current hi)

/-! ## `_publish_p2p` -/

lemma publishP2p_chain (me : String) (owners : Owners) (s : PageOwner)
    (pages : List (String × Bytes)) :
    ∃ t, OwnerSteps me owners (fun _ _ => True) (fun _ => False) s t
      ∧ (publishP2p me owners s pages).owner
        = t.setDir (put owners t.dir (publishP2p me owners s pages).entries)
      ∧ ∀ k loc, (publishP2p me owners s pages).entries.get? k = some loc → loc.nodeId = me := by
  rw [publishP2p_eq]
  generalize pages.map _ = ps
  obtain ⟨t, hsteps, heq⟩ := publishPages_chain me owners (fun _ _ => True) s ps (fun _ _ _ => trivial)
  refine ⟨t, hsteps, heq, ?_⟩
  intro k loc h
  obtain ⟨old, hold, rfl⟩ := reconcile_entries h
  obtain ⟨hme, -⟩ := (publishLoop_entries me owners ps s OrderedDict.empty hold).resolve_left
    nofun
  rw [settle]
  cases (publishLoop me owners ps s OrderedDict.empty).owner.pool.entries.get? k with
  | none => rfl
  | some x => exact hme

end

/-! ## The cluster -/

/-- Resident entries are in the pools they name. -/
def EntriesInside (c : Cluster) : Prop :=
  ∀ node k loc, (c.dir node).get? k = some loc → loc.resident = true →
    InPool (c.hosts loc.nodeId).pool loc

/-- The pools of `c` are in order, and where those of `w` are. -/
structure PoolsKept (w c : Cluster) : Prop where
  inv : ∀ n, Inv (c.hosts n).pool
  region : ∀ n, SameRegion (w.hosts n).pool (c.hosts n).pool

/-- And a resident entry that is new is in the pool it names. -/
structure Reached (w c : Cluster) : Prop extends PoolsKept w c where
  entry : ∀ node k loc, (c.dir node).get? k = some loc → loc.resident = true →
    (w.dir node).get? k = some loc ∨ InPool (w.hosts loc.nodeId).pool loc

section

variable {w c : Cluster} {me : String} {t : PageOwner}

lemma PoolsKept.setNode (h : PoolsKept w c) (hi : Inv t.pool)
    (hregion : SameRegion (c.hosts me).pool t.pool) : PoolsKept w (c.setNode me t) where
  inv := by
    intro n
    by_cases hn : n = me
    · rw [hn, setNode_hosts_self]; exact hi
    · rw [setNode_hosts_ne c hn]; exact h.inv n
  region := by
    intro n
    by_cases hn : n = me
    · rw [hn, setNode_hosts_self]; exact (h.region me).trans hregion
    · rw [setNode_hosts_ne c hn]; exact h.region n

lemma Reached.refl (hi : ∀ n, Inv (w.hosts n).pool) : Reached w w :=
  ⟨⟨hi, fun _ => SameRegion.refl _⟩, fun _ _ _ hk _ => .inl hk⟩

lemma Reached.setNode (h : Reached w c) (ht : StaysIn me (c.node me) t) :
    Reached w (c.setNode me t) where
  toPoolsKept := h.toPoolsKept.setNode ht.inv ht.region
  entry := by
    intro node k loc hk hres
    rcases ht.entry node k loc hk hres with hold | ⟨rfl, hin⟩
    · exact h.entry node k loc hold hres
    · exact .inr (hin.congr (h.region loc.nodeId).symm)

lemma Reached.inside (h : Reached w c) (hw : EntriesInside w) : EntriesInside c := by
  intro node k loc hk hres
  rcases h.entry node k loc hk hres with hold | hin
  · exact (hw node k loc hold hres).congr (h.region loc.nodeId)
  · exact hin.congr (h.region loc.nodeId)

end

/-! ## One call -/

section

variable {owners : Owners} {space : String → KeySpace} {cap ttl : Nat}
  {safeName : String → String}

/-- A set puts no resident entry outside the pool. -/
def SetInside (owners : Owners) (space : String → KeySpace) (w : World) : Op → Prop
  | .set me keys pages => (componentKeys (space me) keys).1.length = pages.length →
      ∀ k loc, owners k ≠ [] → (publishP2p me owners (w.cluster.node me)
          ((componentKeys (space me) keys).1.zip pages)).entries.get? k = some loc →
        loc.resident = true → InPool (w.cluster.hosts me).pool loc
  | _ => True

lemma poolsKept_publishP2p (owners : Owners) {c : Cluster}
    (hi : ∀ n, Inv (c.hosts n).pool) (me : String) (pages : List (String × Bytes)) :
    PoolsKept c (c.setNode me (publishP2p me owners (c.node me) pages).owner) := by
  obtain ⟨t, hsteps, heq, -⟩ := publishP2p_chain me owners (c.node me) pages
  have hstay := staysIn_ownerSteps (hi me) hsteps
  rw [heq]
  exact (Reached.refl hi).toPoolsKept.setNode hstay.inv hstay.region

lemma staysIn_publishP2p {s : PageOwner} (hi : Inv s.pool) {me : String}
    {pages : List (String × Bytes)}
    (hin : ∀ k loc, owners k ≠ [] → (publishP2p me owners s pages).entries.get? k = some loc →
      loc.resident = true → InPool s.pool loc) :
    StaysIn me s (publishP2p me owners s pages).owner := by
  obtain ⟨t, hsteps, heq, hmine⟩ := publishP2p_chain me owners s pages
  have hstay := staysIn_ownerSteps hi hsteps
  rw [heq]
  refine hstay.trans (staysIn_put hstay.inv ?_)
  intro k loc hring hk hres
  exact ⟨hmine k loc hk, (hin k loc hring hk hres).congr hstay.region⟩

/-- **EVERY CALL** keeps the pools in order and in place. -/
lemma poolsKept_step {w : World} (hi : ∀ n, Inv (w.cluster.hosts n).pool) (a : Op) :
    PoolsKept w.cluster (step owners space cap ttl safeName w a).cluster := by
  refine step_keeps (P := PoolsKept w.cluster) ?_ ?_ ?_ ?_ ?_ (Reached.refl hi).toPoolsKept
    (promotesMeet_trivial w a)
  · intro me keys pages _ _; exact poolsKept_publishP2p owners hi me _
  · intro c me k hc
    obtain ⟨hstay, -⟩ := staysIn_ensureResident me owners (s := c.node me) (hc.inv me) [k]
    exact hc.setNode hstay.inv hstay.region
  · intro c me keys hc _
    have hstay : StaysIn me (c.node me) (dataPromote me owners (c.node me) keys).owner :=
      staysIn_dataPromote (hc.inv me) keys
    exact hc.setNode hstay.inv hstay.region
  · intro c me k hc
    have hstay : StaysIn me (c.node me) _ := staysIn_touch (hc.inv me) k
    exact hc.setNode hstay.inv hstay.region
  · intro me _
    have hstay : StaysIn me (w.cluster.node me) (diskWork owners safeName (w.cluster.node me)) :=
      staysIn_diskWork (hi me) safeName
    exact (Reached.refl hi).toPoolsKept.setNode hstay.inv hstay.region

/-- **EVERY CALL** whose set stays inside adds no entry outside a pool. -/
lemma reached_step {w : World} (hi : ∀ n, Inv (w.cluster.hosts n).pool) {a : Op}
    (hset : SetInside owners space w a) :
    Reached w.cluster (step owners space cap ttl safeName w a).cluster := by
  refine step_keeps (P := Reached w.cluster) ?_ ?_ ?_ ?_ ?_ (Reached.refl hi) (promotesMeet_trivial w a)
  · rintro me keys pages rfl hlen
    exact (Reached.refl hi).setNode (staysIn_publishP2p (hi me) (hset hlen))
  · intro c me k hc
    exact hc.setNode (staysIn_ensureResident me _ (hc.inv me) [k]).1
  · intro c me keys hc _
    exact hc.setNode (staysIn_dataPromote (hc.inv me) keys)
  · intro c me k hc; exact hc.setNode (staysIn_touch (hc.inv me) k)
  · intro me _
    exact (Reached.refl hi).setNode (staysIn_diskWork (hi me) safeName)

/-- **ONE CALL** leaves the entries inside exactly when its set, if it is one, stays inside. -/
lemma inside_step_iff {w : World} (hi : ∀ n, Inv (w.cluster.hosts n).pool)
    (h : EntriesInside w.cluster) (a : Op) :
    EntriesInside (step owners space cap ttl safeName w a).cluster ↔ SetInside owners space w a := by
  refine ⟨?_, fun hset => (reached_step hi hset).inside h⟩
  cases a with
  | set me keys pages =>
    intro hin hlen k loc hring hk hres
    have hnode : (step owners space cap ttl safeName w (.set me keys pages)).cluster
        = w.cluster.setNode me (publishP2p me owners (w.cluster.node me)
          ((componentKeys (space me) keys).1.zip pages)).owner := by
      show w.cluster.setNode me (batchSetV1 me owners (space me) (w.cluster.node me) keys pages).2 = _
      rw [batchSetV1]
      simp only [if_pos hlen]
    have hkept := poolsKept_publishP2p owners hi me ((componentKeys (space me) keys).1.zip pages)
    rw [hnode] at hin
    obtain ⟨node, howner⟩ := exists_mem_of_ne_nil _ hring
    obtain ⟨t, -, heq, hmine⟩ := publishP2p_chain me owners (w.cluster.node me)
      ((componentKeys (space me) keys).1.zip pages)
    have hput : ((publishP2p me owners (w.cluster.node me)
        ((componentKeys (space me) keys).1.zip pages)).owner.dir node).get? k = some loc := by
      rw [heq]
      show (put owners t.dir _ node).get? k = some loc
      rw [put_get?, if_pos howner, hk, Option.some_or]
    have hentry := hin node k loc hput hres
    rw [hmine k loc hk] at hentry
    exact hentry.congr (hkept.region me).symm
  | «exists» me now keys => exact fun _ => trivial
  | get me now keys sizes => exact fun _ => trivial
  | promote me keys => exact fun _ => trivial
  | worker me => exact fun _ => trivial

end

/-! ## Nodes that leave and come back -/

/-- What happens to the nodes. -/
inductive LifeOp where
  /-- a call, with the ring of its node -/
  | call (owners : Owners) (op : Op)
  /-- the ring has changed, and a node puts its entries again -/
  | republish (owners : Owners) (me : String)
  /-- a node comes back with another pool; its disk tier may have kept anything -/
  | restart (me : String) (pool : PoolConfig) (disk : Option DiskStore)

def freshPool (pool : PoolConfig) : PublishedPool String :=
  new pool.base pool.capacity pool.rkey pool.rkeys pool.buf

/-- The node's pool, its shard and what it remembers are lost; the shards of the others stay. -/
def World.restart (w : World) (me : String) (pool : PoolConfig) (disk : Option DiskStore) : World where
  cluster :=
    { hosts := Function.update w.cluster.hosts me ⟨freshPool pool, disk, OrderedDict.empty⟩
      dir := Function.update w.cluster.dir me OrderedDict.empty }
  readers := Function.update w.readers me Reader.init

section

variable (space : String → KeySpace) (cap ttl : Nat) (safeName : String → String)

def lifeStep (w : World) : LifeOp → World
  | .call owners op => step owners space cap ttl safeName w op
  | .republish owners me =>
      w.setCluster (w.cluster.setNode me (republishDirectory me owners (w.cluster.node me)))
  | .restart me pool disk => w.restart me pool disk

/-- A set stays inside the pool; and a node comes back to entries that are inside its new one. -/
def Clean (w : World) : LifeOp → Prop
  | .call owners op => SetInside owners space w op
  | .republish _ _ => True
  | .restart me pool _ => ∀ node k loc, node ≠ me → (w.cluster.dir node).get? k = some loc →
      loc.nodeId = me → loc.resident = true → InPool (freshPool pool) loc

/-- The locations that the local branch of `_fetch` copies from. -/
def localSources (owners : Owners) (reachable : String → Bool) (me : String) (now : Nat)
    (w : World) (queries : List (String × Nat)) : List DataLocation :=
  let keys := queries.map Prod.fst
  let locs := (resolveNonResident owners reachable me w.cluster keys (fetchLocs owners me now w keys).1).1
  (queries.zip locs).filterMap fun q =>
    match q.2 with
    | none => none
    | some loc => if loc.resident ∧ loc.length = q.1.2 ∧ loc.nodeId = me then some loc else none

/-- Whatever a node fetches next, with whatever ring, what it copies by itself is in its pool. -/
def LocalReadsInside (w : World) : Prop :=
  ∀ owners reachable me now queries,
    ∀ loc ∈ localSources owners reachable me now w queries, InPool (w.cluster.hosts me).pool loc

end

section

variable {space : String → KeySpace} {cap ttl : Nat} {safeName : String → String}

lemma poolsInv_restart {w : World} (hi : ∀ n, Inv (w.cluster.hosts n).pool) (me : String)
    (pool : PoolConfig) (disk : Option DiskStore) (n : String) :
    Inv ((w.restart me pool disk).cluster.hosts n).pool := by
  show Inv (update w.cluster.hosts me _ n).pool
  by_cases hn : n = me
  · rw [hn, update_self]; exact inv_new _ _ _ _ _
  · rw [update_of_ne hn]; exact hi n

lemma poolsInv_lifeStep {w : World} (a : LifeOp) (hi : ∀ n, Inv (w.cluster.hosts n).pool) (n : String) :
    Inv ((lifeStep space cap ttl safeName w a).cluster.hosts n).pool := by
  cases a with
  | call owners op => exact (poolsKept_step hi op).inv n
  | republish owners me =>
    have hstay : StaysIn me (w.cluster.node me) (republishDirectory me owners (w.cluster.node me)) :=
      staysIn_republish (hi me)
    exact ((Reached.refl hi).setNode hstay).inv n
  | restart me pool disk => exact poolsInv_restart hi me pool disk n

lemma inside_restart_iff {w : World} (h : EntriesInside w.cluster) (me : String) (pool : PoolConfig)
    (disk : Option DiskStore) :
    EntriesInside (w.restart me pool disk).cluster ↔ Clean space w (.restart me pool disk) := by
  constructor
  · intro hin node k loc hnode hk hme hres
    have hentry := hin node k loc (by
      show (update w.cluster.dir me _ node).get? k = _
      rw [update_of_ne hnode]
      exact hk) hres
    rw [hme] at hentry
    have hhost : (w.restart me pool disk).cluster.hosts me
        = ⟨freshPool pool, disk, OrderedDict.empty⟩ := update_self _ _ _
    rw [hhost] at hentry
    exact hentry
  · intro hclean node k loc hk hres
    have hk' : (update w.cluster.dir me OrderedDict.empty node).get? k = some loc := hk
    by_cases hnode : node = me
    · rw [hnode, update_self] at hk'; cases hk'
    · rw [update_of_ne hnode] at hk'
      show InPool (update w.cluster.hosts me _ loc.nodeId).pool loc
      by_cases hme : loc.nodeId = me
      · rw [hme, update_self]; exact hclean node k loc hnode hk' hme hres
      · rw [update_of_ne hme]; exact h node k loc hk' hres

/-- **ONE STEP** leaves the entries inside exactly when it is clean. -/
lemma inside_lifeStep_iff {w : World} (a : LifeOp) (hi : ∀ n, Inv (w.cluster.hosts n).pool)
    (h : EntriesInside w.cluster) :
    EntriesInside (lifeStep space cap ttl safeName w a).cluster ↔ Clean space w a := by
  cases a with
  | call owners op => exact inside_step_iff hi h op
  | republish owners me =>
    refine iff_of_true ?_ trivial
    exact ((Reached.refl hi).setNode (staysIn_republish (hi me))).inside h
  | restart me pool disk => exact inside_restart_iff h me pool disk

/-! ## What a node remembers of itself -/

/-- The locations of the node itself that are primed are in its pool. -/
def PrimedInside (w : World) : Prop :=
  ∀ n, Primed (fun loc => loc.nodeId = n → InPool (w.cluster.hosts n).pool loc) (w.readers n).primed

lemma primedInside_lifeStep {w : World} (a : LifeOp) (hi : ∀ n, Inv (w.cluster.hosts n).pool)
    (h : EntriesInside w.cluster) (hp : PrimedInside w) :
    PrimedInside (lifeStep space cap ttl safeName w a) := by
  cases a with
  | call owners op =>
    have hkept : PoolsKept w.cluster (step owners space cap ttl safeName w op).cluster :=
      poolsKept_step hi op
    have hreaders : ∀ n, Primed (fun loc => loc.resident = true → loc.nodeId = n →
        InPool (w.cluster.hosts n).pool loc) ((step owners space cap ttl safeName w op).readers
          n).primed := by
      refine readers_step ?_ (fun n k v hv => (hp n k v hv).imp_right fun hin _ => hin) op
      intro n k loc hview hres hn
      obtain ⟨node, -, hk⟩ := view_mem hview
      exact hn ▸ h node k loc hk hres
    intro n k v hv
    obtain ⟨hres, hin⟩ := hreaders n k v hv
    exact ⟨hres, fun hn => (hin hres hn).congr (hkept.region n)⟩
  | republish owners me =>
    have hstay : StaysIn me (w.cluster.node me) (republishDirectory me owners (w.cluster.node me)) :=
      staysIn_republish (hi me)
    have hkept := ((Reached.refl hi).setNode hstay).region
    intro n k v hv
    obtain ⟨hres, hin⟩ := hp n k v hv
    exact ⟨hres, fun hn => (hin hn).congr (hkept n)⟩
  | restart me pool disk =>
    intro n k v hv
    have hv' : (update w.readers me Reader.init n).primed.get? k = some v := hv
    by_cases hn : n = me
    · rw [hn, update_self] at hv'; cases hv'
    · rw [update_of_ne hn] at hv'
      obtain ⟨hres, hin⟩ := hp n k v hv'
      refine ⟨hres, fun hnode => ?_⟩
      show InPool (update w.cluster.hosts me _ n).pool v.1
      rw [update_of_ne hn]
      exact hin hnode

/-! ## What a fetch copies from -/

lemma mem_foldl_set {α β : Type} (index : β → Nat) (value : β → α) (ops : List β) {l : List α} {x : α}
    (h : x ∈ ops.foldl (fun l q => l.set (index q) (value q)) l) : x ∈ l ∨ ∃ q ∈ ops, value q = x := by
  induction ops generalizing l with
  | nil => exact .inl h
  | cons q ops ih =>
    rcases ih h with hset | ⟨r, hr, hx⟩
    · rcases mem_or_eq_of_mem_set hset with hold | hnew
      · exact .inl hold
      · exact .inr ⟨q, (.head _), hnew.symm⟩
    · exact .inr ⟨r, mem_cons_of_mem q hr, hx⟩

section

variable {owners : Owners} {reachable : String → Bool} {me : String}

/-- The node's own resident locations in a list are in its pool. -/
def OwnInside (c : Cluster) (me : String) (locs : List (Option DataLocation)) : Prop :=
  ∀ loc, some loc ∈ locs → loc.resident = true → loc.nodeId = me → InPool (c.hosts me).pool loc

/-- **RESOLVING** answers the node's own locations from its pool. -/
lemma resolve_ownInside {c : Cluster} (hi : ∀ n, Inv (c.hosts n).pool) (keys : List String)
    {locs : List (Option DataLocation)} (h : OwnInside c me locs) :
    OwnInside c me (resolveNonResident owners reachable me c keys locs).1 := by
  have hlocal : ∀ acc i, PoolsKept c acc.2 ∧ OwnInside c me acc.1 →
      PoolsKept c (ensureLocal owners me keys acc i).2
        ∧ OwnInside c me (ensureLocal owners me keys acc i).1 := by
    rintro ⟨l, d⟩ i ⟨hkept, hown⟩
    obtain ⟨hstay, hlocs⟩ := staysIn_ensureResident me owners (s := d.node me) (hkept.inv me)
      [keyAt keys i]
    refine ⟨hkept.setNode hstay.inv hstay.region, ?_⟩
    intro loc hloc hres hme
    rcases mem_or_eq_of_mem_set hloc with hold | hnew
    · exact hown loc hold hres hme
    · have hmem : some loc ∈ (ensureResident me owners (d.node me) [keyAt keys i]).locs := by
        cases hl : (ensureResident me owners (d.node me) [keyAt keys i]).locs with
        | nil => rw [hl] at hnew; cases hnew
        | cons x xs => rw [hl] at hnew; exact hnew ▸ (.head _)
      exact (hlocs loc hmem).2.congr (hkept.region me).symm
  have hremote : ∀ acc g, PoolsKept c acc.2 ∧ OwnInside c me acc.1 →
      PoolsKept c (promoteAt owners reachable keys acc g).2
        ∧ OwnInside c me (promoteAt owners reachable keys acc g).1 := by
    rintro ⟨l, d⟩ g ⟨hkept, hown⟩
    rw [promoteAt]
    split_ifs with hr
    · have hstay : StaysIn g.1 (d.node g.1) (dataPromote g.1 owners (d.node g.1)
          (g.2.map (keyAt keys))).owner := staysIn_dataPromote (hkept.inv g.1) _
      have hlocs := (staysIn_ensureResident g.1 owners (s := d.node g.1) (hkept.inv g.1)
        (g.2.map (keyAt keys))).2
      refine ⟨hkept.setNode hstay.inv hstay.region, ?_⟩
      intro loc hloc hres hme
      rcases mem_foldl_set Prod.fst Prod.snd _ hloc with hold | ⟨q, hq, hx⟩
      · exact hown loc hold hres hme
      · -- the owner answers locations of its own
        obtain ⟨howner, hin⟩ := hlocs loc (hx ▸ (of_mem_zip hq).2)
        obtain rfl := howner.symm.trans hme
        exact hin.congr (hkept.region g.1).symm
    · refine ⟨hkept, ?_⟩
      intro loc hloc hres hme
      rcases mem_foldl_set id (fun _ => none) g.2 hloc with hold | ⟨-, -, hx⟩
      · exact hown loc hold hres hme
      · cases hx
  have hstart : PoolsKept c (resolveLocal owners me c keys locs).2
      ∧ OwnInside c me (resolveLocal owners me c keys locs).1 := by
    refine foldlRecOn (motive := fun acc : List (Option DataLocation) × Cluster =>
      PoolsKept c acc.2 ∧ OwnInside c me acc.1) _ _ ⟨(Reached.refl hi).toPoolsKept, h⟩ ?_
    exact fun acc hacc i _ => hlocal acc i hacc
  have hend : PoolsKept c (resolveNonResident owners reachable me c keys locs).2
      ∧ OwnInside c me (resolveNonResident owners reachable me c keys locs).1 := by
    refine foldlRecOn (motive := fun acc : List (Option DataLocation) × Cluster =>
      PoolsKept c acc.2 ∧ OwnInside c me acc.1) _ _ hstart ?_
    exact fun acc hacc g _ => hremote acc g hacc
  exact hend.2

lemma mem_localSources {now : Nat} {w : World} {queries : List (String × Nat)} {loc : DataLocation}
    (h : loc ∈ localSources owners reachable me now w queries) :
    some loc ∈ (resolveNonResident owners reachable me w.cluster (queries.map Prod.fst)
        (fetchLocs owners me now w (queries.map Prod.fst)).1).1
      ∧ loc.resident = true ∧ loc.nodeId = me := by
  obtain ⟨⟨q, oloc⟩, hq, hloc⟩ := mem_filterMap.mp h
  cases oloc with
  | none => cases hloc
  | some l =>
    simp only at hloc
    split_ifs at hloc with hc
    cases hloc
    exact ⟨(of_mem_zip hq).2, hc.1, hc.2.2⟩

lemma localReads_of_inside {w : World} (hi : ∀ n, Inv (w.cluster.hosts n).pool)
    (h : EntriesInside w.cluster) (hp : PrimedInside w) : LocalReadsInside w := by
  intro owners reachable me now queries loc hloc
  obtain ⟨hmem, hres, hme⟩ := mem_localSources hloc
  refine resolve_ownInside hi _ ?_ loc hmem hres hme
  intro l hl hres hme
  obtain ⟨i, hi⟩ := mem_iff_getElem?.mp hl
  have hlt : i < (queries.map Prod.fst).length := by
    rw [← fetchLocs_length owners (hp me) now]
    exact (List.getElem?_eq_some_iff.mp hi).1
  rcases fetchLocs_cases owners (hp me) now hlt with ⟨l', hl', -, hin⟩ | hview
  · obtain rfl := Option.some.inj (Option.some.inj (hi.symm.trans hl'))
    exact hin hme
  · obtain ⟨node, -, hk⟩ := view_mem (Option.some.inj (hi.symm.trans hview)).symm
    exact hme ▸ h node _ l hk hres

lemma localSources_entry (reachable : String → Bool) {w : World} {node k : String} {loc : DataLocation}
    (hk : (w.cluster.dir node).get? k = some loc) (hres : loc.resident = true) :
    ∃ now, localSources (fun _ => [node]) reachable loc.nodeId now w [(k, loc.length)] = [loc] := by
  -- late enough for what is primed to have expired
  refine ⟨((w.readers loc.nodeId).primed.get? k).elim 0 Prod.snd, ?_⟩
  have hlocs : (fetchLocs (fun _ => [node]) loc.nodeId
      (((w.readers loc.nodeId).primed.get? k).elim 0 Prod.snd) w [k]).1 = [some loc] := by
    rw [fetchLocs, takePrimed]
    cases hp : (w.readers loc.nodeId).primed.get? k with
    | none => exact congrArg (fun x => [x]) hk
    | some v =>
      obtain ⟨l, exp⟩ := v
      simp only [Option.elim_some, gt_iff_lt, lt_self_iff_false, if_false]
      exact congrArg (fun x => [x]) hk
  have hnone : ∀ c : Cluster, resolveNonResident (fun _ => [node]) reachable loc.nodeId c [k] [some loc]
      = ([some loc], c) := by
    intro c
    have hlocal : localIdx loc.nodeId [some loc] = [] := by simp [localIdx, hres]
    have hremote : remoteByOwner loc.nodeId [some loc] = OrderedDict.empty := by
      simp [remoteByOwner, hres]
    rw [resolveNonResident, resolveLocal, hlocal, hremote]
    rfl
  rw [localSources]
  simp only [map_cons, map_nil, hlocs, hnone, zip_cons_cons, zip_nil_right,
    filterMap_cons, filterMap_nil]
  simp [hres]

lemma inside_of_localReads {w : World} (h : LocalReadsInside w) : EntriesInside w.cluster := by
  intro node k loc hk hres
  obtain ⟨now, hsources⟩ := localSources_entry (fun _ => true) hk hres
  exact h _ _ _ now _ loc (hsources ▸ mem_singleton_self loc)

end

end

/-! ## Sets of pages whose sizes agree -/

/-- The pages of a batch agree with `size`, and no page that the pool holds is longer than there. -/
def SizesAgree (size : String → Nat) (s : PageOwner) (pages : List (String × Bytes)) : Prop :=
  ∀ q ∈ pages, q.2.length = size q.1 ∧ ∀ x, s.pool.entries.get? q.1 = some x → size q.1 ≤ x.2

section

variable (me : String) (owners : Owners) {s : PageOwner}

lemma publishLoop_sizes (size : String → Nat) (ps : List ((String × Bytes) × Admission))
    (entries : Locations)
    (hps : ∀ q ∈ ps, q.1.2.length = size q.1.1)
    (hpool : ∀ k, (k ∈ entries.keys ∨ ∃ q ∈ ps, q.1.1 = k) →
      ∀ x, s.pool.entries.get? k = some x → size k ≤ x.2) :
    ∀ k ∈ (publishLoop me owners ps s entries).entries.keys, ∀ x,
      (publishLoop me owners ps s entries).owner.pool.entries.get? k = some x → size k ≤ x.2 := by
  induction ps generalizing s entries with
  | nil => exact fun k hk => hpool k (.inl hk)
  | cons q ps ih =>
    obtain ⟨⟨key, data⟩, adm⟩ := q
    obtain ⟨hdata, hrest⟩ := forall_mem_cons.mp hps
    have hskip : ∀ k, (k ∈ entries.keys ∨ ∃ q ∈ ps, q.1.1 = k) →
        ∀ x, s.pool.entries.get? k = some x → size k ≤ x.2 := by
      intro k hk
      refine hpool k (hk.imp_right ?_)
      rintro ⟨q, hq, hkey⟩
      exact ⟨q, .tail _ hq, hkey⟩
    have hplaced : ∀ k, (k = key ∨ k ∈ entries.keys ∨ ∃ q ∈ ps, q.1.1 = k) → ∀ x,
        (publishPage me owners s key data).owner.pool.entries.get? k = some x → size k ≤ x.2 := by
      intro k hk x hx
      rw [publishPage_pool] at hx
      rcases place_get?_from hx with hold | ⟨rfl, -, hlen, -⟩
      · rcases hk with rfl | hk
        · exact hpool k (.inr ⟨_, (.head _), rfl⟩) x hold
        · exact hskip k hk x hold
      · exact (hlen.trans hdata).symm.le
    cases adm with
    | refused | existing => exact ih entries hrest hskip
    | fresh =>
      rw [publishLoop]
      cases (publishPage me owners s key data).addr with
      | none => exact ih entries hrest fun k hk => hplaced k (.inr hk)
      | some addr =>
        refine ih _ hrest ?_
        intro k hk
        refine hplaced k ?_
        rw [OrderedDict.mem_keys_set] at hk
        exact hk.elim (fun h => h.elim .inl fun h => .inr (.inl h)) fun h => .inr (.inr h)

variable {me owners}

lemma setInside_of_sizes {space : String → KeySpace} {w : World} {keys : List String}
    {pages : List Bytes} (hi : ∀ n, Inv (w.cluster.hosts n).pool) (size : String → Nat)
    (hsizes : SizesAgree size (w.cluster.node me) ((componentKeys (space me) keys).1.zip pages)) :
    SetInside owners space w (.set me keys pages) := by
  intro _ k loc _ hk hres
  generalize hbatch : (componentKeys (space me) keys).1.zip pages = batch at hsizes hk
  rw [publishP2p_eq] at hk
  generalize hps : batch.map _ = ps at hk
  have hpages : ∀ q ∈ ps, q.1 ∈ batch := by
    intro q hq
    rw [← hps] at hq
    obtain ⟨page, hpage, rfl⟩ := mem_map.mp hq
    exact hpage
  have hloop := publishLoop_sizes me owners (s := w.cluster.node me) size ps OrderedDict.empty (fun q hq => (hsizes q.1 (hpages q hq)).1) (by
      rintro k (hnil | ⟨q, hq, rfl⟩)
      · cases hnil
      · exact (hsizes q.1 (hpages q hq)).2)
  have hsteps : OwnerSteps me owners (fun _ _ => True) (fun _ => False) (w.cluster.node me)
      (publishLoop me owners ps (w.cluster.node me) OrderedDict.empty).owner :=
    publishLoop_steps ps (fun _ _ _ => trivial) _ OrderedDict.empty
  have hstay := staysIn_ownerSteps (hi me) hsteps
  obtain ⟨old, hold, rfl⟩ := reconcile_entries hk
  obtain ⟨-, -, -, q, hq, -, rfl, hlen⟩ :=
    (publishLoop_entries me owners ps _ OrderedDict.empty hold).resolve_left nofun
  rw [settle] at hres ⊢
  cases hx : (publishLoop me owners ps (w.cluster.node me) OrderedDict.empty).owner.pool.entries.get?
      q.1.1 with
  | none => rw [hx] at hres; cases hres
  | some x =>
    have hle : old.length ≤ x.2 := by
      rw [hlen, (hsizes q.1 (hpages q hq)).1]
      exact hloop _ (OrderedDict.mem_keys.mpr ⟨old, hold⟩) x hx
    refine InPool.congr ?_ hstay.region.symm
    exact inPool_of_entry hstay.inv hx rfl hle

end

/-! ## The main result -/

/-- **LOCAL READS STAY IN THE POOL EXACTLY WHEN NOTHING OUTSIDE GETS INTO THE DIRECTORY.**  For all
    nodes and all runs of calls, republishes and restarts, each with any ring: whatever is fetched
    after any part of the run is copied from inside the reader's own pool if and only if every set
    puts entries inside the pool only, and every node that comes back finds only such entries of
    itself, in the shards of the others, as are inside its new pool.  A set meets this when
    the sizes of its pages agree with each other and with the pool. -/
theorem local_reads_inside_iff (space : String → KeySpace) (cap ttl : Nat) (safeName : String → String)
    (cfg : String → NodeConfig) :
    (∀ ops : List LifeOp,
        (∀ pre, pre <+: ops →
            LocalReadsInside (pre.foldl (lifeStep space cap ttl safeName) (World.init cfg)))
          ↔ Guarded (fun w a => some (lifeStep space cap ttl safeName w a)) (Clean space)
            (World.init cfg) ops)
      ∧ ∀ (ops : List LifeOp) (owners : Owners) (me : String) (keys : List String)
          (pages : List Bytes) (size : String → Nat),
        SizesAgree size ((ops.foldl (lifeStep space cap ttl safeName) (World.init cfg)).cluster.node me)
          ((componentKeys (space me) keys).1.zip pages) →
        Clean space (ops.foldl (lifeStep space cap ttl safeName) (World.init cfg))
          (.call owners (.set me keys pages)) := by
  have hinit : ∀ n, Inv ((World.init cfg).cluster.hosts n).pool := fun n => inv_new _ _ _ _ _
  have hempty : EntriesInside (World.init cfg).cluster := fun _ _ _ hk _ => nomatch hk
  constructor
  · intro ops
    have hiff : _ ↔ Guarded (fun s a => some (lifeStep space cap ttl safeName s a)) (Clean space)
        (World.init cfg) ops :=
      foldl_always_iff (I := fun w : World => ∀ n, Inv (w.cluster.hosts n).pool)
        (P := fun w => EntriesInside w.cluster) (fun w a hi => poolsInv_lifeStep a hi)
        (fun w a hi h => inside_lifeStep_iff a hi h) hinit hempty
    constructor
    · intro hreads
      exact hiff.mp fun pre hpre => inside_of_localReads (hreads pre hpre)
    · rintro hguard pre ⟨rest, rfl⟩
      have hall : (∀ n, Inv ((pre.foldl (lifeStep space cap ttl safeName)
            (World.init cfg)).cluster.hosts n).pool)
          ∧ EntriesInside (pre.foldl (lifeStep space cap ttl safeName) (World.init cfg)).cluster
          ∧ PrimedInside (pre.foldl (lifeStep space cap ttl safeName) (World.init cfg)) := by
        refine foldl_invariant (P := fun w : World => (∀ n, Inv (w.cluster.hosts n).pool)
          ∧ EntriesInside w.cluster ∧ PrimedInside w) ?_ ⟨hinit, hempty, fun _ _ _ hv => nomatch hv⟩
          (guarded_append hguard).1
        rintro w a - ⟨hi, hin, hp⟩ hclean
        exact ⟨poolsInv_lifeStep a hi, (inside_lifeStep_iff a hi hin).mpr hclean,
          primedInside_lifeStep a hi hin hp⟩
      exact localReads_of_inside hall.1 hall.2.1 hall.2.2
  · intro ops owners me keys pages size hsizes
    refine setInside_of_sizes ?_ size hsizes
    refine foldlRecOn (motive := fun w : World => ∀ n, Inv (w.cluster.hosts n).pool) _ _ hinit ?_
    exact fun w hi a _ => poolsInv_lifeStep a hi

/-- Nodes with two bytes at address 100. -/
def twoByteNodes (_ : String) : NodeConfig := ⟨⟨100, 2, 7, [], fun _ => 0⟩, none⟩

/-- Pages of one component. -/
def oneComponent (_ : String) : KeySpace := ⟨"", true, "r", ""⟩

/-- Node `n` sets a page and, after a change of the ring, puts its entry again. -/
theorem local_reads_inside_iff_republish :
    LocalReadsInside ([LifeOp.call (fun _ => ["m"]) (.set "n" ["k"] [[1]]),
      .republish (fun _ => ["n"]) "n"].foldl (lifeStep oneComponent 8 4 id) (World.init twoByteNodes)) := by
  obtain ⟨hiff, hset⟩ := local_reads_inside_iff oneComponent 8 4 id twoByteNodes
  refine (hiff [.call (fun _ => ["m"]) (.set "n" ["k"] [[1]]), .republish (fun _ => ["n"]) "n"]).mpr
    ⟨?_, fun w _ => ⟨trivial, fun _ _ => trivial⟩⟩ _ (prefix_refl _)
  refine hset [] (fun _ => ["m"]) "n" ["k"] [[1]] (fun _ => 1) ?_
  intro q hq
  obtain rfl := mem_singleton.mp hq
  exact ⟨rfl, nofun⟩

/-- Node `n` sets a page whose entry is on node `m`, and comes back with its pool elsewhere: the page
    is copied from address 100, the pool is at 1000.  And without any restart: a page is set twice,
    first with one byte, then with three, in a pool of two. -/
theorem wild_copy :
    ¬ LocalReadsInside ([LifeOp.call (fun _ => ["m"]) (.set "n" ["k"] [[1]]),
        .restart "n" ⟨1000, 2, 7, [], fun _ => 0⟩ none].foldl (lifeStep oneComponent 8 4 id)
          (World.init twoByteNodes))
      ∧ ¬ LocalReadsInside ([LifeOp.call (fun _ => ["m"]) (.set "n" ["k", "k"] [[1], [1, 2, 3]])].foldl
        (lifeStep oneComponent 8 4 id) (World.init twoByteNodes)) := by
  constructor
  · intro h
    have hsources : localSources (fun _ => ["m"]) (fun _ => true) "n" 0
        ([LifeOp.call (fun _ => ["m"]) (.set "n" ["k"] [[1]]),
          .restart "n" ⟨1000, 2, 7, [], fun _ => 0⟩ none].foldl (lifeStep oneComponent 8 4 id)
            (World.init twoByteNodes)) [("k_r_k", 1)] = [⟨"n", 100, 7, 1, true⟩] := by decide +kernel
    have hin := h _ _ _ _ _ _ (hsources ▸ mem_singleton_self _) 100 (by decide) (by decide)
    exact absurd hin.1 (by decide +kernel)
  · intro h
    have hsources : localSources (fun _ => ["m"]) (fun _ => true) "n" 0
        ([LifeOp.call (fun _ => ["m"]) (.set "n" ["k", "k"] [[1], [1, 2, 3]])].foldl
          (lifeStep oneComponent 8 4 id) (World.init twoByteNodes)) [("k_r_k", 3)]
        = [⟨"n", 100, 7, 3, true⟩] := by decide +kernel
    have hin := h _ _ _ _ _ _ (hsources ▸ mem_singleton_self _) 102 (by decide) (by decide)
    exact absurd hin.2 (by decide +kernel)

end PeerCacheCluster
