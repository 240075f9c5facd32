import PeerCache.DirectoryProofs
import PeerCache.HandledPagesProofs
import PeerCache.TransitionProofs

/-! # Peer-to-peer mode under concurrency — a location outlives its page

    A page's address is known in three places besides the pool that holds it: the
    directory, the cache that `batch_exists` primes for the next fetch, and the fetches in
    flight.  Eviction removes it from the directory, after the fact; the other two are
    never told, and a READ carries no validation. -/

namespace PeerCacheP2pRace

open PeerCachePool PeerCacheDirectory Transition List

/-! ## The system -/

/-- A step of `_resolve_non_resident`: look a page up in its owner's pool (`_ensure_resident`
    without a disk tier), or the owner's `data_promote` handler dropping the directory entries
    of the pages it did not find. -/
inductive ResolveOp where
  | lookUp (i : Nat) (owner : String)
  | dropMisses (idxs : List Nat)

/-- Where a call stands. -/
inductive Thread where
  | idle
  /-- `_publish_p2p`: pages still to publish, entries so far. -/
  | publishing (me : String) (todo : List String) (entries : Locations)
  /-- `_on_pool_evict` of the last publish. -/
  | evicting (me : String) (evicted todo : List String) (entries : Locations)
  /-- `_publish_p2p`: entries still to reconcile with the pool. -/
  | reconciling (me : String) (todo : List String) (entries : Locations)
  /-- `batch_exists`: locations found, not yet primed. -/
  | priming (me : String) (keys : List String) (locs : List (Option DataLocation))
  /-- `_fetch`: primed locations taken, the others not yet looked up. -/
  | looking (me : String) (queries : List (String × Nat)) (out : List (Option DataLocation))
  /-- `_fetch`: non-resident locations still to resolve. -/
  | resolving (me : String) (queries : List (String × Nat)) (locs : List (Option DataLocation))
      (work : List ResolveOp)
  /-- `_fetch`: pages still to copy or READ. -/
  | reading (items : List (String × DataLocation))

/-- A page reported `True` by a fetch, and its bytes. -/
structure Hit where
  key : String
  bytes : Bytes
deriving DecidableEq

/-- The nodes with their pools and primed locations, the directory, the calls in progress, and what
    the fetches have delivered. -/
structure World where
  pools : String → PublishedPool String
  primed : OrderedDict String (OrderedDict String (DataLocation × Nat))
  dir : Shards
  threads : OrderedDict Nat Thread
  hits : List Hit

/-- Where a thread stands; one that has done nothing is idle. -/
def World.thread (w : World) (tid : Nat) : Thread := (w.threads.get? tid).getD .idle

/-- The locations primed at a node. -/
def World.primedAt (w : World) (node : String) : OrderedDict String (DataLocation × Nat) :=
  (w.primed.get? node).getD OrderedDict.empty

/-- How a node's pool is created. -/
structure PoolConfig where
  base : Nat
  capacity : Nat
  rkey : Nat
  rkeys : List Nat
  buf : Mem

/-- Fresh pools, nothing published. -/
def World.init (cfg : String → PoolConfig) : World where
  pools node :=
    new (cfg node).base (cfg node).capacity (cfg node).rkey (cfg node).rkeys (cfg node).buf
  primed := OrderedDict.empty
  dir _ := OrderedDict.empty
  threads := OrderedDict.empty
  hits := []

def World.setThread (w : World) (tid : Nat) (t : Thread) : World :=
  { w with threads := w.threads.set tid t }

def World.setPool (w : World) (node : String) (p : PublishedPool String) : World :=
  { w with pools := Function.update w.pools node p }

def World.setPrimed (w : World) (node : String)
    (primed : OrderedDict String (DataLocation × Nat)) : World :=
  { w with primed := w.primed.set node primed }

def World.setDir (w : World) (dir : Shards) : World := { w with dir := dir }

def World.addHit (w : World) (x : Hit) : World := { w with hits := w.hits ++ [x] }

/-- What a thread does next.  `now` is the clock where the source reads it. -/
inductive Act where
  | set (me : String) (keys : List String)
  | publish
  | evict
  | reconcileAll
  | reconcile
  | put
  | exists (me : String) (keys : List String) (mult : Nat)
  | prime (now : Nat)
  | get (me : String) (now : Nat) (queries : List (String × Nat))
  | lookup
  | resolve
  | ready
  | read (i : Nat)
  | done

/-- `_hit_prefix` -/
def hitPrefix {α : Type} (locs : List (Option α)) (mult : Nat) : Nat :=
  match locs.findIdx? Option.isNone with
  | none => locs.length / mult
  | some i => i / mult

/-- `_prime` -/
def prime (cap ttl now : Nat) (primed : OrderedDict String (DataLocation × Nat))
    (keys : List String) (locs : List (Option DataLocation)) :
    OrderedDict String (DataLocation × Nat) :=
  let primed : OrderedDict String (DataLocation × Nat) :=
    if primed.items.length > cap then
      primed.filterKeys (fun k => ((primed.get? k).map (fun v => decide (v.2 > now))).getD false)
    else primed
  (keys.zip locs).foldl (fun primed (k, loc) =>
    match loc with
    | none => primed
    | some loc => if loc.resident then primed.set k (loc, now + ttl) else primed) primed

/-- The primed half of `_take_primed`: each key's primed location is consumed, and used unless it
    has expired. -/
def takePrimed (now : Nat) (primed : OrderedDict String (DataLocation × Nat)) :
    List String → List (Option DataLocation) × OrderedDict String (DataLocation × Nat)
  | [] => ([], primed)
  | k :: keys =>
      let loc := match primed.get? k with
        | none => none
        | some (loc, exp) => if exp > now then some loc else none
      let (out, primed') := takePrimed now (primed.erase k) keys
      (loc :: out, primed')

/-- The directory half of `_take_primed`. -/
def fillMisses (owners : Owners) (dir : Shards) (keys : List String)
    (out : List (Option DataLocation)) : List (Option DataLocation) :=
  (keys.zip out).map fun (k, loc) => loc.or (view owners dir k)

/-- The owners of the remote non-resident locations, each with its indices in order
    (`remote_by_owner`). -/
def remoteByOwner (me : String) (locs : List (Option DataLocation)) :
    OrderedDict String (List Nat) :=
  locs.zipIdx.foldl (fun groups (loc, i) =>
    match loc with
    | none => groups
    | some loc =>
        if loc.resident ∨ loc.nodeId = me then groups
        else groups.set loc.nodeId ((groups.get? loc.nodeId).getD [] ++ [i]))
    OrderedDict.empty

/-- The work of `_resolve_non_resident`: the node's own pages first, then owner by owner. -/
def resolveWork (me : String) (locs : List (Option DataLocation)) : List ResolveOp :=
  let local_ := locs.zipIdx.filterMap fun (loc, i) =>
    match loc with
    | none => none
    | some loc => if ¬ loc.resident ∧ loc.nodeId = me then some (ResolveOp.lookUp i me) else none
  local_ ++ (remoteByOwner me locs).items.flatMap fun (owner, idxs) =>
    idxs.map (fun i => ResolveOp.lookUp i owner) ++ [ResolveOp.dropMisses idxs]

/-- The pages `_fetch` copies or READs: resident, and of the size asked for. -/
def readable (queries : List (String × Nat)) (locs : List (Option DataLocation)) :
    List (String × DataLocation) :=
  (queries.zip locs).filterMap fun ((key, size), loc) =>
    match loc with
    | none => none
    | some loc => if loc.resident ∧ loc.length = size then some (key, loc) else none

/-- An entry collected by a publish is brought in line with the pool. -/
def reconcileKey (me : String) (pool : PublishedPool String)
    (entries : Locations) (key : String) : Locations :=
  match (addressOf pool key).1, entries.get? key with
  | none, some old => entries.set key (nonResident me old.length)
  | some (addr, _), some old => entries.set key { old with remoteAddr := addr }
  | _, none => entries

section

variable (owners : Owners) (content : String → Bytes) (cap ttl : Nat)

/-- One resolve step. -/
def resolveStep (w : World) (queries : List (String × Nat)) (locs : List (Option DataLocation)) :
    ResolveOp → World × List (Option DataLocation)
  | .lookUp i owner =>
      let (al, pool) := addressOf (w.pools owner) ((queries[i]?.map Prod.fst).getD "")
      (w.setPool owner pool,
        locs.set i (al.map fun (addr, len) => residentLocation owner pool addr len))
  | .dropMisses idxs =>
      let misses := idxs.filterMap fun i =>
        if (locs[i]?).getD none = none then queries[i]?.map Prod.fst else none
      (w.setDir (delete owners w.dir misses), locs)

/-- One action of one thread; `none` when it is not enabled. -/
def step (w : World) (a : Nat × Act) : Option World :=
  let tid := a.1
  match w.thread tid, a.2 with
  | .idle, .set me keys =>
      -- `existing` is read once, before the first publish
      let todo := ((keys.zip (existsKeys owners w.dir keys)).filter (fun p => !p.2)).map Prod.fst
      some (w.setThread tid (.publishing me todo OrderedDict.empty))
  | .publishing me (key :: todo) entries, .publish =>
      let r := publish (w.pools me) key (content key)
      let entries := match r.addr with
        | none => entries
        | some addr => entries.set key (residentLocation me r.pool addr (content key).length)
      some ((w.setPool me r.pool).setThread tid
        (if r.evicted = [] then .publishing me todo entries
          else .evicting me r.evicted todo entries))
  | .evicting me evicted todo entries, .evict =>
      some ((w.setDir (delete owners w.dir evicted)).setThread tid (.publishing me todo entries))
  | .publishing me [] entries, .reconcileAll =>
      some (w.setThread tid (.reconciling me entries.keys entries))
  | .reconciling me (key :: todo) entries, .reconcile =>
      some ((w.setPool me (addressOf (w.pools me) key).2).setThread tid
        (.reconciling me todo (reconcileKey me (w.pools me) entries key)))
  | .reconciling _ [] entries, .put =>
      some ((w.setDir (put owners w.dir entries)).setThread tid .idle)
  | .idle, .exists me keys mult =>
      let locs := get owners w.dir keys
      let hit := hitPrefix locs mult * mult
      some (w.setThread tid (.priming me (keys.take hit) (locs.take hit)))
  | .priming me keys locs, .prime now =>
      some ((w.setPrimed me (prime cap ttl now (w.primedAt me) keys locs)).setThread tid .idle)
  | .idle, .get me now queries =>
      let (out, primed) := takePrimed now (w.primedAt me) (queries.map Prod.fst)
      some ((w.setPrimed me primed).setThread tid (.looking me queries out))
  | .looking me queries out, .lookup =>
      let locs := fillMisses owners w.dir (queries.map Prod.fst) out
      some (w.setThread tid (.resolving me queries locs (resolveWork me locs)))
  | .resolving me queries locs (op :: work), .resolve =>
      let (w, locs) := resolveStep owners w queries locs op
      some (w.setThread tid (.resolving me queries locs work))
  | .resolving _ queries locs [], .ready =>
      some (w.setThread tid (.reading (readable queries locs)))
  | .reading items, .read i =>
      match items[i]? with
      | none => none
      | some (key, loc) =>
          let bytes := readLocation (w.pools loc.nodeId) loc
          some ((w.addHit ⟨key, bytes⟩).setThread tid (.reading (items.eraseIdx i)))
  | .reading _, .done => some (w.setThread tid .idle)
  | _, _ => none

end

/-! ## The condition -/

/-- The locations in a list of answers. -/
def found (keys : List String) (locs : List (Option DataLocation)) : List (String × DataLocation) :=
  (keys.zip locs).filterMap fun q => q.2.map fun loc => (q.1, loc)

/-- The locations that a call goes on to use as they are. -/
def Thread.locations : Thread → List (String × DataLocation)
  | .idle | .publishing .. | .evicting .. => []
  | .reconciling _ todo entries => entries.items.filter (fun e => e.1 ∉ todo)
  | .priming _ keys locs => found keys locs
  | .looking _ queries locs | .resolving _ queries locs _ => found (queries.map Prod.fst) locs
  | .reading items => items

/-- The pages a call has evicted and not yet deleted from the directory. -/
def Thread.evicted : Thread → List String
  | .evicting _ evicted _ _ => evicted
  | _ => []

/-- The locations held outside the directory: by calls, and by the primed caches. -/
def World.locations (w : World) : List (String × DataLocation) :=
  w.threads.items.flatMap (fun t => t.2.locations)
    ++ w.primed.items.flatMap (fun n => n.2.items.map fun e => (e.1, e.2.1))

/-- The page has been evicted, and the directory not yet told. -/
def World.Evicting (w : World) (k : String) : Prop := ∃ t ∈ w.threads.items, k ∈ t.2.evicted

instance (w : World) (k : String) : Decidable (w.Evicting k) :=
  inferInstanceAs (Decidable (∃ t ∈ w.threads.items, k ∈ t.2.evicted))

/-- **NO LOCATION IS MADE STALE** by the step.  A publish evicts no page of which a call or a primed
    cache has a location at this node; and the directory is not asked for a page that has been
    evicted and is still in it. -/
def Keeps (content : String → Bytes) (w : World) (a : Nat × Act) : Prop :=
  match w.thread a.1, a.2 with
  | .publishing me (key :: _) _, .publish =>
      key ∈ (w.pools me).entries.keys ∨ ∀ k ∈ victims (w.pools me) (content key).length,
        ∀ x ∈ w.locations, x.1 = k → x.2.resident = true → x.2.nodeId ≠ me
  | .idle, .exists _ keys _ => ∀ k ∈ keys, ¬ w.Evicting k
  | .looking _ queries out, .lookup =>
      ∀ q ∈ (queries.map Prod.fst).zip out, q.2 = none → ¬ w.Evicting q.1
  | _, _ => True

instance (content : String → Bytes) (w : World) (a : Nat × Act) :
    Decidable (Keeps content w a) := by
  unfold Keeps
  split <;> infer_instance

/-! ## Primed locations -/

section primed

variable {primed : OrderedDict String (DataLocation × Nat)} {P : String → DataLocation → Prop}
  {keys : List String} {locs : List (Option DataLocation)}

/-- The primed locations are resident, and `P` holds of each with its key. -/
def Primed (P : String → DataLocation → Prop) (primed : OrderedDict String (DataLocation × Nat)) :
    Prop :=
  ∀ k v, primed.get? k = some v → v.1.resident = true ∧ P k v.1

lemma primed_prime (h : Primed P primed) (cap ttl now : Nat)
    (hlocs : ∀ k loc, (k, some loc) ∈ keys.zip locs → P k loc) :
    Primed P (prime cap ttl now primed keys locs) := by
  rw [prime]
  refine foldlRecOn (motive := Primed P) _ _ ?_ ?_
  · split_ifs with hcap
    · intro k v hk
      rw [OrderedDict.get?_filterKeys] at hk
      split_ifs at hk
      exact h k v hk
    · exact h
  · rintro acc hacc ⟨j, oloc⟩ hmem
    cases oloc with
    | none => exact hacc
    | some loc =>
      simp only
      split_ifs with hr
      · intro k v hk
        rw [OrderedDict.get?_set] at hk
        by_cases hkj : k = j
        · subst hkj
          rw [if_pos rfl] at hk
          rw [← Option.some.inj hk]
          exact ⟨hr, hlocs k loc hmem⟩
        · rw [if_neg hkj] at hk; exact hacc k v hk
      · exact hacc

lemma takePrimed_spec (h : Primed P primed) (now : Nat) (keys : List String) :
    (takePrimed now primed keys).1.length = keys.length
      ∧ (∀ k loc, (k, some loc) ∈ keys.zip (takePrimed now primed keys).1 →
        loc.resident = true ∧ P k loc)
      ∧ Primed P (takePrimed now primed keys).2 := by
  induction keys generalizing primed with
  | nil => exact ⟨rfl, fun _ _ hl => absurd hl not_mem_nil, h⟩
  | cons k keys ih =>
    have herase : Primed P (primed.erase k) := by
      intro j v hj
      rw [OrderedDict.get?_erase] at hj
      split_ifs at hj
      exact h j v hj
    obtain ⟨hlen, htaken, hrest⟩ := ih herase
    refine ⟨congrArg (· + 1) hlen, ?_, hrest⟩
    intro j loc hloc
    rcases mem_cons.mp hloc with hloc | hloc
    · obtain ⟨rfl, hloc⟩ := Prod.mk.inj hloc
      cases hk : primed.get? j with
      | none => rw [hk] at hloc; cases hloc
      | some v =>
        obtain ⟨l, exp⟩ := v
        rw [hk] at hloc
        simp only at hloc
        split_ifs at hloc
        cases hloc
        exact h j _ hk
    · exact htaken j loc hloc

end primed

/-! ## The invariant -/

variable {owners : Owners} {content : String → Bytes} {cap ttl : Nat}
  {pools : String → PublishedPool String} {w w' : World} {tid : Nat} {t : Thread} {k me : String}
  {loc : DataLocation} {keys : List String} {locs : List (Option DataLocation)}
  {entries : Locations}

/-- A location that can be read: if it is resident, its owner's pool has the page there. -/
def Usable (pools : String → PublishedPool String) (k : String) (loc : DataLocation) : Prop :=
  loc.resident = true → Current (pools loc.nodeId) k loc

/-- The entries that a publish collects are of its node, and as long as the contents. -/
def Collected (content : String → Bytes) (me : String)
    (entries : Locations) : Prop :=
  ∀ k loc, entries.get? k = some loc → loc.nodeId = me ∧ loc.length = (content k).length

/-- The entries a publish has collected so far. -/
def Thread.collects : Thread → Option (String × Locations)
  | .publishing me _ entries | .evicting me _ _ entries | .reconciling me _ entries =>
      some (me, entries)
  | _ => none

/-- What is known of a call. -/
structure ThreadOk (content : String → Bytes) (pools : String → PublishedPool String)
    (t : Thread) : Prop where
  usable : ∀ x ∈ t.locations, Usable pools x.1 x.2
  collected : ∀ me entries, t.collects = some (me, entries) → Collected content me entries
  resident : ∀ items, t = .reading items → ∀ x ∈ items, x.2.resident = true

/-- **THE INVARIANT**: pools hold each key's own bytes, every location held outside the directory
    can be read, and so can every entry of the directory but those about to be deleted. -/
structure RaceInv (owners : Owners) (content : String → Bytes) (w : World) :
    Prop where
  pool : ∀ node, Inv (w.pools node) ∧ HoldsAll content (w.pools node)
  thread : ∀ tid, ThreadOk content w.pools (w.thread tid)
  primed : ∀ node, Primed (Usable w.pools) (w.primedAt node)
  dir : ∀ k loc, view owners w.dir k = some loc → Usable w.pools k loc ∨ w.Evicting k
  hits : ∀ x ∈ w.hits, x.bytes = content x.key

lemma threadOk_idle : ThreadOk content pools .idle :=
  ⟨forall_mem_nil _, by rintro _ _ ⟨⟩, by rintro _ ⟨⟩⟩

/-- A call that has collected entries. -/
lemma threadOk_of_collected (hu : ∀ x ∈ t.locations, Usable pools x.1 x.2)
    (hc : t.collects = some (me, entries)) (hcol : Collected content me entries) :
    ThreadOk content pools t := by
  refine ⟨hu, fun _ _ heq => ?_, ?_⟩
  · cases hc.symm.trans heq
    exact hcol
  · rintro _ rfl
    cases hc

/-- A call that has looked up locations. -/
lemma threadOk_of_usable (hu : ∀ x ∈ t.locations, Usable pools x.1 x.2) (hc : t.collects = none)
    (hr : ∀ items, t = .reading items → ∀ x ∈ items, x.2.resident = true) :
    ThreadOk content pools t :=
  ⟨hu, fun _ _ heq => (by cases hc.symm.trans heq), hr⟩

lemma raceInv_init (cfg : String → PoolConfig) : RaceInv owners content (World.init cfg) where
  pool _ := ⟨inv_new _ _ _ _ _, holdsAll_new _ _ _ _ _⟩
  thread _ := threadOk_idle
  primed _ := by rintro _ _ ⟨⟩
  dir k loc h := by
    obtain ⟨_, -, hnode⟩ := view_mem h
    cases hnode
  hits := forall_mem_nil _

/-! ### Locations -/

lemma mem_found : (k, loc) ∈ found keys locs ↔ (k, some loc) ∈ keys.zip locs := by
  rw [found, mem_filterMap]
  constructor
  · rintro ⟨⟨j, l⟩, hq, hl⟩
    obtain ⟨l, rfl, heq⟩ := Option.map_eq_some_iff.mp hl
    cases heq
    exact hq
  · exact fun h => ⟨_, h, rfl⟩

lemma mem_found_iff : (k, loc) ∈ found keys locs
    ↔ ∃ i : Nat, keys[i]? = some k ∧ locs[i]? = some (some loc) := by
  rw [mem_found, mem_iff_getElem?]
  exact exists_congr fun i => getElem?_zip_eq_some

lemma thread_mem (tid : Nat) (h : w.thread tid ≠ .idle) : (tid, w.thread tid) ∈ w.threads.items := by
  rw [World.thread] at h ⊢
  cases ht : w.threads.get? tid with
  | none => rw [ht] at h; exact absurd rfl h
  | some t => exact OrderedDict.get?_eq_some.mp ht

lemma mem_locations_of_thread {x : String × DataLocation} (h : x ∈ (w.thread tid).locations) :
    x ∈ w.locations := by
  refine mem_append_left _ (mem_flatMap.mpr ⟨_, thread_mem tid ?_, h⟩)
  intro hidle
  rw [hidle] at h
  cases h

lemma mem_locations_of_primed {node : String} {v : DataLocation × Nat}
    (h : (w.primedAt node).get? k = some v) : (k, v.1) ∈ w.locations := by
  rw [World.primedAt] at h
  cases hn : w.primed.get? node with
  | none => rw [hn] at h; cases h
  | some primed =>
    rw [hn] at h
    exact mem_append_right _ (mem_flatMap.mpr ⟨_, OrderedDict.get?_eq_some.mp hn,
      mem_map.mpr ⟨_, OrderedDict.get?_eq_some.mp h, rfl⟩⟩)

lemma thread_setThread (w : World) (tid : Nat) (t : Thread) (i : Nat) :
    (w.setThread tid t).thread i = if i = tid then t else w.thread i := by
  show ((w.threads.set tid t).get? i).getD .idle = _
  rw [OrderedDict.get?_set]
  split_ifs
  · rfl
  · rfl

lemma evicting_iff : w.Evicting k ↔ ∃ tid, k ∈ (w.thread tid).evicted := by
  constructor
  · rintro ⟨⟨tid, t⟩, ht, hk⟩
    refine ⟨tid, ?_⟩
    rw [World.thread, OrderedDict.get?_eq_some.mpr ht]
    exact hk
  · rintro ⟨tid, hk⟩
    refine ⟨_, thread_mem tid ?_, hk⟩
    intro hidle
    rw [hidle] at hk
    cases hk

/-! ### What a step changes -/

/-- A call moves on; what it had evicted is out of the directory. -/
lemma RaceInv.setThread (h : RaceInv owners content w) (ht : ThreadOk content w.pools t)
    (hev : ∀ k ∈ (w.thread tid).evicted, view owners w.dir k = none) :
    RaceInv owners content (w.setThread tid t) where
  pool := h.pool
  thread i := by
    rw [thread_setThread]
    split_ifs
    · exact ht
    · exact h.thread i
  primed := h.primed
  dir k loc hk := by
    refine (h.dir k loc hk).imp_right ?_
    intro he
    obtain ⟨i, hi⟩ := evicting_iff.mp he
    refine evicting_iff.mpr ⟨i, ?_⟩
    rw [thread_setThread, if_neg]
    · exact hi
    · rintro rfl
      cases (hev k hi).symm.trans hk
  hits := h.hits

lemma RaceInv.setPrimed (h : RaceInv owners content w) {node : String}
    {primed : OrderedDict String (DataLocation × Nat)} (hp : Primed (Usable w.pools) primed) :
    RaceInv owners content (w.setPrimed node primed) := by
  refine { h with primed := fun n => ?_ }
  show Primed (Usable w.pools) (((w.primed.set node primed).get? n).getD OrderedDict.empty)
  rw [OrderedDict.get?_set]
  split_ifs
  · exact hp
  · exact h.primed n

/-- A pool changes; the locations that were usable still are. -/
lemma RaceInv.setPool (h : RaceInv owners content w) (node : String) {p : PublishedPool String}
    (hi : Inv p) (hc : HoldsAll content p)
    (hkeep : ∀ k loc, (k, loc) ∈ w.locations → Usable w.pools k loc →
      Usable (Function.update w.pools node p) k loc)
    (hdir : ∀ k loc, view owners w.dir k = some loc → Usable w.pools k loc →
      Usable (Function.update w.pools node p) k loc ∨ w.Evicting k) :
    RaceInv owners content (w.setPool node p) where
  pool n := by
    show Inv (Function.update w.pools node p n) ∧ HoldsAll content (Function.update w.pools node p n)
    by_cases hn : n = node
    · subst hn; rw [Function.update_self]; exact ⟨hi, hc⟩
    · rw [Function.update_of_ne hn]; exact h.pool n
  thread i := ⟨fun x hx => hkeep x.1 x.2 (mem_locations_of_thread hx) ((h.thread i).usable x hx),
    (h.thread i).collected, (h.thread i).resident⟩
  primed n k v hv := by
    obtain ⟨hr, hu⟩ := h.primed n k v hv
    exact ⟨hr, hkeep k v.1 (mem_locations_of_primed hv) hu⟩
  dir k loc hk := (h.dir k loc hk).elim (hdir k loc hk) .inr
  hits := h.hits

lemma usable_place {key : String} {length : Nat} {copy : Nat → Mem → Mem}
    (h : Usable pools k loc) (hstay : loc.resident = true → loc.nodeId = me →
      k ∉ (place (pools me) key length copy).evicted) :
    Usable (Function.update pools me (place (pools me) key length copy).pool) k loc := by
  intro hr
  obtain ⟨e, he, haddr, hlen⟩ := h hr
  by_cases hn : loc.nodeId = me
  · rw [hn] at he haddr
    rw [hn, Function.update_self]
    refine ⟨e, place_get?_of_not_evicted he (hstay hr hn), haddr.trans ?_, hlen⟩
    exact congrArg (· + e.1) (place_region (pools me) key length copy).base.symm
  · rw [Function.update_of_ne hn]
    exact ⟨e, he, haddr, hlen⟩

lemma usable_touch (key : String) (h : Usable pools k loc) :
    Usable (Function.update pools me (addressOf (pools me) key).2) k loc := by
  intro hr
  obtain ⟨e, he, haddr, hlen⟩ := h hr
  by_cases hn : loc.nodeId = me
  · rw [hn] at he haddr
    rw [hn, Function.update_self]
    refine ⟨e, (addressOf_get? (pools me) key k).trans he, haddr.trans ?_, hlen⟩
    exact congrArg (· + e.1) (addressOf_region (pools me) key).base.symm
  · rw [Function.update_of_ne hn]
    exact ⟨e, he, haddr, hlen⟩

lemma RaceInv.touch (h : RaceInv owners content w) (node key : String) :
    RaceInv owners content (w.setPool node (addressOf (w.pools node) key).2) :=
  h.setPool node (inv_addressOf (h.pool node).1 key)
    ((effect_addressOf (h.pool node).1 key).holdsAll (h.pool node).2)
    (fun _ _ _ hu => usable_touch key hu) (fun _ _ _ hu => .inl (usable_touch key hu))

lemma RaceInv.delete (h : RaceInv owners content w) (keys : List String) :
    RaceInv owners content (w.setDir (delete owners w.dir keys)) := by
  refine { h with dir := fun k loc hk => ?_ }
  have hview : view owners (PeerCacheDirectory.delete owners w.dir keys) k = some loc := hk
  rw [view_delete] at hview
  split_ifs at hview
  exact h.dir k loc hview

/-! ### One step -/

/-- **PUBLISH** under the condition: the pages it evicts have no location but the directory's. -/
lemma publish_raceInv {key : String} {todo : List String}
    {entries' : Locations} (h : RaceInv owners content w)
    (ht : w.thread tid = .publishing me (key :: todo) entries)
    (hok : key ∈ (w.pools me).entries.keys ∨ ∀ k ∈ victims (w.pools me) (content key).length,
      ∀ x ∈ w.locations, x.1 = k → x.2.resident = true → x.2.nodeId ≠ me)
    (hcol : Collected content me entries')
    (hquiet : t.locations = [] ∧ t.collects = some (me, entries'))
    (hev : t.evicted = (publish (w.pools me) key (content key)).evicted) :
    RaceInv owners content
      ((w.setPool me (publish (w.pools me) key (content key)).pool).setThread tid t) := by
  have hnow : ∀ k ∈ (w.thread tid).evicted, view owners w.dir k = none := by
    rw [ht]
    exact forall_mem_nil _
  have hmove : RaceInv owners content (w.setThread tid t) := by
    refine h.setThread (threadOk_of_collected ?_ hquiet.2 hcol) hnow
    rw [hquiet.1]
    exact forall_mem_nil _
  refine hmove.setPool me (inv_place (h.pool me).1 key _ _)
    ((effect_publish (h.pool me).1 key).holdsAll (h.pool me).2) ?_ ?_
  · intro k loc hmem hu
    refine usable_place hu ?_
    intro hr hn hgone
    obtain ⟨hout, hv⟩ := mem_place_evicted.mp hgone
    -- the call that publishes has no location itself
    have hold : (k, loc) ∈ w.locations := by
      rcases mem_append.mp hmem with hmem | hmem
      · obtain ⟨⟨i, t'⟩, hi, hx⟩ := mem_flatMap.mp hmem
        rcases OrderedDict.mem_set.mp hi with heq | ⟨hi, -⟩
        · cases heq
          rw [hquiet.1] at hx
          cases hx
        · exact mem_append_left _ (mem_flatMap.mpr ⟨_, hi, hx⟩)
      · exact mem_append_right _ hmem
    exact (hok.resolve_left hout) k hv (k, loc) hold rfl hr hn
  · intro k loc _ hu
    by_cases hgone : k ∈ (publish (w.pools me) key (content key)).evicted
    · refine .inr (evicting_iff.mpr ⟨tid, ?_⟩)
      rw [thread_setThread, if_pos rfl, hev]
      exact hgone
    · exact .inl (usable_place hu (fun _ _ => hgone))

/-- **RECONCILE**: the entry settled is where the pool says. -/
lemma reconcileKey_ok {key : String} {todo : List String}
    (h : ThreadOk content pools (.reconciling me (key :: todo) entries))
    (hpool : HoldsAll content (pools me)) :
    ThreadOk content (Function.update pools me (addressOf (pools me) key).2)
      (.reconciling me todo (reconcileKey me (pools me) entries key)) := by
  have hcol : Collected content me entries := h.collected me entries rfl
  have hother : ∀ k loc, entries.get? k = some loc → k ≠ key → k ∉ todo →
      Usable (Function.update pools me (addressOf (pools me) key).2) k loc := by
    intro k loc hk hne hout
    refine usable_touch key (h.usable (k, loc) (mem_filter.mpr
      ⟨OrderedDict.get?_eq_some.mp hk, decide_eq_true ?_⟩))
    exact fun hmem => (mem_cons.mp hmem).elim hne hout
  -- the new entry, if there is one
  have hnew : reconcileKey me (pools me) entries key = entries ∧ entries.get? key = none
      ∨ ∃ new, reconcileKey me (pools me) entries key = entries.set key new ∧ new.nodeId = me
        ∧ new.length = (content key).length
        ∧ Usable (Function.update pools me (addressOf (pools me) key).2) key new := by
    rw [reconcileKey]
    cases hold : entries.get? key with
    | none => exact .inl ⟨by split <;> first | rfl | (rename_i heq; cases heq), rfl⟩
    | some old =>
      obtain ⟨hme, hlen⟩ := hcol key old hold
      refine .inr ?_
      cases hx : (pools me).entries.get? key with
      | none =>
        rw [addressOf_fst, hx]
        exact ⟨_, rfl, rfl, hlen, by rintro ⟨⟩⟩
      | some x =>
        rw [addressOf_fst, hx]
        refine ⟨_, rfl, hme, hlen, ?_⟩
        intro _
        show Current (Function.update pools me _ old.nodeId) key _
        rw [hme, Function.update_self]
        refine ⟨x, (addressOf_get? (pools me) key key).trans hx, ?_,
          hlen.trans (hpool key x hx).1.symm⟩
        exact congrArg (· + x.1) (addressOf_region (pools me) key).base.symm
  rcases hnew with ⟨heq, hnone⟩ | ⟨new, heq, hme, hlen, hu⟩
  · rw [heq]
    refine threadOk_of_collected ?_ rfl hcol
    rintro ⟨k, loc⟩ hx
    obtain ⟨hmem, hout⟩ := mem_filter.mp hx
    have hk := OrderedDict.get?_eq_some.mpr hmem
    refine hother k loc hk ?_ (of_decide_eq_true hout)
    rintro rfl
    cases hnone.symm.trans hk
  · rw [heq]
    refine threadOk_of_collected ?_ rfl ?_
    · rintro ⟨k, loc⟩ hx
      obtain ⟨hmem, hout⟩ := mem_filter.mp hx
      rcases OrderedDict.mem_set.mp hmem with hk | ⟨hk, hne⟩
      · cases hk
        exact hu
      · exact hother k loc (OrderedDict.get?_eq_some.mpr hk) hne (of_decide_eq_true hout)
    · intro k loc hk
      rw [OrderedDict.get?_set] at hk
      split_ifs at hk with hkk
      · cases hk
        exact hkk ▸ ⟨hme, hlen⟩
      · exact hcol k loc hk

/-- What `_take_primed` adds from the directory is usable, unless it is about to be deleted. -/
lemma fillMisses_usable (h : RaceInv owners content w) {out : List (Option DataLocation)}
    (hout : ∀ x ∈ found keys out, Usable w.pools x.1 x.2)
    (hok : ∀ q ∈ keys.zip out, q.2 = none → ¬ w.Evicting q.1) :
    ∀ x ∈ found keys (fillMisses owners w.dir keys out), Usable w.pools x.1 x.2 := by
  rintro ⟨k, loc⟩ hx
  obtain ⟨i, hk, hi⟩ := mem_found_iff.mp hx
  rw [fillMisses, getElem?_map] at hi
  obtain ⟨⟨j, o⟩, hq, hval⟩ := Option.map_eq_some_iff.mp hi
  obtain ⟨hj, ho⟩ := getElem?_zip_eq_some.mp hq
  obtain rfl := Option.some.inj (hk.symm.trans hj)
  cases o with
  | some loc' =>
    cases hval
    exact hout (k, loc) (mem_found_iff.mpr ⟨i, hk, ho⟩)
  | none => exact (h.dir k loc hval).resolve_right (hok _ (mem_of_getElem? hq) rfl)

lemma resolveStep_raceInv {queries : List (String × Nat)} (op : ResolveOp)
    (h : RaceInv owners content w)
    (hlocs : ∀ x ∈ found (queries.map Prod.fst) locs, Usable w.pools x.1 x.2) :
    RaceInv owners content (resolveStep owners w queries locs op).1
      ∧ ∀ x ∈ found (queries.map Prod.fst) (resolveStep owners w queries locs op).2,
        Usable (resolveStep owners w queries locs op).1.pools x.1 x.2 := by
  cases op with
  | dropMisses idxs => exact ⟨h.delete _, hlocs⟩
  | lookUp i owner =>
    refine ⟨h.touch owner _, ?_⟩
    rintro ⟨k, loc⟩ hx
    obtain ⟨j, hk, hj⟩ := mem_found_iff.mp hx
    rw [resolveStep] at hj ⊢
    by_cases hij : i = j
    · -- the location just looked up
      subst hij
      rw [getElem?_map] at hk
      rw [hk, Option.getD_some] at hj ⊢
      have hlen : i < locs.length := by
        have := (List.getElem?_eq_some_iff.mp hj).1
        rwa [length_set] at this
      rw [getElem?_set_self hlen] at hj
      obtain ⟨a, ha, rfl⟩ := Option.map_eq_some_iff.mp (Option.some.inj hj)
      rw [addressOf_fst] at ha
      obtain ⟨e, he, rfl⟩ := Option.map_eq_some_iff.mp ha
      intro _
      show Current (Function.update w.pools owner _ owner) k _
      rw [Function.update_self]
      refine ⟨e, (addressOf_get? _ k k).trans he, ?_, rfl⟩
      exact congrArg (· + e.1) (addressOf_region (w.pools owner) k).base.symm
    · rw [getElem?_set_ne hij] at hj
      exact usable_touch _ (hlocs (k, loc) (mem_found_iff.mpr ⟨j, hk, hj⟩))

lemma readable_subset {queries : List (String × Nat)} {x : String × DataLocation}
    (h : x ∈ readable queries locs) :
    x ∈ found (queries.map Prod.fst) locs ∧ x.2.resident = true := by
  obtain ⟨⟨⟨key, size⟩, o⟩, hq, hx⟩ := mem_filterMap.mp h
  cases o with
  | none => cases hx
  | some loc =>
    simp only at hx
    split_ifs at hx with hr
    cases hx
    refine ⟨mem_found.mpr ?_, hr.1⟩
    rw [zip_map_left]
    exact mem_map.mpr ⟨_, hq, rfl⟩

/-- **ONE STEP** that makes no location stale keeps the invariant. -/
lemma step_raceInv {a : Nat × Act} (h : RaceInv owners content w) (hok : Keeps content w a)
    (hstep : step owners content cap ttl w a = some w') : RaceInv owners content w' := by
  obtain ⟨tid, act⟩ := a
  have hthread := h.thread tid
  have hnone : (w.thread tid).evicted = [] → ∀ k ∈ (w.thread tid).evicted,
      view owners w.dir k = none := by
    intro hev
    rw [hev]
    exact forall_mem_nil _
  rw [step] at hstep
  simp only [Keeps] at hstep hok
  split at hstep
  · -- the keys of a set
    rename_i ht
    cases hstep
    refine h.setThread (threadOk_of_collected (forall_mem_nil _) rfl ?_)
      (hnone (by rw [ht]; rfl))
    rintro _ _ ⟨⟩
  · rename_i me key todo entries ht
    cases hstep
    rw [ht] at hok hthread
    have hcol : Collected content me entries := hthread.collected me entries rfl
    have hcol' : Collected content me (match (publish (w.pools me) key (content key)).addr with
        | none => entries
        | some addr => entries.set key (residentLocation me
            (publish (w.pools me) key (content key)).pool addr (content key).length)) := by
      cases (publish (w.pools me) key (content key)).addr with
      | none => exact hcol
      | some addr =>
        intro k loc hk
        rw [OrderedDict.get?_set] at hk
        split_ifs at hk with hkk
        · cases hk
          exact ⟨rfl, by rw [hkk]; rfl⟩
        · exact hcol k loc hk
    split_ifs with hev
    · exact publish_raceInv h ht hok hcol' ⟨rfl, rfl⟩ hev.symm
    · exact publish_raceInv h ht hok hcol' ⟨rfl, rfl⟩ rfl
  · -- the directory forgets what was evicted
    rename_i me evicted todo entries ht
    cases hstep
    rw [ht] at hthread
    refine (h.delete evicted).setThread (threadOk_of_collected (forall_mem_nil _) rfl
      (hthread.collected me entries rfl)) ?_
    intro k hk
    rw [show (w.setDir (delete owners w.dir evicted)).thread tid = w.thread tid from rfl, ht] at hk
    exact (view_delete w.dir evicted k).trans (if_pos hk)
  · rename_i me entries ht
    cases hstep
    rw [ht] at hthread
    refine h.setThread (threadOk_of_collected ?_ rfl (hthread.collected me entries rfl))
      (hnone (by rw [ht]; rfl))
    intro x hx
    obtain ⟨hmem, hout⟩ := mem_filter.mp hx
    exact absurd (mem_map_of_mem hmem) (of_decide_eq_true hout)
  · rename_i me key todo entries ht
    cases hstep
    rw [ht] at hthread
    exact (h.touch me key).setThread (reconcileKey_ok hthread (h.pool me).2)
      (hnone (by rw [ht]; rfl))
  · -- the entries put are all settled
    rename_i me entries ht
    cases hstep
    rw [ht] at hthread
    refine RaceInv.setThread { h with dir := fun k loc hk => ?_ } threadOk_idle ?_
    · obtain ⟨node, hnode, hget⟩ := view_mem hk
      have hring : owners k ≠ [] := ne_nil_of_mem hnode
      have hview : view owners (put owners w.dir entries) k = some loc := hk
      rw [view_put _ _ hring] at hview
      cases he : entries.get? k with
      | none => rw [he] at hview; exact h.dir k loc hview
      | some old =>
        rw [he] at hview
        cases hview
        exact .inl (hthread.usable (k, loc) (mem_filter.mpr
          ⟨OrderedDict.get?_eq_some.mp he, decide_eq_true not_mem_nil⟩))
    · show ∀ k ∈ (w.thread tid).evicted, _
      rw [ht]
      exact forall_mem_nil _
  · -- the directory answers `batch_exists`
    rename_i me keys mult ht
    cases hstep
    rw [ht] at hok
    refine h.setThread (threadOk_of_usable ?_ rfl (by rintro _ ⟨⟩)) (hnone (by rw [ht]; rfl))
    rintro ⟨k, loc⟩ hx
    obtain ⟨i, hk, hl⟩ := mem_found_iff.mp hx
    rw [getElem?_take] at hk hl
    split_ifs at hk hl
    rw [get_eq_view, getElem?_map, hk] at hl
    exact (h.dir k loc (Option.some.inj hl)).resolve_right (hok k (mem_of_getElem? hk))
  · rename_i me keys locs now ht
    cases hstep
    rw [ht] at hthread
    refine RaceInv.setThread (h.setPrimed (primed_prime (h.primed me) cap ttl now ?_)) threadOk_idle
      (hnone (by rw [ht]; rfl))
    exact fun k loc hmem => hthread.usable (k, loc) (mem_found.mpr hmem)
  · rename_i me now queries ht
    cases hstep
    obtain ⟨-, htaken, hrest⟩ := takePrimed_spec (h.primed me) now (queries.map Prod.fst)
    refine RaceInv.setThread (h.setPrimed hrest) (threadOk_of_usable ?_ rfl (by rintro _ ⟨⟩))
      (hnone (by rw [ht]; rfl))
    exact fun x hx => (htaken x.1 x.2 (mem_found.mp hx)).2
  · rename_i me queries out ht
    cases hstep
    rw [ht] at hok hthread
    exact h.setThread (threadOk_of_usable (fillMisses_usable h hthread.usable hok) rfl
      (by rintro _ ⟨⟩)) (hnone (by rw [ht]; rfl))
  · rename_i me queries locs op work ht
    cases hstep
    rw [ht] at hthread
    obtain ⟨hinv, hlocs⟩ := resolveStep_raceInv op h hthread.usable
    refine hinv.setThread (threadOk_of_usable hlocs rfl (by rintro _ ⟨⟩)) ?_
    have hsame : (resolveStep owners w queries locs op).1.thread tid = w.thread tid := by
      cases op with
      | lookUp i owner => rfl
      | dropMisses idxs => rfl
    rw [hsame, ht]
    exact forall_mem_nil _
  · rename_i me queries locs ht
    cases hstep
    rw [ht] at hthread
    refine h.setThread (threadOk_of_usable ?_ rfl ?_) (hnone (by rw [ht]; rfl))
    · exact fun x hx => hthread.usable x (readable_subset hx).1
    · rintro _ ⟨⟩ x hx
      exact (readable_subset hx).2
  · rename_i items i ht
    rw [ht] at hthread
    split at hstep
    · cases hstep
    · rename_i key loc hi
      cases hstep
      have hitem : (key, loc) ∈ items := mem_of_getElem? hi
      refine RaceInv.setThread { h with hits := ?_ } (threadOk_of_usable ?_ rfl ?_)
        (hnone (by rw [ht]; rfl))
      · intro x hx
        rcases mem_append.mp hx with hx | hx
        · exact h.hits x hx
        · obtain rfl := mem_singleton.mp hx
          have hcur := hthread.usable _ hitem (hthread.resident items rfl _ hitem)
          exact hcur.read ((h.pool loc.nodeId).2 key)
      · exact fun x hx => hthread.usable x (mem_of_mem_eraseIdx hx)
      · rintro _ ⟨⟩ x hx
        exact hthread.resident items rfl x (mem_of_mem_eraseIdx hx)
  · rename_i ht
    cases hstep
    exact h.setThread threadOk_idle (hnone (by rw [ht]; rfl))
  · cases hstep

/-! ## Runs -/

/-- **NO FOREIGN PAGE WHILE NO LOCATION IS MADE STALE.**  Any number of nodes and calls, any
    interleaving: if no publish evicts a page whose location a call or a primed cache holds, and the
    directory is not asked for a page between its eviction and its deletion, every page reported
    `True` is the content of its key. -/
theorem no_foreign_page_when_kept (owners : Owners) (content : String → Bytes)
    (cap ttl : Nat) (cfg : String → PoolConfig) (acts : List (Nat × Act)) {w : World}
    (hok : Guarded (step owners content cap ttl) (Keeps content) (World.init cfg) acts)
    (hrun : Transition.run (step owners content cap ttl) (World.init cfg) acts = some w) :
    ∀ x ∈ w.hits, x.bytes = content x.key :=
  (run_invariant (fun _ _ _ _ h hsafe hstep => step_raceInv h hsafe hstep) (raceInv_init cfg) hok
    hrun).hits

/-- One node with room for one page of one byte. -/
def onePage : String → PoolConfig := fun _ => ⟨100, 1, 7, [7], fun _ => 0⟩

def twoPages (k : String) : Bytes := if k = "a" then [1] else [2]

/-- `a` is published, primed and fetched; only then `b` is published in its place, while the next
    fetch has begun and holds nothing. -/
def keptRun : List (Nat × Act) :=
  [(0, .set "n" ["a"]), (0, .publish), (0, .reconcileAll), (0, .reconcile), (0, .put),
    (1, .exists "n" ["a"] 1), (1, .prime 0), (0, .set "n" ["b"]),
    (1, .get "n" 1 [("a", 1)]), (1, .lookup), (1, .ready), (1, .read 0), (1, .done),
    (1, .get "n" 2 [("b", 1)]), (0, .publish), (0, .evict), (0, .reconcileAll), (0, .reconcile),
    (0, .put), (1, .lookup), (1, .ready), (1, .read 0)]

/-- Two calls, a publish and a fetch, interleaved around an eviction: both pages are delivered. -/
theorem no_foreign_page_when_kept_two_calls :
    ∃ w, Transition.run (step (fun _ => ["n"]) twoPages 100 30) (World.init onePage) keptRun = some w
      ∧ w.hits.map Hit.key = ["a", "b"] ∧ ∀ x ∈ w.hits, x.bytes = twoPages x.key := by
  have hrun : (Transition.run (step (fun _ => ["n"]) twoPages 100 30) (World.init onePage)
      keptRun).map (fun w => w.hits.map Hit.key) = some ["a", "b"] := by decide +kernel
  obtain ⟨w, hw, hhits⟩ := Option.map_eq_some_iff.mp hrun
  exact ⟨w, hw, hhits, no_foreign_page_when_kept _ _ _ _ _ _ (by decide +kernel) hw⟩

/-- `a` is published and primed; publishing `b` evicts `a`, reuses its slot and deletes `a` from
    the directory; the fetch of `a` still has the primed location. -/
def staleRun : List (Nat × Act) :=
  [(0, .set "n" ["a"]), (0, .publish), (0, .reconcileAll), (0, .reconcile), (0, .put),
    (1, .exists "n" ["a"] 1), (1, .prime 0),
    (0, .set "n" ["b"]), (0, .publish), (0, .evict), (0, .reconcileAll), (0, .reconcile), (0, .put),
    (1, .get "n" 1 [("a", 1)]), (1, .lookup), (1, .ready), (1, .read 0)]

/-- **A STALE HIT**: the fetch of `a` reports `True` and delivers `b`'s byte, although the
    directory no longer names `a`. -/
theorem stale_hit :
    twoPages "a" ≠ twoPages "b"
      ∧ (Transition.run (step (fun _ => ["n"]) twoPages 100 30) (World.init onePage) staleRun).map
          (fun w => (w.hits, view (fun _ => ["n"]) w.dir "a"))
        = some ([⟨"a", twoPages "b"⟩], none) := by
  exact ⟨by decide, by decide +kernel⟩

end PeerCacheP2pRace
