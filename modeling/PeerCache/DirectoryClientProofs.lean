import Mathlib
import PeerCache.DirectoryProofs
import PeerCache.ScatterProofs

/-! # The directory client — batches over shards refine one map

    `DirectoryProofs` has the directory as its callers see it.  This file has it as the
    code runs it: `DataLocation.to_dict` / `from_dict`, the handlers of
    `DirectoryServer`, and `DirectoryClient` with its grouping by owner, its one request
    per node, the fallback to other replicas, and results filed by key. -/

namespace PeerCacheDirectoryClient

open PeerCacheRing OrderedDict Option

/-! ## Locations on the wire -/

/-- A value in an encoded location. -/
inductive Value where
  | str (s : String)
  | int (n : Int)
  | bool (b : Bool)
  | strs (l : List String)
  | ints (l : List Int)
deriving DecidableEq

/-- An encoded location: what a shard stores and a reply carries. -/
abbrev Dict : Type := OrderedDict String Value

/-- `DataLocation`, with all its fields. -/
structure DataLocation where
  nodeId : String
  rdmaEndpoint : String
  remoteAddr : Int
  rkey : Int
  length : Int
  resident : Bool := true
  railEndpoints : List String := []
  railRkeys : List Int := []
deriving DecidableEq

/-- `DIRECTORY_SCHEMA_VERSION` -/
def directorySchemaVersion : Int := 2

/-- `DataLocation.to_dict` -/
def toDict (l : DataLocation) : Dict where
  items := [("node_id", .str l.nodeId), ("rdma_endpoint", .str l.rdmaEndpoint),
    ("remote_addr", .int l.remoteAddr), ("rkey", .int l.rkey), ("length", .int l.length),
    ("resident", .bool l.resident), ("rail_endpoints", .strs l.railEndpoints),
    ("rail_rkeys", .ints l.railRkeys), ("v", .int directorySchemaVersion)]
  nodup := by
    show ["node_id", "rdma_endpoint", "remote_addr", "rkey", "length", "resident",
      "rail_endpoints", "rail_rkeys", "v"].Nodup
    decide

/-- A field that is a string. -/
def Value.asStr : Value → Option String
  | .str s => some s
  | _ => none

/-- `int(x)`; a string is read as a plain decimal number. -/
def Value.asInt : Value → Option Int
  | .int n => some n
  | .bool b => some (if b then 1 else 0)
  | .str s => s.toInt?
  | _ => none

/-- `bool(x)` -/
def Value.truthy : Value → Bool
  | .str s => s != ""
  | .int n => n != 0
  | .bool b => b
  | .strs l => !l.isEmpty
  | .ints l => !l.isEmpty

/-- `list(x or [])` of a list of strings. -/
def Value.asStrs (v : Value) : Option (List String) :=
  if v.truthy then
    match v with
    | .strs l => some l
    | _ => none
  else some []

/-- `[int(y) for y in (x or [])]` -/
def Value.asInts (v : Value) : Option (List Int) :=
  if v.truthy then
    match v with
    | .ints l => some l
    | .strs l => l.mapM String.toInt?
    | _ => none
  else some []

/-- `DataLocation.from_dict`; `none` is an exception. -/
def fromDict (d : Dict) : Option DataLocation := do
  let nodeId ← (d.get? "node_id").bind Value.asStr
  let rdmaEndpoint ← (d.get? "rdma_endpoint").bind Value.asStr
  let remoteAddr ← (d.get? "remote_addr").bind Value.asInt
  let rkey ← (d.get? "rkey").bind Value.asInt
  let length ← (d.get? "length").bind Value.asInt
  let resident := ((d.get? "resident").getD (.bool true)).truthy
  let railEndpoints ← ((d.get? "rail_endpoints").getD (.strs [])).asStrs
  let railRkeys ← ((d.get? "rail_rkeys").getD (.ints [])).asInts
  some ⟨nodeId, rdmaEndpoint, remoteAddr, rkey, length, resident, railEndpoints, railRkeys⟩

lemma Value.asStrs_strs (l : List String) : (Value.strs l).asStrs = some l := by
  cases l with
  | nil => rfl
  | cons s l => rfl

lemma Value.asInts_ints (l : List Int) : (Value.ints l).asInts = some l := by
  cases l with
  | nil => rfl
  | cons n l => rfl

/-- **ROUND TRIP**: every field survives the wire. -/
lemma fromDict_toDict (l : DataLocation) : fromDict (toDict l) = some l := by
  have hfields : fromDict (toDict l)
      = (Value.strs l.railEndpoints).asStrs.bind (fun railEndpoints =>
          (Value.ints l.railRkeys).asInts.bind (fun railRkeys =>
            some ⟨l.nodeId, l.rdmaEndpoint, l.remoteAddr, l.rkey, l.length, l.resident,
              railEndpoints, railRkeys⟩)) := rfl
  rw [hfields, Value.asStrs_strs, Value.asInts_ints]
  rfl

/-- How locations are written to and read from a shard. -/
structure Codec (Loc : Type) where
  toDict : Loc → Dict
  fromDict : Dict → Option Loc
  fromDict_toDict : ∀ l, fromDict (toDict l) = some l
  toDict_ne : ∀ l, (toDict l).items ≠ []

/-- The codec of the source. -/
def wire : Codec DataLocation := ⟨toDict, fromDict, fromDict_toDict, fun _ h => (nomatch h)⟩

/-! ## The shard of one node -/

/-- `DirectoryServer._store` of every node. -/
abbrev Shards : Type := String → OrderedDict String Dict

/-- `_on_put` -/
def onPut (store : OrderedDict String Dict) (entries : OrderedDict String Dict) :
    OrderedDict String Dict := store.update entries

/-- `_on_get` -/
def onGet (store : OrderedDict String Dict) (keys : List String) : List (Option Dict) :=
  keys.map store.get?

/-- `_on_exists` -/
def onExists (store : OrderedDict String Dict) (keys : List String) : List Bool :=
  keys.map (fun k => (store.get? k).isSome)

/-- `_on_delete` -/
def onDelete (store : OrderedDict String Dict) (keys : List String) : OrderedDict String Dict :=
  keys.foldl OrderedDict.erase store

/-! ## The client -/

/-- `DirectoryClient`: `_ring` and `_replicas`. -/
structure DirectoryClient where
  ring : ConsistentHashRing
  replicas : Int

/-- `DirectoryClient.__init__` -/
def DirectoryClient.new (ring : ConsistentHashRing) (replicas : Int) : DirectoryClient :=
  ⟨ring, max 1 replicas⟩

section

variable (hash : String → Nat) {Loc : Type} (codec : Codec Loc)

/-- `_owners` -/
def owners (c : DirectoryClient) (key : String) : List String :=
  if c.replicas = 1 then
    match getNode hash c.ring key with
    | none => []
    | some node => if node = "" then [] else [node]
  else getNodes hash c.ring key c.replicas

/-- The primary owner: `owners[0]`. -/
def primary (c : DirectoryClient) (key : String) : Option String := (owners hash c key).head?

/-- `_group_by_owner` -/
def groupByOwner (c : DirectoryClient) (keys : List String) : OrderedDict String (List String) :=
  Scatter.groups (primary hash c) keys

/-- The requests of `put`: the entries each node is sent. -/
def putRequests (c : DirectoryClient) (entries : OrderedDict String Loc) :
    OrderedDict String (OrderedDict String Dict) :=
  Scatter.deal (fun e => owners hash c e.1) (fun d e => d.set e.1 (codec.toDict e.2))
    OrderedDict.empty entries.items

/-- The requests of `delete`. -/
def deleteRequests (c : DirectoryClient) (keys : List String) : OrderedDict String (List String) :=
  Scatter.deal (owners hash c) (fun group k => group ++ [k]) [] keys

-- a node is reachable when its endpoint resolves and the call returns
variable (reachable : String → Bool)

/-- `put` -/
def put (c : DirectoryClient) (shards : Shards) (entries : OrderedDict String Loc) : Shards :=
  Scatter.visit (fun node entries store => if reachable node then onPut store entries else store)
    (putRequests hash codec c entries) shards

/-- `delete` -/
def delete (c : DirectoryClient) (shards : Shards) (keys : List String) : Shards :=
  Scatter.visit (fun node group store => if reachable node then onDelete store group else store)
    (deleteRequests hash c keys) shards

/-- `DataLocation.from_dict(r) if r else None` -/
def decode : Option Dict → Option (Option Loc)
  | none => some none
  | some d => if d.items = [] then some none else (codec.fromDict d).map some

/-- The nodes `_get_from_owner` tries, in order. -/
def candidates (c : DirectoryClient) (group : List String) (primary : String) : List String :=
  if c.replicas > 1 then
    match group with
    | [] => [primary]
    | k :: _ => owners hash c k
  else [primary]

/-- `_get_from_owner`: the first candidate that answers, answers for the whole group. -/
def getFromOwner (c : DirectoryClient) (shards : Shards) (group : List String) (primary : String) :
    List (Option Loc) :=
  let ask := fun node =>
    if reachable node then (onGet (shards node) group).mapM (decode codec) else none
  match (candidates hash c group primary).findSome? ask with
  | some locs => locs
  | none => List.replicate group.length none

/-- `get` -/
def get (c : DirectoryClient) (shards : Shards) (keys : List String) : List (Option Loc) :=
  Scatter.gather (groupByOwner hash c keys) none
    (fun owner group => getFromOwner hash codec reachable c shards group owner) keys

/-- `exists` -/
def existsKeys (c : DirectoryClient) (shards : Shards) (keys : List String) : List Bool :=
  Scatter.gather (groupByOwner hash c keys) false
    (fun owner group => if reachable owner then onExists (shards owner) group else []) keys

end

section

variable {hash : String → Nat} {Loc : Type} {codec : Codec Loc} {reachable : String → Bool}
  {c : DirectoryClient}

/-! ## What one call leaves at one shard -/

lemma nodup_owners (c : DirectoryClient) (key : String) : (owners hash c key).Nodup := by
  rw [owners]
  split_ifs with hr
  · cases getNode hash c.ring key with
    | none => exact List.nodup_nil
    | some node =>
      show (if node = "" then [] else [node]).Nodup
      by_cases hnode : node = ""
      · rw [if_pos hnode]; exact List.nodup_nil
      · rw [if_neg hnode]; exact List.nodup_singleton node
  · exact nodup_getNodes c.ring key c.replicas

lemma putRequests_get? (entries : OrderedDict String Loc) (node key : String) :
    ((putRequests hash codec c entries).get? node).bind (fun d => d.get? key)
      = if node ∈ owners hash c key then (entries.get? key).map codec.toDict else none := by
  have hnd : ∀ e : String × Loc, (owners hash c e.1).Nodup := fun e => nodup_owners c e.1
  have hitems : (entries.filterKeys (fun k => decide (node ∈ owners hash c k))).items
      = Scatter.share (fun e => owners hash c e.1) node entries.items := rfl
  have hshare : ((putRequests hash codec c entries).get? node).bind (fun d => d.get? key)
      = ((entries.filterKeys (fun k => decide (node ∈ owners hash c k))).items.foldl
          (fun d e => d.set e.1 (codec.toDict e.2)) OrderedDict.empty).get? key := by
    rw [putRequests, Scatter.deal_get? hnd, hitems]
    by_cases hnil : Scatter.share (fun e : String × Loc => owners hash c e.1) node entries.items = []
    · rw [if_pos hnil, hnil]; rfl
    · rw [if_neg hnil]; rfl
  rw [hshare, get?_foldl_set_map, get?_filterKeys, get?_empty,
    or_none]
  by_cases hn : node ∈ owners hash c key
  · rw [if_pos hn, if_pos (decide_eq_true hn)]
  · rw [if_neg hn, if_neg (by simpa using hn)]; rfl

/-- **PUT** at a shard. -/
lemma put_get? (shards : Shards) (entries : OrderedDict String Loc) (node key : String) :
    (put hash codec reachable c shards entries node).get? key
      = (if node ∈ owners hash c key ∧ reachable node = true then (entries.get? key).map codec.toDict
          else none).or ((shards node).get? key) := by
  have hsent : ((putRequests hash codec c entries).get? node).bind (fun d => d.get? key)
      = if node ∈ owners hash c key then (entries.get? key).map codec.toDict else none :=
    putRequests_get? entries node key
  rw [put, Scatter.visit_apply]
  cases hreq : (putRequests hash codec c entries).get? node with
  | none =>
    rw [hreq] at hsent
    have hnone : (if node ∈ owners hash c key ∧ reachable node = true
        then (entries.get? key).map codec.toDict else none) = none := by
      by_cases hn : node ∈ owners hash c key
      · rw [if_pos hn] at hsent
        rw [← hsent]
        exact ite_self none
      · exact if_neg (fun h => hn h.1)
    rw [hnone]
    rfl
  | some d =>
    rw [hreq] at hsent
    show (if reachable node = true then (shards node).update d else shards node).get? key = _
    by_cases hr : reachable node = true
    · have hd : d.get? key = _ := hsent
      rw [if_pos hr, get?_update, hd]
      simp only [hr, and_true]
    · rw [if_neg hr, if_neg (fun h => hr h.2)]; rfl

/-- **DELETE** at a shard. -/
lemma delete_get? (shards : Shards) (keys : List String) (node key : String) :
    (delete hash reachable c shards keys node).get? key
      = if key ∈ keys ∧ node ∈ owners hash c key ∧ reachable node = true then none
        else (shards node).get? key := by
  have hmem : key ∈ Scatter.share (owners hash c) node keys ↔ key ∈ keys ∧ node ∈ owners hash c key := by
    rw [Scatter.share, List.mem_filter, decide_eq_true_eq]
  rw [delete, Scatter.visit_apply, deleteRequests, Scatter.deal_get? (nodup_owners c)]
  by_cases hnil : Scatter.share (owners hash c) node keys = []
  · rw [if_pos hnil, if_neg]
    · rfl
    · rintro ⟨hk, hn, -⟩; exact List.ne_nil_of_mem (hmem.mpr ⟨hk, hn⟩) hnil
  · rw [if_neg hnil]
    have hgroup : (Scatter.share (owners hash c) node keys).foldl (fun group k => group ++ [k]) []
        = Scatter.share (owners hash c) node keys :=
      List.foldl_append_eq_append.trans (List.flatMap_singleton' _)
    show (if reachable node = true then onDelete (shards node) _ else shards node).get? key = _
    rw [hgroup]
    by_cases hr : reachable node = true
    · rw [if_pos hr, onDelete, get?_foldl_erase]
      refine if_congr (hmem.trans ?_) rfl rfl
      simp only [hr, and_true]
    · rw [if_neg hr, if_neg (fun h => hr h.2.2)]

/-! ## Who answers for a key -/

lemma findSome?_first {V : Type} {nodes : List String} {ask : String → Option V} {node : String}
    {v : V} (hfirst : nodes.find? reachable = some node) (hv : ask node = some v) :
    nodes.findSome? (fun n => if reachable n = true then ask n else none) = some v := by
  induction nodes with
  | nil => cases hfirst
  | cons n nodes ih =>
    rw [List.find?_cons] at hfirst
    rw [List.findSome?_cons]
    cases hn : reachable n with
    | true =>
      rw [hn] at hfirst
      cases hfirst
      simp only [if_true, hv]
    | false =>
      rw [hn] at hfirst
      exact ih hfirst

lemma findSome?_none {V : Type} {nodes : List String} {ask : String → Option V}
    (hnone : nodes.find? reachable = none) :
    nodes.findSome? (fun n => if reachable n = true then ask n else none) = none := by
  rw [List.findSome?_eq_none_iff]
  intro n hn
  exact if_neg (by simpa using List.find?_eq_none.mp hnone n hn)

lemma mapM_decode (store : OrderedDict String Dict) (read : String → Option Loc)
    (group : List String) (h : ∀ k ∈ group, store.get? k = (read k).map codec.toDict) :
    (onGet store group).mapM (decode codec) = some (group.map read) := by
  induction group with
  | nil => rfl
  | cons k group ih =>
    obtain ⟨hk, hrest⟩ := List.forall_mem_cons.mp h
    have hone : decode codec (store.get? k) = some (read k) := by
      rw [hk]
      cases read k with
      | none => rfl
      | some loc =>
        show (if (codec.toDict loc).items = [] then some none
          else (codec.fromDict (codec.toDict loc)).map some) = some (some loc)
        rw [if_neg (codec.toDict_ne loc), codec.fromDict_toDict]
        rfl
    have hrec : (group.map store.get?).mapM (decode codec) = some (group.map read) := ih hrest
    rw [onGet, List.map_cons, List.mapM_cons, hone, hrec]
    rfl

variable {group : List String} {p : String} {ring : ConsistentHashRing}

variable {k : String} {m : String → Option Loc}

lemma candidates_eq (hr : 1 ≤ c.replicas) (hp : primary hash c k = some p) :
    candidates hash c (k :: group) p = owners hash c k := by
  rw [candidates]
  by_cases hone : c.replicas > 1
  · rw [if_pos hone]
  · have heq : c.replicas = 1 := by omega
    rw [if_neg hone]
    rw [primary] at hp
    rw [owners, if_pos heq] at hp ⊢
    cases hnode : getNode hash c.ring k with
    | none => rw [hnode] at hp; cases hp
    | some node =>
      rw [hnode] at hp
      simp only at hp ⊢
      by_cases hempty : node = ""
      · rw [if_pos hempty] at hp; cases hp
      · rw [if_neg hempty] at hp ⊢
        exact congrArg (fun x => [x]) (some.inj hp).symm

lemma getFromOwner_eq {shards : Shards} {node : String}
    (hfirst : (candidates hash c group p).find? reachable = some node) (read : String → Option Loc)
    (h : ∀ k ∈ group, (shards node).get? k = (read k).map codec.toDict) :
    getFromOwner hash codec reachable c shards group p = group.map read := by
  have hask : (candidates hash c group p).findSome? (fun n =>
      if reachable n = true then (onGet (shards n) group).mapM (decode codec) else none)
      = some (group.map read) := findSome?_first hfirst (mapM_decode (shards node) read group h)
  rw [getFromOwner]
  simp only [hask]

lemma getFromOwner_none {shards : Shards}
    (hnone : (candidates hash c group p).find? reachable = none) :
    getFromOwner hash codec reachable c shards group p = group.map (fun _ => none) := by
  have hask : (candidates hash c group p).findSome? (fun n =>
      if reachable n = true then (onGet (shards n) group).mapM (decode codec) else none) = none :=
    findSome?_none hnone
  rw [getFromOwner]
  simp only [hask]
  rw [List.map_const']

/-- The node that answers for the keys of `keys` whose primary is `p`. -/
def answerer (hash : String → Nat) (reachable : String → Bool) (c : DirectoryClient)
    (keys : List String) (p : String) : Option String :=
  (candidates hash c (Scatter.groupOf (primary hash c) keys p) p).find? reachable

/-- **GET**: a key is answered from the shard of its group's answerer. -/
lemma get_eq {shards : Shards} {keys : List String} (read : String → String → Option Loc)
    (h : ∀ p node, answerer hash reachable c keys p = some node →
      ∀ k ∈ Scatter.groupOf (primary hash c) keys p,
        (shards node).get? k = (read node k).map codec.toDict) :
    get hash codec reachable c shards keys
      = keys.map (fun k => (primary hash c k).elim none (fun p =>
          (answerer hash reachable c keys p).elim none (fun node => read node k))) := by
  refine Scatter.gather_eq ?_
  intro p _
  refine Or.inl ?_
  cases hnode : answerer hash reachable c keys p with
  | none => exact getFromOwner_none hnode
  | some node => exact getFromOwner_eq hnode (read node) (h p node hnode)

/-- **EXISTS**: only the primary is asked. -/
lemma existsKeys_eq (shards : Shards) (keys : List String) :
    existsKeys hash reachable c shards keys
      = keys.map (fun k => (primary hash c k).elim false (fun p =>
          reachable p && ((shards p).get? k).isSome)) := by
  refine Scatter.gather_eq ?_
  intro p _
  cases hp : reachable p with
  | true =>
    refine Or.inl ?_
    simp only [if_true, onExists, Bool.true_and]
  | false => exact .inr ⟨rfl, fun _ _ => rfl⟩

lemma answerer_all (hr : 1 ≤ c.replicas) {keys : List String} (hk : k ∈ keys)
    (hp : primary hash c k = some p) : answerer hash (fun _ => true) c keys p = some p := by
  rw [answerer]
  cases hg : Scatter.groupOf (primary hash c) keys p with
  | nil => exact absurd hg (List.ne_nil_of_mem (Scatter.mem_groupOf.mpr ⟨hk, hp⟩))
  | cons j group =>
    have hj : primary hash c j = some p := (Scatter.mem_groupOf.mp (hg ▸ List.mem_cons_self)).2
    rw [candidates_eq hr hj]
    rw [primary] at hj
    cases ho : owners hash c j with
    | nil => rw [ho] at hj; cases hj
    | cons q rest => rw [ho] at hj; exact hj

lemma get_all (hr : 1 ≤ c.replicas) {shards : Shards} {keys : List String}
    (read : String → Option Loc)
    (h : ∀ k ∈ keys, ∀ p, primary hash c k = some p → (shards p).get? k = (read k).map codec.toDict) :
    get hash codec (fun _ => true) c shards keys
      = keys.map (fun k => (primary hash c k).elim none (fun _ => read k)) := by
  refine (get_eq (fun _ k => read k) ?_).trans (List.map_congr_left ?_)
  · intro p node hnode k hk
    obtain ⟨hmem, hp⟩ := Scatter.mem_groupOf.mp hk
    obtain rfl := some.inj ((answerer_all hr hmem hp).symm.trans hnode)
    exact h k hmem p hp
  · intro k hk
    cases hp : primary hash c k with
    | none => rfl
    | some p =>
      show (answerer hash (fun _ => true) c keys p).elim none (fun _ => read k) = read k
      rw [answerer_all hr hk hp]
      rfl

/-! ## The ring behind the client -/

lemma primary_of_getNode (hheld : Held hash ring) {key : String}
    (hp : getNode hash ring key = some p) (hne : p ≠ "") (replicas : Int) :
    primary hash (DirectoryClient.new ring replicas) key = some p := by
  rw [primary, owners]
  by_cases hr : (DirectoryClient.new ring replicas).replicas = 1
  · rw [if_pos hr]
    show (match getNode hash ring key with
      | none => []
      | some node => if node = "" then [] else [node]).head? = _
    rw [hp]
    simp only [if_neg hne]
    rfl
  · have hring : ring.sortedKeys ≠ [] := by
      intro hnil
      rw [getNode, if_pos hnil] at hp
      cases hp
    rw [if_neg hr, ← hp]
    exact head?_getNodes hheld hring key (Int.lt_of_lt_of_le Int.one_pos (le_max_left 1 replicas))

lemma primary_eq_getNode (hheld : Held hash ring) (hring : ring.sortedKeys ≠ [])
    (hnames : "" ∉ ring.nodes) (replicas : Int) (key : String) :
    primary hash (DirectoryClient.new ring replicas) key = getNode hash ring key := by
  have hnode : getNode hash ring key = some (nodeAt ring (bisect ring.sortedKeys (hash key))) :=
    getNode_eq_nodeAt hring key
  rw [hnode]
  exact primary_of_getNode hheld hnode (fun h => hnames (h ▸ nodeAt_mem hheld hring _)) replicas

lemma exists_primary (hheld : Held hash ring) (hring : ring.sortedKeys ≠ [])
    (hnames : "" ∉ ring.nodes) (replicas : Int) (key : String) :
    ∃ p, primary hash (DirectoryClient.new ring replicas) key = some p :=
  ⟨_, (primary_eq_getNode hheld hring hnames replicas key).trans (getNode_eq_nodeAt hring key)⟩

lemma one_le_replicas (ring : ConsistentHashRing) (replicas : Int) :
    1 ≤ (DirectoryClient.new ring replicas).replicas := le_max_left 1 replicas

lemma mem_owners_of_primary {key : String} (h : primary hash c key = some p) :
    p ∈ owners hash c key := List.mem_of_mem_head? h

/-! ## One map -/

/-- A call on the directory. -/
inductive Call (Loc : Type) where
  | put (entries : OrderedDict String Loc)
  | delete (keys : List String)
  | get (keys : List String)
  | existsKeys (keys : List String)

/-- What a call returns. -/
inductive Reply (Loc : Type) where
  | done
  | locations (locs : List (Option Loc))
  | present (flags : List Bool)

/-- One call by a client. -/
def serve (hash : String → Nat) (codec : Codec Loc) (reachable : String → Bool)
    (c : DirectoryClient) (shards : Shards) : Call Loc → Reply Loc × Shards
  | .put entries => (.done, put hash codec reachable c shards entries)
  | .delete keys => (.done, delete hash reachable c shards keys)
  | .get keys => (.locations (get hash codec reachable c shards keys), shards)
  | .existsKeys keys => (.present (existsKeys hash reachable c shards keys), shards)

/-- Calls one at a time, each by its own client: the replies. -/
def serveAll (hash : String → Nat) (codec : Codec Loc) (reachable : String → Bool) :
    List (DirectoryClient × Call Loc) → Shards → List (Reply Loc)
  | [], _ => []
  | (c, call) :: calls, shards =>
      let r := serve hash codec reachable c shards call
      r.1 :: serveAll hash codec reachable calls r.2

/-- The same call on a single map from key to location. -/
def mapServe (m : String → Option Loc) : Call Loc → Reply Loc × (String → Option Loc)
  | .put entries => (.done, fun k => (entries.get? k).or (m k))
  | .delete keys => (.done, fun k => if k ∈ keys then none else m k)
  | .get keys => (.locations (keys.map m), m)
  | .existsKeys keys => (.present (keys.map (fun k => (m k).isSome)), m)

/-- The replies of a single map. -/
def mapServeAll : List (Call Loc) → (String → Option Loc) → List (Reply Loc)
  | [], _ => []
  | call :: calls, m =>
      let r := mapServe m call
      r.1 :: mapServeAll calls r.2

/-- The shard a key is read from holds the map's value. -/
def Sim (hash : String → Nat) (codec : Codec Loc) (ring : ConsistentHashRing)
    (m : String → Option Loc) (shards : Shards) : Prop :=
  ∀ k p, getNode hash ring k = some p → (shards p).get? k = (m k).map codec.toDict

/-- **ONE CALL** has the reply of the map and keeps the simulation, whatever the replica count of
    the client that makes it. -/
lemma serve_sim (hheld : Held hash ring) (hring : ring.sortedKeys ≠ []) (hnames : "" ∉ ring.nodes)
    (replicas : Int) {shards : Shards} (hsim : Sim hash codec ring m shards) (call : Call Loc) :
    (serve hash codec (fun _ => true) (DirectoryClient.new ring replicas) shards call).1
        = (mapServe m call).1
      ∧ Sim hash codec ring (mapServe m call).2
        (serve hash codec (fun _ => true) (DirectoryClient.new ring replicas) shards call).2 := by
  have hprim : ∀ k, primary hash (DirectoryClient.new ring replicas) k = getNode hash ring k :=
    primary_eq_getNode hheld hring hnames replicas
  have howner : ∀ k p, getNode hash ring k = some p →
      p ∈ owners hash (DirectoryClient.new ring replicas) k :=
    fun k p hp => mem_owners_of_primary ((hprim k).trans hp)
  cases call with
  | put entries =>
    refine ⟨rfl, ?_⟩
    intro k p hp
    refine (put_get? shards entries p k).trans ?_
    rw [if_pos ⟨howner k p hp, rfl⟩, hsim k p hp, ← map_or]
    rfl
  | delete keys =>
    refine ⟨rfl, ?_⟩
    intro k p hp
    refine (delete_get? shards keys p k).trans ?_
    show _ = (if k ∈ keys then none else m k).map codec.toDict
    by_cases hk : k ∈ keys
    · rw [if_pos ⟨hk, howner k p hp, rfl⟩, if_pos hk]; rfl
    · rw [if_neg (fun h => hk h.1), if_neg hk, hsim k p hp]
  | get keys =>
    refine ⟨congrArg Reply.locations ?_, hsim⟩
    refine (get_all (one_le_replicas ring replicas) m (fun k _ p hp =>
      hsim k p ((hprim k).symm.trans hp))).trans (List.map_congr_left ?_)
    intro k _
    obtain ⟨p, hp⟩ := exists_primary hheld hring hnames replicas k
    rw [hp]
    rfl
  | existsKeys keys =>
    refine ⟨congrArg Reply.present ?_, hsim⟩
    refine (existsKeys_eq shards keys).trans (List.map_congr_left ?_)
    intro k _
    obtain ⟨p, hp⟩ := exists_primary hheld hring hnames replicas k
    rw [hp]
    show (true && ((shards p).get? k).isSome) = (m k).isSome
    rw [hsim k p ((hprim k).symm.trans hp), isSome_map, Bool.true_and]

lemma serveAll_sim (hheld : Held hash ring) (hring : ring.sortedKeys ≠ [])
    (hnames : "" ∉ ring.nodes) {C : Type} (replicas : C → Int) (calls : List (C × Call Loc))
    {shards : Shards} (hsim : Sim hash codec ring m shards) :
    serveAll hash codec (fun _ => true)
        (calls.map (fun q => (DirectoryClient.new ring (replicas q.1), q.2))) shards
      = mapServeAll (calls.map Prod.snd) m := by
  induction calls generalizing m shards with
  | nil => rfl
  | cons q calls ih =>
    obtain ⟨hreply, hnext⟩ := serve_sim hheld hring hnames (replicas q.1) hsim q.2
    rw [List.map_cons, List.map_cons, serveAll, mapServeAll]
    exact congrArg₂ List.cons hreply (ih hnext)

/-- **THE DIRECTORY IS ONE MAP.**  Over a ring with at least one vnode, reached by any history under
    any hash, whatever calls any clients make one at a time, with any replica count each, every
    reply is that of a single map.  No node is called `""`: `config.py` replaces an empty
    `node_id`. -/
theorem directory_refines_one_map (hash : String → Nat) (vnodes : Nat) (history : List RingOp)
    (hring : (run hash vnodes history).sortedKeys ≠ [])
    (hnames : "" ∉ (run hash vnodes history).nodes) {C : Type} (replicas : C → Int)
    (calls : List (C × Call DataLocation)) :
    serveAll hash wire (fun _ => true)
        (calls.map (fun q => (DirectoryClient.new (run hash vnodes history) (replicas q.1), q.2)))
        (fun _ => OrderedDict.empty)
      = mapServeAll (calls.map Prod.snd) (fun _ => none) :=
  serveAll_sim (run_held hash vnodes history) hring hnames replicas calls (fun _ _ _ => rfl)

/-- Two clients with different replica counts over two nodes. -/
theorem directory_refines_one_map_two_clients :
    let loc : DataLocation := ⟨"a", "10.0.0.1:7000", 4096, 17, 64, true, ["10.0.0.1:7000"], [17]⟩
    serveAll charCode wire (fun _ => true)
        ([(true, .put ⟨[("k", loc)], by decide⟩), (false, .get ["k", "x", "k"]), (false, .delete ["k"]),
          (true, .existsKeys ["k"])].map (fun q : Bool × Call DataLocation =>
            (DirectoryClient.new (run charCode 2 [.addNode "a", .addNode "b"]) (if q.1 then 1 else 2),
              q.2)))
        (fun _ => OrderedDict.empty)
      = [.done, .locations [some loc, none, some loc], .done, .present [false]] :=
  directory_refines_one_map charCode 2 [.addNode "a", .addNode "b"] (by decide) (by decide)
    (fun c : Bool => if c then 1 else 2) _

/-! ## The directory of `DirectoryProofs` -/

/-- Locations without endpoints on the wire: the endpoints are those of the node they name, and
    the rails are sent with a resident location only. -/
def located (endpoint : String → String) (railEndpoints : String → List String)
    (railRkeys : String → List Int) : Codec PeerCacheDirectory.DataLocation where
  toDict l := toDict ⟨l.nodeId, endpoint l.nodeId, l.remoteAddr, l.rkey, l.length, l.resident,
    if l.resident then railEndpoints l.nodeId else [], if l.resident then railRkeys l.nodeId else []⟩
  fromDict d := (fromDict d).map (fun l =>
    ⟨l.nodeId, l.remoteAddr.toNat, l.rkey.toNat, l.length.toNat, l.resident⟩)
  fromDict_toDict l := by rw [fromDict_toDict]; rfl
  toDict_ne _ h := nomatch h

/-- The shards hold the encoded entries of the abstract ones. -/
def Represents (codec : Codec PeerCacheDirectory.DataLocation) (dir : PeerCacheDirectory.Shards)
    (shards : Shards) : Prop :=
  ∀ node k, (shards node).get? k = ((dir node).get? k).map codec.toDict

variable {codec : Codec PeerCacheDirectory.DataLocation} {dir : PeerCacheDirectory.Shards}
  {shards : Shards}

lemma put_represents (h : Represents codec dir shards)
    (entries : OrderedDict String PeerCacheDirectory.DataLocation) :
    Represents codec (PeerCacheDirectory.put (owners hash c) dir entries)
      (put hash codec (fun _ => true) c shards entries) := by
  intro node k
  rw [put_get?, PeerCacheDirectory.put_get?, h]
  simp only [and_true]
  by_cases hn : node ∈ owners hash c k
  · rw [if_pos hn, if_pos hn, map_or]
  · rw [if_neg hn, if_neg hn]; rfl

lemma delete_represents (h : Represents codec dir shards) (keys : List String) :
    Represents codec (PeerCacheDirectory.delete (owners hash c) dir keys)
      (delete hash (fun _ => true) c shards keys) := by
  intro node k
  rw [delete_get?, PeerCacheDirectory.delete_get?, h]
  simp only [and_true]
  by_cases hk : k ∈ keys ∧ node ∈ owners hash c k
  · rw [if_pos hk, if_pos hk]; rfl
  · rw [if_neg hk, if_neg hk]

lemma view_eq_primary (dir : PeerCacheDirectory.Shards) (k : String) :
    PeerCacheDirectory.view (owners hash c) dir k
      = (primary hash c k).elim none (fun p => (dir p).get? k) := by
  rw [PeerCacheDirectory.view, primary]
  cases owners hash c k with
  | nil => rfl
  | cons p rest => rfl

lemma get_represents (hr : 1 ≤ c.replicas) (h : Represents codec dir shards) (keys : List String) :
    get hash codec (fun _ => true) c shards keys
      = PeerCacheDirectory.get (owners hash c) dir keys := by
  have hread : ∀ k ∈ keys, ∀ p, primary hash c k = some p →
      (shards p).get? k = (PeerCacheDirectory.view (owners hash c) dir k).map codec.toDict := by
    intro k _ p hp
    rw [h, view_eq_primary, hp]
    rfl
  refine (get_all hr _ hread).trans (List.map_congr_left ?_)
  intro k _
  show _ = PeerCacheDirectory.view (owners hash c) dir k
  rw [view_eq_primary]
  cases primary hash c k with
  | none => rfl
  | some p => rfl

lemma existsKeys_represents (h : Represents codec dir shards) (keys : List String) :
    existsKeys hash (fun _ => true) c shards keys
      = PeerCacheDirectory.existsKeys (owners hash c) dir keys := by
  rw [existsKeys_eq, PeerCacheDirectory.existsKeys_eq_view]
  refine List.map_congr_left ?_
  intro k _
  rw [view_eq_primary]
  cases primary hash c k with
  | none => rfl
  | some p =>
    show (true && ((shards p).get? k).isSome) = ((dir p).get? k).isSome
    rw [h, isSome_map, Bool.true_and]

/-- A call on the shards of `DirectoryProofs`, with the owners as its client computes them. -/
def dirServe (owners : String → List String) (dir : PeerCacheDirectory.Shards) :
    Call PeerCacheDirectory.DataLocation →
      Reply PeerCacheDirectory.DataLocation × PeerCacheDirectory.Shards
  | .put entries => (.done, PeerCacheDirectory.put owners dir entries)
  | .delete keys => (.done, PeerCacheDirectory.delete owners dir keys)
  | .get keys => (.locations (PeerCacheDirectory.get owners dir keys), dir)
  | .existsKeys keys => (.present (PeerCacheDirectory.existsKeys owners dir keys), dir)

/-- The replies of the shards of `DirectoryProofs`. -/
def dirServeAll : List ((String → List String) × Call PeerCacheDirectory.DataLocation) →
    PeerCacheDirectory.Shards → List (Reply PeerCacheDirectory.DataLocation)
  | [], _ => []
  | (owners, call) :: calls, dir =>
      let r := dirServe owners dir call
      r.1 :: dirServeAll calls r.2

lemma serve_represents (hr : 1 ≤ c.replicas) (h : Represents codec dir shards)
    (call : Call PeerCacheDirectory.DataLocation) :
    (serve hash codec (fun _ => true) c shards call).1 = (dirServe (owners hash c) dir call).1
      ∧ Represents codec (dirServe (owners hash c) dir call).2
          (serve hash codec (fun _ => true) c shards call).2 := by
  cases call with
  | put entries => exact ⟨rfl, put_represents h entries⟩
  | delete keys => exact ⟨rfl, delete_represents h keys⟩
  | get keys => exact ⟨congrArg Reply.locations (get_represents hr h keys), h⟩
  | existsKeys keys => exact ⟨congrArg Reply.present (existsKeys_represents h keys), h⟩

/-- **THE CLIENTS REFINE THE DIRECTORY OF `DirectoryProofs`.**  Whatever calls any clients make one at
    a time, each over a ring and a replica count of its own, grouped by owner and encoded on the
    wire: every reply is that of the abstract shards. -/
theorem clients_refine_directory (hash : String → Nat) (codec : Codec PeerCacheDirectory.DataLocation)
    (calls : List (DirectoryClient × Call PeerCacheDirectory.DataLocation))
    (hreplicas : ∀ q ∈ calls, 1 ≤ q.1.replicas) (dir : PeerCacheDirectory.Shards) (shards : Shards)
    (h : Represents codec dir shards) :
    serveAll hash codec (fun _ => true) calls shards
      = dirServeAll (calls.map (fun q => (owners hash q.1, q.2))) dir := by
  induction calls generalizing dir shards with
  | nil => rfl
  | cons q calls ih =>
    obtain ⟨hq, hcalls⟩ := List.forall_mem_cons.mp hreplicas
    obtain ⟨hreply, hnext⟩ := serve_represents hq h q.2
    rw [List.map_cons, serveAll, dirServeAll]
    exact congrArg₂ List.cons hreply (ih hcalls _ _ hnext)

/-- A client that does not know of the node `b` yet, and one that does. -/
theorem clients_refine_directory_two_rings :
    let loc : PeerCacheDirectory.DataLocation := ⟨"a", 4096, 7, 64, true⟩
    let one := DirectoryClient.new (run charCode 2 [.addNode "a"]) 1
    let two := DirectoryClient.new (run charCode 2 [.addNode "a", .addNode "b"]) 2
    serveAll charCode (located id (fun _ => []) (fun _ => [])) (fun _ => true)
        [(two, .put ⟨[("k", loc)], by decide⟩), (one, .get ["k", "x"]), (one, .delete ["k"]),
          (two, .existsKeys ["k"])] (fun _ => OrderedDict.empty)
      = [.done, .locations [some loc, none], .done, .present [false]] :=
  clients_refine_directory charCode (located id (fun _ => []) (fun _ => [])) _ (by decide)
    (fun _ => OrderedDict.empty) _ (fun _ _ => rfl)

end

end PeerCacheDirectoryClient
