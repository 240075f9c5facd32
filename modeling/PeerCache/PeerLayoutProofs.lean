import PeerCache.HashRingProofs
import PeerCache.SlotRegionProofs
import PeerCache.TransitionProofs

/-! # Cached slot layouts and the incarnation of their owner

    A node that reads or writes slots at another needs the base address, the keys and the
    geometry of its region.  `_peer_layout` asks for them once over the control endpoint and
    caches the answer "for a node's lifetime"; `_on_membership_change` drops the cache. -/

namespace PeerCacheLayout

open PeerCacheRing PeerCacheSlot Transition

/-! ## Members -/

structure NodeInfo where
  nodeId : String
  controlHost : String
  controlPort : Int
  rdmaHost : String
  rdmaPort : Int
  role : String := "inference"

/-- `control_endpoint` -/
def NodeInfo.controlEndpoint (m : NodeInfo) : String := m.controlHost ++ ":" ++ toString m.controlPort

/-- `{m["node_id"]: NodeInfo.from_dict(m) for m in raw_members}` -/
def membersOf (raw : List NodeInfo) : OrderedDict String NodeInfo :=
  raw.foldl (fun d m => d.set m.nodeId m) OrderedDict.empty

/-- `DiscoveryClient.control_of` -/
def controlOf (members : OrderedDict String NodeInfo) (node : String) : Option String :=
  (members.get? node).map NodeInfo.controlEndpoint

/-! ## Layouts -/

/-- What `_on_slot_layout` says of a region. -/
structure RegionInfo where
  baseAddr : Nat
  rkeys : List Nat
  railEndpoints : List String
  geom : SlotGeometry

/-- Where a layout is from. -/
inductive Origin where
  | own
  | fetched (endpoint : String)

/-- A layout of the cache, with its origin, which the code does not keep. -/
structure SlotLayout where
  region : RegionInfo
  origin : Origin

/-- What one node knows of its peers: `_members` of its discovery client, the rings of its runtime,
    its slot region once it has one, and `_peer_layouts`. -/
structure Runtime where
  nodeId : String
  members : OrderedDict String NodeInfo
  ring : ConsistentHashRing
  dataRing : ConsistentHashRing
  slotRegion : Option RegionInfo
  peerLayouts : OrderedDict String SlotLayout

namespace Runtime

def start (nodeId : String) (vnodes : Nat) : Runtime :=
  ⟨nodeId, OrderedDict.empty, new vnodes, new vnodes, none, OrderedDict.empty⟩

/-- `_ensure_slot_region` -/
def ensureSlotRegion (s : Runtime) (region : RegionInfo) : Runtime :=
  { s with slotRegion := s.slotRegion.or (some region) }

/-- `_invalidate_peer_layouts` -/
def invalidatePeerLayouts (s : Runtime) : Runtime := { s with peerLayouts := OrderedDict.empty }

/-- `_on_membership_change` in slotmap mode. -/
def onMembershipChange (s : Runtime) : Runtime := s.invalidatePeerLayouts

/-- `[m.node_id for m in members]` -/
def allIds (members : List NodeInfo) : List String := members.map NodeInfo.nodeId

/-- The ids of the members with the storage role. -/
def storageIds (members : List NodeInfo) : List String :=
  (members.filter (fun m => m.role = "storage")).map NodeInfo.nodeId

/-- `changed` of `_on_members`. -/
def Changed (s : Runtime) (members : List NodeInfo) : Prop :=
  (allIds members).toFinset ≠ s.ring.nodes ∨ (storageIds members).toFinset ≠ s.dataRing.nodes

instance (s : Runtime) (members : List NodeInfo) : Decidable (s.Changed members) :=
  inferInstanceAs (Decidable (_ ∨ _))

variable (hash : String → Nat)

/-- `NodeRuntime._on_members`; the orders are those in which `set_nodes` happens to iterate. -/
def onMembers (s : Runtime) (members : List NodeInfo) (order storageOrder : List String) : Runtime :=
  let t : Runtime :=
    { s with
      ring := setNodes hash s.ring (allIds members) order
      dataRing := setNodes hash s.dataRing (storageIds members) storageOrder }
  if s.Changed members then t.onMembershipChange else t

/-- `DiscoveryClient._apply_members` -/
def applyMembers (s : Runtime) (raw : List NodeInfo) (order storageOrder : List String) : Runtime :=
  onMembers hash { s with members := membersOf raw } ((membersOf raw).items.map Prod.snd) order
    storageOrder

/-- `_peer_layout`.  `reply` is what the `slot_layout` call comes back with, if there is one: an
    exception, an answer that is not ok, or a region. -/
def peerLayout (s : Runtime) (node : String) (reply : Except String (Option RegionInfo)) :
    Option SlotLayout × Runtime :=
  match if node = s.nodeId then s.slotRegion else none with
  | some region =>
      match s.peerLayouts.get? node with
      | some lay => (some lay, s)
      | none =>
          (some ⟨region, .own⟩, { s with peerLayouts := s.peerLayouts.set node ⟨region, .own⟩ })
  | none =>
      match s.peerLayouts.get? node with
      | some lay => (some lay, s)
      | none =>
          match controlOf s.members node with
          | none => (none, s)
          | some endpoint =>
              match reply with
              | .error _ => (none, s)
              | .ok none => (none, s)
              | .ok (some region) =>
                  (some ⟨region, .fetched endpoint⟩,
                    { s with peerLayouts := s.peerLayouts.set node ⟨region, .fetched endpoint⟩ })

end Runtime

/-- What can happen at a node.  `late` is the end of a call of `_peer_layout` in another thread,
    which asked `endpoint` some time ago and now stores the answer. -/
inductive LayoutOp where
  | update (raw : List NodeInfo) (order storageOrder : List String)
  | ensureSlotRegion (region : RegionInfo)
  | peerLayout (node : String) (reply : Except String (Option RegionInfo))
  | late (node endpoint : String) (region : RegionInfo)

def layoutStep (hash : String → Nat) (s : Runtime) : LayoutOp → Runtime
  | .update raw order storageOrder => s.applyMembers hash raw order storageOrder
  | .ensureSlotRegion region => s.ensureSlotRegion region
  | .peerLayout node reply => (s.peerLayout node reply).2
  | .late node endpoint region =>
      { s with peerLayouts := s.peerLayouts.set node ⟨region, .fetched endpoint⟩ }

/-! ## Layouts of the listed incarnation -/

/-- The layout is the node's own, or was fetched from the control endpoint that the latest update
    lists for the node. -/
def Current (s : Runtime) (node : String) (lay : SlotLayout) : Prop :=
  match lay.origin with
  | .own => node = s.nodeId
  | .fetched endpoint => controlOf s.members node = some endpoint

/-- Every layout in the cache is. -/
def AllCurrent (s : Runtime) : Prop :=
  ∀ node lay, s.peerLayouts.get? node = some lay → Current s node lay

/-- The step leaves no layout of another incarnation in the cache: an update that keeps the ids keeps
    the control endpoint of every node whose layout was fetched, and an answer is from the
    endpoint that is still listed. -/
def Keeps (s : Runtime) : LayoutOp → Prop
  | .update raw _ _ =>
      s.Changed ((membersOf raw).items.map Prod.snd) ∨
        ∀ node region endpoint, s.peerLayouts.get? node = some ⟨region, .fetched endpoint⟩ →
          controlOf (membersOf raw) node = controlOf s.members node
  | .ensureSlotRegion _ => True
  | .peerLayout _ _ => True
  | .late node endpoint _ => controlOf s.members node = some endpoint

section

variable {hash : String → Nat} {s : Runtime}

variable {region : RegionInfo} {lay : SlotLayout}

lemma current_own {node : String} :
    Current s node ⟨region, .own⟩ ↔ node = s.nodeId := Iff.rfl

lemma current_fetched {node endpoint : String} :
    Current s node ⟨region, .fetched endpoint⟩ ↔ controlOf s.members node = some endpoint := Iff.rfl

lemma peerLayout_cached {node : String} (h : s.peerLayouts.get? node = some lay)
    (reply : Except String (Option RegionInfo)) : s.peerLayout node reply = (some lay, s) := by
  unfold Runtime.peerLayout
  simp only [h]
  split <;> rfl

lemma peerLayout_uncached {node : String} (h : s.peerLayouts.get? node = none)
    (reply : Except String (Option RegionInfo)) :
    s.peerLayout node reply = (none, s) ∨ ∃ lay, Current s node lay ∧ s.peerLayout node reply
            = (some lay, { s with peerLayouts := s.peerLayouts.set node lay }) := by
  unfold Runtime.peerLayout
  simp only [h]
  split
  next region hown =>
    refine .inr ⟨⟨region, .own⟩, ?_, rfl⟩
    split_ifs at hown with hme
    exact hme
  next =>
    cases hcontrol : controlOf s.members node with
    | none => exact .inl rfl
    | some endpoint =>
      cases reply with
      | error message => exact .inl rfl
      | ok answer =>
        cases answer with
        | none => exact .inl rfl
        | some region => exact .inr ⟨⟨region, .fetched endpoint⟩, hcontrol, rfl⟩

lemma returned_current_iff :
    (∀ node reply lay, (s.peerLayout node reply).1 = some lay → Current s node lay) ↔ AllCurrent s := by
  constructor
  · intro h node lay hlay
    refine h node (.ok none) lay ?_
    rw [peerLayout_cached hlay]
  · intro h node reply lay hret
    cases hcached : s.peerLayouts.get? node with
    | some cached =>
      rw [peerLayout_cached hcached] at hret
      exact Option.some.inj hret ▸ h node cached hcached
    | none =>
      rcases peerLayout_uncached hcached reply with hnone | ⟨new, hcurrent, hnew⟩
      · rw [hnone] at hret; cases hret
      · rw [hnew] at hret; exact Option.some.inj hret ▸ hcurrent

lemma allCurrent_set (h : AllCurrent s) {node : String} :
    AllCurrent { s with peerLayouts := s.peerLayouts.set node lay } ↔ Current s node lay := by
  constructor
  · intro hall; exact hall node lay (by rw [OrderedDict.get?_set, if_pos rfl])
  · intro hcurrent other cached hget
    rw [OrderedDict.get?_set] at hget
    split_ifs at hget with hother
    · rw [hother, ← Option.some.inj hget]; exact hcurrent
    · exact h other cached hget

lemma allCurrent_peerLayout (h : AllCurrent s) (node : String)
    (reply : Except String (Option RegionInfo)) : AllCurrent (s.peerLayout node reply).2 := by
  cases hcached : s.peerLayouts.get? node with
  | some cached =>
    rw [peerLayout_cached hcached]
    exact h
  | none =>
    rcases peerLayout_uncached hcached reply with hnone | ⟨new, hcurrent, hnew⟩
    · rw [hnone]; exact h
    · rw [hnew]; exact (allCurrent_set h).mpr hcurrent

lemma applyMembers_eq (raw : List NodeInfo) (order storageOrder : List String) :
    (s.applyMembers hash raw order storageOrder).nodeId = s.nodeId
      ∧ (s.applyMembers hash raw order storageOrder).members = membersOf raw
      ∧ (s.applyMembers hash raw order storageOrder).peerLayouts
        = if s.Changed ((membersOf raw).items.map Prod.snd) then OrderedDict.empty
          else s.peerLayouts := by
  have hchanged : Runtime.Changed { s with members := membersOf raw }
      ((membersOf raw).items.map Prod.snd) ↔ s.Changed ((membersOf raw).items.map Prod.snd) := Iff.rfl
  unfold Runtime.applyMembers Runtime.onMembers
  simp only [hchanged]
  split_ifs
  · exact ⟨rfl, rfl, rfl⟩
  · exact ⟨rfl, rfl, rfl⟩

lemma allCurrent_update (h : AllCurrent s) (raw : List NodeInfo) (order storageOrder : List String) :
    AllCurrent (s.applyMembers hash raw order storageOrder)
      ↔ Keeps s (.update raw order storageOrder) := by
  obtain ⟨hid, hmembers, hlayouts⟩ :
      _ ∧ _ ∧ (s.applyMembers hash raw order storageOrder).peerLayouts = _ :=
    applyMembers_eq raw order storageOrder
  unfold AllCurrent
  rw [hlayouts]
  split_ifs with hchanged
  · refine iff_of_true ?_ (.inl hchanged)
    intro node lay hlay
    rw [OrderedDict.get?_empty] at hlay
    cases hlay
  · constructor
    · intro hall
      refine Or.inr ?_
      intro node region endpoint hlay
      have hbefore := current_fetched.mp (h node _ hlay)
      have hafter := current_fetched.mp (hall node _ hlay)
      rw [hmembers] at hafter
      exact hafter.trans hbefore.symm
    · rintro (hyes | hkeeps) node lay hlay
      · exact absurd hyes hchanged
      · obtain ⟨region, origin⟩ := lay
        cases origin with
        | own =>
          rw [current_own, hid]
          exact current_own.mp (h node _ hlay)
        | fetched endpoint =>
          rw [current_fetched, hmembers, hkeeps node region endpoint hlay]
          exact current_fetched.mp (h node _ hlay)

lemma allCurrent_step (h : AllCurrent s) (op : LayoutOp) :
    AllCurrent (layoutStep hash s op) ↔ Keeps s op := by
  cases op with
  | update raw order storageOrder => exact allCurrent_update h raw order storageOrder
  | ensureSlotRegion region => exact iff_of_true h trivial
  | peerLayout node reply => exact iff_of_true (allCurrent_peerLayout h node reply) trivial
  | late node endpoint region => exact allCurrent_set h

lemma allCurrent_start (nodeId : String) (vnodes : Nat) : AllCurrent (Runtime.start nodeId vnodes) := by
  intro node lay hlay
  cases hlay

end

/-- **LAYOUTS OF THE LISTED INCARNATION**: over any updates, reads and writes, every layout that
    `_peer_layout` returns is from the control endpoint that the latest update lists, exactly if
    each update that leaves the ids as they are keeps the control endpoints of the nodes with
    cached layouts and each answer arrives while the endpoint it is from is listed. -/
theorem layouts_current_iff (hash : String → Nat) (vnodes : Nat) (me : String) (ops : List LayoutOp) :
    (∀ pre, pre <+: ops → ∀ node reply lay,
        ((pre.foldl (layoutStep hash) (Runtime.start me vnodes)).peerLayout node reply).1 = some lay →
          Current (pre.foldl (layoutStep hash) (Runtime.start me vnodes)) node lay)
      ↔ Guarded (fun s op => some (layoutStep hash s op)) Keeps (Runtime.start me vnodes) ops := by
  refine Iff.trans ?_ (foldl_always_iff (I := fun _ => True) (P := AllCurrent) (fun _ _ _ => trivial)
    (fun _ op _ hs => allCurrent_step hs op) trivial (allCurrent_start me vnodes))
  exact forall₂_congr fun pre _ => returned_current_iff

/-- A region of one slot. -/
def oneSlot : RegionInfo :=
  ⟨4096, [17], ["10.0.0.2:7100"], ⟨64, 1, 1, Nat.one_pos, Nat.one_pos⟩⟩

/-- A node that comes back under its id, at another port, between two calls. -/
def restarted : List LayoutOp :=
  [.update [⟨"b", "10.0.0.2", 7000, "10.0.0.2", 7100, "inference"⟩] ["b"] [],
    .peerLayout "b" (.ok (some oneSlot)),
    .update [⟨"b", "10.0.0.2", 7001, "10.0.0.2", 7101, "inference"⟩] ["b"] []]

/-- The node is listed at port 7001, and the layout that is returned is from port 7000. -/
theorem restarted_layout_returned :
    let s := restarted.foldl (layoutStep charCode) (Runtime.start "a" 1)
    controlOf s.members "b" = some "10.0.0.2:7001"
      ∧ (s.peerLayout "b" (.ok none)).1 = some ⟨oneSlot, .fetched "10.0.0.2:7000"⟩
      ∧ ¬ Current s "b" ⟨oneSlot, .fetched "10.0.0.2:7000"⟩ := by
  intro s
  have hlisted : controlOf s.members "b" = some "10.0.0.2:7001" := by decide
  refine ⟨hlisted, rfl, ?_⟩
  rw [current_fetched, hlisted]
  decide

end PeerCacheLayout
