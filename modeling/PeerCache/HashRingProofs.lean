import Mathlib
import PeerCache.OrderedDictProofs

/-! # The consistent-hash ring — placement is a function of the membership

    `ConsistentHashRing` (`hashring.py`) keeps three things in step: the node set, the
    map from vnode hash to node, and the sorted list of its keys.  Nodes reach a
    membership through different histories (adds, removes, bulk replacement in any
    set order), so the ring must carry no residue of them. -/

namespace PeerCacheRing

open OrderedDict

/-- `ConsistentHashRing`: `_vnodes`, `_ring`, `_sorted_keys`, `_nodes`. -/
structure ConsistentHashRing where
  vnodes : Nat
  ring : OrderedDict Nat String
  sortedKeys : List Nat
  nodes : Finset String

/-- `ConsistentHashRing.__init__` -/
def new (vnodes : Nat) : ConsistentHashRing := ⟨vnodes, OrderedDict.empty, [], ∅⟩

/-- `f"{node_id}#{i}"` -/
def vnodeLabel (nodeId : String) (i : Nat) : String := nodeId ++ "#" ++ toString i

/-- `bisect.bisect(a, x)` on a sorted list: how many elements come at or before `x`. -/
def bisect (a : List Nat) (x : Nat) : Nat := (a.takeWhile (fun y => decide (y ≤ x))).length

variable (hash : String → Nat)

/-- The loop of `add_node` over the vnodes of one node. -/
def insertVnodes (vnodes : Nat) (ring : OrderedDict Nat String) (nodeId : String) :
    OrderedDict Nat String :=
  (List.range vnodes).foldl (fun d i => d.set (hash (vnodeLabel nodeId i)) nodeId) ring

/-- The loop of `remove_node` over the vnodes of one node. -/
def popVnodes (vnodes : Nat) (ring : OrderedDict Nat String) (nodeId : String) :
    OrderedDict Nat String :=
  (List.range vnodes).foldl (fun d i => d.erase (hash (vnodeLabel nodeId i))) ring

/-- `_rebuild` -/
def rebuild (r : ConsistentHashRing) : ConsistentHashRing :=
  { r with sortedKeys := r.ring.keys.insertionSort (· ≤ ·) }

/-- `add_node` -/
def addNode (r : ConsistentHashRing) (nodeId : String) : ConsistentHashRing :=
  if nodeId ∈ r.nodes then r
  else rebuild { r with
    nodes := insert nodeId r.nodes
    ring := insertVnodes hash r.vnodes r.ring nodeId }

/-- `remove_node` -/
def removeNode (r : ConsistentHashRing) (nodeId : String) : ConsistentHashRing :=
  if nodeId ∈ r.nodes then
    rebuild { r with
      nodes := r.nodes.erase nodeId
      ring := popVnodes hash r.vnodes r.ring nodeId }
  else r

/-- `set_nodes`; `order` is the order in which Python happens to iterate the set
    `set(node_ids)`. -/
def setNodes (r : ConsistentHashRing) (nodeIds order : List String) : ConsistentHashRing :=
  if nodeIds.toFinset = r.nodes then r
  else rebuild { r with
    nodes := nodeIds.toFinset
    ring := order.foldl (insertVnodes hash r.vnodes) OrderedDict.empty }

/-- `self._ring[self._sorted_keys[i % count]]`.  The defaults stand for an `IndexError` and
    a `KeyError`, which do not occur: `sortedKeys` are the keys of `ring`. -/
def nodeAt (r : ConsistentHashRing) (i : Nat) : String :=
  (r.ring.get? (r.sortedKeys.getD (i % r.sortedKeys.length) 0)).getD ""

/-- `get_node` -/
def getNode (r : ConsistentHashRing) (key : String) : Option String :=
  if r.sortedKeys = [] then none
  else
    let idx := bisect r.sortedKeys (hash key)
    let idx := if idx = r.sortedKeys.length then 0 else idx
    some (nodeAt r idx)

/-- The `while len(result) < n` loop of `get_nodes`.  The safety break leaves after
    `count + 1` turns, which is what `fuel` is started at. -/
def getNodesLoop (r : ConsistentHashRing) (idx n : Nat) : Nat → Nat → List String → List String
  | 0, _, result => result
  | fuel + 1, i, result =>
      if result.length < n then
        let node := nodeAt r i
        let result := if node ∈ result then result else result ++ [node]
        if i + 1 - idx > r.sortedKeys.length then result
        else getNodesLoop r idx n fuel (i + 1) result
      else result

/-- `get_nodes` -/
def getNodes (r : ConsistentHashRing) (key : String) (n : Int) : List String :=
  if r.sortedKeys = [] ∨ n ≤ 0 then []
  else
    let n := min n.toNat r.nodes.card
    let idx := bisect r.sortedKeys (hash key)
    getNodesLoop r idx n (r.sortedKeys.length + 1) idx []

/-! ## Histories -/

/-- A membership call.  A bulk replacement carries the iteration order of its set. -/
inductive RingOp where
  | addNode (nodeId : String)
  | removeNode (nodeId : String)
  | setNodes (nodeIds order : List String) (isOrder : order.Perm nodeIds.dedup)

/-- The nodes a call names. -/
def RingOp.nodeIds : RingOp → List String
  | .addNode nodeId => [nodeId]
  | .removeNode nodeId => [nodeId]
  | .setNodes nodeIds _ _ => nodeIds

/-- The ring after a call. -/
def step (r : ConsistentHashRing) : RingOp → ConsistentHashRing
  | .addNode nodeId => addNode hash r nodeId
  | .removeNode nodeId => removeNode hash r nodeId
  | .setNodes nodeIds order _ => setNodes hash r nodeIds order

/-- The ring after a sequence of calls on a fresh ring. -/
def run (vnodes : Nat) (ops : List RingOp) : ConsistentHashRing :=
  ops.foldl (step hash) (new vnodes)

/-! ## Vnode labels -/

lemma toString_no_hash (i : Nat) : '#' ∉ (toString i).toList := by
  intro h
  have hdig : '#' ∈ Nat.toDigits 10 i := by
    simpa [Nat.repr] using h
  have := Nat.isDigit_of_mem_toDigits (by decide) (by decide) hdig
  exact absurd this (by decide)

lemma split_at_last {c : Char} {xs ys s t : List Char} (hs : c ∉ s) (ht : c ∉ t)
    (h : xs ++ c :: s = ys ++ c :: t) : xs = ys := by
  rcases List.append_eq_append_iff.mp h with ⟨as, hys, hcs⟩ | ⟨bs, hxs, hct⟩
  · cases as with
    | nil => rw [hys, List.append_nil]
    | cons a as =>
      obtain ⟨-, hs'⟩ := List.cons.inj hcs
      exact absurd (hs' ▸ List.mem_append_right as (.head _)) hs
  · cases bs with
    | nil => rw [hxs, List.append_nil]
    | cons b bs =>
      obtain ⟨-, ht'⟩ := List.cons.inj hct
      exact absurd (ht' ▸ List.mem_append_right bs (.head _)) ht

variable {n m : String} {vnodes : Nat} {op : RingOp} {r' : ConsistentHashRing}

lemma vnodeLabel_node {i j : Nat} (h : vnodeLabel n i = vnodeLabel m j) : n = m := by
  have hl : n.toList ++ '#' :: (toString i).toList = m.toList ++ '#' :: (toString j).toList := by
    have := congrArg String.toList h
    simpa [vnodeLabel] using this
  exact String.toList_injective (split_at_last (toString_no_hash i) (toString_no_hash j) hl)

/-! ## The map holds the vnodes of the nodes, and nothing else -/

/-- The vnode labels of a set of nodes. -/
def labels (vnodes : Nat) (play : Set String) : Set String :=
  { l | ∃ n ∈ play, ∃ i < vnodes, l = vnodeLabel n i }

/-- `h` is the hash of a vnode of `n`. -/
def IsVnode (vnodes : Nat) (n : String) (h : Nat) : Prop :=
  ∃ i < vnodes, hash (vnodeLabel n i) = h

/-- No residue of the history: the map is the vnode hashes of the nodes, and the sorted
    keys are its keys. -/
structure Canonical (r : ConsistentHashRing) : Prop where
  ring_iff : ∀ h n, r.ring.get? h = some n ↔ n ∈ r.nodes ∧ IsVnode hash r.vnodes n h
  sorted : r.sortedKeys = r.ring.keys.insertionSort (· ≤ ·)

variable {hash}

lemma isVnode_node {play : Set String} (hinj : Set.InjOn hash (labels vnodes play)) {h : Nat}
    (hn : n ∈ play) (hm : m ∈ play) (h1 : IsVnode hash vnodes n h) (h2 : IsVnode hash vnodes m h) :
    n = m := by
  obtain ⟨i, hi, rfl⟩ := h1
  obtain ⟨j, hj, hij⟩ := h2
  exact vnodeLabel_node (hinj ⟨n, hn, i, hi, rfl⟩ ⟨m, hm, j, hj, rfl⟩ hij.symm)

private lemma get?_foldl_vnodes {nodeId : String} {h : Nat} {val : Option String}
    {f : OrderedDict Nat String → Nat → OrderedDict Nat String}
    (hf : ∀ d i, (f d i).get? h = if h = hash (vnodeLabel nodeId i) then val else d.get? h)
    (l : List Nat) (ring : OrderedDict Nat String) :
    (l.foldl f ring).get? h
      = if ∃ i ∈ l, hash (vnodeLabel nodeId i) = h then val else ring.get? h := by
  induction l generalizing ring with
  | nil => simp
  | cons i l ih =>
    rw [List.foldl_cons, ih, hf]
    by_cases hrest : ∃ j ∈ l, hash (vnodeLabel nodeId j) = h
    · obtain ⟨j, hj, hjh⟩ := hrest
      rw [if_pos ⟨j, hj, hjh⟩, if_pos ⟨j, List.mem_cons_of_mem i hj, hjh⟩]
    · rw [if_neg hrest]
      by_cases hi : h = hash (vnodeLabel nodeId i)
      · rw [if_pos hi, if_pos ⟨i, (.head _), hi.symm⟩]
      · rw [if_neg hi, if_neg]
        rintro ⟨j, hj, hjh⟩
        rcases List.mem_cons.mp hj with rfl | hj
        · exact hi hjh.symm
        · exact hrest ⟨j, hj, hjh⟩

private lemma isVnode_iff (vnodes : Nat) (nodeId : String) (h : Nat) :
    (∃ i ∈ List.range vnodes, hash (vnodeLabel nodeId i) = h) ↔ IsVnode hash vnodes nodeId h := by
  simp only [IsVnode, List.mem_range]

instance (vnodes : Nat) (nodeId : String) (h : Nat) : Decidable (IsVnode hash vnodes nodeId h) :=
  decidable_of_iff _ (isVnode_iff vnodes nodeId h)

lemma get?_insertVnodes (vnodes : Nat) (ring : OrderedDict Nat String) (nodeId : String)
    (h : Nat) :
    (insertVnodes hash vnodes ring nodeId).get? h
      = if IsVnode hash vnodes nodeId h then some nodeId else ring.get? h := by
  rw [insertVnodes, get?_foldl_vnodes (fun d i => get?_set d _ h nodeId)]
  exact if_congr (isVnode_iff vnodes nodeId h) rfl rfl

lemma get?_popVnodes (vnodes : Nat) (ring : OrderedDict Nat String) (nodeId : String) (h : Nat) :
    (popVnodes hash vnodes ring nodeId).get? h
      = if IsVnode hash vnodes nodeId h then none else ring.get? h := by
  rw [popVnodes, get?_foldl_vnodes (fun d i => get?_erase d _ h)]
  exact if_congr (isVnode_iff vnodes nodeId h) rfl rfl

lemma get?_foldl_insertVnodes {vnodes : Nat} {play : Set String}
    (hinj : Set.InjOn hash (labels vnodes play)) (h : Nat) (n : String) :
    ∀ (order : List String), (∀ m ∈ order, m ∈ play) → ∀ ring : OrderedDict Nat String,
      (∀ m, ring.get? h = some m → m ∈ play ∧ IsVnode hash vnodes m h) →
      ((order.foldl (insertVnodes hash vnodes) ring).get? h = some n
        ↔ (n ∈ order ∧ IsVnode hash vnodes n h) ∨ ring.get? h = some n) := by
  intro order
  induction order with
  | nil => intro _ ring _; simp
  | cons m order ih =>
    intro hplay ring hring
    have hm : m ∈ play := hplay m (.head _)
    have hnext : ∀ x, (insertVnodes hash vnodes ring m).get? h = some x →
        x ∈ play ∧ IsVnode hash vnodes x h := by
      intro x hx
      rw [get?_insertVnodes] at hx
      split_ifs at hx with hv
      · cases hx; exact ⟨hm, hv⟩
      · exact hring x hx
    rw [List.foldl_cons, ih (fun x hx => hplay x (List.mem_cons_of_mem m hx)) _ hnext,
      get?_insertVnodes]
    split_ifs with hv
    · constructor
      · rintro (⟨hn, hvn⟩ | hmn)
        · exact .inl ⟨List.mem_cons_of_mem m hn, hvn⟩
        · cases hmn; exact .inl ⟨List.mem_cons_self, hv⟩
      · -- the hash names its node, so whoever holds `h` is `m`
        rintro (⟨hn, hvn⟩ | hold)
        · exact .inr (congrArg some (isVnode_node hinj hm (hplay n hn) hv hvn))
        · obtain ⟨hnp, hvn⟩ := hring n hold
          exact .inr (congrArg some (isVnode_node hinj hm hnp hv hvn))
    · constructor
      · rintro (⟨hn, hvn⟩ | hold)
        · exact .inl ⟨List.mem_cons_of_mem m hn, hvn⟩
        · exact .inr hold
      · rintro (⟨hn, hvn⟩ | hold)
        · rcases List.mem_cons.mp hn with rfl | hn
          · exact absurd hvn hv
          · exact .inl ⟨hn, hvn⟩
        · exact .inr hold

lemma canonical_new (vnodes : Nat) : Canonical hash (new vnodes) := by
  refine ⟨?_, rfl⟩
  intro h n
  constructor
  · intro hn; cases hn
  · rintro ⟨hn, -⟩; exact absurd hn (Finset.notMem_empty n)

/-- The nodes of the ring stay among the nodes in play. -/
def InPlay (play : Set String) (r : ConsistentHashRing) : Prop := ∀ n ∈ r.nodes, n ∈ play

variable {play : Set String} {r : ConsistentHashRing}

lemma canonical_addNode (hinj : Set.InjOn hash (labels r.vnodes play))
    (h : Canonical hash r) (hplay : InPlay play r) {nodeId : String} (hn : nodeId ∈ play) :
    Canonical hash (addNode hash r nodeId) := by
  rw [addNode]
  split_ifs with hmem
  · exact h
  · refine ⟨?_, rfl⟩
    intro x m
    show (insertVnodes hash r.vnodes r.ring nodeId).get? x = some m
      ↔ m ∈ insert nodeId r.nodes ∧ IsVnode hash r.vnodes m x
    rw [get?_insertVnodes, Finset.mem_insert]
    split_ifs with hv
    · constructor
      · intro hm
        cases hm
        exact ⟨.inl rfl, hv⟩
      · rintro ⟨hm | hm, hvm⟩
        · rw [hm]
        · rw [isVnode_node hinj hn (hplay m hm) hv hvm]
    · rw [h.ring_iff]
      constructor
      · rintro ⟨hm, hvm⟩; exact ⟨.inr hm, hvm⟩
      · rintro ⟨hm | hm, hvm⟩
        · rw [hm] at hvm; exact absurd hvm hv
        · exact ⟨hm, hvm⟩

lemma canonical_removeNode (hinj : Set.InjOn hash (labels r.vnodes play))
    (h : Canonical hash r) (hplay : InPlay play r) (nodeId : String) :
    Canonical hash (removeNode hash r nodeId) := by
  rw [removeNode]
  split_ifs with hmem
  · refine ⟨?_, rfl⟩
    intro x m
    show (popVnodes hash r.vnodes r.ring nodeId).get? x = some m
      ↔ m ∈ r.nodes.erase nodeId ∧ IsVnode hash r.vnodes m x
    rw [get?_popVnodes, Finset.mem_erase]
    by_cases hv : IsVnode hash r.vnodes nodeId x
    · rw [if_pos hv]
      constructor
      · intro hm; cases hm
      · rintro ⟨⟨hne, hm⟩, hvm⟩
        exact absurd (isVnode_node hinj (hplay m hm) (hplay _ hmem) hvm hv) hne
    · rw [if_neg hv, h.ring_iff]
      constructor
      · rintro ⟨hm, hvm⟩
        refine ⟨⟨?_, hm⟩, hvm⟩
        rintro rfl
        exact hv hvm
      · rintro ⟨⟨-, hm⟩, hvm⟩; exact ⟨hm, hvm⟩
  · exact h

lemma canonical_setNodes (hinj : Set.InjOn hash (labels r.vnodes play))
    (h : Canonical hash r) {nodeIds order : List String} (horder : order.Perm nodeIds.dedup)
    (hplay : ∀ n ∈ nodeIds, n ∈ play) : Canonical hash (setNodes hash r nodeIds order) := by
  rw [setNodes]
  split_ifs with hsame
  · exact h
  · have hmem : ∀ n, n ∈ order ↔ n ∈ nodeIds := by
      intro n
      rw [horder.mem_iff, List.mem_dedup]
    refine ⟨?_, rfl⟩
    intro x m
    show (order.foldl (insertVnodes hash r.vnodes) OrderedDict.empty).get? x = some m
      ↔ m ∈ nodeIds.toFinset ∧ IsVnode hash r.vnodes m x
    rw [get?_foldl_insertVnodes hinj x m order (fun n hn => hplay n ((hmem n).mp hn)) _
      (fun m hx => absurd hx (by rw [get?_empty]; exact nofun)), hmem,
      List.mem_toFinset, get?_empty]
    exact or_iff_left nofun

/-! ## Runs -/

lemma step_vnodes (r : ConsistentHashRing) (op : RingOp) : (step hash r op).vnodes = r.vnodes := by
  cases op with
  | addNode nodeId =>
    show (addNode hash r nodeId).vnodes = _
    rw [addNode]
    by_cases h : nodeId ∈ r.nodes
    · rw [if_pos h]
    · rw [if_neg h]; rfl
  | removeNode nodeId =>
    show (removeNode hash r nodeId).vnodes = _
    rw [removeNode]
    by_cases h : nodeId ∈ r.nodes
    · rw [if_pos h]; rfl
    · rw [if_neg h]
  | setNodes nodeIds order _ =>
    show (setNodes hash r nodeIds order).vnodes = _
    rw [setNodes]
    by_cases h : nodeIds.toFinset = r.nodes
    · rw [if_pos h]
    · rw [if_neg h]; rfl

lemma step_inPlay (hplay : InPlay play r) (hop : ∀ n ∈ op.nodeIds, n ∈ play) :
    InPlay play (step hash r op) := by
  intro n hn
  cases op with
  | addNode nodeId =>
    have hn' : n ∈ (addNode hash r nodeId).nodes := hn
    rw [addNode] at hn'
    split_ifs at hn' with h
    · exact hplay n hn'
    · rcases Finset.mem_insert.mp hn' with rfl | hn'
      · exact hop _ (.head _)
      · exact hplay n hn'
  | removeNode nodeId =>
    have hn' : n ∈ (removeNode hash r nodeId).nodes := hn
    rw [removeNode] at hn'
    split_ifs at hn' with h
    · exact hplay n (Finset.mem_of_mem_erase hn')
    · exact hplay n hn'
  | setNodes nodeIds order _ =>
    have hn' : n ∈ (setNodes hash r nodeIds order).nodes := hn
    rw [setNodes] at hn'
    split_ifs at hn' with h
    · exact hplay n hn'
    · exact hop n (List.mem_toFinset.mp hn')

/-- **ONE CALL** leaves no residue. -/
lemma step_canonical (hinj : Set.InjOn hash (labels r.vnodes play)) (h : Canonical hash r)
    (hplay : InPlay play r) (hop : ∀ n ∈ op.nodeIds, n ∈ play) : Canonical hash (step hash r op) := by
  cases op with
  | addNode nodeId => exact canonical_addNode hinj h hplay (hop nodeId (.head _))
  | removeNode nodeId => exact canonical_removeNode hinj h hplay nodeId
  | setNodes nodeIds order ho => exact canonical_setNodes hinj h ho hop

/-- The nodes a history names. -/
def playOf (ops : List RingOp) : Set String := { n | ∃ op ∈ ops, n ∈ op.nodeIds }

/-- **NO HISTORY** leaves a residue. -/
lemma run_canonical (hinj : Set.InjOn hash (labels vnodes play)) (ops : List RingOp)
    (hops : playOf ops ⊆ play) :
    Canonical hash (run hash vnodes ops) ∧ (run hash vnodes ops).vnodes = vnodes
      ∧ InPlay play (run hash vnodes ops) := by
  have key : ∀ (ops : List RingOp), playOf ops ⊆ play → ∀ r : ConsistentHashRing,
      Canonical hash r → r.vnodes = vnodes → InPlay play r →
      Canonical hash (ops.foldl (step hash) r) ∧ (ops.foldl (step hash) r).vnodes = vnodes
        ∧ InPlay play (ops.foldl (step hash) r) := by
    intro ops
    induction ops with
    | nil => intro _ r h1 h2 h3; exact ⟨h1, h2, h3⟩
    | cons op ops ih =>
      intro hops r hc hv hp
      have hop : ∀ n ∈ op.nodeIds, n ∈ play := fun n hn => hops ⟨op, (.head _), hn⟩
      refine ih (fun n hn => ?_) (step hash r op) ?_ ?_ ?_
      · obtain ⟨o, ho, hno⟩ := hn
        exact hops ⟨o, List.mem_cons_of_mem op ho, hno⟩
      · exact step_canonical (hv.symm ▸ hinj) hc hp hop
      · rw [step_vnodes, hv]
      · exact step_inPlay hp hop
  exact key ops hops (new vnodes) (canonical_new vnodes) rfl
    (fun n hn => absurd hn (Finset.notMem_empty n))

/-! ## What holds whatever the hash -/

/-- Every vnode on the ring is a vnode of a current node.  A collision may hide a vnode, never add
    one, so this needs nothing of the hash. -/
structure Held (hash : String → Nat) (r : ConsistentHashRing) : Prop where
  node : ∀ h n, r.ring.get? h = some n → n ∈ r.nodes ∧ IsVnode hash r.vnodes n h
  sorted : r.sortedKeys = r.ring.keys.insertionSort (· ≤ ·)

lemma held_foldl_insertVnodes (vnodes h : Nat) (n : String) :
    ∀ (order : List String) (ring : OrderedDict Nat String),
      (order.foldl (insertVnodes hash vnodes) ring).get? h = some n →
      (n ∈ order ∧ IsVnode hash vnodes n h) ∨ ring.get? h = some n := by
  intro order
  induction order with
  | nil => intro ring hn; exact .inr hn
  | cons m order ih =>
    intro ring hn
    rcases ih _ hn with ⟨hmem, hv⟩ | hn
    · exact .inl ⟨List.mem_cons_of_mem m hmem, hv⟩
    · rw [get?_insertVnodes] at hn
      split_ifs at hn with hv
      · cases hn; exact .inl ⟨List.mem_cons_self, hv⟩
      · exact .inr hn

lemma held_step (h : Held hash r) (op : RingOp) : Held hash (step hash r op) := by
  cases op with
  | addNode nodeId =>
    show Held hash (addNode hash r nodeId)
    rw [addNode]
    split_ifs with hmem
    · exact h
    · refine ⟨?_, rfl⟩
      intro x m hm
      rcases held_foldl_insertVnodes r.vnodes x m [nodeId] r.ring hm with ⟨hn, hv⟩ | hm
      · exact ⟨Finset.mem_insert.mpr (.inl (List.mem_singleton.mp hn)), hv⟩
      · exact ⟨Finset.mem_insert_of_mem (h.node x m hm).1, (h.node x m hm).2⟩
  | removeNode nodeId =>
    show Held hash (removeNode hash r nodeId)
    rw [removeNode]
    split_ifs with hmem
    · refine ⟨?_, rfl⟩
      intro x m hm
      have hpop : (if IsVnode hash r.vnodes nodeId x then none else r.ring.get? x) = some m :=
        (get?_popVnodes r.vnodes r.ring nodeId x).symm.trans hm
      by_cases hv : IsVnode hash r.vnodes nodeId x
      · rw [if_pos hv] at hpop; cases hpop
      · rw [if_neg hv] at hpop
        obtain ⟨hn, hvm⟩ := h.node x m hpop
        refine ⟨Finset.mem_erase.mpr ⟨?_, hn⟩, hvm⟩
        rintro rfl
        exact hv hvm
    · exact h
  | setNodes nodeIds order horder =>
    show Held hash (setNodes hash r nodeIds order)
    rw [setNodes]
    split_ifs with hsame
    · exact h
    · refine ⟨?_, rfl⟩
      intro x m hm
      rcases held_foldl_insertVnodes r.vnodes x m order OrderedDict.empty hm with ⟨hn, hv⟩ | hm
      · exact ⟨List.mem_toFinset.mpr (List.mem_dedup.mp (horder.mem_iff.mp hn)), hv⟩
      · cases hm

lemma held_new (vnodes : Nat) : Held hash (new vnodes) := ⟨fun _ _ h => (nomatch h), rfl⟩

lemma held_foldl (ops : List RingOp) {r : ConsistentHashRing} (h : Held hash r) :
    Held hash (ops.foldl (step hash) r) := by
  induction ops generalizing r with
  | nil => exact h
  | cons op ops ih => exact ih (held_step h op)

/-- **EVERY HISTORY**, under any hash, keeps only vnodes of current nodes. -/
lemma run_held (hash : String → Nat) (vnodes : Nat) (ops : List RingOp) :
    Held hash (run hash vnodes ops) := held_foldl ops (held_new vnodes)

lemma nodeAt_mem (h : Held hash r) (hne : r.sortedKeys ≠ []) (i : Nat) : nodeAt r i ∈ r.nodes := by
  have hlt : i % r.sortedKeys.length < r.sortedKeys.length :=
    Nat.mod_lt _ (List.length_pos_of_ne_nil hne)
  have hkey : r.sortedKeys.getD (i % r.sortedKeys.length) 0 ∈ r.ring.keys := by
    rw [List.getD_eq_getElem _ _ hlt, ← (List.perm_insertionSort (· ≤ ·) r.ring.keys).mem_iff,
      ← h.sorted]
    exact List.getElem_mem hlt
  obtain ⟨n, hn⟩ := mem_keys.mp hkey
  rw [nodeAt, hn]
  exact (h.node _ n hn).1

lemma getNode_eq_nodeAt (hne : r.sortedKeys ≠ []) (key : String) :
    getNode hash r key = some (nodeAt r (bisect r.sortedKeys (hash key))) := by
  rw [getNode, if_neg hne]
  show some (nodeAt r (if bisect r.sortedKeys (hash key) = r.sortedKeys.length then 0
    else bisect r.sortedKeys (hash key))) = _
  by_cases hend : bisect r.sortedKeys (hash key) = r.sortedKeys.length
  · rw [if_pos hend, hend, nodeAt, nodeAt, Nat.mod_self, Nat.zero_mod]
  · rw [if_neg hend]

lemma getNodesLoop_extends (r : ConsistentHashRing) (idx n : Nat) :
    ∀ (fuel i : Nat) (result : List String), result.Nodup →
      (getNodesLoop r idx n fuel i result).Nodup
        ∧ result <+: getNodesLoop r idx n fuel i result := by
  intro fuel
  induction fuel with
  | zero => intro i result hnd; exact ⟨hnd, List.prefix_refl result⟩
  | succ fuel ih =>
    intro i result hnd
    have hone : (if nodeAt r i ∈ result then result else result ++ [nodeAt r i]).Nodup
        ∧ result <+: (if nodeAt r i ∈ result then result else result ++ [nodeAt r i]) := by
      by_cases hmem : nodeAt r i ∈ result
      · rw [if_pos hmem]; exact ⟨hnd, List.prefix_refl result⟩
      · rw [if_neg hmem]
        exact ⟨List.nodup_append.mpr ⟨hnd, List.nodup_singleton _,
          fun a ha b hb hab => hmem (List.mem_singleton.mp hb ▸ hab ▸ ha)⟩,
          List.prefix_append result _⟩
    rw [getNodesLoop]
    by_cases hlen : result.length < n
    · rw [if_pos hlen]
      by_cases hbreak : i + 1 - idx > r.sortedKeys.length
      · rw [if_pos hbreak]; exact hone
      · rw [if_neg hbreak]
        exact ⟨(ih (i + 1) _ hone.1).1, hone.2.trans (ih (i + 1) _ hone.1).2⟩
    · rw [if_neg hlen]; exact ⟨hnd, List.prefix_refl result⟩

lemma nodup_getNodes (r : ConsistentHashRing) (key : String) (n : Int) :
    (getNodes hash r key n).Nodup := by
  rw [getNodes]
  split_ifs with hnone
  · exact List.nodup_nil
  · exact (getNodesLoop_extends r _ _ _ _ [] List.nodup_nil).1

lemma head?_getNodes (h : Held hash r) (hne : r.sortedKeys ≠ []) (key : String) {n : Int}
    (hn : 0 < n) : (getNodes hash r key n).head? = getNode hash r key := by
  have hcard : ([] : List String).length < min n.toNat r.nodes.card :=
    Nat.lt_min.mpr ⟨Int.lt_toNat.mpr hn, Finset.card_pos.mpr ⟨_, nodeAt_mem h hne 0⟩⟩
  rw [getNode_eq_nodeAt hne, getNodes, if_neg (by rintro (h0 | h0) <;> [exact hne h0; omega])]
  rw [getNodesLoop, if_pos hcard]
  -- the first turn takes the node at the bisection point, whatever follows
  have hfirst : ∀ result, [nodeAt r (bisect r.sortedKeys (hash key))] <+: result →
      result.head? = some (nodeAt r (bisect r.sortedKeys (hash key))) := by
    rintro _ ⟨rest, rfl⟩; rfl
  refine hfirst _ ?_
  simp only [List.not_mem_nil, if_false, List.nil_append]
  by_cases hbreak : bisect r.sortedKeys (hash key) + 1 - bisect r.sortedKeys (hash key)
      > r.sortedKeys.length
  · rw [if_pos hbreak]
  · rw [if_neg hbreak]
    exact (getNodesLoop_extends r _ _ _ _ _ (List.nodup_singleton _)).2

/-! ## Lookups read only what is canonical -/

lemma canonical_unique {r : ConsistentHashRing} (h : Canonical hash r) (h' : Canonical hash r')
    (hv : r.vnodes = r'.vnodes) (hn : r.nodes = r'.nodes) :
    r.sortedKeys = r'.sortedKeys ∧ ∀ x, r.ring.get? x = r'.ring.get? x := by
  have hget : ∀ x, r.ring.get? x = r'.ring.get? x := by
    intro x
    refine Option.ext ?_
    intro n
    rw [h.ring_iff, h'.ring_iff, hv, hn]
  refine ⟨?_, hget⟩
  have hperm : r.ring.keys.Perm r'.ring.keys := by
    refine (List.perm_ext_iff_of_nodup r.ring.nodup_keys r'.ring.nodup_keys).mpr ?_
    intro x
    rw [mem_keys, mem_keys, hget]
  rw [h.sorted, h'.sorted]
  refine List.Perm.eq_of_pairwise (fun a b _ _ => Nat.le_antisymm)
    (List.pairwise_insertionSort _ _) (List.pairwise_insertionSort _ _) ?_
  exact ((List.perm_insertionSort _ _).trans hperm).trans (List.perm_insertionSort _ _).symm

lemma getNodesLoop_congr {r : ConsistentHashRing} (hkeys : r.sortedKeys = r'.sortedKeys)
    (hnode : ∀ i, nodeAt r i = nodeAt r' i) (idx n : Nat) :
    ∀ (fuel i : Nat) (result : List String),
      getNodesLoop r idx n fuel i result = getNodesLoop r' idx n fuel i result := by
  intro fuel
  induction fuel with
  | zero => intro i result; rfl
  | succ fuel ih =>
    intro i result
    rw [getNodesLoop, getNodesLoop, hnode, hkeys]
    simp only [ih]

/-- **PLACEMENT DEPENDS ONLY ON THE MEMBERSHIP.**  Two histories that end with the same node
    set answer every `get_node` and `get_nodes` alike, if the hash is injective on the vnode
    labels of the nodes they name. -/
theorem placement_of_membership {vnodes : Nat} (ops ops' : List RingOp)
    (hinj : Set.InjOn hash (labels vnodes (playOf ops ∪ playOf ops')))
    (hsame : (run hash vnodes ops).nodes = (run hash vnodes ops').nodes)
    (key : String) (n : Int) :
    getNode hash (run hash vnodes ops) key = getNode hash (run hash vnodes ops') key
      ∧ getNodes hash (run hash vnodes ops) key n = getNodes hash (run hash vnodes ops') key n := by
  obtain ⟨hc, hv, -⟩ := run_canonical hinj ops Set.subset_union_left
  obtain ⟨hc', hv', -⟩ := run_canonical hinj ops' Set.subset_union_right
  obtain ⟨hkeys, hget⟩ := canonical_unique hc hc' (hv.trans hv'.symm) hsame
  have hnode : ∀ i, nodeAt (run hash vnodes ops) i = nodeAt (run hash vnodes ops') i := by
    intro i
    rw [nodeAt, nodeAt, hkeys, hget]
  constructor
  · rw [getNode, getNode, hkeys]
    simp only [hnode]
  · rw [getNodes, getNodes, hkeys, hsame]
    simp only [getNodesLoop_congr hkeys hnode]

/-- A label read as a number in base 256. -/
def charCode (s : String) : Nat := s.toList.foldl (fun a c => 256 * a + c.toNat) 0

private lemma charCode_injOn {play : Set String} (hplay : ∀ n ∈ play, n = "a" ∨ n = "b") :
    Set.InjOn charCode (labels 2 play) := by
  rintro _ ⟨n, hn, i, hi, rfl⟩ _ ⟨m, hm, j, hj, rfl⟩ h
  rcases hplay n hn with rfl | rfl <;> rcases hplay m hm with rfl | rfl <;>
    interval_cases i <;> interval_cases j <;>
    first | rfl | exact absurd h (by decide)

lemma charCode_injOn_of_ops {ops ops' : List RingOp}
    (h : ∀ op ∈ ops ++ ops', ∀ n ∈ op.nodeIds, n = "a" ∨ n = "b") :
    Set.InjOn charCode (labels 2 (playOf ops ∪ playOf ops')) := by
  refine charCode_injOn ?_
  rintro n (⟨op, hop, hn⟩ | ⟨op, hop, hn⟩)
  · exact h op (List.mem_append_left ops' hop) n hn
  · exact h op (List.mem_append_right ops hop) n hn

/-- Two histories over `a` and `b` that both end at `b` alone. -/
theorem placement_of_membership_two_histories :
    getNodes charCode (run charCode 2 [.addNode "a", .addNode "b", .removeNode "a"]) "k" 2
      = getNodes charCode (run charCode 2 [.setNodes ["b", "b"] ["b"] (by decide)]) "k" 2 :=
  (placement_of_membership _ _ (charCode_injOn_of_ops (by simp [RingOp.nodeIds])) (by decide)
    "k" 2).2

end PeerCacheRing
