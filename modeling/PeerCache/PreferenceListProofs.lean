import Mathlib
import PeerCache.FirstSeenProofs
import PeerCache.HashRingProofs

/-! # Preference lists — what a membership change moves

    `get_nodes` walks the ring clockwise from the key, wraps around, skips the nodes it
    has already met and stops at `n` of them or after a full turn.  `prefs` is the walk
    without the bound: every node once, in the order a key prefers them.  `get_nodes`
    is a prefix of it (`getNodes_eq_take`). -/

namespace PeerCacheRing

open FirstSeen List

variable (hash : String → Nat)

/-- The node a vnode hash belongs to. -/
def ownerOf (r : ConsistentHashRing) (h : Nat) : String := (r.ring.get? h).getD ""

/-- The vnode hashes clockwise from `key`. -/
def walk (r : ConsistentHashRing) (key : String) : List Nat :=
  r.sortedKeys.filter (fun y => decide (hash key < y))
    ++ r.sortedKeys.filter (fun y => decide (y ≤ hash key))

/-- All nodes in the order `key` prefers them. -/
def prefs (r : ConsistentHashRing) (key : String) : List String :=
  firstSeen [] ((walk hash r key).map (ownerOf r))

variable {hash}

/-! ## Bisection cuts a sorted list in two -/

variable {S : List Nat}

lemma takeWhile_le_eq_filter (hS : S.Pairwise (· ≤ ·)) (x : Nat) :
    S.takeWhile (fun y => decide (y ≤ x)) = S.filter (fun y => decide (y ≤ x)) := by
  induction S with
  | nil => rfl
  | cons a S ih =>
    obtain ⟨ha, hS'⟩ := pairwise_cons.mp hS
    by_cases hax : a ≤ x
    · rw [takeWhile_cons_of_pos (by simpa using hax),
        filter_cons_of_pos (by simpa using hax), ih hS']
    · rw [takeWhile_cons_of_neg (by simpa using hax),
        filter_cons_of_neg (by simpa using hax)]
      refine (filter_eq_nil_iff.mpr ?_).symm
      intro y hy
      have := ha y hy
      simp only [decide_eq_true_eq]; omega

lemma dropWhile_le_eq_filter (hS : S.Pairwise (· ≤ ·)) (x : Nat) :
    S.dropWhile (fun y => decide (y ≤ x)) = S.filter (fun y => decide (x < y)) := by
  induction S with
  | nil => rfl
  | cons a S ih =>
    obtain ⟨ha, hS'⟩ := pairwise_cons.mp hS
    by_cases hax : a ≤ x
    · rw [dropWhile_cons_of_pos (by simpa using hax),
        filter_cons_of_neg (by simpa using hax), ih hS']
    · rw [dropWhile_cons_of_neg (by simpa using hax)]
      refine (filter_eq_self.mpr ?_).symm
      intro y hy
      rcases mem_cons.mp hy with rfl | hy
      · simp only [decide_eq_true_eq]; omega
      · have := ha y hy
        simp only [decide_eq_true_eq]; omega

lemma bisect_le (S : List Nat) (x : Nat) : bisect S x ≤ S.length :=
  (takeWhile_sublist _).length_le

lemma walk_eq_rotate {r : ConsistentHashRing} (hS : r.sortedKeys.Pairwise (· ≤ ·))
    (key : String) : walk hash r key = r.sortedKeys.rotate (bisect r.sortedKeys (hash key)) := by
  rw [rotate_eq_drop_append_take (bisect_le _ _), walk, ← dropWhile_le_eq_filter hS,
    ← takeWhile_le_eq_filter hS, bisect]
  have hsplit : r.sortedKeys.takeWhile (fun y => decide (y ≤ hash key))
      ++ r.sortedKeys.dropWhile (fun y => decide (y ≤ hash key)) = r.sortedKeys :=
    takeWhile_append_dropWhile
  exact congrArg₂ (· ++ ·) (drop_left.symm.trans (congrArg (List.drop _) hsplit))
    (take_left.symm.trans (congrArg (List.take _) hsplit))

/-! ## The loop of `get_nodes` is the bounded walk -/

lemma getNodesLoop_eq_collect (r : ConsistentHashRing) (idx n : Nat) :
    ∀ (fuel i : Nat) (result : List String), idx ≤ i → i - idx + fuel = r.sortedKeys.length + 1 →
      getNodesLoop r idx n fuel i result
        = collect n result ((List.range' i fuel).map (nodeAt r)) := by
  intro fuel
  induction fuel with
  | zero => intro i result _ _; rfl
  | succ fuel ih =>
    intro i result hi hfuel
    rw [getNodesLoop, List.range'_succ, map_cons, collect]
    by_cases hlen : result.length < n
    · rw [if_pos hlen, if_pos hlen]
      by_cases hbreak : i + 1 - idx > r.sortedKeys.length
      · have hzero : fuel = 0 := by omega
        rw [if_pos hbreak, hzero]
        rfl
      · rw [if_neg hbreak]; exact ih (i + 1) _ (by omega) (by omega)
    · rw [if_neg hlen, if_neg hlen]

lemma nodeAt_add_length (r : ConsistentHashRing) (i : Nat) :
    nodeAt r (i + r.sortedKeys.length) = nodeAt r i := by
  rw [nodeAt, nodeAt, Nat.add_mod_right]

lemma map_nodeAt_range' (r : ConsistentHashRing) (idx : Nat) :
    (List.range' idx r.sortedKeys.length).map (nodeAt r)
      = (r.sortedKeys.rotate idx).map (ownerOf r) := by
  refine ext_getElem (by simp) ?_
  intro i h1 h2
  have hi : i < r.sortedKeys.length := by simpa using h1
  have hmod : (idx + i) % r.sortedKeys.length < r.sortedKeys.length :=
    Nat.mod_lt _ (Nat.lt_of_le_of_lt (Nat.zero_le i) hi)
  rw [getElem_map, getElem_map, getElem_range', getElem_rotate, nodeAt, ownerOf,
    Nat.one_mul, getD_eq_getElem?_getD,
    getElem?_eq_getElem hmod, Option.getD_some]
  simp only [Nat.add_comm i idx]

section

variable {r : ConsistentHashRing}

lemma sortedKeys_pairwise (h : Canonical hash r) : r.sortedKeys.Pairwise (· ≤ ·) := by
  rw [h.sorted]; exact pairwise_insertionSort _ _

lemma sortedKeys_nodup (h : Canonical hash r) : r.sortedKeys.Nodup := by
  rw [h.sorted]; exact (perm_insertionSort _ _).nodup_iff.mpr r.ring.nodup_keys

lemma mem_sortedKeys (h : Canonical hash r) {x : Nat} :
    x ∈ r.sortedKeys ↔ ∃ n ∈ r.nodes, IsVnode hash r.vnodes n x := by
  rw [h.sorted, (perm_insertionSort _ _).mem_iff, OrderedDict.mem_keys]
  exact exists_congr (fun n => h.ring_iff x n)

lemma mem_walk {key : String} {x : Nat} : x ∈ walk hash r key ↔ x ∈ r.sortedKeys := by
  rw [walk, mem_append, mem_filter, mem_filter, decide_eq_true_eq,
    decide_eq_true_eq, ← and_or_left]
  exact and_iff_left (by omega)

lemma ownerOf_eq (h : Canonical hash r) {n : String} {x : Nat} (hn : n ∈ r.nodes)
    (hv : IsVnode hash r.vnodes n x) : ownerOf r x = n := by
  rw [ownerOf, (h.ring_iff x n).mpr ⟨hn, hv⟩]; rfl

lemma mem_prefs (h : Canonical hash r) (hv : 1 ≤ r.vnodes) {key n : String} :
    n ∈ prefs hash r key ↔ n ∈ r.nodes := by
  rw [prefs, mem_firstSeen, mem_map]
  constructor
  · rintro (hn | ⟨x, hx, rfl⟩)
    · cases hn
    · obtain ⟨n, hn, hvn⟩ := (mem_sortedKeys h).mp (mem_walk.mp hx)
      rw [ownerOf_eq h hn hvn]
      exact hn
  · intro hn
    have hvn : IsVnode hash r.vnodes n (hash (vnodeLabel n 0)) := ⟨0, hv, rfl⟩
    exact .inr ⟨_, mem_walk.mpr ((mem_sortedKeys h).mpr ⟨n, hn, hvn⟩), ownerOf_eq h hn hvn⟩

lemma nodup_prefs (key : String) : (prefs hash r key).Nodup :=
  nodup_firstSeen nodup_nil _

lemma length_prefs (h : Canonical hash r) (hv : 1 ≤ r.vnodes) (key : String) :
    (prefs hash r key).length = r.nodes.card := by
  rw [← toFinset_card_of_nodup (nodup_prefs key)]
  refine congrArg Finset.card (Finset.ext ?_)
  intro n
  rw [mem_toFinset, mem_prefs h hv]

/-- **`get_nodes` IS A PREFIX** of the preference list. -/
lemma getNodes_eq_take (h : Canonical hash r) (hv : 1 ≤ r.vnodes) (key : String) (m : Nat) :
    getNodes hash r key m = (prefs hash r key).take m := by
  have hlen := length_prefs h hv key
  rw [getNodes]
  split_ifs with hnone
  · rcases hnone with hS | hm
    · rw [prefs, walk, hS]; exact take_nil.symm
    · rw [show m = 0 by omega, take_zero]
  · obtain ⟨hS, hm⟩ := not_or.mp hnone
    rw [getNodesLoop_eq_collect r _ _ _ _ _ (Nat.le_refl _) (by omega),
      collect_eq_take (Nat.zero_le _), List.range'_1_concat, map_append, map_singleton,
      firstSeen_append_singleton, map_nodeAt_range', ← walk_eq_rotate (sortedKeys_pairwise h)]
    · show (prefs hash r key).take _ = _
      rw [Int.toNat_natCast, ← hlen, take_eq_take_iff]
      omega
    · -- the extra turn of the safety break visits the first position again
      refine .inr (mem_map.mpr ⟨bisect r.sortedKeys (hash key), ?_, ?_⟩)
      · have := length_pos_of_ne_nil hS
        rw [mem_range'_1]; omega
      · exact (nodeAt_add_length r _).symm

/-- **`get_node` IS THE FIRST PREFERENCE.** -/
lemma getNode_eq_head? (h : Canonical hash r) (key : String) :
    getNode hash r key = (prefs hash r key).head? := by
  rw [prefs, head?_firstSeen, getNode]
  split_ifs with hS
  · rw [walk, hS]; rfl
  · rw [walk_eq_rotate (sortedKeys_pairwise h), ← map_nodeAt_range']
    have hpos := length_pos_of_ne_nil hS
    obtain ⟨c, hc⟩ : ∃ c, r.sortedKeys.length = c + 1 := ⟨_, (Nat.succ_pred_eq_of_pos hpos).symm⟩
    rw [hc, List.range'_succ, map_cons, head?_cons, ← hc]
    show some (nodeAt r (if bisect r.sortedKeys (hash key) = r.sortedKeys.length then 0
      else bisect r.sortedKeys (hash key))) = _
    by_cases hend : bisect r.sortedKeys (hash key) = r.sortedKeys.length
    · -- past the last vnode: wrap to the first
      rw [if_pos hend, hend, ← nodeAt_add_length r 0, Nat.zero_add]
    · rw [if_neg hend]

end

/-! ## Leaving a node out -/

section

variable {r r' : ConsistentHashRing} {x : String} {play : Set String}

lemma ownerOf_without (h : Canonical hash r) (h' : Canonical hash r')
    (hv : r'.vnodes = r.vnodes) (hn : r'.nodes = r.nodes.erase x) {y : Nat}
    (hy : y ∈ r'.sortedKeys) : ownerOf r' y = ownerOf r y ∧ ownerOf r y ≠ x := by
  obtain ⟨n, hmem, hvn⟩ := (mem_sortedKeys h').mp hy
  have hne : n ≠ x ∧ n ∈ r.nodes := Finset.mem_erase.mp (hn ▸ hmem)
  have howner : ownerOf r y = n := ownerOf_eq h hne.2 (hv ▸ hvn)
  exact ⟨(ownerOf_eq h' hmem hvn).trans howner.symm, howner.symm ▸ hne.1⟩

lemma sortedKeys_without (h : Canonical hash r) (h' : Canonical hash r')
    (hv : r'.vnodes = r.vnodes) (hn : r'.nodes = r.nodes.erase x) :
    r'.sortedKeys = r.sortedKeys.filter (fun y => decide (ownerOf r y ≠ x)) := by
  refine List.Perm.eq_of_pairwise (fun a b _ _ => Nat.le_antisymm) (sortedKeys_pairwise h')
    ((sortedKeys_pairwise h).filter _) ?_
  refine (perm_ext_iff_of_nodup (sortedKeys_nodup h') ((sortedKeys_nodup h).filter _)).mpr ?_
  intro y
  rw [mem_filter, decide_eq_true_eq]
  constructor
  · intro hy
    refine ⟨?_, (ownerOf_without h h' hv hn hy).2⟩
    obtain ⟨n, hmem, hvn⟩ := (mem_sortedKeys h').mp hy
    exact (mem_sortedKeys h).mpr ⟨n, (Finset.mem_erase.mp (hn ▸ hmem)).2, hv ▸ hvn⟩
  · rintro ⟨hy, hne⟩
    obtain ⟨n, hmem, hvn⟩ := (mem_sortedKeys h).mp hy
    have hnx : n ≠ x := ownerOf_eq h hmem hvn ▸ hne
    exact (mem_sortedKeys h').mpr ⟨n, hn ▸ Finset.mem_erase.mpr ⟨hnx, hmem⟩, hv.symm ▸ hvn⟩

lemma walk_without (h : Canonical hash r) (h' : Canonical hash r')
    (hv : r'.vnodes = r.vnodes) (hn : r'.nodes = r.nodes.erase x) (key : String) :
    walk hash r' key = (walk hash r key).filter (fun y => decide (ownerOf r y ≠ x)) := by
  rw [walk, walk, sortedKeys_without h h' hv hn, filter_append, filter_filter,
    filter_filter, filter_filter, filter_filter]
  simp only [Bool.and_comm]

/-- **DELETING A NODE DELETES IT FROM THE PREFERENCES** and reorders nothing. -/
lemma prefs_without (h : Canonical hash r) (h' : Canonical hash r')
    (hv : r'.vnodes = r.vnodes) (hn : r'.nodes = r.nodes.erase x) (key : String) :
    prefs hash r' key = (prefs hash r key).erase x := by
  have hmap : (walk hash r' key).map (ownerOf r')
      = ((walk hash r key).map (ownerOf r)).filter (fun n => decide (n ≠ x)) := by
    rw [filter_map, map_congr_left (g := ownerOf r)
      (fun y hy => (ownerOf_without h h' hv hn (mem_walk.mp hy)).1), walk_without h h' hv hn]
    rfl
  rw [(nodup_prefs key).erase_eq_filter, prefs, prefs, hmap, firstSeen_filter, filter_nil]
  refine congrArg (firstSeen []) (filter_congr ?_)
  intro n _
  by_cases hnx : n = x <;> simp [hnx]

end

/-! ## The guarantees -/

variable {l : List String} {m : Nat}

lemma take_erase_of_not_mem {x : String} (h : x ∉ l.take m) : (l.erase x).take m = l.take m := by
  induction l generalizing m with
  | nil => rfl
  | cons a l ih =>
    cases m with
    | zero => rfl
    | succ m =>
      rw [take_succ_cons, mem_cons, not_or] at h
      rw [erase_cons_tail (by simpa using fun e => h.1 e.symm), take_succ_cons,
        take_succ_cons, ih h.2]

lemma mem_take_erase {x y : String} (h : y ∈ l.take m) (hne : y ≠ x) : y ∈ (l.erase x).take m := by
  induction l generalizing m with
  | nil => rw [take_nil] at h; cases h
  | cons a l ih =>
    cases m with
    | zero => cases h
    | succ m =>
      rw [take_succ_cons, mem_cons] at h
      by_cases hax : a = x
      · rw [hax, erase_cons_head]
        rcases h with rfl | h
        · exact absurd hax hne
        · exact take_subset_take_left l (Nat.le_succ m) h
      · rw [erase_cons_tail (by simpa using hax), take_succ_cons, mem_cons]
        rcases h with rfl | h
        · exact .inl rfl
        · exact .inr (ih h)

/-- **PREFERENCE LISTS ARE STABLE.**  `ops` is any history that ends at a node set `N`,
    `ops'` any history that ends at `N` without `x`.  Every `get_nodes` answer is
    the cut of one duplicate-free list of all of `N` that starts at `get_node`; the answers
    without `x` are the cuts of that list with `x` deleted.  So lists without `x` do not
    move, no other node leaves a list, and a primary moves only from or to `x`. -/
theorem preference_lists_stable {vnodes : Nat} (hvnodes : 1 ≤ vnodes) (ops ops' : List RingOp)
    (hinj : Set.InjOn hash (labels vnodes (playOf ops ∪ playOf ops'))) (x : String)
    (hwithout : (run hash vnodes ops').nodes = (run hash vnodes ops).nodes.erase x)
    (key : String) (m : Nat) :
    let r := run hash vnodes ops
    let r' := run hash vnodes ops'
    (getNodes hash r key m).length = min m r.nodes.card
      ∧ (getNodes hash r key m).Nodup
      ∧ getNodes hash r key m <+: getNodes hash r key r.nodes.card
      ∧ (1 ≤ m → (getNodes hash r key m).head? = getNode hash r key)
      ∧ getNodes hash r' key m = ((getNodes hash r key r.nodes.card).erase x).take m
      ∧ (x ∉ getNodes hash r key m → getNodes hash r' key m = getNodes hash r key m)
      ∧ (∀ y ∈ getNodes hash r key m, y ∉ getNodes hash r' key m → y = x)
      ∧ (getNode hash r key ≠ some x → getNode hash r' key = getNode hash r key) := by
  obtain ⟨h, hv, -⟩ := run_canonical hinj ops Set.subset_union_left
  obtain ⟨h', hv', -⟩ := run_canonical hinj ops' Set.subset_union_right
  intro r r'
  have hle : 1 ≤ r.vnodes := hv.symm ▸ hvnodes
  have hle' : 1 ≤ r'.vnodes := hv'.symm ▸ hvnodes
  have hprefs : prefs hash r' key = (prefs hash r key).erase x :=
    prefs_without h h' (hv'.trans hv.symm) hwithout key
  -- every answer is now a cut of one list, and the rest is about cutting and erasing
  have hall : getNodes hash r key r.nodes.card = prefs hash r key := by
    rw [getNodes_eq_take h hle, ← length_prefs h hle key, List.take_length]
  rw [hall, getNodes_eq_take h hle, getNodes_eq_take h' hle', getNode_eq_head? h,
    getNode_eq_head? h', hprefs]
  refine ⟨?_, (nodup_prefs key).sublist (List.take_sublist m _), List.take_prefix m _, ?_, rfl,
    take_erase_of_not_mem, ?_, ?_⟩
  · rw [List.length_take, length_prefs h hle]
  · intro hm
    rw [List.head?_take, if_neg (by omega)]
  · intro y hy hy'
    by_contra hne
    exact hy' (mem_take_erase hy hne)
  · intro hne
    cases hp : prefs hash r key with
    | nil => rfl
    | cons a l =>
        rw [hp, List.head?_cons] at hne
        rw [List.erase_cons_tail (by simpa using hne)]
        rfl

/-- Taking `a` away from `a`, `b`. -/
theorem preference_lists_stable_two_nodes :
    getNodes charCode (run charCode 2 [.addNode "b"]) "k" 2
      = ((getNodes charCode (run charCode 2 [.addNode "a", .addNode "b"]) "k" 2).erase "a").take 2 :=
  (preference_lists_stable (by decide) [.addNode "a", .addNode "b"] [.addNode "b"]
    (charCode_injOn_of_ops (by simp [RingOp.nodeIds])) "a" (by decide) "k" 2).2.2.2.2.1

end PeerCacheRing
