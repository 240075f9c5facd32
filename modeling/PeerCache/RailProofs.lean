import PeerCache.DirectoryClientProofs
import PeerCache.TransferEngineProofs

/-! # Rails of a batch, in both implementations

    A node with several network cards stripes a batch over them: op `i` goes over rail
    `i % N`, or over rail 0 where the owner advertises too few.  `Transport.batch_read_multi`
    chooses an endpoint and a key for each op and hands both to `batch_read_v`;
    `TransferEngine::batch_read_multi` sorts the ops into groups by rail and endpoint, and takes
    the key of a group from its first op. -/

namespace PeerCacheDirectoryClient

/-- `self.rail_endpoints or [self.rdma_endpoint]` -/
def DataLocation.endpoints (l : DataLocation) : List String :=
  if l.railEndpoints = [] then [l.rdmaEndpoint] else l.railEndpoints

/-- `self.rail_rkeys or [self.rkey]` -/
def DataLocation.rkeys (l : DataLocation) : List Int :=
  if l.railRkeys = [] then [l.rkey] else l.railRkeys

lemma DataLocation.endpoints_ne_nil (l : DataLocation) : l.endpoints ≠ [] := by
  unfold DataLocation.endpoints
  split_ifs with h
  · exact List.cons_ne_nil _ _
  · exact h

lemma DataLocation.rkeys_ne_nil (l : DataLocation) : l.rkeys ≠ [] := by
  unfold DataLocation.rkeys
  split_ifs with h
  · exact List.cons_ne_nil _ _
  · exact h

end PeerCacheDirectoryClient

namespace PeerCacheEngine

open PeerCacheChannel PeerCacheDirectoryClient Option List

/-! ## `Transport.batch_read_multi` and `batch_write_multi` -/

/-- `i % N if (i % N) < len(l) else 0` -/
def railIndex (rails len i : Nat) : Nat := if i % rails < len then i % rails else 0

/-- The endpoint of op `i`, in the first loop. -/
def pickEndpoint (rails : Nat) (railEndpoints : OrderedDict String (List String)) (i : Nat)
    (node : String) : String :=
  let eps := (railEndpoints.get? node).getD []
  if eps = [] then "" else eps.getD (railIndex rails eps.length i) ""

/-- The key of op `i`, in the second. -/
def pickRkey (rails : Nat) (railRkeys : OrderedDict String (List Nat)) (i : Nat) (node : String) : Nat :=
  let given := (railRkeys.get? node).getD []
  let ks := if given = [] then [0] else given
  ks.getD (railIndex rails ks.length i) 0

/-- What both methods do before they delegate. -/
def stripe (write : Bool) (nRails : Nat) (nodeIds : List String)
    (localAddrs remoteAddrs lengths : List Nat) (railEndpoints : OrderedDict String (List String))
    (railRkeys : OrderedDict String (List Nat)) : Request :=
  let rails := max 1 nRails
  .vector write (nodeIds.mapIdx (pickEndpoint rails railEndpoints)) localAddrs remoteAddrs
    (nodeIds.mapIdx (pickRkey rails railRkeys)) lengths

/-- `Transport.batch_read_multi`, as the call of `batch_read_v` it makes. -/
def Transport.batchReadMulti := stripe false

/-- `Transport.batch_write_multi`, as the call of `batch_write_v` it makes. -/
def Transport.batchWriteMulti := stripe true

/-- The endpoint that a vectorised batch names for an op. -/
def Request.endpointOf : Request → Nat → Option String
  | .vector _ remoteNodes _ _ _ _, i => remoteNodes[i]?
  | .multi .., _ => none

/-- The key that a vectorised batch names for an op. -/
def Request.keyOf : Request → Nat → Option Nat
  | .vector _ _ _ _ rkeys _, i => rkeys[i]?
  | .multi .., _ => none

/-! ## The groups of a batch, op by op -/

section Groups

variable (place : Nat → Option (Nat × String × Option Nat))

/-- The pool of an op. -/
def pool (i : Nat) : Option PoolKey := (place i).map (fun x => toLex (x.1, x.2.1))

/-- The key of an op. -/
def rkeyOf (i : Nat) : Option Nat := (place i).bind (fun x => x.2.2)

/-- `j` is the first op for its pool. -/
def First (k : PoolKey) (j : Nat) : Prop := pool place j = some k ∧ ∀ l < j, pool place l ≠ some k

/-- After `n` ops: each group has the ops of one pool and the key of the first, and every op is in
    the group of its pool. -/
structure Grouped (n : Nat) (m : List (PoolKey × Group)) : Prop where
  sorted : SortedMap.Sorted m
  ops : ∀ p ∈ m, ∀ i, i ∈ p.2.idxs ↔ i < n ∧ pool place i = some p.1
  first : ∀ p ∈ m, ∃ j < n, First place p.1 j ∧ rkeyOf place j = p.2.rkey
  total : ∀ i < n, ∀ k, pool place i = some k → ∃ p ∈ m, p.1 = k

variable {place}

variable {k : PoolKey} {m : List (PoolKey × Group)}

lemma First.unique {i j : Nat} (hi : First place k i) (hj : First place k j) : i = j := by
  rcases Nat.lt_trichotomy i j with hlt | heq | hlt
  · exact absurd hi.1 (hj.2 i hlt)
  · exact heq
  · exact absurd hj.1 (hi.2 j hlt)

lemma grouped_zero : Grouped place 0 [] where
  sorted := List.Pairwise.nil
  ops := List.forall_mem_nil _
  first := List.forall_mem_nil _
  total := fun _ hi => absurd hi (Nat.not_lt_zero _)

variable {n : Nat}

lemma ops_succ {idxs : List Nat} (h : ∀ i, i ∈ idxs ↔ i < n ∧ pool place i = some k)
    (hn : pool place n ≠ some k) (i : Nat) : i ∈ idxs ↔ i < n + 1 ∧ pool place i = some k := by
  rw [h i]
  refine and_congr_left fun hi => ?_
  have hne : i ≠ n := fun he => hn (he ▸ hi)
  omega

lemma grouped_skip (h : Grouped place n m) (hn : place n = none) : Grouped place (n + 1) m := by
  have hpool : pool place n = none := by rw [pool, hn]; rfl
  refine ⟨h.sorted, ?_, ?_, ?_⟩
  · exact fun p hp => ops_succ (h.ops p hp) (by rw [hpool]; exact (some_ne_none _).symm)
  · intro p hp
    obtain ⟨j, hj, hfirst⟩ := h.first p hp
    exact ⟨j, Nat.lt_succ_of_lt hj, hfirst⟩
  · intro i hi k hk
    have hne : i ≠ n := fun he => some_ne_none k (hk.symm.trans (he ▸ hpool))
    exact h.total i (by omega) k hk

lemma grouped_add (h : Grouped place n m) {rail : Nat} {endpoint : String} {rkey : Option Nat}
    (hn : place n = some (rail, endpoint, rkey)) :
    Grouped place (n + 1) (Request.addOp place m n) := by
  obtain ⟨k, hk⟩ : ∃ k : PoolKey, k = toLex (rail, endpoint) := ⟨_, rfl⟩
  -- the group of the op, from the one before it
  obtain ⟨f, hadd, hnone, hsome⟩ : ∃ f : Option Group → Group,
      Request.addOp place m n = SortedMap.alter k f m ∧ f none = ⟨rail, endpoint, rkey, [n]⟩
        ∧ ∀ g, f (some g) = { g with idxs := g.idxs ++ [n] } := by
    rw [Request.addOp, hn, hk]
    exact ⟨_, rfl, rfl, fun _ => rfl⟩
  have hpool : pool place n = some k := by rw [pool, hn, hk]; rfl
  have hmem : ∀ p, p ∈ SortedMap.alter k f m ↔ p = (k, f (SortedMap.get? k m)) ∨ (p ∈ m ∧ p.1 ≠ k) :=
    fun p => SortedMap.mem_alter_iff h.sorted
  -- a new group: no earlier op has its pool
  have hnew : SortedMap.get? k m = none → ∀ i < n, pool place i ≠ some k := by
    intro hnone i hi hik
    obtain ⟨q, hq, hqk⟩ := h.total i hi k hik
    have hsome := (SortedMap.get?_eq_some h.sorted).mpr (show (k, q.2) ∈ m from hqk ▸ hq)
    exact some_ne_none _ (hsome.symm.trans hnone)
  rw [hadd]
  refine ⟨SortedMap.sorted_alter h.sorted k f, ?_, ?_, ?_⟩
  · intro p hp
    rcases (hmem p).mp hp with rfl | ⟨hp, hpk⟩
    · intro i
      cases hlook : SortedMap.get? k m with
      | none =>
        rw [hnone]
        rw [mem_singleton]
        constructor
        · rintro rfl; exact ⟨Nat.lt_succ_self _, hpool⟩
        · rintro ⟨hi, hik⟩
          by_contra hne
          exact hnew hlook i (by omega) hik
      | some g =>
        have hg := h.ops (k, g) ((SortedMap.get?_eq_some h.sorted).mp hlook) i
        rw [hsome]
        rw [mem_append, mem_singleton, hg]
        constructor
        · rintro (⟨hi, hik⟩ | rfl)
          · exact ⟨Nat.lt_succ_of_lt hi, hik⟩
          · exact ⟨Nat.lt_succ_self _, hpool⟩
        · rintro ⟨hi, hik⟩
          rcases Nat.lt_succ_iff_lt_or_eq.mp hi with hi | hi
          · exact .inl ⟨hi, hik⟩
          · exact .inr hi
    · exact ops_succ (h.ops p hp) (fun he => hpk (some.inj (hpool.symm.trans he)).symm)
  · intro p hp
    rcases (hmem p).mp hp with rfl | ⟨hp, -⟩
    · cases hlook : SortedMap.get? k m with
      | none =>
        refine ⟨n, Nat.lt_succ_self n, ⟨hpool, hnew hlook⟩, ?_⟩
        rw [rkeyOf, hn, hnone]
        rfl
      | some g =>
        obtain ⟨j, hj, hfirst, hkey⟩ := h.first (k, g) ((SortedMap.get?_eq_some h.sorted).mp hlook)
        refine ⟨j, Nat.lt_succ_of_lt hj, hfirst, ?_⟩
        rw [hsome]
        exact hkey
    · obtain ⟨j, hj, hfirst⟩ := h.first p hp
      exact ⟨j, Nat.lt_succ_of_lt hj, hfirst⟩
  · intro i hi k' hik
    by_cases hkk : k' = k
    · exact ⟨_, (hmem _).mpr (.inl rfl), hkk.symm⟩
    · have hne : i ≠ n := fun he => hkk (some.inj (hik.symm.trans (he ▸ hpool)))
      obtain ⟨q, hq, hqk⟩ := h.total i (by omega) k' hik
      exact ⟨q, (hmem q).mpr (.inr ⟨hq, fun he => hkk (hqk.symm.trans he)⟩), hqk⟩

lemma grouped_groupOps (place : Nat → Option (Nat × String × Option Nat)) (n : Nat) :
    Grouped place n (Request.groupOps place n) := by
  induction n with
  | zero => exact grouped_zero
  | succ n ih =>
    have heq : Request.groupOps place (n + 1)
        = Request.addOp place (Request.groupOps place n) n := by
      rw [Request.groupOps, range_succ, foldl_append]
      rfl
    rw [heq]
    cases hn : place n with
    | none =>
      rw [Request.addOp, hn]
      exact grouped_skip ih hn
    | some x => exact grouped_add ih hn

end Groups

/-! ## The two choices -/

section

variable (nodeIds : List String) (railEndpoints : OrderedDict String (List String))
  (railRkeys : OrderedDict String (List Nat))

/-- The rail endpoints of the owner of op `i`. -/
def opEndpoints (i : Nat) : List String := ((nodeIds[i]?).bind railEndpoints.get?).getD []

/-- The rail keys of the owner of op `i`. -/
def opRkeys (i : Nat) : List Nat := ((nodeIds[i]?).bind railRkeys.get?).getD []

/-- Every owner's lists are those of a location. -/
def Advertised : Prop :=
  ∀ node ∈ nodeIds, ∃ loc : DataLocation, railEndpoints.get? node = some loc.endpoints
    ∧ railRkeys.get? node = some (loc.rkeys.map Int.toNat)

variable {nodeIds railEndpoints railRkeys}

variable {i rails : Nat}

lemma Advertised.lists (h : Advertised nodeIds railEndpoints railRkeys) (hi : i < nodeIds.length) :
    railEndpoints.get? nodeIds[i] = some (opEndpoints nodeIds railEndpoints i)
      ∧ railRkeys.get? nodeIds[i] = some (opRkeys nodeIds railRkeys i)
      ∧ opEndpoints nodeIds railEndpoints i ≠ [] ∧ opRkeys nodeIds railRkeys i ≠ [] := by
  obtain ⟨loc, heps, hrks⟩ := h nodeIds[i] (getElem_mem hi)
  unfold opEndpoints opRkeys
  rw [getElem?_eq_getElem hi, bind_some, bind_some, heps, hrks]
  refine ⟨rfl, rfl, loc.endpoints_ne_nil, ?_⟩
  exact fun hnil => loc.rkeys_ne_nil (map_eq_nil_iff.mp hnil)

lemma stripe_eq (h : Advertised nodeIds railEndpoints railRkeys) (hrails : 1 ≤ rails) (write : Bool)
    (localAddrs remoteAddrs lengths : List Nat) (hi : i < nodeIds.length) :
    let batch := stripe write rails nodeIds localAddrs remoteAddrs lengths railEndpoints railRkeys
    batch.endpointOf i = (opEndpoints nodeIds railEndpoints i)[railIndex rails
        (opEndpoints nodeIds railEndpoints i).length i]?
      ∧ batch.keyOf i
        = (opRkeys nodeIds railRkeys i)[railIndex rails (opRkeys nodeIds railRkeys i).length i]? := by
  intro batch
  have hbatch : batch = .vector write (nodeIds.mapIdx (pickEndpoint rails railEndpoints)) localAddrs
      remoteAddrs (nodeIds.mapIdx (pickRkey rails railRkeys)) lengths := by
    show stripe write rails nodeIds localAddrs remoteAddrs lengths railEndpoints railRkeys = _
    rw [stripe, Nat.max_eq_right hrails]
  obtain ⟨heps, hrks, hepsne, hrksne⟩ := h.lists hi
  have hin : ∀ {B : Type} {l : List B} (d : B), l ≠ [] →
      l[railIndex rails l.length i]? = some (l.getD (railIndex rails l.length i) d) := by
    intro B l d hl
    have hpos := length_pos_iff.mpr hl
    have hlt : railIndex rails l.length i < l.length := by
      unfold railIndex
      split_ifs with hlen
      · exact hlen
      · exact hpos
    rw [getElem?_eq_getElem hlt, getD_eq_getElem _ _ hlt]
  rw [hbatch, Request.endpointOf, Request.keyOf, getElem?_mapIdx, getElem?_mapIdx,
    getElem?_eq_getElem hi, map_some, map_some, pickEndpoint, pickRkey, heps, hrks,
    hin "" hepsne, hin 0 hrksne]
  simp only [getD_some, if_neg hepsne, if_neg hrksne, and_self]

lemma place_eq (h : Advertised nodeIds railEndpoints railRkeys) (rails : Nat)
    (hi : i < nodeIds.length) :
    ∃ rail endpoint rkey, Request.place rails nodeIds railEndpoints railRkeys i
        = some (rail, endpoint, some rkey)
      ∧ rail = (if i % rails < (opEndpoints nodeIds railEndpoints i).length
          ∧ i % rails < (opRkeys nodeIds railRkeys i).length then i % rails else 0)
      ∧ (opEndpoints nodeIds railEndpoints i)[rail]? = some endpoint
      ∧ (opRkeys nodeIds railRkeys i)[rail]? = some rkey := by
  obtain ⟨heps, hrks, hepsne, hrksne⟩ := h.lists hi
  generalize opEndpoints nodeIds railEndpoints i = eps at *
  generalize opRkeys nodeIds railRkeys i = rks at *
  unfold Request.place
  rw [getElem?_eq_getElem hi, bind_some, bind_some, heps, hrks]
  simp only
  by_cases hboth : i % rails < eps.length ∧ i % rails < rks.length
  · rw [if_pos hboth, getElem?_eq_getElem hboth.1, getElem?_eq_getElem hboth.2]
    exact ⟨_, _, _, rfl, rfl, getElem?_eq_getElem hboth.1, getElem?_eq_getElem hboth.2⟩
  · have heps0 := length_pos_iff.mpr hepsne
    have hrks0 := length_pos_iff.mpr hrksne
    rw [if_neg hboth, getElem?_eq_getElem heps0, getElem?_eq_getElem hrks0]
    refine ⟨0, eps[0], rks[0], ?_, rfl, getElem?_eq_getElem heps0, getElem?_eq_getElem hrks0⟩
    -- one of the lists has no entry for the rail
    rcases not_and_or.mp hboth with hshort | hshort
    · rw [getElem?_eq_none (not_lt.mp hshort)]
    · rw [getElem?_eq_none (not_lt.mp hshort)]
      cases eps[i % rails]? with
      | none => rfl
      | some endpoint => rfl

variable {a b : Nat}

lemma railIndex_eq_iff (rails i : Nat) (ha : 0 < a) (hb : 0 < b) :
    railIndex rails a i = railIndex rails b i ↔ (i % rails < a ↔ i % rails < b) := by
  unfold railIndex
  split_ifs with h1 h2 h2
  · exact iff_of_true rfl (iff_of_true h1 h2)
  · exact iff_of_false (by omega) (by omega)
  · exact iff_of_false (by omega) (by omega)
  · exact iff_of_true rfl (iff_of_false h1 h2)

lemma railIndex_both (h : i % rails < a ↔ i % rails < b) :
    railIndex rails a i = if i % rails < a ∧ i % rails < b then i % rails else 0 := by
  unfold railIndex
  exact if_congr ⟨fun ha => ⟨ha, h.mp ha⟩, And.left⟩ rfl rfl

variable (nodeIds railEndpoints railRkeys) in
/-- Op `i` of a batch: its Python endpoint and key are of one rail of its owner, and are those of
    the group in which the engine issues it. -/
structure OpAgrees (write : Bool) (rails : Nat) (localAddrs remoteAddrs lengths : List Nat) (i : Nat) :
    Prop where
  rail : railIndex rails (opEndpoints nodeIds railEndpoints i).length i
    = railIndex rails (opRkeys nodeIds railRkeys i).length i
  issued : ∃ g ∈ (Request.multi write nodeIds localAddrs remoteAddrs lengths railEndpoints
      railRkeys).groups rails, i ∈ g.idxs
    ∧ (stripe write rails nodeIds localAddrs remoteAddrs lengths railEndpoints railRkeys).endpointOf i
      = some g.endpoint
    ∧ (stripe write rails nodeIds localAddrs remoteAddrs lengths railEndpoints railRkeys).keyOf i
      = g.rkey

end

/-- **THE TWO STRIPINGS AGREE ON AN OP** exactly if its owner's lists both reach its rail or neither
    does, and the first op for the same rail and endpoint has the same key. -/
theorem rails_agree_iff (write : Bool) (rails : Nat) (hrails : 1 ≤ rails) (nodeIds : List String)
    (localAddrs remoteAddrs lengths : List Nat) (hnodes : nodeIds.length = lengths.length)
    (hlocal : localAddrs.length = lengths.length) (hremote : remoteAddrs.length = lengths.length)
    (railEndpoints : OrderedDict String (List String)) (railRkeys : OrderedDict String (List Nat))
    (hlists : Advertised nodeIds railEndpoints railRkeys) (i : Nat) (hi : i < lengths.length) :
    OpAgrees nodeIds railEndpoints railRkeys write rails localAddrs remoteAddrs lengths i
      ↔ (i % rails < (opEndpoints nodeIds railEndpoints i).length
          ↔ i % rails < (opRkeys nodeIds railRkeys i).length)
        ∧ ∀ j k, pool (Request.place rails nodeIds railEndpoints railRkeys) i = some k →
            First (Request.place rails nodeIds railEndpoints railRkeys) k j →
            rkeyOf (Request.place rails nodeIds railEndpoints railRkeys) j
              = rkeyOf (Request.place rails nodeIds railEndpoints railRkeys) i := by
  have hin : i < nodeIds.length := hnodes ▸ hi
  obtain ⟨-, -, hepsne, hrksne⟩ := hlists.lists hin
  obtain ⟨rail, endpoint, rkey, hplace, hrail, hep, hrk⟩ := place_eq hlists rails hin
  obtain ⟨hpickep, hpickrk⟩ := stripe_eq hlists hrails write localAddrs remoteAddrs lengths hin
  have hpool : pool (Request.place rails nodeIds railEndpoints railRkeys) i
      = some (toLex (rail, endpoint)) := by rw [pool, hplace]; rfl
  have hown : rkeyOf (Request.place rails nodeIds railEndpoints railRkeys) i = some rkey := by
    rw [rkeyOf, hplace]; rfl
  have hgroups : (Request.multi write nodeIds localAddrs remoteAddrs lengths railEndpoints
      railRkeys).groups rails
      = (Request.groupOps (Request.place rails nodeIds railEndpoints railRkeys)
          lengths.length).map Prod.snd := by
    rw [Request.groups, if_neg]
    omega
  have hgrouped := grouped_groupOps (Request.place rails nodeIds railEndpoints railRkeys) lengths.length
  have hrailiff := railIndex_eq_iff rails i (length_pos_iff.mpr hepsne)
    (length_pos_iff.mpr hrksne)
  -- where the lists reach the same rails, the Python choice is what the engine places the op with
  have hpicked : (i % rails < (opEndpoints nodeIds railEndpoints i).length
      ↔ i % rails < (opRkeys nodeIds railRkeys i).length) →
      (stripe write rails nodeIds localAddrs remoteAddrs lengths railEndpoints railRkeys).endpointOf i
          = some endpoint
        ∧ (stripe write rails nodeIds localAddrs remoteAddrs lengths railEndpoints railRkeys).keyOf i
          = some rkey := by
    intro hsame
    have hindex := (railIndex_both hsame).trans hrail.symm
    rw [hpickep, hpickrk, ← hrailiff.mpr hsame, hindex]
    exact ⟨hep, hrk⟩
  constructor
  · rintro ⟨hone, g, hg, hmem, -, hgkey⟩
    have hsame := hrailiff.mp hone
    refine ⟨hsame, ?_⟩
    intro j k hk hfirst
    rw [hgroups] at hg
    obtain ⟨p, hp, rfl⟩ := mem_map.mp hg
    obtain ⟨j', -, hfirst', hkey⟩ := hgrouped.first p hp
    obtain rfl : k = p.1 := Option.some.inj (hk.symm.trans ((hgrouped.ops p hp i).mp hmem).2)
    rw [hfirst.unique hfirst', hkey, ← hgkey, (hpicked hsame).2, hown]
  · rintro ⟨hsame, hfirstkey⟩
    refine ⟨hrailiff.mpr hsame, ?_⟩
    obtain ⟨p, hp, hpk⟩ := hgrouped.total i hi _ hpool
    obtain ⟨j, -, hfirst, hkey⟩ := hgrouped.first p hp
    have hend : p.2.endpoint = endpoint := by
      have hgkey := (groupOps_key lengths.length p hp).trans hpk
      exact congrArg (fun x => (ofLex x).2) hgkey
    refine ⟨p.2, ?_, (hgrouped.ops p hp i).mpr ⟨hi, hpool.trans (congrArg some hpk.symm)⟩, ?_, ?_⟩
    · rw [hgroups]
      exact mem_map_of_mem hp
    · rw [hend]
      exact (hpicked hsame).1
    · rw [(hpicked hsame).2, ← hown, ← hfirstkey j _ hpool (hpk ▸ hfirst), hkey]

/-- An owner with two rails. -/
def twoRails : DataLocation :=
  ⟨"a", "10.0.0.1:7000", 0, 7, 64, true, ["10.0.0.1:7000", "10.0.0.1:7001"], [7, 8]⟩

theorem rails_agree_iff_two_rails :
    OpAgrees ["a", "a"] ⟨[("a", twoRails.endpoints)], by simp⟩
      ⟨[("a", twoRails.rkeys.map Int.toNat)], by simp⟩ false 2 [0, 64] [0, 64] [64, 64] 1 := by
  refine (rails_agree_iff false 2 (by decide) ["a", "a"] [0, 64] [0, 64] [64, 64] rfl rfl rfl _ _ ?_ 1
    (by decide)).mpr ⟨by decide, ?_⟩
  · intro node hnode
    obtain rfl : node = "a" := by simpa using hnode
    exact ⟨twoRails, rfl, rfl⟩
  · intro j k hk hfirst
    obtain rfl : toLex (1, "10.0.0.1:7001") = k := Option.some.inj hk
    have hone : First (Request.place 2 ["a", "a"] ⟨[("a", twoRails.endpoints)], by simp⟩
        ⟨[("a", twoRails.rkeys.map Int.toNat)], by simp⟩) (toLex (1, "10.0.0.1:7001")) 1 :=
      ⟨hk, by decide⟩
    rw [hfirst.unique hone]

/-- An owner that advertises two endpoints and one key. -/
def oneKey : DataLocation := { twoRails with railRkeys := [] }

/-- An owner at an endpoint that another owner has too. -/
def sharing (node : String) (rkey : Int) : DataLocation :=
  ⟨node, "10.0.0.2:7000", 0, rkey, 64, true, [], []⟩

/-- The second read from an owner with two endpoints and one key: Python pairs the endpoint of rail 1
    with the key of rail 0, and the engine uses rail 0.  The second of two owners at one endpoint:
    Python sends its own key, the engine that of the first. -/
theorem stripings_differ :
    (let eps : OrderedDict String (List String) := ⟨[("a", oneKey.endpoints)], by simp⟩
      let rks : OrderedDict String (List Nat) := ⟨[("a", oneKey.rkeys.map Int.toNat)], by simp⟩
      let python := Transport.batchReadMulti 2 ["a", "a"] [0, 64] [0, 64] [64, 64] eps rks
      let engine := Request.batchReadMulti ["a", "a"] [0, 64] [0, 64] [64, 64] eps rks
      python.endpointOf 1 = some "10.0.0.1:7001" ∧ python.keyOf 1 = some 7
        ∧ engine.groups 2 = [⟨0, "10.0.0.1:7000", some 7, [0, 1]⟩]
        ∧ ¬ OpAgrees ["a", "a"] eps rks false 2 [0, 64] [0, 64] [64, 64] 1)
      ∧ (let eps : OrderedDict String (List String) :=
          ⟨[("b", (sharing "b" 1).endpoints), ("c", (sharing "c" 2).endpoints)], by decide⟩
        let rks : OrderedDict String (List Nat) :=
          ⟨[("b", (sharing "b" 1).rkeys.map Int.toNat), ("c", (sharing "c" 2).rkeys.map Int.toNat)],
            by decide⟩
        let python := Transport.batchReadMulti 1 ["b", "c"] [0, 64] [0, 64] [64, 64] eps rks
        let engine := Request.batchReadMulti ["b", "c"] [0, 64] [0, 64] [64, 64] eps rks
        python.endpointOf 1 = some "10.0.0.2:7000" ∧ python.keyOf 1 = some 2
          ∧ engine.groups 1 = [⟨0, "10.0.0.2:7000", some 1, [0, 1]⟩]
          ∧ ¬ OpAgrees ["b", "c"] eps rks false 1 [0, 64] [0, 64] [64, 64] 1) := by
  constructor
  · refine ⟨by decide, by decide, by decide, ?_⟩
    intro h
    exact absurd h.rail (by decide)
  · intro eps rks python engine
    have hgroups : engine.groups 1 = [⟨0, "10.0.0.2:7000", some 1, [0, 1]⟩] := by decide
    refine ⟨by decide, by decide, hgroups, ?_⟩
    intro h
    obtain ⟨g, hg, -, -, hkey⟩ := h.issued
    obtain rfl := mem_singleton.mp (hgroups ▸ hg)
    exact absurd hkey (by decide)

end PeerCacheEngine
