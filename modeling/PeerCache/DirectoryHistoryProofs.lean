import Mathlib
import PeerCache.DirectoryClientProofs

/-! # Where the directory is not one map — ring changes and lost nodes

    `directory_refines_one_map` needs one ring and every node reachable.  Without them the
    shards show through. -/

namespace PeerCacheDirectoryClient

open PeerCacheRing List Option

variable {Loc : Type}

/-! ## Histories with ring changes -/

/-- A call by a client with a given replica count, or a change of the ring the clients share. -/
inductive Event (Loc : Type) where
  | call (replicas : Int) (call : Call Loc)
  | setNodes (nodeIds order : List String) (isOrder : order.Perm nodeIds.dedup)

/-- The current ring and the shards, which stay with their nodes. -/
structure Site where
  ring : ConsistentHashRing
  shards : Shards

def Site.step (hash : String → Nat) (codec : Codec Loc) (s : Site) : Event Loc → Site
  | .call replicas call =>
      { s with shards :=
        (serve hash codec (fun _ => true) (DirectoryClient.new s.ring replicas) s.shards call).2 }
  | .setNodes nodeIds order _ => { s with ring := setNodes hash s.ring nodeIds order }

/-- The site after a history. -/
def replay (hash : String → Nat) (codec : Codec Loc) (vnodes : Nat) (history : List (Event Loc)) :
    Site :=
  history.foldl (Site.step hash codec) ⟨new vnodes, fun _ => OrderedDict.empty⟩

/-- What a call writes for a key: a location, nothing in its place, or no write at all. -/
def Call.write : Call Loc → String → Option (Option Loc)
  | .put entries, key => (entries.get? key).map some
  | .delete keys, key => if key ∈ keys then some none else none
  | .get _, _ => none
  | .existsKeys _, _ => none

/-- The writes of a key, in order. -/
def issued (history : List (Event Loc)) (key : String) : List (Option Loc) :=
  history.filterMap fun
    | .call _ call => call.write key
    | .setNodes _ _ _ => none

/-- The writes of a key made while `node` was one of its owners. -/
def reaching (hash : String → Nat) (node key : String) :
    List (Event Loc) → ConsistentHashRing → List (Option Loc)
  | [], _ => []
  | .call replicas call :: history, ring =>
      (if node ∈ owners hash (DirectoryClient.new ring replicas) key then (call.write key).toList
        else []) ++ reaching hash node key history ring
  | .setNodes nodeIds order _ :: history, ring =>
      reaching hash node key history (setNodes hash ring nodeIds order)

section

variable {hash : String → Nat} {codec : Codec Loc}

lemma serve_get? (c : DirectoryClient) (shards : Shards) (call : Call Loc) (node key : String) :
    ((serve hash codec (fun _ => true) c shards call).2 node).get? key
      = ((if node ∈ owners hash c key then (call.write key).toList else []).getLast?).elim
          ((shards node).get? key) (fun v => v.map codec.toDict) := by
  cases call with
  | put entries =>
    refine (put_get? shards entries node key).trans ?_
    by_cases hn : node ∈ owners hash c key
    · rw [if_pos ⟨hn, rfl⟩, if_pos hn, Call.write]
      cases entries.get? key with
      | none => rfl
      | some loc => rfl
    · rw [if_neg (fun h => hn h.1), if_neg hn]; rfl
  | delete keys =>
    refine (delete_get? shards keys node key).trans ?_
    by_cases hn : node ∈ owners hash c key
    · rw [if_pos hn, Call.write]
      by_cases hk : key ∈ keys
      · rw [if_pos ⟨hk, hn, rfl⟩, if_pos hk]; rfl
      · rw [if_neg (fun h => hk h.1), if_neg hk]; rfl
    · rw [if_neg (fun h => hn h.2.1), if_neg hn]; rfl
  | get keys | existsKeys keys =>
    rw [Call.write]
    simp only [toList_none, ite_self, getLast?_nil]
    rfl

/-- **A SHARD HOLDS THE LAST WRITE THAT REACHED IT.** -/
lemma foldl_step_get? (history : List (Event Loc)) (s : Site) (node key : String) :
    ((history.foldl (Site.step hash codec) s).shards node).get? key
      = ((reaching hash node key history s.ring).getLast?).elim ((s.shards node).get? key)
          (fun v => v.map codec.toDict) := by
  induction history generalizing s with
  | nil => rfl
  | cons e history ih =>
    rw [foldl_cons, ih]
    cases e with
    | call replicas call =>
      rw [reaching, getLast?_append]
      show ((reaching hash node key history s.ring).getLast?).elim _ _ = _
      cases (reaching hash node key history s.ring).getLast? with
      | none => exact serve_get? (DirectoryClient.new s.ring replicas) s.shards call node key
      | some v => rfl
    | setNodes nodeIds order _ => rfl

lemma shard_eq_last (vnodes : Nat) (history : List (Event Loc)) (node key : String) :
    ((replay hash codec vnodes history).shards node).get? key
      = ((reaching hash node key history (new vnodes)).getLast?.join).map codec.toDict := by
  refine (foldl_step_get? history _ node key).trans ?_
  cases (reaching hash node key history (new vnodes)).getLast? with
  | none => rfl
  | some v => rfl

lemma get_replay (vnodes : Nat) (history : List (Event Loc)) (replicas : Int) (key : String) :
    get hash codec (fun _ => true)
        (DirectoryClient.new (replay hash codec vnodes history).ring replicas)
        (replay hash codec vnodes history).shards [key]
      = [(primary hash (DirectoryClient.new (replay hash codec vnodes history).ring replicas) key).elim
          none (fun p => (reaching hash p key history (new vnodes)).getLast?.join)] := by
  generalize hc : DirectoryClient.new (replay hash codec vnodes history).ring replicas = c
  have hr : 1 ≤ c.replicas := hc ▸ one_le_replicas _ replicas
  refine (get_all hr (fun k => (primary hash c k).elim none
    (fun p => (reaching hash p k history (new vnodes)).getLast?.join)) ?_).trans ?_
  · intro k _ p hp
    rw [shard_eq_last, hp]
    rfl
  · refine congrArg (fun v => [v]) ?_
    show (primary hash c key).elim none (fun _ => (primary hash c key).elim none _) = _
    cases primary hash c key with
    | none => rfl
    | some p => rfl

/-- The law of a deleted key: if its last write is a delete, a lookup finds nothing. -/
def DeletedIsGone (hash : String → Nat) (codec : Codec Loc) (vnodes : Nat) (replicas : Int)
    (history : List (Event Loc)) (key : String) : Prop :=
  (issued history key).getLast? = some none →
    get hash codec (fun _ => true)
      (DirectoryClient.new (replay hash codec vnodes history).ring replicas)
      (replay hash codec vnodes history).shards [key] = [none]

/-- A put that reached the present primary of the key was followed by a delete that reached it,
    too, if the last write of all was a delete. -/
def DeleteReached (hash : String → Nat) (codec : Codec Loc) (vnodes : Nat) (replicas : Int)
    (history : List (Event Loc)) (key : String) : Prop :=
  (issued history key).getLast? = some none →
    ∀ p, primary hash (DirectoryClient.new (replay hash codec vnodes history).ring replicas) key = some p →
      ∀ loc, (reaching hash p key history (new vnodes)).getLast? ≠ some (some loc)

/-- **A DELETED ENTRY STAYS DELETED** exactly when the present primary of the key did not miss the
    delete: the last write of the key made while that node was one of its owners is not a put. -/
theorem deleted_stays_deleted_iff (hash : String → Nat) (codec : Codec Loc) (vnodes : Nat)
    (replicas : Int) (history : List (Event Loc)) (key : String) :
    DeletedIsGone hash codec vnodes replicas history key
      ↔ DeleteReached hash codec vnodes replicas history key := by
  refine imp_congr Iff.rfl ?_
  rw [get_replay, List.cons_eq_cons, and_iff_left rfl]
  generalize primary hash (DirectoryClient.new (replay hash codec vnodes history).ring replicas) key = prim
  cases prim with
  | none => exact ⟨fun _ p hp => (nomatch hp), fun _ => rfl⟩
  | some p =>
      show (reaching hash p key history (new vnodes)).getLast?.join = none ↔ _
      constructor
      · rintro hnone q hq loc hlast
        obtain rfl := Option.some.inj hq
        rw [hlast] at hnone
        exact nomatch hnone
      · intro h
        cases hlast : (reaching hash p key history (new vnodes)).getLast? with
        | none => rfl
        | some v =>
            cases v with
            | none => rfl
            | some loc => exact absurd hlast (h p rfl loc)

end

/-- `a` alone, `b` joins and owns `b#0`, the entry is deleted there, `b` leaves: the put that `a`
    got is back. -/
theorem deleted_entry_returns :
    ¬ DeletedIsGone charCode wire 2 1
      [.setNodes ["a"] ["a"] (by decide),
        .call 1 (.put ⟨[("b#0", ⟨"a", "10.0.0.1:7000", 4096, 17, 64, true, [], []⟩)], by decide⟩),
        .setNodes ["a", "b"] ["a", "b"] (by decide), .call 1 (.delete ["b#0"]),
        .setNodes ["a"] ["a"] (by decide)] "b#0" := by
  intro h
  exact absurd (h rfl) (by decide +kernel)

/-! ## Lost nodes -/

section

variable {hash : String → Nat} {codec : Codec Loc}

/-- The shards after calls made with every node reachable, by clients of one configuration. -/
def served (hash : String → Nat) (codec : Codec Loc) (c : DirectoryClient) (calls : List (Call Loc)) :
    Shards :=
  calls.foldl (fun shards call => (serve hash codec (fun _ => true) c shards call).2)
    (fun _ => OrderedDict.empty)

/-- What is stored after the calls. -/
def stored (calls : List (Call Loc)) : String → Option Loc :=
  calls.foldl (fun m call => (mapServe m call).2) (fun _ => none)

/-- Every owner of a key holds its value, and no other node does. -/
def Replicated (hash : String → Nat) (codec : Codec Loc) (c : DirectoryClient)
    (m : String → Option Loc) (shards : Shards) : Prop :=
  ∀ node key, (shards node).get? key
    = (if node ∈ owners hash c key then m key else none).map codec.toDict

variable {c : DirectoryClient}

lemma serve_replicated {m : String → Option Loc} {shards : Shards}
    (h : Replicated hash codec c m shards) (call : Call Loc) :
    Replicated hash codec c (mapServe m call).2 (serve hash codec (fun _ => true) c shards call).2 := by
  intro node key
  rw [serve_get?, h]
  by_cases hn : node ∈ owners hash c key
  · rw [if_pos hn, if_pos hn, if_pos hn]
    cases call with
    | put entries =>
      show _ = ((entries.get? key).or (m key)).map codec.toDict
      rw [Call.write]
      cases entries.get? key with
      | none => rfl
      | some loc => rfl
    | delete keys =>
      show _ = (if key ∈ keys then none else m key).map codec.toDict
      rw [Call.write]
      by_cases hk : key ∈ keys
      · rw [if_pos hk, if_pos hk]; rfl
      · rw [if_neg hk, if_neg hk]; rfl
    | get keys => rfl
    | existsKeys keys => rfl
  · rw [if_neg hn, if_neg hn, if_neg hn]; rfl

lemma served_replicated (c : DirectoryClient) (calls : List (Call Loc)) :
    Replicated hash codec c (stored calls) (served hash codec c calls) := by
  have key : ∀ (calls : List (Call Loc)) (m : String → Option Loc) (shards : Shards),
      Replicated hash codec c m shards →
      Replicated hash codec c (calls.foldl (fun m call => (mapServe m call).2) m)
        (calls.foldl (fun shards call => (serve hash codec (fun _ => true) c shards call).2) shards) := by
    intro calls
    induction calls with
    | nil => exact fun _ _ h => h
    | cons call calls ih => exact fun m shards h => ih _ _ (serve_replicated h call)
  refine key calls _ _ ?_
  intro node k
  rw [ite_self]
  rfl

/-- One of the key's owners can be reached. -/
def LiveOwner (hash : String → Nat) (c : DirectoryClient) (reachable : String → Bool) (key : String) :
    Prop := ∃ node ∈ owners hash c key, reachable node = true

/-- `get` finds every stored key of the list that has a live owner. -/
def GetSurvives (hash : String → Nat) (codec : Codec Loc) (c : DirectoryClient)
    (calls : List (Call Loc)) (reachable : String → Bool) (keys : List String) : Prop :=
  ∀ q ∈ keys.zip (get hash codec reachable c (served hash codec c calls) keys),
    ∀ loc, stored calls q.1 = some loc → LiveOwner hash c reachable q.1 → q.2 = some loc

/-- `exists` confirms every stored key of the list that has a live owner. -/
def ExistsSurvives (hash : String → Nat) (codec : Codec Loc) (c : DirectoryClient)
    (calls : List (Call Loc)) (reachable : String → Bool) (keys : List String) : Prop :=
  ∀ q ∈ keys.zip (existsKeys hash reachable c (served hash codec c calls) keys),
    ∀ loc, stored calls q.1 = some loc → LiveOwner hash c reachable q.1 → q.2 = true

/-- The first key of the list with the same primary: the group's key whose owners are tried. -/
def firstOfGroup (hash : String → Nat) (c : DirectoryClient) (keys : List String) (key : String) :
    Option String :=
  (keys.filter (fun j => decide (primary hash c j = primary hash c key))).head?

lemma answerer_eq_first (hr : 1 ≤ c.replicas) (reachable : String → Bool) {keys : List String}
    {k p : String} (hk : k ∈ keys) (hp : primary hash c k = some p) :
    ∃ first, firstOfGroup hash c keys k = some first ∧ primary hash c first = some p
      ∧ answerer hash reachable c keys p = (owners hash c first).find? reachable := by
  have hgroup : keys.filter (fun j => decide (primary hash c j = primary hash c k))
      = Scatter.groupOf (primary hash c) keys p := by rw [hp]; rfl
  rw [firstOfGroup, hgroup, answerer]
  cases hg : Scatter.groupOf (primary hash c) keys p with
  | nil => exact absurd hg (ne_nil_of_mem (Scatter.mem_groupOf.mpr ⟨hk, hp⟩))
  | cons first group =>
    have hfirst : primary hash c first = some p :=
      (Scatter.mem_groupOf.mp (hg ▸ mem_cons_self)).2
    exact ⟨first, rfl, hfirst, congrArg (List.find? reachable) (candidates_eq hr hfirst)⟩

lemma exists_primary_of_liveOwner {reachable : String → Bool} {k : String}
    (h : LiveOwner hash c reachable k) : ∃ p, primary hash c k = some p := by
  obtain ⟨node, hn, -⟩ := h
  rw [primary]
  cases ho : owners hash c k with
  | nil => rw [ho] at hn; cases hn
  | cons p rest => exact ⟨p, rfl⟩

lemma get_served (calls : List (Call Loc)) (reachable : String → Bool) (keys : List String) :
    keys.zip (get hash codec reachable c (served hash codec c calls) keys)
      = keys.map (fun k => (k, (primary hash c k).elim none (fun p =>
          (answerer hash reachable c keys p).elim none (fun node =>
            if node ∈ owners hash c k then stored calls k else none)))) := by
  rw [get_eq _ (fun _ node _ k _ => served_replicated c calls node k), map_prod_left_eq_zip]

lemma existsKeys_served (calls : List (Call Loc)) (reachable : String → Bool) (keys : List String) :
    keys.zip (existsKeys hash reachable c (served hash codec c calls) keys)
      = keys.map (fun k => (k, (primary hash c k).elim false (fun p =>
          reachable p && (stored calls k).isSome))) := by
  rw [existsKeys_eq, map_prod_left_eq_zip]
  refine congrArg keys.zip (map_congr_left ?_)
  intro k _
  cases hp : primary hash c k with
  | none => rfl
  | some p =>
    show (reachable p && ((served hash codec c calls p).get? k).isSome) = _
    rw [served_replicated, if_pos (mem_owners_of_primary hp), isSome_map]
    rfl

lemma getSurvives_iff (hr : 1 ≤ c.replicas) (calls : List (Call Loc)) (reachable : String → Bool)
    (keys : List String) :
    GetSurvives hash codec c calls reachable keys
      ↔ ∀ k ∈ keys, (stored calls k).isSome = true → LiveOwner hash c reachable k →
          ∃ first, firstOfGroup hash c keys k = some first
            ∧ ∃ node ∈ owners hash c k, (owners hash c first).find? reachable = some node := by
  rw [GetSurvives, get_served]
  constructor
  · intro h k hk hstored hlive
    obtain ⟨loc, hloc⟩ := isSome_iff_exists.mp hstored
    obtain ⟨p, hp⟩ := exists_primary_of_liveOwner hlive
    obtain ⟨first, hfirst, -, hans⟩ := answerer_eq_first hr reachable hk hp
    have hval := h _ (mem_map.mpr ⟨k, hk, rfl⟩) loc hloc hlive
    simp only [hp, elim_some, hans] at hval
    refine ⟨first, hfirst, ?_⟩
    cases hfind : (owners hash c first).find? reachable with
    | none => rw [hfind] at hval; cases hval
    | some node =>
      rw [hfind] at hval
      refine ⟨node, ?_, rfl⟩
      by_contra hnot
      simp only [elim_some, if_neg hnot] at hval
      cases hval
  · rintro h q hq loc hloc hlive
    obtain ⟨k, hk, rfl⟩ := mem_map.mp hq
    obtain ⟨p, hp⟩ := exists_primary_of_liveOwner hlive
    obtain ⟨first, hfirst, -, hans⟩ := answerer_eq_first hr reachable hk hp
    obtain ⟨first', hfirst', node, hn, hfind⟩ :=
      h k hk (isSome_iff_exists.mpr ⟨loc, hloc⟩) hlive
    obtain rfl := some.inj (hfirst.symm.trans hfirst')
    simp only [hp, elim_some, hans, hfind, if_pos hn]
    exact hloc

/-- **LOOKUPS SURVIVE THE LOSS OF NODES** exactly while the primary of every stored key with a live
    owner is live, because `exists` asks nobody else.  `get` asks further, but only the owners of
    the first key of each group: it survives exactly when the first of these that is live also
    owns the key. -/
theorem lookups_survive_iff (hash : String → Nat) (codec : Codec Loc) (ring : ConsistentHashRing)
    (replicas : Int) (calls : List (Call Loc)) (reachable : String → Bool) (keys : List String) :
    let c := DirectoryClient.new ring replicas
    ((GetSurvives hash codec c calls reachable keys ∧ ExistsSurvives hash codec c calls reachable keys)
        ↔ ∀ k ∈ keys, (stored calls k).isSome = true → LiveOwner hash c reachable k →
            ∃ p, primary hash c k = some p ∧ reachable p = true)
      ∧ (GetSurvives hash codec c calls reachable keys
        ↔ ∀ k ∈ keys, (stored calls k).isSome = true → LiveOwner hash c reachable k →
            ∃ first, firstOfGroup hash c keys k = some first
              ∧ ∃ node ∈ owners hash c k, (owners hash c first).find? reachable = some node) := by
  intro c
  have hr : 1 ≤ c.replicas := one_le_replicas ring replicas
  refine ⟨⟨?_, ?_⟩, getSurvives_iff hr calls reachable keys⟩
  · rintro ⟨-, hex⟩ k hk hstored hlive
    obtain ⟨loc, hloc⟩ := Option.isSome_iff_exists.mp hstored
    obtain ⟨p, hp⟩ := exists_primary_of_liveOwner hlive
    rw [ExistsSurvives, existsKeys_served] at hex
    have hval := hex _ (List.mem_map.mpr ⟨k, hk, rfl⟩) loc hloc hlive
    simp only [hp, Option.elim_some, Bool.and_eq_true] at hval
    exact ⟨p, hp, hval.1⟩
  · intro h
    refine ⟨(getSurvives_iff hr calls reachable keys).mpr ?_, ?_⟩
    · intro k hk hstored hlive
      obtain ⟨p, hp, hup⟩ := h k hk hstored hlive
      obtain ⟨first, hfirst, hprim, -⟩ := answerer_eq_first hr reachable hk hp
      -- a live primary is the first to be tried for its whole group
      refine ⟨first, hfirst, p, mem_owners_of_primary hp, ?_⟩
      rw [primary] at hprim
      cases ho : owners hash c first with
      | nil => rw [ho] at hprim; cases hprim
      | cons q rest =>
          rw [ho] at hprim
          obtain rfl := Option.some.inj hprim
          exact List.find?_cons_of_pos hup
    · rw [ExistsSurvives, existsKeys_served]
      rintro q hq loc hloc hlive
      obtain ⟨k, hk, rfl⟩ := List.mem_map.mp hq
      obtain ⟨p, hp, hup⟩ := h k hk (Option.isSome_iff_exists.mpr ⟨loc, hloc⟩) hlive
      have hstored : stored calls k = some loc := hloc
      show (primary hash c k).elim false _ = true
      simp only [hp, Option.elim_some, hup, hstored, Option.isSome_some, Bool.and_self]

end

/-- A hash that places `a`, `b`, `a`, `c` around the ring. -/
def mixedHash (s : String) : Nat :=
  if s = "k" then 5 else if s = "a#0" then 10 else if s = "b#0" then 20 else if s = "x" then 25
  else if s = "a#1" then 30 else if s = "c#0" then 40 else if s = "b#1" then 50 else 60

/-- Two replicas, `k` at `a` and `b`, `x` at `a` and `c`, and `a` is lost.  `get` asks `b` for both
    keys and `exists` asks nobody. -/
theorem lookups_lost_with_primary :
    ¬ (GetSurvives mixedHash wire (DirectoryClient.new (run mixedHash 2
          [.addNode "a", .addNode "b", .addNode "c"]) 2)
        [.put ⟨[("k", ⟨"a", "10.0.0.1:7000", 4096, 17, 64, true, [], []⟩),
          ("x", ⟨"a", "10.0.0.1:7000", 8192, 17, 64, true, [], []⟩)], by decide⟩]
        (fun node => node != "a") ["k", "x"])
      ∧ ¬ (ExistsSurvives mixedHash wire (DirectoryClient.new (run mixedHash 2
          [.addNode "a", .addNode "b", .addNode "c"]) 2)
        [.put ⟨[("k", ⟨"a", "10.0.0.1:7000", 4096, 17, 64, true, [], []⟩),
          ("x", ⟨"a", "10.0.0.1:7000", 8192, 17, 64, true, [], []⟩)], by decide⟩]
        (fun node => node != "a") ["k", "x"]) := by
  constructor
  · intro h
    have hx := h ("x", none) (by decide +kernel) _ rfl ⟨"c", by decide +kernel, rfl⟩
    exact nomatch hx
  · intro h
    have hk := h ("k", false) (by decide +kernel) _ rfl ⟨"b", by decide +kernel, rfl⟩
    exact nomatch hk

end PeerCacheDirectoryClient
