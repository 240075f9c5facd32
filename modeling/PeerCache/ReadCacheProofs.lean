import PeerCache.DirectoryClientProofs
import PeerCache.P2pRaceProofs
import PeerCache.PartialLookupProofs

/-! # The caches in front of the directory

    `_fetch` asks `_take_primed` where its pages are.  Locations that the last `batch_exists`
    primed are used first, each once; the keys left over go to `_dir_get`, which looks in a
    cache with a time to live and asks the directory for the rest.  Each level splits its keys
    into hits and misses by position and merges the answers of the next level back. -/

namespace PeerCacheReadCache

open PeerCacheDirectoryClient PartialLookup OrderedDict Option Function

variable {Loc T : Type} [LinearOrder T]

/-- `_primed` and `_dir_cache`, each location with the time it expires at; `_dir_cache_ttl`; and the
    `directory_lookups_saved` counter. -/
structure ReadCache (Loc T : Type) where
  primed : OrderedDict String (Loc × T)
  dirCache : OrderedDict String (Loc × T)
  dirCacheTtl : T
  directoryLookupsSaved : Nat

/-- The entry of a key, unless it has expired. -/
def unexpired (now : T) (d : OrderedDict String (Loc × T)) (k : String) : Option Loc :=
  match d.get? k with
  | none => none
  | some ent => if ent.2 > now then some ent.1 else none

/-- The last loop of `_dir_get`: resident locations are cached until `exp`. -/
def cacheResident (resident : Loc → Bool) (exp : T) (keys : List String) (fresh : List (Option Loc))
    (d : OrderedDict String (Loc × T)) : OrderedDict String (Loc × T) :=
  (keys.zip fresh).foldl (fun d p =>
    match p.2 with
    | none => d
    | some loc => if resident loc then d.set p.1 (loc, exp) else d) d

section

-- `runtime.directory.get`
variable [Zero T] [Add T] (resident : Loc → Bool) (lookup : List String → List (Option Loc))

/-- `_dir_get` -/
def dirGet (ttl now : T) (d : OrderedDict String (Loc × T)) (keys : List String) :
    List (Option Loc) × OrderedDict String (Loc × T) :=
  if ttl ≤ 0 then (lookup keys, d)
  else
    let s := scan (fun d k => (unexpired now d k, d)) d keys
    if s.missKeys = [] then (s.out, d)
    else
      let fresh := lookup s.missKeys
      (fill s.out s.missIdx fresh, cacheResident resident (now + ttl) s.missKeys fresh d)

/-- A key of `_take_primed`: its entry is popped, and counted if it serves. -/
def popPrimed (now : T) (s : OrderedDict String (Loc × T) × Nat) (k : String) :
    Option Loc × OrderedDict String (Loc × T) × Nat :=
  (unexpired now s.1 k, s.1.erase k, if (unexpired now s.1 k).isSome then s.2 + 1 else s.2)

/-- `_take_primed`, which reads the clock at `now`; `_dir_get` reads it again at `later`. -/
def takePrimed (now later : T) (rc : ReadCache Loc T) (keys : List String) :
    List (Option Loc) × ReadCache Loc T :=
  let s := scan (popPrimed now) (rc.primed, 0) keys
  let rc : ReadCache Loc T :=
    { rc with
      primed := s.state.1
      directoryLookupsSaved := rc.directoryLookupsSaved + s.state.2 }
  if s.missKeys = [] then (s.out, rc)
  else
    let fresh := dirGet resident lookup rc.dirCacheTtl later rc.dirCache s.missKeys
    (fill s.out s.missIdx fresh.1, { rc with dirCache := fresh.2 })

end

/-! ## Entries that say what the directory says -/

/-- What a lookup says of one key. -/
def located (lookup : List String → List (Option Loc)) (k : String) : Option Loc :=
  (lookup [k]).headD none

/-- A batch is answered key by key. -/
def Pointwise (lookup : List String → List (Option Loc)) : Prop :=
  ∀ keys, lookup keys = keys.map (located lookup)

/-- Every entry that has not expired by `now` is the location of its key. -/
def Coherent (location : String → Option Loc) (now : T) (d : OrderedDict String (Loc × T)) : Prop :=
  ∀ k ent, d.get? k = some ent → now < ent.2 → location k = some ent.1

variable {location : String → Option Loc} {now later : T} {d : OrderedDict String (Loc × T)}
  {keys : List String}

lemma Coherent.mono (h : Coherent location now d) (hle : now ≤ later) : Coherent location later d :=
  fun k ent hk hexp => h k ent hk (hle.trans_lt hexp)

variable {k : String} {loc : Loc}

lemma Coherent.hit (h : Coherent location now d) (hk : unexpired now d k = some loc) :
    location k = some loc := by
  unfold unexpired at hk
  cases hent : d.get? k with
  | none => rw [hent] at hk; cases hk
  | some ent =>
    rw [hent] at hk
    simp only at hk
    split_ifs at hk with hexp
    exact (h k ent hent hexp).trans hk

lemma Coherent.erase (h : Coherent location now d) (k : String) :
    Coherent location now (d.erase k) := by
  intro j ent hj
  rw [get?_erase] at hj
  split_ifs at hj
  exact h j ent hj

lemma Coherent.set (h : Coherent location now d) (hk : location k = some loc) (exp : T) :
    Coherent location now (d.set k (loc, exp)) := by
  intro j ent hj
  rw [get?_set] at hj
  split_ifs at hj with hjk
  · intro _
    rw [hjk, ← some.inj hj]
    exact hk
  · exact h j ent hj

lemma Coherent.cacheResident (h : Coherent location now d) (resident : Loc → Bool) (exp : T)
    (keys : List String) :
    Coherent location now (cacheResident resident exp keys (keys.map location) d) := by
  refine List.foldlRecOn (motive := Coherent location now) _ _ h ?_
  intro d hd p hp
  have hloc : p.2 = location p.1 := by
    obtain ⟨i, hi⟩ := List.mem_iff_getElem?.mp hp
    obtain ⟨h1, h2⟩ := List.getElem?_zip_eq_some.mp hi
    rw [List.getElem?_map, h1] at h2
    exact (some.inj h2).symm
  cases hp2 : p.2 with
  | none => exact hd
  | some loc =>
    simp only
    split_ifs
    · exact hd.set (hloc.symm.trans hp2) exp
    · exact hd

section

variable [Zero T] [Add T] {resident : Loc → Bool} {lookup : List String → List (Option Loc)}

/-- **`_dir_get` IS TRANSPARENT**, and caches nothing but locations of the directory. -/
lemma dirGet_transparent (hlookup : Pointwise lookup) {ttl : T}
    (h : Coherent (located lookup) now d) (hle : now ≤ later) (keys : List String) :
    (dirGet resident lookup ttl later d keys).1 = keys.map (located lookup)
      ∧ Coherent (located lookup) now (dirGet resident lookup ttl later d keys).2 := by
  have hsame : resolve (fun d k => (unexpired later d k, d)) (located lookup) d keys
      = keys.map (located lookup) :=
    resolve_eq_map (P := fun d => Coherent (located lookup) now d) (fun _ _ hs => hs)
      (fun _ _ _ hs hit => (hs.mono hle).hit hit) h keys
  unfold dirGet
  split_ifs with httl
  · exact ⟨hlookup keys, h⟩
  · simp only
    split_ifs with hnil
    · exact ⟨(scan_out_of_no_miss _ _ hnil).trans hsame, h⟩
    · rw [hlookup]
      exact ⟨(fill_scan _ _ d keys).trans hsame, h.cacheResident resident _ _⟩

variable {rc : ReadCache Loc T}

lemma takePrimed_fst
    (hdir : ∀ keys, (dirGet resident lookup rc.dirCacheTtl later rc.dirCache keys).1
      = keys.map location) (keys : List String) :
    (takePrimed resident lookup now later rc keys).1
      = resolve (popPrimed now) location (rc.primed, 0) keys := by
  unfold takePrimed
  simp only
  split_ifs with hnil
  · exact scan_out_of_no_miss _ _ hnil
  · rw [hdir]; exact fill_scan _ _ (rc.primed, 0) keys

lemma takePrimed_primed (rc : ReadCache Loc T) (keys : List String) :
    (takePrimed resident lookup now later rc keys).2.primed = keys.foldl OrderedDict.erase rc.primed := by
  have hpop : ∀ (keys : List String) (s : OrderedDict String (Loc × T) × Nat),
      (keys.foldl (fun s k => (popPrimed now s k).2) s).1 = keys.foldl erase s.1 := by
    intro keys
    induction keys with
    | nil => exact fun _ => rfl
    | cons k keys ih => exact fun s => ih _
  have hstate : (scan (popPrimed now) (rc.primed, 0) keys).state.1
      = keys.foldl erase rc.primed := by
    rw [scan_state]
    exact hpop keys _
  unfold takePrimed
  simp only
  split_ifs
  · exact hstate
  · exact hstate

lemma coherent_takePrimed (hlookup : Pointwise lookup)
    (h : Coherent (located lookup) now rc.dirCache) (hle : now ≤ later) (keys : List String) :
    Coherent (located lookup) now (takePrimed resident lookup now later rc keys).2.dirCache := by
  unfold takePrimed
  simp only
  split_ifs
  · exact h
  · exact (dirGet_transparent hlookup h hle _).2

end

/-! ## The directory -/

/-- The shards hold encoded locations; `put` and `delete` keep it so. -/
def Written (codec : Codec Loc) (shards : Shards) : Prop :=
  ∀ node k dict, (shards node).get? k = some dict → ∃ loc, dict = codec.toDict loc

section

variable {hash : String → Nat} {codec : Codec Loc} {shards : Shards}

lemma Written.put {reachable : String → Bool} {c : DirectoryClient} (h : Written codec shards)
    (entries : OrderedDict String Loc) :
    Written codec (put hash codec reachable c shards entries) := by
  intro node k dict hk
  rw [put_get?, or_eq_some_iff] at hk
  rcases hk with hnew | ⟨-, hold⟩
  · obtain ⟨-, hget⟩ := ite_none_right_eq_some.mp hnew
    obtain ⟨loc, -, rfl⟩ := map_eq_some_iff.mp hget
    exact ⟨loc, rfl⟩
  · exact h node k dict hold

lemma Written.delete {reachable : String → Bool} {c : DirectoryClient} (h : Written codec shards)
    (keys : List String) : Written codec (delete hash reachable c shards keys) := by
  intro node k dict hk
  rw [delete_get?] at hk
  exact h node k dict (ite_none_left_eq_some.mp hk).2

lemma pointwise_get (h : Written codec shards) {c : DirectoryClient} (hr : 1 ≤ c.replicas) :
    Pointwise (get hash codec (fun _ => true) c shards) := by
  have hread : ∀ (keys : List String), ∀ k ∈ keys, ∀ p, primary hash c k = some p →
      (shards p).get? k
        = (((primary hash c k).bind (fun p => (shards p).get? k)).bind codec.fromDict).map
            codec.toDict := by
    intro keys k _ p hp
    rw [hp, bind_some]
    cases hk : (shards p).get? k with
    | none => rfl
    | some dict =>
      obtain ⟨loc, rfl⟩ := h p k dict hk
      rw [bind_some, codec.fromDict_toDict]
      rfl
  intro keys
  rw [get_all hr _ (hread keys)]
  refine List.map_congr_left ?_
  intro k _
  rw [located, get_all hr _ (hread [k])]
  rfl

end

/-- **THE READ CACHES ARE TRANSPARENT**: with every shard reachable and no unexpired entry other
    than the directory's, `_take_primed` answers as `directory.get` does, has popped all its
    keys, and leaves a cache with no other unexpired entries either. -/
theorem take_primed_transparent [Zero T] [Add T] (hash : String → Nat) (ring : PeerCacheRing.ConsistentHashRing)
    (replicas : Int) (shards : Shards) (hshards : Written wire shards) (rc : ReadCache DataLocation T)
    (now later : T) (hclock : now ≤ later) (keys : List String) :
    let directory := get hash wire (fun _ => true) (DirectoryClient.new ring replicas) shards
    Coherent (located directory) now rc.primed → Coherent (located directory) now rc.dirCache →
      let taken := takePrimed DataLocation.resident directory now later rc keys
      taken.1 = directory keys ∧ (∀ k ∈ keys, taken.2.primed.get? k = none)
        ∧ Coherent (located directory) now taken.2.dirCache := by
  intro directory hprimed hcache taken
  have hdir : Pointwise directory := pointwise_get hshards (one_le_replicas ring replicas)
  refine ⟨?_, ?_, coherent_takePrimed hdir hcache hclock keys⟩
  · have hfirst : taken.1 = resolve (popPrimed now) (located directory) (rc.primed, 0) keys :=
      takePrimed_fst (fun keys => (dirGet_transparent hdir hcache hclock keys).1) keys
    rw [hfirst, hdir keys]
    exact resolve_eq_map (P := fun s => Coherent (located directory) now s.1)
      (fun _ k hs => hs.erase k) (fun _ _ _ hs hit => hs.hit hit) hprimed keys
  · intro k hk
    have hpopped : taken.2.primed = keys.foldl erase rc.primed :=
      takePrimed_primed rc keys
    rw [hpopped, get?_foldl_erase, if_pos hk]

/-- A location on one node, a directory where it is put beside one that is deleted, a primed entry
    that has expired and a cached one that has not. -/
theorem take_primed_transparent_one_entry :
    let loc : DataLocation := ⟨"a", "10.0.0.1:7000", 4096, 17, 64, true, ["10.0.0.1:7000"], [17]⟩
    let c := DirectoryClient.new (PeerCacheRing.run PeerCacheRing.charCode 2 [.addNode "a"]) 1
    let shards := delete PeerCacheRing.charCode (fun _ => true) c
      (put PeerCacheRing.charCode wire (fun _ => true) c (fun _ => OrderedDict.empty)
        ⟨[("k", loc), ("x", loc)], by simp⟩) ["x"]
    let directory := get PeerCacheRing.charCode wire (fun _ => true) c shards
    let rc : ReadCache DataLocation Int :=
      ⟨⟨[("k", ({ loc with length := 1 }, 3))], by simp⟩, ⟨[("k", (loc, 9))], by simp⟩, 5, 0⟩
    (takePrimed DataLocation.resident directory 4 6 rc ["x", "k", "k"]).1 = directory ["x", "k", "k"]
      ∧ directory ["x", "k", "k"] = [none, some loc, some loc] := by
  intro loc c shards directory rc
  have hempty : Written wire (fun _ => OrderedDict.empty) := by
    intro node k dict hk
    cases hk
  have hshards : Written wire shards := (hempty.put _).delete ["x"]
  have hprimed : Coherent (located directory) 4 rc.primed := by
    intro k ent hk hexp
    have hmem : (k, ent) ∈ [("k", ({ loc with length := 1 }, (3 : Int)))] :=
      get?_eq_some.mp hk
    obtain ⟨rfl, rfl⟩ := Prod.mk.inj (List.mem_singleton.mp hmem)
    exact absurd hexp (by decide)
  have hcache : Coherent (located directory) 4 rc.dirCache := by
    intro k ent hk _
    have hmem : (k, ent) ∈ [("k", (loc, (9 : Int)))] := get?_eq_some.mp hk
    obtain ⟨rfl, rfl⟩ := Prod.mk.inj (List.mem_singleton.mp hmem)
    decide
  refine ⟨?_, by decide⟩
  exact (take_primed_transparent PeerCacheRing.charCode _ 1 shards hshards rc 4 6 (by decide) _
    hprimed hcache).1

/-! ## With the cache off -/

/-- **THE READ CACHE REFINES THE LOOKUP OF `P2pRaceProofs`**: with the TTL cache off, `_take_primed` and
    the `_dir_get` behind it over encoded shards return the primed locations and, for the other keys,
    those of the abstract directory; the same entries are used up. -/
theorem takePrimed_eq_fillMisses (hash : String → Nat) {c : DirectoryClient} (hr : 1 ≤ c.replicas)
    {codec : Codec PeerCacheDirectory.DataLocation} {dir : PeerCacheDirectory.Shards} {shards : Shards}
    (h : Represents codec dir shards) (rc : ReadCache PeerCacheDirectory.DataLocation Nat)
    (httl : rc.dirCacheTtl = 0) (now later : Nat) (keys : List String) :
    let taken := takePrimed PeerCacheDirectory.DataLocation.resident
      (get hash codec (fun _ => true) c shards) now later rc keys
    let popped := PeerCacheP2pRace.takePrimed now rc.primed keys
    taken.1 = PeerCacheP2pRace.fillMisses (owners hash c) dir keys popped.1
      ∧ taken.2.primed = popped.2 := by
  intro taken popped
  have hdir : ∀ keys, (dirGet PeerCacheDirectory.DataLocation.resident
      (get hash codec (fun _ => true) c shards) rc.dirCacheTtl later rc.dirCache keys).1
      = keys.map (PeerCacheDirectory.view (owners hash c) dir) := by
    intro keys
    rw [dirGet, if_pos httl.le]
    exact get_represents hr h keys
  have hboth : ∀ (keys : List String) (s : OrderedDict String (PeerCacheDirectory.DataLocation × Nat) × Nat),
      resolve (popPrimed now) (PeerCacheDirectory.view (owners hash c) dir) s keys
          = PeerCacheP2pRace.fillMisses (owners hash c) dir keys
              (PeerCacheP2pRace.takePrimed now s.1 keys).1
        ∧ keys.foldl erase s.1 = (PeerCacheP2pRace.takePrimed now s.1 keys).2 := by
    intro keys
    induction keys with
    | nil => exact fun _ => ⟨rfl, rfl⟩
    | cons k keys ih =>
        intro s
        obtain ⟨hout, hleft⟩ := ih (popPrimed now s k).2
        refine ⟨?_, hleft⟩
        have hpop : (popPrimed now s k).1 :: (PeerCacheP2pRace.takePrimed now (s.1.erase k) keys).1
            = (PeerCacheP2pRace.takePrimed now s.1 (k :: keys)).1 := by
          rw [popPrimed, unexpired, PeerCacheP2pRace.takePrimed]
          cases s.1.get? k with
          | none => rfl
          | some ent => rfl
        rw [resolve, hout, ← hpop]
        rfl
  refine ⟨?_, ?_⟩
  · exact (takePrimed_fst hdir keys).trans (hboth keys (rc.primed, 0)).1
  · exact (takePrimed_primed rc keys).trans (hboth keys (rc.primed, 0)).2

/-- A primed key, one whose priming has expired and that the directory has, and one in neither. -/
theorem takePrimed_eq_fillMisses_two_keys :
    let codec := PeerCacheDirectoryClient.located id (fun _ => []) (fun _ => [])
    let c := DirectoryClient.new (PeerCacheRing.run (fun _ => 0) 1 [.addNode "a"]) 1
    let shards := put (fun _ => 0) codec (fun _ => true) c (fun _ => OrderedDict.empty)
      ⟨[("old", ⟨"a", 4224, 7, 64, true⟩)], by decide⟩
    let taken := takePrimed PeerCacheDirectory.DataLocation.resident
      (get (fun _ => 0) codec (fun _ => true) c shards) 5 6
      ⟨⟨[("k", ⟨"a", 4096, 7, 64, true⟩, 9), ("old", ⟨"a", 4160, 7, 64, true⟩, 5)], by decide⟩,
        OrderedDict.empty, 0, 0⟩ ["k", "old", "x"]
    taken.1 = [some ⟨"a", 4096, 7, 64, true⟩, some ⟨"a", 4224, 7, 64, true⟩, none]
      ∧ taken.2.primed = OrderedDict.empty := by
  intro codec c shards taken
  have hempty : Represents codec (fun _ => empty) (fun _ => empty) := fun _ _ => rfl
  obtain ⟨hlocs, hprimed⟩ := takePrimed_eq_fillMisses (fun _ => 0)
    (one_le_replicas (PeerCacheRing.run (fun _ => 0) 1 [.addNode "a"]) 1) (put_represents hempty _)
    ⟨⟨[("k", ⟨"a", 4096, 7, 64, true⟩, 9), ("old", ⟨"a", 4160, 7, 64, true⟩, 5)], by decide⟩,
      empty, 0, 0⟩ rfl 5 6 ["k", "old", "x"]
  exact ⟨hlocs.trans (by decide +kernel), hprimed.trans (by decide +kernel)⟩

end PeerCacheReadCache
