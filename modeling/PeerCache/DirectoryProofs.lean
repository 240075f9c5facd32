import Mathlib
import PeerCache.PreferenceListProofs
import PeerCache.PoolContentProofs

/-! # The directory — shards behind a ring act as one map

    Every node hosts one shard of the directory, a map from key to location
    (`DirectoryServer`).  `DirectoryClient` writes an entry to all replica owners of its
    key and reads it from the first.  With a fixed ring and every node reachable this is
    one map: `view` is that map, which the client reads (`get_eq_view`,
    `existsKeys_eq_view`) and updates at every owner (`put_get?`, `delete_get?`). -/

namespace PeerCacheDirectory

/-- `DataLocation`.  The endpoints of the owner's transfer engine are represented by the owner
    itself, `nodeId`. -/
structure DataLocation where
  nodeId : String
  remoteAddr : Nat
  rkey : Nat
  length : Nat
  resident : Bool
deriving DecidableEq

/-- Locations under their keys. -/
abbrev Locations : Type := OrderedDict String DataLocation

/-- The nodes of the entries of a key, the primary owner first. -/
abbrev Owners : Type := String → List String

/-- A page that has left the pool of its owner. -/
def nonResident (nodeId : String) (length : Nat) : DataLocation := ⟨nodeId, 0, 0, length, false⟩

/-- `_resident_location` -/
def residentLocation (nodeId : String) (pool : PeerCachePool.PublishedPool String)
    (remoteAddr length : Nat) : DataLocation := ⟨nodeId, remoteAddr, pool.rkey, length, true⟩

/-- The bytes a READ of a location returns from its owner's pool. -/
def readLocation (pool : PeerCachePool.PublishedPool String) (loc : DataLocation) : Bytes :=
  pool.buf.read (loc.remoteAddr - pool.base) loc.length

/-- The location names the entry the pool has for the key now. -/
def Current (pool : PeerCachePool.PublishedPool String) (key : String) (loc : DataLocation) : Prop :=
  ∃ e, pool.entries.get? key = some e ∧ loc.remoteAddr = pool.base + e.1 ∧ loc.length = e.2

instance (pool : PeerCachePool.PublishedPool String) (key : String) (loc : DataLocation) :
    Decidable (Current pool key loc) :=
  match h : pool.entries.get? key with
  | none => isFalse (fun ⟨_, he, _⟩ => nomatch h.symm.trans he)
  | some e => decidable_of_iff (loc.remoteAddr = pool.base + e.1 ∧ loc.length = e.2)
      ⟨fun hc => ⟨e, h, hc⟩, fun ⟨_, he, hc⟩ => Option.some.inj (h.symm.trans he) ▸ hc⟩

/-- **A CURRENT LOCATION READS ITS PAGE.** -/
lemma Current.read {pool : PeerCachePool.PublishedPool String} {key : String} {loc : DataLocation}
    {content : String → Bytes} (h : Current pool key loc)
    (hholds : PeerCachePool.HoldsFor content pool key) : readLocation pool loc = content key := by
  obtain ⟨e, he, haddr, hlen⟩ := h
  rw [readLocation, haddr, hlen, Nat.add_sub_cancel_left]
  exact (hholds e he).2

/-- The stores of all shards, by node. -/
abbrev Shards : Type := String → Locations

section

variable (owners : Owners)

/-- `DirectoryClient.put`: each shard takes the entries of the keys it owns. -/
def put (shards : Shards) (entries : Locations) : Shards :=
  fun node => (shards node).update (entries.filterKeys (fun k => decide (node ∈ owners k)))

/-- `DirectoryClient.get`: the answer of the primary owner. -/
def get (shards : Shards) (keys : List String) : List (Option DataLocation) :=
  keys.map fun k =>
    match owners k with
    | [] => none
    | primary :: _ => (shards primary).get? k

/-- `DirectoryClient.exists` -/
def existsKeys (shards : Shards) (keys : List String) : List Bool :=
  keys.map fun k =>
    match owners k with
    | [] => false
    | primary :: _ => ((shards primary).get? k).isSome

/-- `DirectoryClient.delete` -/
def delete (shards : Shards) (keys : List String) : Shards :=
  fun node => (keys.filter (fun k => decide (node ∈ owners k))).foldl OrderedDict.erase (shards node)

/-- What the directory says about a key. -/
def view (shards : Shards) (key : String) : Option DataLocation :=
  match owners key with
  | [] => none
  | primary :: _ => (shards primary).get? key

end

variable {owners : Owners}

lemma get_eq_view (shards : Shards) (keys : List String) :
    get owners shards keys = keys.map (view owners shards) := rfl

lemma existsKeys_eq_view (shards : Shards) (keys : List String) :
    existsKeys owners shards keys = keys.map (fun k => (view owners shards k).isSome) := by
  refine List.map_congr_left ?_
  intro k _
  rw [view]
  cases owners k with
  | nil => rfl
  | cons primary rest => rfl

/-- **PUT** at a shard: the entries of the keys it owns override what it has. -/
lemma put_get? (shards : Shards) (entries : Locations) (node key : String) :
    (put owners shards entries node).get? key
      = (if node ∈ owners key then entries.get? key else none).or ((shards node).get? key) := by
  rw [put, OrderedDict.get?_update, OrderedDict.get?_filterKeys]
  simp only [decide_eq_true_eq]

/-- **DELETE** at a shard. -/
lemma delete_get? (shards : Shards) (keys : List String) (node key : String) :
    (delete owners shards keys node).get? key
      = if key ∈ keys ∧ node ∈ owners key then none else (shards node).get? key := by
  rw [delete, OrderedDict.get?_foldl_erase]
  simp only [List.mem_filter, decide_eq_true_eq]

lemma put_get?_cases {shards : Shards} {entries : Locations}
    {node key : String} {loc : DataLocation}
    (h : (put owners shards entries node).get? key = some loc) :
    (node ∈ owners key ∧ entries.get? key = some loc)
      ∨ ((shards node).get? key = some loc ∧ (node ∈ owners key → entries.get? key = none)) := by
  rw [put_get?] at h
  split_ifs at h with hn
  · cases he : entries.get? key with
    | none => rw [he] at h; exact .inr ⟨h, fun _ => rfl⟩
    | some loc' => rw [he] at h; exact .inl ⟨hn, h⟩
  · exact .inr ⟨h, fun hn' => absurd hn' hn⟩

lemma delete_get?_some {shards : Shards} {keys : List String} {node key : String}
    {loc : DataLocation} (h : (delete owners shards keys node).get? key = some loc) :
    (shards node).get? key = some loc ∧ (node ∈ owners key → key ∉ keys) := by
  rw [delete_get?] at h
  by_cases hk : key ∈ keys ∧ node ∈ owners key
  · rw [if_pos hk] at h; cases h
  · rw [if_neg hk] at h; exact ⟨h, fun hn hkey => hk ⟨hkey, hn⟩⟩

lemma view_put (shards : Shards) (entries : Locations) {key : String}
    (hring : owners key ≠ []) :
    view owners (put owners shards entries) key = (entries.get? key).or (view owners shards key) := by
  rw [view, view]
  cases ho : owners key with
  | nil => exact absurd ho hring
  | cons primary rest =>
    have hmem : primary ∈ owners key := by rw [ho]; exact (.head _)
    have h : (put owners shards entries primary).get? key = _ := put_get? shards entries primary key
    rw [if_pos hmem] at h
    exact h

lemma view_delete (shards : Shards) (keys : List String) (key : String) :
    view owners (delete owners shards keys) key
      = if key ∈ keys then none else view owners shards key := by
  rw [view, view]
  cases ho : owners key with
  | nil => exact (ite_self _).symm
  | cons primary rest =>
    have hmem : primary ∈ owners key := by rw [ho]; exact (.head _)
    have h : (delete owners shards keys primary).get? key = _ := delete_get? shards keys primary key
    simp only [hmem, and_true] at h
    exact h

lemma view_mem {shards : Shards} {key : String} {loc : DataLocation}
    (h : view owners shards key = some loc) :
    ∃ node ∈ owners key, (shards node).get? key = some loc := by
  rw [view] at h
  cases ho : owners key with
  | nil => rw [ho] at h; cases h
  | cons primary rest => rw [ho] at h; exact ⟨primary, (.head _), h⟩

end PeerCacheDirectory
