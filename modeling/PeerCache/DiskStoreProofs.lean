import Mathlib
import PeerCache.OrderedDictProofs

/-! # The disk tier

    `DiskStore` (`diskstore.py`) keeps one file per key, named by a digest of the key, an
    index from key to file, and a queue of writes that a worker thread drains.  The index
    is bounded: a write that exceeds `max_bytes` drops the oldest entries with their
    files. -/

namespace PeerCacheDisk

open OrderedDict

/-- `DiskStore`.  A file holds the key its header names, and the page. -/
structure DiskStore where
  maxBytes : Nat
  index : OrderedDict String (String × Nat)
  used : Int
  files : OrderedDict String (String × List UInt8)
  inflight : List String
  queue : List (String × List UInt8)

/-- An empty directory. -/
def DiskStore.empty (maxBytes : Nat) : DiskStore :=
  ⟨maxBytes, OrderedDict.empty, 0, OrderedDict.empty, [], []⟩

/-- `put` -/
def put (d : DiskStore) (key : String) (data : List UInt8) : DiskStore :=
  if data.length > d.maxBytes then d
  else if key ∈ d.index.keys ∨ key ∈ d.inflight then d
  else { d with inflight := d.inflight ++ [key], queue := d.queue ++ [(key, data)] }

/-- The capacity loop of `_write`; each turn pops one index entry, so `fuel` is started at the
    size of the index. -/
def enforceCapacity : Nat → DiskStore → List String → DiskStore × List String
  | 0, d, evicted => (d, evicted)
  | fuel + 1, d, evicted =>
      if d.used > d.maxBytes ∧ d.index.items.length > 1 then
        match d.index.popFirst with
        | none => (d, evicted)
        | some ((oldKey, oldName, oldLen), rest) =>
            enforceCapacity fuel { d with
              index := rest
              used := d.used - oldLen
              files := d.files.erase oldName } (evicted ++ [oldKey])
      else (d, evicted)

variable (safeName : String → String)

/-- `_write`: the store and the keys handed to `on_evict`. -/
def write (d : DiskStore) (key : String) (data : List UInt8) : DiskStore × List String :=
  let name := safeName key
  let d := { d with
    files := d.files.set name (key, data)
    used := if key ∈ d.index.keys then d.used else d.used + data.length
    index := (d.index.set key (name, data.length)).moveToEnd key }
  enforceCapacity d.index.items.length d []

/-- One turn of the worker, `_run`: the store and the keys handed to `on_evict`. -/
def work (d : DiskStore) : DiskStore × List String :=
  match d.queue with
  | [] => (d, [])
  | (key, data) :: queue =>
      let r := write safeName { d with queue := queue } key data
      ({ r.1 with inflight := r.1.inflight.erase key }, r.2)

/-- `get` -/
def get (d : DiskStore) (key : String) : Option (List UInt8) × DiskStore :=
  match d.index.get? key with
  | none => (none, d)
  | some (name, length) =>
      let d := { d with index := d.index.moveToEnd key }
      match d.files.get? name with
      | none => (none, d)
      | some (_, data) => (some (data.take length), d)

variable {safeName}

/-! ## What is on disk -/

/-- The index and the files agree with the contents of the keys in use. -/
structure DiskOk (safeName : String → String) (content : String → List UInt8) (keys : Set String)
    (d : DiskStore) : Prop where
  index_ok : ∀ k v, d.index.get? k = some v →
    k ∈ keys ∧ v = (safeName k, (content k).length)
  files_ok : ∀ k f, k ∈ d.index.keys → d.files.get? (safeName k) = some f → f.2 = content k
  queue_ok : ∀ q ∈ d.queue, q.1 ∈ keys ∧ q.2 = content q.1

variable {content : String → List UInt8} {keys : Set String}

lemma diskOk_empty (maxBytes : Nat) : DiskOk safeName content keys (DiskStore.empty maxBytes) :=
  ⟨nofun, nofun, nofun⟩

variable {d : DiskStore}

lemma diskOk_put (h : DiskOk safeName content keys d) {key : String} (hkey : key ∈ keys) :
    DiskOk safeName content keys (put d key (content key)) := by
  rw [put]
  by_cases h1 : (content key).length > d.maxBytes
  · rw [if_pos h1]; exact h
  · rw [if_neg h1]
    split_ifs with h2
    · exact h
    · refine ⟨h.index_ok, h.files_ok, ?_⟩
      intro q hq
      rcases List.mem_append.mp hq with hq | hq
      · exact h.queue_ok q hq
      · obtain rfl := List.mem_singleton.mp hq
        exact ⟨hkey, rfl⟩

lemma diskOk_enforce (fuel : Nat) (h : DiskOk safeName content keys d) (evicted : List String) :
    DiskOk safeName content keys (enforceCapacity fuel d evicted).1 := by
  induction fuel generalizing d evicted with
  | zero => exact h
  | succ fuel ih =>
    rw [enforceCapacity]
    split_ifs with hc
    · cases hp : d.index.popFirst with
      | none => exact h
      | some r =>
        obtain ⟨⟨oldKey, oldName, oldLen⟩, rest⟩ := r
        have hitems := popFirst_items hp
        have hsub : ∀ k v, rest.get? k = some v → d.index.get? k = some v := by
          intro k v hk
          refine get?_eq_some.mpr ?_
          rw [hitems]
          exact .tail _ (get?_eq_some.mp hk)
        have hrest : DiskOk safeName content keys { d with
            index := rest
            used := d.used - oldLen
            files := d.files.erase oldName } := by
          refine ⟨fun k v hk => h.index_ok k v (hsub k v hk), ?_, h.queue_ok⟩
          intro k f hk hf
          obtain ⟨v, hv⟩ := mem_keys.mp hk
          rw [get?_erase] at hf
          by_cases hn : safeName k = oldName
          · rw [if_pos hn] at hf; cases hf
          · rw [if_neg hn] at hf
            exact h.files_ok k f (mem_keys.mpr ⟨v, hsub k v hv⟩) hf
        exact ih hrest _
    · exact h

lemma diskOk_write (hinj : Set.InjOn safeName keys) (h : DiskOk safeName content keys d)
    {key : String} (hkey : key ∈ keys) :
    DiskOk safeName content keys (write safeName d key (content key)).1 := by
  have hwritten : DiskOk safeName content keys { d with
      files := d.files.set (safeName key) (key, content key)
      used := if key ∈ d.index.keys then d.used else d.used + (content key).length
      index := (d.index.set key (safeName key, (content key).length)).moveToEnd key } := by
    refine ⟨?_, ?_, h.queue_ok⟩
    · intro k v hk
      rw [get?_moveToEnd, get?_set] at hk
      split_ifs at hk with hkk
      · rw [hkk]; exact ⟨hkey, (Option.some.inj hk).symm⟩
      · exact h.index_ok k v hk
    · intro k f hk hf
      rw [get?_set] at hf
      by_cases hkk : k = key
      · rw [if_pos (by rw [hkk])] at hf
        rw [hkk, ← Option.some.inj hf]
      · obtain ⟨v, hv⟩ := mem_keys.mp hk
        rw [get?_moveToEnd, get?_set, if_neg hkk] at hv
        -- different keys in use have different files
        have hne : safeName k ≠ safeName key := fun he => hkk (hinj (h.index_ok k v hv).1 hkey he)
        rw [if_neg hne] at hf
        exact h.files_ok k f (mem_keys.mpr ⟨v, hv⟩) hf
  exact diskOk_enforce _ hwritten []

/-- **A TURN OF THE WORKER** keeps the store sound. -/
lemma diskOk_work (hinj : Set.InjOn safeName keys) (h : DiskOk safeName content keys d) :
    DiskOk safeName content keys (work safeName d).1 := by
  rw [work]
  cases hq : d.queue with
  | nil => exact h
  | cons q queue =>
    obtain ⟨key, data⟩ := q
    obtain ⟨hkey, hdata⟩ := h.queue_ok (key, data) (hq ▸ (.head _))
    obtain rfl : data = content key := hdata
    have htail : DiskOk safeName content keys { d with queue := queue } :=
      ⟨h.index_ok, h.files_ok, fun q hmem => h.queue_ok q (hq ▸ .tail _ hmem)⟩
    have hw := diskOk_write hinj htail hkey
    exact ⟨hw.index_ok, hw.files_ok, hw.queue_ok⟩

lemma diskOk_get (h : DiskOk safeName content keys d) (key : String) :
    DiskOk safeName content keys (get d key).2 := by
  rw [get]
  cases hk : d.index.get? key with
  | none => exact h
  | some v =>
    obtain ⟨name, length⟩ := v
    have hmove : DiskOk safeName content keys { d with index := d.index.moveToEnd key } := by
      refine ⟨fun k v hv => h.index_ok k v ?_, fun k f hkf => h.files_ok k f ?_, h.queue_ok⟩
      · rwa [get?_moveToEnd] at hv
      · obtain ⟨v, hv⟩ := mem_keys.mp hkf
        rw [get?_moveToEnd] at hv
        exact mem_keys.mpr ⟨v, hv⟩
    simp only
    cases hf : d.files.get? name with
    | none => exact hmove
    | some f => exact hmove

/-- **WHAT IS READ BACK** is the content of the key. -/
lemma get_eq_content (h : DiskOk safeName content keys d) {key : String} {data : List UInt8}
    (hget : (get d key).1 = some data) : data = content key := by
  rw [get] at hget
  cases hk : d.index.get? key with
  | none => rw [hk] at hget; cases hget
  | some v =>
    obtain ⟨-, rfl⟩ := h.index_ok key v hk
    rw [hk] at hget
    simp only at hget
    cases hf : d.files.get? (safeName key) with
    | none => rw [hf] at hget; cases hget
    | some f =>
      rw [hf] at hget
      have hdata := h.files_ok key f (mem_keys.mpr ⟨_, hk⟩) hf
      rw [← Option.some.inj hget, hdata, List.take_length]

end PeerCacheDisk
