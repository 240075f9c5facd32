import PeerCache.DiskStoreProofs

/-! # The accounts of the disk tier

    What a turn of the disk worker does to the index and to the queue, whatever the bytes and
    the file names: a page that is put is on disk or in the queue until its key is handed to
    `on_evict` (`onDisk_work`), and a page that fits together with all younger ones is spared
    (`enforceCapacity_spares`). -/

namespace PeerCacheDisk

open OrderedDict

/-! ## The disk tier's index and queue -/

/-- The page is on disk, or in the queue of the disk worker. -/
def OnDisk (disk : Option DiskStore) (k : String) : Prop :=
  ∃ d, disk = some d ∧ (k ∈ d.index.keys ∨ k ∈ d.queue.map Prod.fst)

lemma put_maxBytes (d : DiskStore) (key : String) (data : List UInt8) :
    (PeerCacheDisk.put d key data).maxBytes = d.maxBytes := by
  rw [PeerCacheDisk.put]
  split_ifs
  · rfl
  · rfl
  · rfl

lemma put_queue_cases (d : DiskStore) (key : String) (data : List UInt8) :
    (PeerCacheDisk.put d key data = d
        ∧ (data.length > d.maxBytes ∨ key ∈ d.index.keys ∨ key ∈ d.inflight))
      ∨ (PeerCacheDisk.put d key data
          = { d with inflight := d.inflight ++ [key], queue := d.queue ++ [(key, data)] }
        ∧ data.length ≤ d.maxBytes ∧ key ∉ d.index.keys ∧ key ∉ d.inflight) := by
  rw [PeerCacheDisk.put]
  by_cases h1 : data.length > d.maxBytes
  · rw [if_pos h1]; exact .inl ⟨rfl, .inl h1⟩
  · rw [if_neg h1]
    split_ifs with h2
    · exact .inl ⟨rfl, .inr h2⟩
    · exact .inr ⟨rfl, Nat.le_of_not_lt h1, fun h => h2 (.inl h), fun h => h2 (.inr h)⟩

variable {d : DiskStore} {k : String} {data : List UInt8}

lemma onDisk_put {key : String} (h : OnDisk (some d) k) :
    OnDisk (some (PeerCacheDisk.put d key data)) k := by
  obtain ⟨d', hd, hk⟩ := h
  cases hd
  refine ⟨_, rfl, ?_⟩
  rcases put_queue_cases d key data with ⟨heq, -⟩ | ⟨heq, -⟩
  · rw [heq]; exact hk
  · rw [heq]
    refine hk.imp_right ?_
    intro hq
    rw [List.map_append]
    exact List.mem_append_left _ hq

lemma onDisk_put_self (hq : d.inflight = d.queue.map Prod.fst) {key : String}
    (hfit : data.length ≤ d.maxBytes) : OnDisk (some (PeerCacheDisk.put d key data)) key := by
  refine ⟨_, rfl, ?_⟩
  rcases put_queue_cases d key data with ⟨heq, h | h | h⟩ | ⟨heq, -⟩
  · exact absurd hfit (Nat.not_le.mpr h)
  · rw [heq]; exact .inl h
  · rw [heq, ← hq]; exact .inr h
  · rw [heq]
    refine Or.inr ?_
    rw [List.map_append]
    exact List.mem_append_right _ (.head _)

lemma get_frame (d : DiskStore) (key : String) :
    ∃ index, (PeerCacheDisk.get d key).2 = { d with index := index } ∧ index.items.Perm d.index.items
      ∧ ∀ k, index.get? k = d.index.get? k := by
  rw [PeerCacheDisk.get]
  cases hk : d.index.get? key with
  | none => exact ⟨d.index, rfl, List.Perm.refl _, fun _ => rfl⟩
  | some v =>
      obtain ⟨name, length⟩ := v
      refine ⟨d.index.moveToEnd key, ?_, moveToEnd_perm _ _,
        fun k => get?_moveToEnd _ _ _⟩
      simp only
      cases hf : d.files.get? name with
      | none => rfl
      | some f => rfl

lemma get_some {key : String} (h : (PeerCacheDisk.get d key).1 = some data) :
    key ∈ d.index.keys := by
  rw [PeerCacheDisk.get] at h
  cases hk : d.index.get? key with
  | none => rw [hk] at h; cases h
  | some v => exact mem_keys.mpr ⟨v, hk⟩

lemma get_congr {e : DiskStore} {key : String} (hindex : d.index.get? key = e.index.get? key)
    (hfiles : d.files = e.files) : (PeerCacheDisk.get d key).1 = (PeerCacheDisk.get e key).1 := by
  rw [PeerCacheDisk.get, PeerCacheDisk.get, hindex, hfiles]
  cases e.index.get? key with
  | none => rfl
  | some v =>
    simp only
    cases e.files.get? v.1 with
    | none => rfl
    | some f => rfl

lemma onDisk_get (d : DiskStore) (key k : String) :
    OnDisk (some (PeerCacheDisk.get d key).2) k ↔ OnDisk (some d) k := by
  obtain ⟨index, heq, -, hget⟩ := get_frame d key
  have hkeys : k ∈ index.keys ↔ k ∈ d.index.keys := by
    rw [mem_keys, mem_keys, hget]
  constructor
  · rintro ⟨d', hd, hk⟩
    cases hd
    rw [heq] at hk
    exact ⟨d, rfl, hk.imp_left hkeys.mp⟩
  · rintro ⟨d', hd, hk⟩
    cases hd
    refine ⟨_, rfl, ?_⟩
    rw [heq]
    exact hk.imp_left hkeys.mpr

/-! ## The disk worker -/

/-- The lengths of a list of index entries, added up. -/
def diskBytes (items : List (String × String × Nat)) : Nat := (items.map (fun e => e.2.2)).sum

/-- **THE CAPACITY LOOP** drops the oldest index entries and hands their keys out. -/
lemma enforceCapacity_spec (fuel : Nat) (d : DiskStore) (evicted : List String) :
    ∃ dropped index files, enforceCapacity fuel d evicted
        = ({ d with index := index, used := d.used - (diskBytes dropped : Int), files := files },
            evicted ++ dropped.map Prod.fst)
      ∧ d.index.items = dropped ++ index.items := by
  induction fuel generalizing d evicted with
  | zero => exact ⟨[], d.index, d.files, by simp [enforceCapacity, diskBytes], rfl⟩
  | succ fuel ih =>
      rw [enforceCapacity]
      split_ifs with hc
      · cases hp : d.index.popFirst with
        | none => exact ⟨[], d.index, d.files, by simp [diskBytes], rfl⟩
        | some r =>
            obtain ⟨⟨oldKey, oldName, oldLen⟩, rest⟩ := r
            obtain ⟨dropped, index, files, heq, hitems⟩ := ih { d with
              index := rest
              used := d.used - oldLen
              files := d.files.erase oldName } (evicted ++ [oldKey])
            refine ⟨(oldKey, oldName, oldLen) :: dropped, index, files, ?_, ?_⟩
            · simp only
              rw [heq]
              simp [diskBytes, Int.sub_sub]
            · rw [popFirst_items hp, List.cons_append]
              exact congrArg _ hitems
      · exact ⟨[], d.index, d.files, by simp [diskBytes], rfl⟩

/-- The store that the capacity loop of a turn starts from. -/
def writePage (safeName : String → String) (d : DiskStore) (key : String) (data : List UInt8) :
    DiskStore :=
  { d with
    files := d.files.set (safeName key) (key, data)
    used := if key ∈ d.index.keys then d.used else d.used + data.length
    index := (d.index.set key (safeName key, data.length)).moveToEnd key }

/-- **A TURN OF THE WORKER**: nothing, or the oldest write of the queue reaches the index and the
    oldest entries are dropped. -/
lemma work_cases (safeName : String → String) (d : DiskStore) :
    (d.queue = [] ∧ work safeName d = (d, []))
      ∨ ∃ key data queue dropped index files, d.queue = (key, data) :: queue ∧ work safeName d
          = ({ writePage safeName d key data with
                queue := queue
                index := index
                used := (writePage safeName d key data).used - (diskBytes dropped : Int)
                files := files
                inflight := d.inflight.erase key }, dropped.map Prod.fst)
        ∧ (writePage safeName d key data).index.items = dropped ++ index.items := by
  cases hq : d.queue with
  | nil => exact .inl ⟨rfl, by rw [work, hq]⟩
  | cons q queue =>
      obtain ⟨key, data⟩ := q
      obtain ⟨dropped, index, files, heq, hitems⟩ := enforceCapacity_spec
        (writePage safeName { d with queue := queue } key data).index.items.length
        (writePage safeName { d with queue := queue } key data) []
      refine .inr ⟨key, data, queue, dropped, index, files, rfl, ?_, hitems⟩
      rw [work, hq]
      simp only
      rw [show write safeName { d with queue := queue } key data
        = enforceCapacity (writePage safeName { d with queue := queue } key data).index.items.length
            (writePage safeName { d with queue := queue } key data) [] from rfl, heq]
      rfl

lemma mem_writePage_keys {safeName : String → String} {key : String} :
    k ∈ (writePage safeName d key data).index.keys ↔ k = key ∨ k ∈ d.index.keys := by
  rw [mem_keys]
  show (∃ v, ((d.index.set key (safeName key, data.length)).moveToEnd key).get? k = some v) ↔ _
  rw [get?_moveToEnd, ← mem_keys, mem_keys_set]

/-- **NO PAGE IS LOST UNSEEN**: a page on disk stays there through a turn, or its key is handed
    out. -/
lemma onDisk_work (safeName : String → String) (h : OnDisk (some d) k) :
    OnDisk (some (work safeName d).1) k ∨ k ∈ (work safeName d).2 := by
  obtain ⟨d', hd, hk⟩ := h
  cases hd
  rcases work_cases safeName d with ⟨-, heq⟩ | ⟨key, data, queue, dropped, index, files, hq, heq, hitems⟩
  · rw [heq]; exact .inl ⟨d, rfl, hk⟩
  · have hmem : k ∈ (writePage safeName d key data).index.keys ∨ k ∈ queue.map Prod.fst := by
      rw [mem_writePage_keys]
      rcases hk with hk | hk
      · exact .inl (.inr hk)
      · rw [hq, List.map_cons] at hk
        rcases List.mem_cons.mp hk with hk | hk
        · exact .inl (.inl hk)
        · exact .inr hk
    rw [heq]
    rcases hmem with hmem | hmem
    · rw [OrderedDict.keys, hitems, List.map_append] at hmem
      rcases List.mem_append.mp hmem with hdrop | hkeep
      · exact .inr hdrop
      · exact .inl ⟨_, rfl, .inl hkeep⟩
    · exact .inl ⟨_, rfl, .inr hmem⟩

lemma work_maxBytes (safeName : String → String) (d : DiskStore) :
    (work safeName d).1.maxBytes = d.maxBytes := by
  rcases work_cases safeName d with ⟨-, heq⟩ | ⟨key, data, queue, dropped, index, files, -, heq, -⟩
  · rw [heq]
  · rw [heq]; rfl

/-! ## The accounts of the disk tier -/

/-- `_inflight` lists the queue, what is queued is not indexed and fits, and `_used` is the size of
    what is indexed. -/
structure Tidy (d : DiskStore) : Prop where
  inflight : d.inflight = d.queue.map Prod.fst
  distinct : (d.queue.map Prod.fst).Nodup
  apart : ∀ k ∈ d.queue.map Prod.fst, k ∉ d.index.keys
  used : d.used = (diskBytes d.index.items : Int)
  fits : ∀ q ∈ d.queue, q.2.length ≤ d.maxBytes

lemma tidy_empty (maxBytes : Nat) : Tidy (DiskStore.empty maxBytes) :=
  ⟨rfl, List.nodup_nil, List.forall_mem_nil _, rfl, List.forall_mem_nil _⟩

lemma tidy_put (h : Tidy d) (key : String) (data : List UInt8) :
    Tidy (PeerCacheDisk.put d key data) := by
  rcases put_queue_cases d key data with ⟨heq, -⟩ | ⟨heq, hfit, hindex, hnew⟩
  · rw [heq]; exact h
  · rw [h.inflight] at hnew
    have hmap : (d.queue ++ [(key, data)]).map Prod.fst = d.queue.map Prod.fst ++ [key] :=
      List.map_append
    rw [heq]
    refine ⟨?_, ?_, ?_, h.used, ?_⟩
    · rw [hmap, h.inflight]
    · rw [hmap, ← List.concat_eq_append]; exact h.distinct.concat hnew
    · intro k hk
      have hk' : k ∈ d.queue.map Prod.fst ++ [key] := hmap ▸ hk
      rcases List.mem_append.mp hk' with hk' | hk'
      · exact h.apart k hk'
      · rw [List.mem_singleton.mp hk']; exact hindex
    · intro q hq
      rcases List.mem_append.mp hq with hq | hq
      · exact h.fits q hq
      · rw [List.mem_singleton.mp hq]; exact hfit

lemma diskBytes_perm {l l' : List (String × String × Nat)} (h : l.Perm l') :
    diskBytes l = diskBytes l' := (h.map _).sum_eq

lemma diskBytes_append (l l' : List (String × String × Nat)) :
    diskBytes (l ++ l') = diskBytes l + diskBytes l' := by
  rw [diskBytes, List.map_append, List.sum_append]
  rfl

lemma tidy_get (h : Tidy d) (key : String) : Tidy (PeerCacheDisk.get d key).2 := by
  obtain ⟨index, heq, hperm, hget⟩ := get_frame d key
  rw [heq]
  refine ⟨h.inflight, h.distinct, ?_, ?_, h.fits⟩
  · intro k hk hin
    rw [mem_keys, hget, ← mem_keys] at hin
    exact h.apart k hk hin
  · rw [diskBytes_perm hperm]; exact h.used

lemma writePage_items (safeName : String → String) {key : String} (h : key ∉ d.index.keys)
    (data : List UInt8) :
    (writePage safeName d key data).index.items
      = d.index.items ++ [(key, safeName key, data.length)] := by
  have hset := set_items_of_not_mem (v := (safeName key, data.length)) h
  show ((d.index.set key (safeName key, data.length)).moveToEnd key).items = _
  rw [moveToEnd_of_last hset, hset]

lemma writePage_used (safeName : String → String) (h : Tidy d) {key : String}
    (hkey : key ∉ d.index.keys) (data : List UInt8) :
    (writePage safeName d key data).used
      = (diskBytes (writePage safeName d key data).index.items : Int) := by
  rw [writePage_items safeName hkey, diskBytes_append]
  show (if key ∈ d.index.keys then d.used else d.used + data.length) = _
  rw [if_neg hkey, h.used]
  push_cast
  rfl

lemma tidy_work (safeName : String → String) (h : Tidy d) : Tidy (work safeName d).1 := by
  rcases work_cases safeName d with ⟨-, heq⟩ | ⟨key, data, queue, dropped, index, files, hq, heq, hitems⟩
  · rw [heq]; exact h
  · have hmap : d.queue.map Prod.fst = key :: queue.map Prod.fst := by rw [hq]; rfl
    have hkey : key ∉ d.index.keys := h.apart key (by rw [hmap]; exact (.head _))
    have hnd := h.distinct
    rw [hmap, List.nodup_cons] at hnd
    rw [heq]
    refine ⟨?_, hnd.2, ?_, ?_, ?_⟩
    · rw [h.inflight, hmap, List.erase_cons_head]
    · intro k hk hin
      have hsub : k ∈ (writePage safeName d key data).index.keys := by
        rw [OrderedDict.keys, hitems, List.map_append]
        exact List.mem_append_right _ hin
      rcases mem_writePage_keys.mp hsub with rfl | hin'
      · exact hnd.1 hk
      · exact h.apart k (by rw [hmap]; exact .tail _ hk) hin'
    · rw [writePage_used safeName h hkey, hitems, diskBytes_append]
      push_cast
      ring
    · intro q hmem
      exact h.fits q (by rw [hq]; exact .tail _ hmem)

/-- **WHAT THE CAPACITY LOOP SPARES**: a page that fits together with all younger ones. -/
lemma enforceCapacity_spares (fuel : Nat) (evicted : List String)
    {older younger : List (String × String × Nat)} {e : String × String × Nat}
    (hitems : d.index.items = older ++ e :: younger)
    (hused : d.used = (diskBytes d.index.items : Int)) (hfit : diskBytes (e :: younger) ≤ d.maxBytes)
    (hev : e.1 ∉ evicted) : e.1 ∉ (enforceCapacity fuel d evicted).2 := by
  induction fuel generalizing d older evicted with
  | zero => exact hev
  | succ fuel ih =>
    rw [enforceCapacity]
    split_ifs with hc
    · cases older with
      | nil =>
        -- only the page and the younger ones are left: there is room
        rw [hused, hitems, List.nil_append] at hc
        omega
      | cons o older =>
        cases hp : d.index.popFirst with
        | none => exact hev
        | some r =>
          obtain ⟨⟨oldKey, oldName, oldLen⟩, rest⟩ := r
          have hpop := popFirst_items hp
          rw [hitems, List.cons_append] at hpop
          obtain ⟨rfl, hrest⟩ := List.cons.inj hpop
          have hne : e.1 ≠ oldKey := by
            rintro rfl
            have hnd := d.index.nodup
            rw [hitems, List.cons_append, List.map_cons, List.nodup_cons] at hnd
            refine hnd.1 ?_
            rw [List.map_append]
            exact List.mem_append_right _ (.head _)
          refine ih (d := { d with
            index := rest
            used := d.used - oldLen
            files := d.files.erase oldName }) _ hrest.symm ?_ hfit ?_
          · show d.used - (oldLen : Int) = (diskBytes rest.items : Int)
            rw [hused, hitems, List.cons_append, ← hrest]
            show ((oldLen + diskBytes (older ++ e :: younger) : Nat) : Int) - oldLen = _
            push_cast
            ring
          · intro hmem
            rcases List.mem_append.mp hmem with hmem | hmem
            · exact hev hmem
            · exact hne (List.mem_singleton.mp hmem)
    · exact hev

/-! ## A disk tier that does not fill -/

lemma enforceCapacity_room (fuel : Nat) (h : d.used ≤ d.maxBytes) (evicted : List String) :
    enforceCapacity fuel d evicted = (d, evicted) := by
  cases fuel with
  | zero => rfl
  | succ fuel => rw [enforceCapacity, if_neg (fun hc => absurd h (not_le.mpr hc.1))]

/-- **A TURN WITH ROOM** writes its page and drops nothing. -/
lemma work_room (safeName : String → String) (h : Tidy d)
    (hroom : ∀ q ∈ d.queue.head?, d.used + q.2.length ≤ d.maxBytes) :
    (d.queue = [] ∧ work safeName d = (d, []))
      ∨ ∃ key data queue, d.queue = (key, data) :: queue ∧ key ∉ d.index.keys
        ∧ work safeName d = ({ writePage safeName d key data with
            queue := queue
            inflight := d.inflight.erase key }, []) := by
  rcases hq : d.queue with _ | ⟨⟨key, data⟩, queue⟩
  · exact .inl ⟨rfl, by rw [work, hq]⟩
  · have hkey : key ∉ d.index.keys := h.apart key (by rw [hq]; exact (.head _))
    refine .inr ⟨key, data, queue, rfl, hkey, ?_⟩
    have hfit : (writePage safeName { d with queue := queue } key data).used
        ≤ (writePage safeName { d with queue := queue } key data).maxBytes := by
      show (if key ∈ d.index.keys then d.used else d.used + data.length) ≤ (d.maxBytes : Int)
      rw [if_neg hkey]
      exact hroom (key, data) (by rw [hq]; rfl)
    rw [work, hq]
    simp only
    rw [show write safeName { d with queue := queue } key data
      = enforceCapacity (writePage safeName { d with queue := queue } key data).index.items.length
          (writePage safeName { d with queue := queue } key data) [] from rfl,
      enforceCapacity_room _ hfit]
    rfl

end PeerCacheDisk
