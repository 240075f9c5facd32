import PeerCache.P2pDiskProofs

/-! # `clear` — what it leaves

    `clear` collects the keys of the length map and of the pool, deletes their directory
    entries, and removes them from the pool and from disk one after the other.  The disk
    worker may run in between, and runs until its queue is empty afterwards. -/

namespace PeerCacheDisk

/-- `remove` -/
def remove (d : DiskStore) (key : String) : DiskStore :=
  match d.index.get? key with
  | none => d
  | some (name, length) =>
      { d with
        index := d.index.erase key
        used := d.used - length
        files := d.files.erase name }

lemma remove_index (d : DiskStore) (key : String) : (remove d key).index = d.index.erase key := by
  rw [remove]
  cases h : d.index.get? key with
  | none => exact (OrderedDict.erase_of_not_mem (OrderedDict.get?_eq_none.mp h)).symm
  | some x => rfl

lemma remove_queue (d : DiskStore) (key : String) : (remove d key).queue = d.queue := by
  rw [remove]
  cases d.index.get? key with
  | none => rfl
  | some x => rfl

variable {d : DiskStore}

lemma enforceCapacity_ne_nil (fuel : Nat) (evicted : List String) (h : d.index.items ≠ []) :
    (enforceCapacity fuel d evicted).1.index.items ≠ [] := by
  induction fuel generalizing d evicted with
  | zero => exact h
  | succ fuel ih =>
    rw [enforceCapacity]
    split_ifs with hover
    · cases hpop : d.index.popFirst with
      | none => exact h
      | some x =>
        refine ih _ ?_
        have hitems := OrderedDict.popFirst_items hpop
        intro hrest
        have hone : d.index.items.length = 1 := by
          rw [hitems, List.length_cons]
          exact congrArg (fun l => l.length + 1) hrest
        omega
    · exact h

lemma work_ne_nil (safeName : String → String) (h : d.queue ≠ [] ∨ d.index.items ≠ []) :
    (work safeName d).1.index.items ≠ [] := by
  rw [work]
  cases hq : d.queue with
  | nil => exact h.resolve_left (fun hne => hne hq)
  | cons x queue =>
    refine enforceCapacity_ne_nil _ _ ?_
    intro hnil
    have hkey : x.1 ∈ ((d.index.set x.1 (safeName x.1, x.2.length)).moveToEnd x.1).keys := by
      refine OrderedDict.mem_keys.mpr ⟨(safeName x.1, x.2.length), ?_⟩
      exact (OrderedDict.get?_moveToEnd _ _ _).trans
        ((OrderedDict.get?_set d.index x.1 x.1 _).trans (if_pos rfl))
    rw [OrderedDict.keys, hnil] at hkey
    cases hkey

end PeerCacheDisk

namespace PeerCacheOwner

open PeerCachePool PeerCacheDirectory PeerCacheDisk PeerCacheP2pDisk Option List

section

variable (me : String) (owners : Owners) (safeName : String → String)

/-- The keys `clear` gathers. -/
def clearKeys (s : PageOwner) : List String :=
  s.keyLen.keys ++ s.pool.entries.keys.filter (fun k => decide (k ∉ s.keyLen.keys))

/-- One key of its loop. -/
def removePage (s : PageOwner) (k : String) : PageOwner :=
  (s.setPool (PeerCachePool.remove s.pool k)).setDisk (s.disk.map (fun d => PeerCacheDisk.remove d k))

/-- So many turns of the disk worker. -/
def workTurns (turns : Nat) (s : PageOwner) : PageOwner := (diskWork owners safeName)^[turns] s

/-- The loop of `clear`; `turns` says how often the worker runs before each key. -/
def clearLoop : List String → List Nat → PageOwner → PageOwner
  | [], _, s => s
  | k :: keys, turns, s =>
      clearLoop keys turns.tail (removePage (workTurns owners safeName (turns.headD 0) s) k)

/-- `clear`, with the turns the worker takes while it runs. -/
def clear (turns : List Nat) (s : PageOwner) : PageOwner :=
  let keys := clearKeys s
  let s := if keys = [] then s else s.setDir (delete owners s.dir keys)
  { clearLoop owners safeName keys turns s with keyLen := OrderedDict.empty }

/-- The node is empty, and no directory entry names it. -/
structure Cleared (s : PageOwner) : Prop where
  pool : s.pool.entries.keys = []
  disk : ∀ d ∈ s.disk, d.index.keys = []
  directory : ∀ node k loc, (s.dir node).get? k = some loc → loc.nodeId ≠ me

/-- Every page is where `clear` looks: the entries that name the node are of keys gathered, at a
    shard of their key; so are the pages of the disk index; and nothing is queued for disk. -/
structure Gathered (s : PageOwner) : Prop where
  named : ∀ node k loc, (s.dir node).get? k = some loc → loc.nodeId = me →
    k ∈ clearKeys s ∧ node ∈ owners k
  indexed : ∀ d ∈ s.disk, ∀ k ∈ d.index.keys, k ∈ clearKeys s
  idle : ∀ d ∈ s.disk, d.queue = []

end

section

variable {me : String} {owners : Owners} {safeName : String → String} {s : PageOwner}

/-! ## The loop without the worker -/

variable {k : String} {t : PageOwner} {d : DiskStore}

lemma mem_clearKeys_of_pool (h : k ∈ s.pool.entries.keys) : k ∈ clearKeys s := by
  by_cases hlen : k ∈ s.keyLen.keys
  · exact mem_append_left _ hlen
  · exact mem_append_right _ (mem_filter.mpr ⟨h, decide_eq_true hlen⟩)

lemma pool_remove_entries (p : PublishedPool String) (k : String) :
    (PeerCachePool.remove p k).entries = p.entries.erase k := by
  rw [PeerCachePool.remove]
  cases h : p.entries.get? k with
  | none => exact (OrderedDict.erase_of_not_mem (OrderedDict.get?_eq_none.mp h)).symm
  | some x => rfl

lemma foldl_removePage_pool (keys : List String) (s : PageOwner) :
    (keys.foldl removePage s).pool.entries = keys.foldl OrderedDict.erase s.pool.entries := by
  induction keys generalizing s with
  | nil => rfl
  | cons k keys ih =>
    rw [foldl_cons, foldl_cons, ih]
    exact congrArg (keys.foldl OrderedDict.erase) (pool_remove_entries s.pool k)

lemma foldl_removePage_disk (keys : List String) (s : PageOwner) :
    (keys.foldl removePage s).disk = s.disk.map (fun d => keys.foldl PeerCacheDisk.remove d) := by
  induction keys generalizing s with
  | nil => exact map_id'.symm
  | cons k keys ih =>
    rw [foldl_cons, ih]
    exact map_map _ _ _

lemma foldl_removePage_dir (keys : List String) (s : PageOwner) :
    (keys.foldl removePage s).dir = s.dir := by
  induction keys generalizing s with
  | nil => rfl
  | cons k keys ih => exact ih _

lemma foldl_remove_index (keys : List String) (d : DiskStore) :
    (keys.foldl PeerCacheDisk.remove d).index = keys.foldl OrderedDict.erase d.index := by
  induction keys generalizing d with
  | nil => rfl
  | cons k keys ih => rw [foldl_cons, foldl_cons, ih, remove_index]

lemma foldl_remove_queue (keys : List String) (d : DiskStore) :
    (keys.foldl PeerCacheDisk.remove d).queue = d.queue := by
  induction keys generalizing d with
  | nil => rfl
  | cons k keys ih => rw [foldl_cons, ih, remove_queue]

lemma mem_foldl_erase {V : Type} {keys : List String} {d : OrderedDict String V} :
    k ∈ (keys.foldl OrderedDict.erase d).keys ↔ k ∉ keys ∧ k ∈ d.keys := by
  rw [OrderedDict.mem_keys, OrderedDict.get?_foldl_erase, OrderedDict.mem_keys]
  by_cases hk : k ∈ keys
  · simp only [hk, if_true, reduceCtorEq, exists_false, not_true, false_and]
  · simp only [hk, if_false, not_false_iff, true_and]

lemma clearLoop_nil (keys : List String) (s : PageOwner) :
    clearLoop owners safeName keys [] s = keys.foldl removePage s := by
  induction keys generalizing s with
  | nil => rfl
  | cons k keys ih => exact ih _

/-! ## The idle worker -/

lemma diskWork_idle (h : ∀ d ∈ s.disk, d.queue = []) : diskWork owners safeName s = s := by
  rw [diskWork]
  cases hd : s.disk with
  | none => rfl
  | some d =>
    have hwork : work safeName d = (d, []) := by rw [work, h d hd]
    have hs : s.setDisk (some d) = s := by rw [PageOwner.setDisk, ← hd]
    simp only [hwork, hs]
    rfl

lemma workTurns_idle (h : ∀ d ∈ s.disk, d.queue = []) (turns : Nat) :
    workTurns owners safeName turns s = s :=
  Function.iterate_fixed (diskWork_idle h) turns

lemma removePage_idle (h : ∀ d ∈ s.disk, d.queue = []) (k : String) :
    ∀ d ∈ (removePage s k).disk, d.queue = [] := by
  intro d hd
  obtain ⟨d', hd', rfl⟩ := map_eq_some_iff.mp hd
  rw [remove_queue]
  exact h d' hd'

lemma clearLoop_idle (keys : List String) (h : ∀ d ∈ s.disk, d.queue = []) (turns : List Nat) :
    clearLoop owners safeName keys turns s = clearLoop owners safeName keys [] s := by
  induction keys generalizing s turns with
  | nil => rfl
  | cons k keys ih =>
    rw [clearLoop, clearLoop, workTurns_idle h, workTurns_idle h]
    exact ih (removePage_idle h k) _

/-! ## What `clear` leaves -/

/-- The node after a `clear` during which the worker does not run. -/
structure LeftBy (owners : Owners) (s t : PageOwner) : Prop where
  pool : t.pool.entries.keys = []
  disk : t.disk = s.disk.map (fun d => (clearKeys s).foldl PeerCacheDisk.remove d)
  dir : t.dir = delete owners s.dir (clearKeys s)

lemma leftBy_clear (s : PageOwner) : LeftBy owners s (clear owners safeName [] s) := by
  have hdir : (if clearKeys s = [] then s else s.setDir (delete owners s.dir (clearKeys s)))
      = s.setDir (delete owners s.dir (clearKeys s)) := by
    by_cases hnil : clearKeys s = []
    · rw [if_pos hnil, hnil]; rfl
    · rw [if_neg hnil]
  rw [clear]
  simp only [hdir, clearLoop_nil]
  refine ⟨?_, foldl_removePage_disk _ _, foldl_removePage_dir _ _⟩
  rw [foldl_removePage_pool, eq_nil_iff_forall_not_mem]
  intro k hk
  obtain ⟨hnot, hin⟩ := mem_foldl_erase.mp hk
  exact hnot (mem_clearKeys_of_pool hin)

lemma LeftBy.idle (h : LeftBy owners s t) (hidle : ∀ d ∈ s.disk, d.queue = []) :
    ∀ d ∈ t.disk, d.queue = [] := by
  intro d hd
  rw [h.disk] at hd
  obtain ⟨d', hd', rfl⟩ := map_eq_some_iff.mp hd
  rw [foldl_remove_queue]
  exact hidle d' hd'

lemma clear_idle (h : ∀ d ∈ s.disk, d.queue = []) (turns : List Nat) :
    clear owners safeName turns s = clear owners safeName [] s := by
  rw [clear, clear]
  by_cases hnil : clearKeys s = []
  · simp only [if_pos hnil, clearLoop_idle _ h turns]
  · have hdir : ∀ d ∈ (s.setDir (delete owners s.dir (clearKeys s))).disk, d.queue = [] := h
    simp only [if_neg hnil, clearLoop_idle _ hdir turns]

lemma drainDisk_eq (s : PageOwner) : drainDisk owners safeName s
    = workTurns owners safeName ((s.disk.map (fun d => d.queue.length)).getD 0) s := rfl

lemma workTurns_ne_nil (hd : s.disk = some d) (h : d.index.items ≠ []) (turns : Nat) :
    ∃ d', (workTurns owners safeName turns s).disk = some d' ∧ d'.index.items ≠ [] := by
  induction turns generalizing s d with
  | zero => exact ⟨d, hd, h⟩
  | succ turns ih =>
    have hturn : (diskWork owners safeName s).disk = some (work safeName d).1 := by
      rw [diskWork, hd]
      rfl
    exact ih hturn (work_ne_nil safeName (.inr h))

/-- **A QUEUED WRITE** is in the index after the queue has drained, or another page is. -/
lemma drainDisk_ne_nil (hd : s.disk = some d) (h : d.queue ≠ []) :
    ∃ d', (drainDisk owners safeName s).disk = some d' ∧ d'.index.items ≠ [] := by
  rw [drainDisk_eq, hd, map_some, getD_some]
  obtain ⟨m, hm⟩ := Nat.exists_eq_succ_of_ne_zero
    (fun hzero => h (length_eq_zero_iff.mp hzero))
  rw [hm]
  have hturn : (diskWork owners safeName s).disk = some (work safeName d).1 := by
    rw [diskWork, hd]
    rfl
  exact workTurns_ne_nil hturn (work_ne_nil safeName (.inl h)) m

lemma LeftBy.cleared_iff (h : LeftBy owners s t) :
    Cleared me t ↔ (∀ node k loc, (s.dir node).get? k = some loc → loc.nodeId = me →
        k ∈ clearKeys s ∧ node ∈ owners k)
      ∧ ∀ d ∈ s.disk, ∀ k ∈ d.index.keys, k ∈ clearKeys s := by
  constructor
  · intro hc
    refine ⟨?_, ?_⟩
    · intro node k loc hloc hme
      by_contra hnot
      refine hc.directory node k loc ?_ hme
      rw [h.dir, delete_get?, if_neg hnot]
      exact hloc
    · intro d hd k hk
      by_contra hnot
      have hdisk : t.disk = some ((clearKeys s).foldl PeerCacheDisk.remove d) := by
        rw [h.disk, hd]
        rfl
      have hempty := hc.disk _ hdisk
      rw [foldl_remove_index, eq_nil_iff_forall_not_mem] at hempty
      exact hempty k (mem_foldl_erase.mpr ⟨hnot, hk⟩)
  · rintro ⟨hnamed, hindexed⟩
    refine ⟨h.pool, ?_, ?_⟩
    · intro d hd
      rw [h.disk] at hd
      obtain ⟨d', hd', rfl⟩ := map_eq_some_iff.mp hd
      rw [foldl_remove_index, eq_nil_iff_forall_not_mem]
      intro k hk
      obtain ⟨hnot, hin⟩ := mem_foldl_erase.mp hk
      exact hnot (hindexed d' hd' k hin)
    · intro node k loc hloc hme
      rw [h.dir] at hloc
      obtain ⟨hold, hdel⟩ := delete_get?_some hloc
      obtain ⟨hkey, hnode⟩ := hnamed node k loc hold hme
      exact hdel hnode hkey

/-- **`clear` EMPTIES THE NODE**, whenever the worker runs, exactly when every page is where it
    looks and nothing is queued for disk. -/
theorem clear_empties_iff (me : String) (owners : Owners) (safeName : String → String)
    (s : PageOwner) :
    (∀ turns, Cleared me (drainDisk owners safeName (clear owners safeName turns s)))
      ↔ Gathered me owners s := by
  have hleft : LeftBy owners s (clear owners safeName [] s) := leftBy_clear s
  have hstill : (∀ d ∈ s.disk, d.queue = []) →
      drainDisk owners safeName (clear owners safeName [] s) = clear owners safeName [] s :=
    fun hidle => workTurns_idle (hleft.idle hidle) _
  constructor
  · intro h
    have hidle : ∀ d ∈ s.disk, d.queue = [] := by
      intro d hd
      by_contra hne
      -- the worker may run only after `clear`, and then the write enters the index
      have hdisk : (clear owners safeName [] s).disk
          = some ((clearKeys s).foldl PeerCacheDisk.remove d) := by
        rw [hleft.disk, hd]
        rfl
      have hqueue : ((clearKeys s).foldl PeerCacheDisk.remove d).queue ≠ [] := by
        rw [foldl_remove_queue]
        exact hne
      obtain ⟨e, he, hindex⟩ := drainDisk_ne_nil hdisk hqueue
      exact hindex (map_eq_nil_iff.mp ((h []).disk e he))
    have hc := h []
    rw [hstill hidle, hleft.cleared_iff] at hc
    exact ⟨hc.1, hc.2, hidle⟩
  · intro h turns
    rw [clear_idle h.idle, hstill h.idle, hleft.cleared_iff]
    exact ⟨h.named, h.indexed⟩

/-- A node that has started over a disk with one page, and has published nothing. -/
def restarted : PageOwner :=
  ⟨new 100 1 7 [7] (fun _ => 0), some (work id (PeerCacheDisk.put (DiskStore.empty 10) "a" [1])).1,
    OrderedDict.empty, fun _ => OrderedDict.empty⟩

/-- A node that has published a page of which the write to disk is still queued. -/
def unwritten : PageOwner :=
  (publishP2p "n" (fun _ => ["n"])
    ⟨new 100 1 7 [7] (fun _ => 0), some (DiskStore.empty 10), OrderedDict.empty,
      fun _ => OrderedDict.empty⟩ [("b", [2])]).owner

/-- The index found at start-up survives `clear`, and so does a write that is queued. -/
theorem pages_survive_clear :
    ((drainDisk (fun _ => ["n"]) id (clear (fun _ => ["n"]) id [] restarted)).disk.map
          (fun d => d.index.keys) = some ["a"]
        ∧ ¬ Cleared "n" (drainDisk (fun _ => ["n"]) id (clear (fun _ => ["n"]) id [] restarted)))
      ∧ (drainDisk (fun _ => ["n"]) id (clear (fun _ => ["n"]) id [] unwritten)).disk.map
          (fun d => d.index.keys) = some ["b"]
        ∧ ¬ Cleared "n" (drainDisk (fun _ => ["n"]) id (clear (fun _ => ["n"]) id [] unwritten)) := by
  have hkept : ∀ {s : PageOwner} {k : String}, s.disk.map (fun d => d.index.keys) = some [k] →
      ¬ Cleared "n" s := by
    intro s k hkeys h
    obtain ⟨d, hd, hk⟩ := Option.map_eq_some_iff.mp hkeys
    cases hk.symm.trans (h.disk d hd)
  have hloaded : (drainDisk (fun _ => ["n"]) id (clear (fun _ => ["n"]) id [] restarted)).disk.map
      (fun d => d.index.keys) = some ["a"] := by decide +kernel
  have hqueued : (drainDisk (fun _ => ["n"]) id (clear (fun _ => ["n"]) id [] unwritten)).disk.map
      (fun d => d.index.keys) = some ["b"] := by decide +kernel
  exact ⟨⟨hloaded, hkept hloaded⟩, hqueued, hkept hqueued⟩

end

end PeerCacheOwner
