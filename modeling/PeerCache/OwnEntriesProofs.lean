import PeerCache.P2pClusterProofs

/-! # Calls in progress — whose directory entries a node changes

    The nodes of a peer-to-peer or hybrid cluster with their calls in any interleaving: a call
    does one operation on a pool, on a disk tier or on the directory at a time.  Eviction
    callbacks, the disk worker's turns and the storage server's handlers are calls like the
    others.  `delete` and `put` go by the key alone, so a node that drops a page it shares with
    another node drops the other's entry (`foreign_entry_deleted`). -/

namespace PeerCacheCalls

open PeerCachePool PeerCacheDirectory PeerCacheDisk PeerCacheOwner PeerCacheStorage OrderedDict Option
  PeerCacheStorageWrite PeerCacheCluster Transition

/-! ## The model -/

/-- What is left to do for the pages that a pool operation has evicted. -/
inductive Callback where
  | none
  /-- `_on_pool_evict` of the keys -/
  | evicting (evicted : List String)
  /-- `_on_pool_evict` with a disk tier: the lengths are read, the entries to be put -/
  | spilling (entries : Locations)

/-- `_publish_p2p` or `_on_data_ingest`: the pages still to publish, the entries so far. -/
structure Batch where
  updateDirectory : Bool
  todo : List (String × Bytes)
  entries : Locations

/-- `_ensure_resident`, of the node itself or of its handler `_on_data_promote`: the keys still to
    look up, what was promoted, and for the handler what was not found. -/
structure Promote where
  handler : Bool
  todo : List String
  promoted : Locations
  misses : List String

/-- Where a call stands. -/
inductive Phase where
  | publishing (b : Batch)
  /-- the page is in the pool, and goes to disk -/
  | writingThrough (b : Batch) (key : String) (data : Bytes) (addr : Nat)
  /-- its length is noted and its entry made -/
  | noting (b : Batch) (key : String) (length addr : Nat)
  | reconciling (updateDirectory : Bool) (todo : List String) (entries : Locations)
  /-- `_on_data_prepare_writes`: the pages, each with what the directory said of it -/
  | preparing (todo : List ((String × Nat) × Bool))
  /-- `_on_data_commit_writes` -/
  | committing (todo : List String) (entries : Locations)
  | commitNoting (key : String) (addr length : Nat) (todo : List String)
      (entries : Locations)
  | commitWriting (key : String) (addr length : Nat) (todo : List String)
      (entries : Locations)
  | ensuring (p : Promote)
  /-- not in the pool: read from disk -/
  | loading (p : Promote) (key : String)
  /-- read from disk: published -/
  | restoring (p : Promote) (key : String) (data : Bytes)
  | restored (p : Promote) (key : String) (addr length : Nat)
  /-- `_on_data_promote`: the entries of the misses are deleted -/
  | dropping (misses : List String)
  /-- the disk worker has written `key`; `_on_disk_evict` forgets the lengths -/
  | forgetting (key : String) (evicted : List String)
  /-- `_on_disk_evict` deletes the entries -/
  | unlisting (key : String) (evicted : List String)
  | finishing (key : String)

structure Call where
  callback : Callback
  phase : Phase

/-- The nodes, the directory, and the calls in progress, each with its node. -/
structure World where
  cluster : Cluster
  calls : List (String × Call)

/-- What happens next. -/
inductive Act where
  /-- `_publish_p2p` begins; without the directory update it is the local half of a dual write -/
  | publish (me : String) (updateDirectory : Bool) (pages : List (String × Bytes))
  | ingest (me : String) (pages : List (String × Bytes))
  | prepare (me : String) (pages : List (String × Nat))
  | commit (me : String) (keys : List String)
  /-- a WRITE of a client lands in the pool -/
  | write (me : String) (addr : Nat) (data : Bytes)
  | ensure (me : String) (keys : List String)
  | promote (me : String) (keys : List String)
  /-- the disk worker writes the next page of its queue -/
  | work (me : String)
  /-- a call takes its next step; `fails` says whether reading a file fails -/
  | next (i : Nat) (fails : Bool)

/-- A call goes on with the phase. -/
def go (phase : Phase) : Option Call := some ⟨.none, phase⟩

/-- A call goes on with the phase once the callback for the evicted pages is through. -/
def goAfter (evicted : List String) (phase : Phase) : Option Call :=
  some ⟨if evicted = [] then .none else .evicting evicted, phase⟩

/-- The handler remembers what it did not find. -/
def Promote.miss (p : Promote) (key : String) : Promote :=
  if p.handler then { p with misses := p.misses ++ [key] } else p

/-- The call is a turn of the disk worker. -/
def Call.isWorker (c : Call) : Bool :=
  match c.phase with
  | .forgetting _ _ => true
  | .unlisting _ _ => true
  | .finishing _ => true
  | _ => false

/-- The entries once a key of theirs is reconciled with the pool. -/
def reconcileKey (me : String) (s : PageOwner) (entries : Locations) (key : String) :
    Locations :=
  match entries.get? key with
  | none => entries
  | some old => reconcileOne me s entries key old

section

variable (owners : Owners) (me : String)

/-- One step of a call in its phase. -/
def advancePhase (fails : Bool) (s : PageOwner) : Phase → PageOwner × Option Call
  | .publishing ⟨update, [], entries⟩ => (s, go (.reconciling update entries.keys entries))
  | .publishing ⟨update, (key, data) :: todo, entries⟩ =>
      let r := publish s.pool key data
      (s.setPool r.pool, goAfter r.evicted (match r.addr with
        | none => .publishing ⟨update, todo, entries⟩
        | some addr => .writingThrough ⟨update, todo, entries⟩ key data addr))
  | .writingThrough b key data addr => (s.diskPut key data, go (.noting b key data.length addr))
  | .noting b key length addr =>
      (s.setLen key length, go (.publishing
        { b with entries := b.entries.set key (residentLocation me s.pool addr length) }))
  | .reconciling update [] entries =>
      (if update then s.setDir (put owners s.dir entries) else s, none)
  | .reconciling update (key :: todo) entries =>
      (s.setPool (addressOf s.pool key).2, go (.reconciling update todo (reconcileKey me s entries key)))
  | .preparing [] => (s, none)
  | .preparing (((key, length), existing) :: todo) =>
      if key = "" ∨ length = 0 then (s, go (.preparing todo))
      else if existing then
        (s.setPool (addressOf s.pool key).2, go (.preparing (match (addressOf s.pool key).1 with
          | some _ => todo
          | none => ((key, length), false) :: todo)))
      else
        let r := reserve s.pool key length
        (s.setPool r.pool, goAfter r.evicted (.preparing todo))
  | .committing [] entries => (s.setDir (put owners s.dir entries), none)
  | .committing (key :: todo) entries =>
      (s.setPool (addressOf s.pool key).2, go (match (addressOf s.pool key).1 with
        | none => .committing todo entries
        | some (addr, length) => .commitNoting key addr length todo
            (entries.set key (residentLocation me s.pool addr length))))
  | .commitNoting key addr length todo entries =>
      (s.setLen key length, go (.commitWriting key addr length todo entries))
  | .commitWriting key addr length todo entries =>
      (s.diskPut key (s.pool.buf.read (addr - s.pool.base) length), go (.committing todo entries))
  | .ensuring ⟨handler, [], promoted, misses⟩ =>
      (s.setDir (put owners s.dir promoted), if handler then go (.dropping misses) else none)
  | .ensuring ⟨handler, key :: todo, promoted, misses⟩ =>
      (s.setPool (addressOf s.pool key).2, go (match (addressOf s.pool key).1 with
        | some _ => .ensuring ⟨handler, todo, promoted, misses⟩
        | none => .loading ⟨handler, todo, promoted, misses⟩ key))
  | .loading p key =>
      ((s.diskGet key).2, go (match if fails then none else (s.diskGet key).1 with
        | none => .ensuring (p.miss key)
        | some data => .restoring p key data))
  | .restoring p key data =>
      let r := publish s.pool key data
      (s.setPool r.pool, goAfter r.evicted (match r.addr with
        | none => .ensuring (p.miss key)
        | some addr => .restored p key addr data.length))
  | .restored p key addr length =>
      (s.setLen key length, go (.ensuring
        { p with promoted := p.promoted.set key (residentLocation me s.pool addr length) }))
  | .dropping misses => (s.setDir (delete owners s.dir misses), none)
  | .forgetting key evicted =>
      ({ s with keyLen := evicted.foldl OrderedDict.erase s.keyLen }, go (.unlisting key evicted))
  | .unlisting key evicted => (s.setDir (delete owners s.dir evicted), go (.finishing key))
  | .finishing key =>
      (s.setDisk (s.disk.map fun d => { d with inflight := d.inflight.erase key }), none)

/-- One step of a call: first the callback that is due. -/
def advance (fails : Bool) (s : PageOwner) (c : Call) : PageOwner × Option Call :=
  match c.callback with
  | .none => advancePhase owners me fails s c.phase
  | .evicting evicted =>
      match s.disk with
      | none => (s.setDir (delete owners s.dir evicted), go c.phase)
      | some _ => (s, some ⟨.spilling (spilled me s.keyLen evicted), c.phase⟩)
  | .spilling entries => (s.setDir (put owners s.dir entries), go c.phase)

end

section

variable (owners : Owners) (nodes : List String) (safeName : String → String)

/-- The calls in progress once a call has taken a step. -/
def nextCalls (calls : List (String × Call)) (i : Nat) (me : String) : Option Call → List (String × Call)
  | none => calls.eraseIdx i
  | some c => calls.set i (me, c)

/-- A call begins at one of the nodes. -/
def World.start (w : World) (me : String) (phase : Phase) : Option World :=
  if me ∈ nodes then some { w with calls := w.calls ++ [(me, ⟨.none, phase⟩)] } else none

/-- One action; `none` when it is not enabled. -/
def step (w : World) : Act → Option World
  | .publish me update pages =>
      let todo := pages.filter fun q => !existMap owners w.cluster.dir q.1
      w.start nodes me (.publishing ⟨update, todo, OrderedDict.empty⟩)
  | .ingest me pages =>
      let todo := pages.filter fun q => q.1 ≠ "" && !existMap owners w.cluster.dir q.1
      w.start nodes me (.publishing ⟨true, todo, OrderedDict.empty⟩)
  | .prepare me pages =>
      w.start nodes me (.preparing (pages.map fun p => (p, existMap owners w.cluster.dir p.1)))
  | .commit me keys => w.start nodes me (.committing keys OrderedDict.empty)
  | .write me addr data =>
      let s := w.cluster.node me
      some { w with cluster := w.cluster.setNode me (s.setPool (remoteWrite s.pool addr data)) }
  | .ensure me keys => w.start nodes me (.ensuring ⟨false, keys, OrderedDict.empty, []⟩)
  | .promote me keys => w.start nodes me (.ensuring ⟨true, keys, OrderedDict.empty, []⟩)
  | .work me =>
      -- the node has one worker
      if ∃ q ∈ w.calls, q.1 = me ∧ q.2.isWorker then none
      else
        match (w.cluster.hosts me).disk with
        | none => none
        | some d =>
            match d.queue with
            | [] => none
            | (key, data) :: queue =>
                let r := PeerCacheDisk.write safeName { d with queue := queue } key data
                World.start nodes
                  { w with cluster := w.cluster.setNode me ((w.cluster.node me).setDisk (some r.1)) } me
                  (if r.2 = [] then .finishing key else .forgetting key r.2)
  | .next i fails =>
      match w.calls[i]? with
      | none => none
      | some (me, c) =>
          let r := advance owners me fails (w.cluster.node me) c
          some ⟨w.cluster.setNode me r.1, nextCalls w.calls i me r.2⟩

end

/-- Fresh nodes, an empty directory, no calls. -/
def World.init (cfg : String → NodeConfig) : World := ⟨(PeerCacheCluster.World.init cfg).cluster, []⟩

/-! ## Who has a key -/

/-- The keys indexed, queued or being written. -/
def diskKeys : Option DiskStore → List String
  | none => []
  | some d => d.index.keys ++ d.inflight ++ d.queue.map Prod.fst

/-- The keys a node has in its pool and on disk. -/
def held (pool : PublishedPool String) (disk : Option DiskStore) : List String :=
  pool.entries.keys ++ diskKeys disk

def Callback.keys : Callback → List String
  | .none => []
  | .evicting evicted => evicted
  | .spilling entries => entries.keys

/-- The handler will delete what it does not find. -/
def Promote.keys (p : Promote) : List String :=
  (if p.handler then p.todo ++ p.misses else []) ++ p.promoted.keys

/-- The keys whose entries the call may still change, or that it is about to store. -/
def Phase.keys : Phase → List String
  | .publishing b => b.entries.keys
  | .writingThrough b key _ _ => key :: b.entries.keys
  | .noting b key _ _ => key :: b.entries.keys
  | .reconciling _ _ entries => entries.keys
  | .preparing _ => []
  | .committing _ entries => entries.keys
  | .commitNoting key _ _ _ entries => key :: entries.keys
  | .commitWriting key _ _ _ entries => key :: entries.keys
  | .ensuring p => p.keys
  | .loading p key => (if p.handler then [key] else []) ++ p.keys
  | .restoring p key _ => key :: p.keys
  | .restored p key _ _ => key :: p.keys
  | .dropping misses => misses
  | .forgetting key evicted => key :: evicted
  | .unlisting key evicted => key :: evicted
  | .finishing key => [key]

def Call.keys (c : Call) : List String := c.callback.keys ++ c.phase.keys

/-- The node has the key: in its pool, on disk, or in a call in progress. -/
def Has (w : World) (n k : String) : Prop :=
  k ∈ held (w.cluster.hosts n).pool (w.cluster.hosts n).disk ∨ ∃ q ∈ w.calls, q.1 = n ∧ k ∈ q.2.keys

instance (w : World) (n k : String) : Decidable (Has w n k) :=
  inferInstanceAs (Decidable (_ ∨ ∃ q ∈ w.calls, q.1 = n ∧ k ∈ q.2.keys))

/-- The key that the next step of a call brings to the pool, if it is not there. -/
def Call.takes (c : Call) : Option String :=
  match c.callback, c.phase with
  | .none, .publishing ⟨_, (key, _) :: _, _⟩ => some key
  | .none, .preparing (((key, length), existing) :: _) =>
      if key = "" ∨ length = 0 ∨ existing then none else some key
  | _, _ => none

section

variable (owners : Owners) (nodes : List String)

/-- No other node has the key, and no entry of it names another node. -/
def Free (w : World) (me k : String) : Prop :=
  (∀ n ∈ nodes, n ≠ me → ¬ Has w n k)
    ∧ ∀ node ∈ owners k, ∀ loc ∈ (w.cluster.dir node).get? k, loc.nodeId = me

instance (w : World) (me k : String) : Decidable (Free owners nodes w me k) :=
  inferInstanceAs (Decidable ((∀ n ∈ nodes, n ≠ me → ¬ Has w n k)
    ∧ ∀ node ∈ owners k, ∀ loc ∈ (w.cluster.dir node).get? k, loc.nodeId = me))

/-- A page is brought to a pool, and a request to promote it is received, only where no other node has
    it. -/
def Exclusive (w : World) : Act → Prop
  | .next i _ => ∀ q ∈ w.calls[i]?, ∀ k ∈ q.2.takes, Free owners nodes w q.1 k
  | .promote me keys => ∀ k ∈ keys, Free owners nodes w me k
  | _ => True

instance (w : World) (a : Act) : Decidable (Exclusive owners nodes w a) :=
  match a with
  | .next i _ => inferInstanceAs (Decidable (∀ q ∈ w.calls[i]?, ∀ k ∈ q.2.takes, Free owners nodes w q.1 k))
  | .promote me keys => inferInstanceAs (Decidable (∀ k ∈ keys, Free owners nodes w me k))
  | .publish _ _ _ | .ingest _ _ | .prepare _ _ | .commit _ _ | .write _ _ _ | .ensure _ _ | .work _ =>
      isTrue trivial

end

/-! ## What one step does -/

def Callback.entries : Callback → Locations
  | .spilling entries => entries
  | _ => OrderedDict.empty

/-- The entries the call is going to put. -/
def Phase.entries : Phase → Locations
  | .publishing b => b.entries
  | .writingThrough b _ _ _ => b.entries
  | .noting b _ _ _ => b.entries
  | .reconciling _ _ entries => entries
  | .committing _ entries => entries
  | .commitNoting _ _ _ _ entries => entries
  | .commitWriting _ _ _ _ entries => entries
  | .ensuring p => p.promoted
  | .loading p _ => p.promoted
  | .restoring p _ _ => p.promoted
  | .restored p _ _ _ => p.promoted
  | _ => OrderedDict.empty

/-- All the entries name the node. -/
def NamesAll (me : String) (entries : Locations) : Prop :=
  ∀ k loc, entries.get? k = some loc → loc.nodeId = me

/-- A call puts entries of its own node only. -/
def Call.Names (me : String) (c : Call) : Prop :=
  NamesAll me c.callback.entries ∧ NamesAll me c.phase.entries

section

variable {owners : Owners} {me : String} {s t : PageOwner} {c : Call}

lemma namesAll_empty (me : String) : NamesAll me OrderedDict.empty := fun _ _ h => nomatch h

lemma NamesAll.set {entries : Locations} (h : NamesAll me entries) (key : String)
    {loc : DataLocation} (hloc : loc.nodeId = me) : NamesAll me (entries.set key loc) := by
  intro k l hk
  rw [get?_set] at hk
  split_ifs at hk with hkk
  · cases hk; exact hloc
  · exact h k l hk

lemma namesAll_reconcile {entries : Locations} (h : NamesAll me entries)
    (key : String) : NamesAll me (reconcileKey me s entries key) := by
  rw [reconcileKey]
  cases hold : entries.get? key with
  | none => exact h
  | some old =>
    simp only [reconcileOne]
    cases (addressOf s.pool key).1 with
    | none => exact h.set key rfl
    | some al => exact h.set key (h key old hold)

lemma namesAll_spilled (keyLen : OrderedDict String Nat) (evicted : List String) :
    NamesAll me (spilled me keyLen evicted) := by
  intro k loc hk
  rw [spilled_get?] at hk
  by_cases hmem : k ∈ evicted
  · rw [if_pos hmem] at hk
    obtain ⟨length, -, rfl⟩ := map_eq_some_iff.mp hk
    rfl
  · rw [if_neg hmem] at hk; cases hk

variable {k : String} {disk : Option DiskStore} {length : Nat} {copy : Nat → Mem → Mem}
  {next : Option Call} {phase : Phase}

lemma mem_keys_reconcile {entries : Locations} {key : String}
    (h : k ∈ (reconcileKey me s entries key).keys) : k ∈ entries.keys := by
  rw [reconcileKey] at h
  cases hold : entries.get? key with
  | none => rw [hold] at h; exact h
  | some old =>
    rw [hold] at h
    have hset : k = key ∨ k ∈ entries.keys := by
      simp only [reconcileOne] at h
      cases hal : (addressOf s.pool key).1 with
      | none | some al => rw [hal] at h; exact mem_keys_set.mp h
    rcases hset with rfl | hk
    · exact mem_keys.mpr ⟨old, hold⟩
    · exact hk

lemma mem_keys_spilled {keyLen : OrderedDict String Nat} {evicted : List String}
    (h : k ∈ (spilled me keyLen evicted).keys) : k ∈ evicted := by
  obtain ⟨loc, hloc⟩ := mem_keys.mp h
  rw [spilled_get?] at hloc
  by_contra hk
  rw [if_neg hk] at hloc
  cases hloc

/-! ### Pool and disk -/

lemma mem_held_touch {pool : PublishedPool String} {key : String}
    (h : k ∈ held (addressOf pool key).2 disk) : k ∈ held pool disk := by
  refine List.mem_append.mpr ((List.mem_append.mp h).imp_left ?_)
  rw [mem_keys, mem_keys, addressOf_get?]
  exact id

lemma mem_held_place {pool : PublishedPool String} {key : String}
    (h : k ∈ held (place pool key length copy).pool disk) : k ∈ held pool disk ∨ k = key := by
  rcases List.mem_append.mp h with h | h
  · obtain ⟨e, he⟩ := mem_keys.mp h
    rcases place_get?_from he with hold | ⟨hk, -⟩
    · exact .inl (List.mem_append_left _ (mem_keys.mpr ⟨e, hold⟩))
    · exact .inr hk
  · exact .inl (List.mem_append_right _ h)

lemma mem_held_evicted {pool : PublishedPool String} {key : String}
    (h : k ∈ (place pool key length copy).evicted) : k ∈ held pool disk :=
  List.mem_append_left _ ((place_evicted pool key length copy).1.subset h)

variable {data : Bytes}

lemma mem_held_diskPut {key : String}
    (h : k ∈ held (s.diskPut key data).pool (s.diskPut key data).disk) :
    k ∈ held s.pool s.disk ∨ k = key := by
  rcases List.mem_append.mp h with h | h
  · exact .inl (List.mem_append_left _ h)
  · have hdisk : (s.diskPut key data).disk = s.disk.map (fun d => PeerCacheDisk.put d key data) := rfl
    rw [hdisk] at h
    rw [held]
    cases hd : s.disk with
    | none => rw [hd] at h; cases h
    | some d =>
      rw [hd, map_some] at h
      rcases put_queue_cases d key data with ⟨heq, -⟩ | ⟨heq, -⟩
      · rw [heq] at h; exact .inl (List.mem_append_right _ h)
      · rw [heq] at h
        simp only [diskKeys, List.map_append, List.map_cons, List.map_nil, List.mem_append,
          List.mem_singleton] at h ⊢
        tauto

lemma mem_held_diskGet {key : String} (h : k ∈ held (s.diskGet key).2.pool (s.diskGet key).2.disk) :
    k ∈ held s.pool s.disk := by
  have hpool : (s.diskGet key).2.pool = s.pool := by
    rw [PageOwner.diskGet]
    cases s.disk with
    | none => rfl
    | some d => rfl
  rw [hpool, diskGet_disk] at h
  refine List.mem_append.mpr ((List.mem_append.mp h).imp_right ?_)
  cases s.disk with
  | none => exact id
  | some d =>
    obtain ⟨index, heq, -, hget⟩ := get_frame d key
    rw [map_some, heq]
    have hkeys : k ∈ index.keys ↔ k ∈ d.index.keys := by
      rw [mem_keys, mem_keys, hget]
    simp only [diskKeys, List.mem_append, hkeys]
    exact id

lemma mem_held_finish {key : String}
    (h : k ∈ held s.pool (s.disk.map fun d => { d with inflight := d.inflight.erase key })) :
    k ∈ held s.pool s.disk := by
  refine List.mem_append.mpr ((List.mem_append.mp h).imp_right ?_)
  cases s.disk with
  | none => exact id
  | some d =>
      simp only [map_some, diskKeys, List.mem_append]
      rintro ((hk | hk) | hk)
      · exact .inl (.inl hk)
      · exact .inl (.inr (List.mem_of_mem_erase hk))
      · exact .inr hk

/-! ### The effect of a step -/

/-- The node has the key before the step, or the step brings it. -/
def Mine (s : PageOwner) (c : Call) (k : String) : Prop :=
  k ∈ held s.pool s.disk ∨ k ∈ c.keys ∨ k ∈ c.takes

/-- A step of a call at `me`: afterwards the node has no keys but those it had or took, and only the
    entries of the call's keys have changed, to entries of `me`. -/
structure Effect (owners : Owners) (me : String) (s : PageOwner) (c : Call)
    (r : PageOwner × Option Call) : Prop where
  held : ∀ k ∈ held r.1.pool r.1.disk, Mine s c k
  call : ∀ c' ∈ r.2, ∀ k ∈ c'.keys, Mine s c k
  names : ∀ c' ∈ r.2, c'.Names me
  dir : ∀ node k, (r.1.dir node).get? k ≠ (s.dir node).get? k →
    node ∈ owners k ∧ k ∈ c.keys ∧ ∀ loc ∈ (r.1.dir node).get? k, loc.nodeId = me

lemma effect_quiet (hdir : t.dir = s.dir) (hheld : ∀ k ∈ held t.pool t.disk, Mine s c k)
    (hkeys : ∀ c' ∈ next, ∀ k ∈ c'.keys, Mine s c k) (hnames : ∀ c' ∈ next, c'.Names me) :
    Effect owners me s c (t, next) :=
  ⟨hheld, hkeys, hnames, fun _ _ h => absurd (by rw [hdir]) h⟩

lemma effect_go (hdir : t.dir = s.dir) (hheld : ∀ k ∈ held t.pool t.disk, Mine s c k)
    (hkeys : ∀ k ∈ phase.keys, Mine s c k) (hnames : NamesAll me phase.entries) :
    Effect owners me s c (t, go phase) := by
  refine effect_quiet hdir hheld ?_ ?_
  · rintro _ ⟨⟩ k hk; exact hkeys k hk
  · rintro _ ⟨⟩; exact ⟨namesAll_empty me, hnames⟩

lemma effect_same (hkeys : ∀ k ∈ phase.keys, Mine s c k) (hnames : NamesAll me phase.entries) :
    Effect owners me s c (s, go phase) :=
  effect_go rfl (fun _ hk => .inl hk) hkeys hnames

lemma effect_touch {key : String} (hkeys : ∀ k ∈ phase.keys, Mine s c k)
    (hnames : NamesAll me phase.entries) :
    Effect owners me s c (s.setPool (addressOf s.pool key).2, go phase) :=
  effect_go (s := s) (t := s.setPool (addressOf s.pool key).2) rfl (fun _ hk => .inl (mem_held_touch hk)) hkeys hnames

lemma effect_setLen {key : String} (hkeys : ∀ k ∈ phase.keys, Mine s c k)
    (hnames : NamesAll me phase.entries) : Effect owners me s c (s.setLen key length, go phase) :=
  effect_go (s := s) (t := s.setLen key length) rfl (fun _ hk => .inl hk) hkeys hnames

lemma effect_diskPut {key : String} (hkey : Mine s c key) (hkeys : ∀ k ∈ phase.keys, Mine s c k)
    (hnames : NamesAll me phase.entries) : Effect owners me s c (s.diskPut key data, go phase) := by
  refine effect_go (s := s) (t := s.diskPut key data) rfl ?_ hkeys hnames
  intro k hk
  rcases mem_held_diskPut hk with hk | rfl
  · exact .inl hk
  · exact hkey

lemma effect_diskGet {key : String} (hkeys : ∀ k ∈ phase.keys, Mine s c k)
    (hnames : NamesAll me phase.entries) : Effect owners me s c ((s.diskGet key).2, go phase) := by
  refine effect_go ?_ (fun _ hk => .inl (mem_held_diskGet hk)) hkeys hnames
  rw [PageOwner.diskGet]
  cases s.disk with
  | none => rfl
  | some d => rfl

lemma effect_place {key : String} (hkey : Mine s c key) (hkeys : ∀ k ∈ phase.keys, Mine s c k)
    (hnames : NamesAll me phase.entries) :
    Effect owners me s c (s.setPool (place s.pool key length copy).pool,
      goAfter (place s.pool key length copy).evicted phase) := by
  refine effect_quiet (s := s) (t := s.setPool (place s.pool key length copy).pool) rfl ?_ ?_ ?_
  · intro k hk
    rcases mem_held_place hk with hk | rfl
    · exact .inl hk
    · exact hkey
  · rintro _ ⟨⟩ k hk
    rcases List.mem_append.mp hk with hk | hk
    · refine Or.inl ?_
      split_ifs at hk with hev
      · cases hk
      · exact mem_held_evicted hk
    · exact hkeys k hk
  · rintro _ ⟨⟩
    refine ⟨?_, hnames⟩
    split_ifs with hev
    · exact namesAll_empty me
    · exact namesAll_empty me

lemma effect_put {entries : Locations} (hsub : ∀ k ∈ entries.keys, k ∈ c.keys)
    (hall : NamesAll me entries) (hkeys : ∀ c' ∈ next, ∀ k ∈ c'.keys, Mine s c k)
    (hnames : ∀ c' ∈ next, c'.Names me) :
    Effect owners me s c (s.setDir (put owners s.dir entries), next) := by
  refine ⟨fun k hk => .inl hk, hkeys, hnames, ?_⟩
  intro node k
  show (put owners s.dir entries node).get? k ≠ _ → _ ∧ _ ∧ ∀ loc ∈ (put owners s.dir entries node).get? k, _
  rw [put_get?]
  split_ifs with hn
  · cases he : entries.get? k with
    | none => exact fun h => absurd rfl h
    | some l =>
      intro _
      refine ⟨hn, hsub k (mem_keys.mpr ⟨l, he⟩), ?_⟩
      rintro _ ⟨⟩
      exact hall k l he
  · exact fun h => absurd rfl h

lemma effect_delete {keys : List String} (hsub : ∀ k ∈ keys, k ∈ c.keys)
    (hkeys : ∀ c' ∈ next, ∀ k ∈ c'.keys, Mine s c k) (hnames : ∀ c' ∈ next, c'.Names me) :
    Effect owners me s c (s.setDir (delete owners s.dir keys), next) := by
  refine ⟨fun k hk => .inl hk, hkeys, hnames, ?_⟩
  intro node k
  show (delete owners s.dir keys node).get? k ≠ _ →
    _ ∧ _ ∧ ∀ loc ∈ (delete owners s.dir keys node).get? k, _
  rw [delete_get?]
  split_ifs with hk
  · exact fun _ => ⟨hk.2, hsub k hk.1, by rintro _ ⟨⟩⟩
  · exact fun h => absurd rfl h

lemma forall_none {P : Call → Prop} : ∀ c' ∈ (none : Option Call), P c' := fun _ h => nomatch h

end

section

variable {owners : Owners} {me : String} {s : PageOwner}

lemma mine_of_phase {phase : Phase} {k : String} (h : k ∈ phase.keys) : Mine s ⟨.none, phase⟩ k :=
  .inr (.inl h)

lemma mem_keys_miss {p : Promote} {key k : String} (h : k ∈ (p.miss key).keys) :
    k ∈ p.keys ∨ (p.handler = true ∧ k = key) := by
  rw [Promote.miss] at h
  split_ifs at h with hh
  · simp only [Promote.keys, hh, if_true, List.mem_append, List.mem_singleton] at h ⊢
    tauto
  · exact .inl h

lemma miss_promoted (p : Promote) (key : String) : (p.miss key).promoted = p.promoted := by
  rw [Promote.miss]
  split_ifs
  · rfl
  · rfl

lemma publishing_effect (fails : Bool) {b : Batch}
    (hnames : NamesAll me (Phase.publishing b).entries) :
    Effect owners me s ⟨.none, .publishing b⟩ (advancePhase owners me fails s (.publishing b)) := by
  obtain ⟨update, todo, entries⟩ := b
  cases todo with
  | nil =>
    refine effect_same ?_ ?_
    · exact fun _ => mine_of_phase
    · exact hnames
  | cons q todo =>
    obtain ⟨key, data⟩ := q
    refine effect_place (.inr (.inr rfl)) ?_ ?_
    · intro k hk
      cases ha : (publish s.pool key data).addr with
      | none => rw [ha] at hk; exact mine_of_phase hk
      | some addr =>
        rw [ha] at hk
        rcases List.mem_cons.mp hk with rfl | hk
        · exact .inr (.inr rfl)
        · exact mine_of_phase hk
    · cases (publish s.pool key data).addr with
      | none => exact hnames
      | some addr => exact hnames

lemma reconciling_effect (fails : Bool) {update : Bool} {todo : List String}
    {entries : Locations}
    (hnames : NamesAll me (Phase.reconciling update todo entries).entries) :
    Effect owners me s ⟨.none, .reconciling update todo entries⟩ (advancePhase owners me fails s (.reconciling update todo entries)) := by
  cases todo with
  | nil =>
    cases update with
    | false => exact effect_quiet (s := s) (t := s) rfl (fun _ => Or.inl) forall_none forall_none
    | true =>
      refine effect_put ?_ ?_ forall_none forall_none
      · exact fun _ hk => hk
      · exact hnames
  | cons key todo =>
    refine effect_touch ?_ ?_
    · exact fun _ hk => mine_of_phase (mem_keys_reconcile hk)
    · exact namesAll_reconcile hnames key

lemma preparing_effect (fails : Bool) {todo : List ((String × Nat) × Bool)}
    (hnames : NamesAll me (Phase.preparing todo).entries) :
    Effect owners me s ⟨.none, .preparing todo⟩ (advancePhase owners me fails s (.preparing todo)) := by
  cases todo with
  | nil => exact effect_quiet (s := s) (t := s) rfl (fun _ => Or.inl) forall_none forall_none
  | cons q todo =>
    obtain ⟨⟨key, length⟩, existing⟩ := q
    rw [advancePhase]
    by_cases hw : key = "" ∨ length = 0
    · rw [if_pos hw]; exact effect_same (List.forall_mem_nil _) hnames
    · rw [if_neg hw]
      cases existing with
      | true => exact effect_touch (List.forall_mem_nil _) hnames
      | false =>
        refine effect_place (.inr (Or.inr ?_)) (List.forall_mem_nil _) hnames
        show key ∈ (if key = "" ∨ length = 0 ∨ false = true then none else some key)
        rw [if_neg]
        · rfl
        · rintro (h | h | h)
          · exact hw (.inl h)
          · exact hw (.inr h)
          · cases h

lemma committing_effect (fails : Bool) {todo : List String}
    {entries : Locations}
    (hnames : NamesAll me (Phase.committing todo entries).entries) :
    Effect owners me s ⟨.none, .committing todo entries⟩ (advancePhase owners me fails s (.committing todo entries)) := by
  cases todo with
  | nil =>
    refine effect_put ?_ ?_ forall_none forall_none
    · exact fun _ hk => hk
    · exact hnames
  | cons key todo =>
    rw [advancePhase]
    refine effect_touch ?_ ?_
    · intro k hk
      cases hal : (addressOf s.pool key).1 with
      | none => rw [hal] at hk; exact mine_of_phase hk
      | some al =>
        -- the page is in the pool
        have hin : key ∈ held s.pool s.disk := by
          rw [addressOf_fst, map_eq_some_iff] at hal
          obtain ⟨e, he, -⟩ := hal
          exact List.mem_append_left _ (mem_keys.mpr ⟨e, he⟩)
        rw [hal] at hk
        rcases List.mem_cons.mp hk with rfl | hk
        · exact .inl hin
        · rcases mem_keys_set.mp hk with rfl | hk
          · exact .inl hin
          · exact mine_of_phase hk
    · cases (addressOf s.pool key).1 with
      | none => exact hnames
      | some al => exact NamesAll.set hnames key rfl

lemma ensuring_effect (fails : Bool) {p : Promote}
    (hnames : NamesAll me (Phase.ensuring p).entries) :
    Effect owners me s ⟨.none, .ensuring p⟩ (advancePhase owners me fails s (.ensuring p)) := by
  obtain ⟨handler, todo, promoted, misses⟩ := p
  cases todo with
  | nil =>
    refine effect_put ?_ hnames ?_ ?_
    · intro k hk
      show k ∈ Promote.keys ⟨handler, [], promoted, misses⟩
      exact List.mem_append_right _ hk
    · intro c' hc' k hk
      cases handler with
      | false => cases hc'
      | true =>
        cases hc'
        exact mine_of_phase (List.mem_append_left _ hk)
    · intro c' hc'
      cases handler with
      | false => cases hc'
      | true =>
        cases hc'
        exact ⟨namesAll_empty me, namesAll_empty me⟩
  | cons key todo =>
    refine effect_touch ?_ ?_
    · intro k hk
      refine mine_of_phase ?_
      cases hal : (addressOf s.pool key).1 with
      | none =>
        rw [hal] at hk
        cases handler with
        | false => exact hk
        | true => exact hk
      | some al =>
        rw [hal] at hk
        cases handler with
        | false => exact hk
        | true => exact .tail _ hk
    · cases (addressOf s.pool key).1 with
      | none => exact hnames
      | some al => exact hnames

lemma loading_effect (fails : Bool) {p : Promote} {key : String}
    (hnames : NamesAll me (Phase.loading p key).entries) :
    Effect owners me s ⟨.none, .loading p key⟩ (advancePhase owners me fails s (.loading p key)) := by
  refine effect_diskGet ?_ ?_
  · intro k hk
    cases hd : (if fails then none else (s.diskGet key).1) with
    | none =>
      rw [hd] at hk
      rcases mem_keys_miss hk with hk | ⟨hh, rfl⟩
      · exact mine_of_phase (List.mem_append_right _ hk)
      · refine mine_of_phase (List.mem_append_left _ ?_)
        rw [if_pos hh]
        exact (.head _)
    | some data =>
      rw [hd] at hk
      rcases List.mem_cons.mp hk with rfl | hk
      · -- the page is indexed
        have hget : (s.diskGet k).1 = some data := by
          cases fails with
          | true => cases hd
          | false => exact hd
        rw [diskGet_fst] at hget
        obtain ⟨d, hdisk, hdata⟩ := bind_eq_some_iff.mp hget
        refine .inl (List.mem_append_right _ ?_)
        rw [hdisk]
        exact List.mem_append_left _ (List.mem_append_left _ (get_some hdata))
      · exact mine_of_phase (List.mem_append_right _ hk)
  · cases (if fails then none else (s.diskGet key).1) with
    | none =>
      show NamesAll me (p.miss key).promoted
      rw [miss_promoted]
      exact hnames
    | some data => exact hnames

lemma restoring_effect (fails : Bool) {p : Promote} {key : String} {data : Bytes}
    (hnames : NamesAll me (Phase.restoring p key data).entries) :
    Effect owners me s ⟨.none, .restoring p key data⟩ (advancePhase owners me fails s (.restoring p key data)) := by
  refine effect_place (mine_of_phase (.head _)) ?_ ?_
  · intro k hk
    cases ha : (publish s.pool key data).addr with
    | none =>
      rw [ha] at hk
      rcases mem_keys_miss hk with hk | ⟨-, rfl⟩
      · exact mine_of_phase (.tail _ hk)
      · exact mine_of_phase (.head _)
    | some addr => rw [ha] at hk; exact mine_of_phase hk
  · cases (publish s.pool key data).addr with
    | none =>
      show NamesAll me (p.miss key).promoted
      rw [miss_promoted]
      exact hnames
    | some addr => exact hnames

lemma restored_effect (fails : Bool) {p : Promote} {key : String} {addr length : Nat}
    (hnames : NamesAll me (Phase.restored p key addr length).entries) :
    Effect owners me s ⟨.none, .restored p key addr length⟩ (advancePhase owners me fails s (.restored p key addr length)) := by
  refine effect_setLen ?_ ?_
  · intro k hk
    refine mine_of_phase ?_
    rcases List.mem_append.mp hk with hk | hk
    · exact .tail _ (List.mem_append_left _ hk)
    · rcases mem_keys_set.mp hk with rfl | hk
      · exact (.head _)
      · exact .tail _ (List.mem_append_right _ hk)
  · exact NamesAll.set hnames key rfl

/-- **ONE STEP OF A PHASE.** -/
lemma advancePhase_effect (fails : Bool) {phase : Phase} (hnames : NamesAll me phase.entries) :
    Effect owners me s ⟨.none, phase⟩ (advancePhase owners me fails s phase) := by
  cases phase with
  | publishing b => exact publishing_effect fails hnames
  | writingThrough b key data addr =>
    refine effect_diskPut (mine_of_phase (.head _)) ?_ ?_
    · exact fun _ => mine_of_phase
    · exact hnames
  | noting b key length addr =>
    refine effect_setLen ?_ ?_
    · intro k hk; exact mine_of_phase (List.mem_cons.mpr (mem_keys_set.mp hk))
    · exact NamesAll.set hnames key rfl
  | reconciling update todo entries => exact reconciling_effect fails hnames
  | preparing todo => exact preparing_effect fails hnames
  | committing todo entries => exact committing_effect fails hnames
  | commitNoting key addr length todo entries =>
    refine effect_setLen ?_ ?_
    · exact fun _ => mine_of_phase
    · exact hnames
  | commitWriting key addr length todo entries =>
    refine effect_diskPut (mine_of_phase (.head _)) ?_ ?_
    · exact fun _ hk => mine_of_phase (.tail _ hk)
    · exact hnames
  | ensuring p => exact ensuring_effect fails hnames
  | loading p key => exact loading_effect fails hnames
  | restoring p key data => exact restoring_effect fails hnames
  | restored p key addr length => exact restored_effect fails hnames
  | dropping misses =>
    exact effect_delete (c := ⟨.none, .dropping misses⟩) (fun _ hk => hk) forall_none forall_none
  | forgetting key evicted =>
    refine effect_go (s := s) (t := { s with keyLen := evicted.foldl OrderedDict.erase s.keyLen }) rfl
      (fun _ => Or.inl) ?_ ?_
    · exact fun _ => mine_of_phase
    · exact hnames
  | unlisting key evicted =>
    refine effect_delete ?_ ?_ ?_
    · exact fun _ hk => .tail _ hk
    · rintro _ ⟨⟩ k hk
      exact mine_of_phase (List.mem_cons.mpr (.inl (List.mem_singleton.mp hk)))
    · rintro _ ⟨⟩; exact ⟨namesAll_empty me, namesAll_empty me⟩
  | finishing key =>
    exact effect_quiet (s := s)
      (t := s.setDisk (s.disk.map fun d : DiskStore => { d with inflight := d.inflight.erase key })) rfl
      (fun _ hk => .inl (mem_held_finish hk)) forall_none forall_none

/-- **ONE STEP OF A CALL.** -/
lemma advance_effect (fails : Bool) {c : Call} (hnames : c.Names me) :
    Effect owners me s c (advance owners me fails s c) := by
  obtain ⟨callback, phase⟩ := c
  have hphase : ∀ c' ∈ go phase, (∀ k ∈ c'.keys, Mine s ⟨callback, phase⟩ k) ∧ c'.Names me := by
    rintro _ ⟨⟩
    exact ⟨fun k hk => .inr (.inl (List.mem_append_right _ hk)), namesAll_empty me, hnames.2⟩
  cases callback with
  | none => exact advancePhase_effect fails hnames.2
  | evicting evicted =>
    rw [advance]
    simp only
    cases s.disk with
    | none =>
      refine effect_delete ?_ (fun c' hc' => (hphase c' hc').1) (fun c' hc' => (hphase c' hc').2)
      exact fun _ hk => List.mem_append_left _ hk
    | some d =>
      refine effect_quiet (s := s) (t := s) rfl (fun _ => Or.inl) ?_ ?_
      · rintro _ ⟨⟩ k hk
        refine .inr (Or.inl ?_)
        rcases List.mem_append.mp hk with hk | hk
        · exact List.mem_append_left _ (mem_keys_spilled hk)
        · exact List.mem_append_right _ hk
      · rintro _ ⟨⟩; exact ⟨namesAll_spilled _ _, hnames.2⟩
  | spilling entries =>
    refine effect_put ?_ hnames.1 (fun c' hc' => (hphase c' hc').1) (fun c' hc' => (hphase c' hc').2)
    exact fun _ hk => List.mem_append_left _ hk

end

/-! ## The invariant -/

/-- A key is at one node, the entries of a key name the node that has it, and a call puts entries of its
    own node. -/
structure Apart (owners : Owners) (nodes : List String) (w : World) : Prop where
  one : ∀ n m k, Has w n k → Has w m k → n = m
  named : ∀ k, ∀ node ∈ owners k, ∀ loc ∈ (w.cluster.dir node).get? k, ∀ n, Has w n k → loc.nodeId = n
  names : ∀ q ∈ w.calls, q.2.Names q.1
  callers : ∀ q ∈ w.calls, q.1 ∈ nodes
  nodes : ∀ n k, Has w n k → n ∈ nodes

/-- An action of `me`: the other nodes come by no keys, and the entries that change are of keys that `me`
    has, and name it. -/
structure Moves (owners : Owners) (me : String) (w w' : World) : Prop where
  others : ∀ n k, n ≠ me → Has w' n k → Has w n k
  dir : ∀ node k, (w'.cluster.dir node).get? k ≠ (w.cluster.dir node).get? k →
    node ∈ owners k ∧ Has w me k ∧ ∀ loc ∈ (w'.cluster.dir node).get? k, loc.nodeId = me

section

variable {owners : Owners} {nodes : List String} {safeName : String → String}
  {me : String} {w w' : World}

/-- **AN ACTION KEEPS THE INVARIANT** if the keys it takes are free. -/
lemma Moves.apart (hmove : Moves owners me w w') (h : Apart owners nodes w)
    (hmine : ∀ k, Has w' me k → Has w me k ∨ (me ∈ nodes ∧ Free owners nodes w me k))
    (hcalls : ∀ q ∈ w'.calls, q.2.Names q.1 ∧ q.1 ∈ nodes) : Apart owners nodes w' := by
  -- who has the key afterwards is `me`, or had it before
  have hone : ∀ m k, m ≠ me → Has w' m k → ¬ Has w' me k := by
    intro m k hm hmk hmek
    have hold := hmove.others m k hm hmk
    rcases hmine k hmek with hme | ⟨-, hfree⟩
    · exact hm (h.one m me k hold hme)
    · exact hfree.1 m (h.nodes m k hold) hm hold
  refine ⟨?_, ?_, fun q hq => (hcalls q hq).1, fun q hq => (hcalls q hq).2, ?_⟩
  · intro n m k hn hm
    by_cases hnm : n = me
    · by_contra hne
      exact hone m k (fun hmm => hne (hnm.trans hmm.symm)) hm (hnm ▸ hn)
    · by_cases hmm : m = me
      · exact absurd (hmm ▸ hm) (hone n k hnm hn)
      · exact h.one n m k (hmove.others n k hnm hn) (hmove.others m k hmm hm)
  · intro k node hnode loc hloc n hn
    by_cases hsame : (w'.cluster.dir node).get? k = (w.cluster.dir node).get? k
    · rw [hsame] at hloc
      by_cases hnm : n = me
      · subst hnm
        rcases hmine k hn with hn | ⟨-, hfree⟩
        · exact h.named k node hnode loc hloc n hn
        · exact hfree.2 node hnode loc hloc
      · exact h.named k node hnode loc hloc n (hmove.others n k hnm hn)
    · obtain ⟨-, hme, hnames⟩ := hmove.dir node k hsame
      by_cases hnm : n = me
      · exact (hnames loc hloc).trans hnm.symm
      · exact absurd (h.one n me k (hmove.others n k hnm hn) hme) hnm
  · intro n k hn
    by_cases hnm : n = me
    · subst hnm
      rcases hmine k hn with hn | ⟨hmem, -⟩
      · exact h.nodes n k hn
      · exact hmem
    · exact h.nodes n k (hmove.others n k hnm hn)

variable {k : String} {phase : Phase} {i : Nat} {r : PageOwner × Option Call}
  {calls : List (String × Call)}

/-- **NO ACTION TOUCHES THE ENTRIES OF ANOTHER NODE.** -/
lemma Moves.foreign (hmove : Moves owners me w w') (h : Apart owners nodes w) {node : String}
    {loc : DataLocation} (hloc : (w.cluster.dir node).get? k = some loc) (hne : loc.nodeId ≠ me) :
    (w'.cluster.dir node).get? k = some loc := by
  by_contra hchange
  rw [← hloc] at hchange
  obtain ⟨hnode, hme, -⟩ := hmove.dir node k hchange
  exact hne (h.named k node hnode loc hloc me hme)

/-! ### A call begins -/

lemma start_eq (h : w.start nodes me phase = some w') :
    me ∈ nodes ∧ w' = { w with calls := w.calls ++ [(me, ⟨.none, phase⟩)] } := by
  rw [World.start] at h
  by_cases hme : me ∈ nodes
  · rw [if_pos hme] at h; exact ⟨hme, (some.inj h).symm⟩
  · rw [if_neg hme] at h; cases h

variable {n : String}

lemma has_start (h : Has { w with calls := w.calls ++ [(me, ⟨.none, phase⟩)] } n k) :
    Has w n k ∨ (n = me ∧ k ∈ phase.keys) := by
  rcases h with h | ⟨q, hq, hqn, hk⟩
  · exact .inl (.inl h)
  · rcases List.mem_append.mp hq with hq | hq
    · exact .inl (.inr ⟨q, hq, hqn, hk⟩)
    · obtain rfl := List.mem_singleton.mp hq
      exact .inr ⟨hqn.symm, hk⟩

lemma moves_start : Moves owners me w { w with calls := w.calls ++ [(me, ⟨.none, phase⟩)] } := by
  refine ⟨fun n k hn h => ?_, fun _ _ h => absurd rfl h⟩
  exact (has_start h).resolve_right (fun hm => hn hm.1)

lemma apart_start (h : Apart owners nodes w) (hstart : w.start nodes me phase = some w')
    (hnames : NamesAll me phase.entries) (hfree : ∀ k ∈ phase.keys, Free owners nodes w me k) :
    Apart owners nodes w' := by
  obtain ⟨hme, rfl⟩ := start_eq hstart
  refine moves_start.apart h ?_ ?_
  · intro k hk; exact (has_start hk).imp_right (fun hm => ⟨hme, hfree k hm.2⟩)
  · intro q hq
    rcases List.mem_append.mp hq with hq | hq
    · exact ⟨h.names q hq, h.callers q hq⟩
    · obtain rfl := List.mem_singleton.mp hq
      exact ⟨⟨namesAll_empty me, hnames⟩, hme⟩

/-! ### A call goes on -/

lemma has_next {c : Call} (hcall : w.calls[i]? = some (me, c))
    (heff : Effect owners me (w.cluster.node me) c r)
    (hcalls : ∀ q ∈ calls, q ∈ w.calls ∨ ∃ c' ∈ r.2, q = (me, c'))
    (h : Has ⟨w.cluster.setNode me r.1, calls⟩ n k) : Has w n k ∨ (n = me ∧ k ∈ c.takes) := by
  have hmine : Mine (w.cluster.node me) c k → Has w me k ∨ k ∈ c.takes := by
    rintro (hk | hk | hk)
    · exact .inl (.inl hk)
    · exact .inl (.inr ⟨_, List.mem_of_getElem? hcall, rfl, hk⟩)
    · exact .inr hk
  rcases h with h | ⟨q, hq, hqn, hk⟩
  · by_cases hn : n = me
    · subst hn
      rw [setNode_hosts_self] at h
      exact (hmine (heff.held k h)).imp_right (fun hk => ⟨rfl, hk⟩)
    · rw [setNode_hosts_ne _ hn] at h; exact .inl (.inl h)
  · rcases hcalls q hq with hold | ⟨c', hc', rfl⟩
    · exact .inl (.inr ⟨q, hold, hqn, hk⟩)
    · subst hqn
      exact (hmine (heff.call c' hc' k hk)).imp_right (fun hk => ⟨rfl, hk⟩)

lemma mem_nextCalls {next : Option Call} {q : String × Call} (h : q ∈ nextCalls calls i me next) :
    q ∈ calls ∨ ∃ c ∈ next, q = (me, c) := by
  cases next with
  | none => exact .inl (List.mem_of_mem_eraseIdx h)
  | some c =>
    rcases List.mem_or_eq_of_mem_set h with h | rfl
    · exact .inl h
    · exact .inr ⟨c, rfl, rfl⟩

/-- **A CALL TAKES A STEP.** -/
lemma moves_next {c : Call} (hcall : w.calls[i]? = some (me, c))
    (heff : Effect owners me (w.cluster.node me) c r) :
    Moves owners me w ⟨w.cluster.setNode me r.1, nextCalls w.calls i me r.2⟩ where
  others n k hn h := (has_next hcall heff (fun _ => mem_nextCalls) h).resolve_right (fun hm => hn hm.1)
  dir node k h := by
    obtain ⟨hnode, hk, hnames⟩ := heff.dir node k h
    exact ⟨hnode, .inr ⟨_, List.mem_of_getElem? hcall, rfl, hk⟩, hnames⟩

lemma apart_next {c : Call} (h : Apart owners nodes w) (hcall : w.calls[i]? = some (me, c))
    (hfree : ∀ k ∈ c.takes, Free owners nodes w me k)
    (heff : Effect owners me (w.cluster.node me) c r) :
    Apart owners nodes ⟨w.cluster.setNode me r.1, nextCalls w.calls i me r.2⟩ := by
  have hme : me ∈ nodes := h.callers _ (List.mem_of_getElem? hcall)
  refine (moves_next hcall heff).apart h ?_ ?_
  · intro k hk
    exact (has_next hcall heff (fun _ => mem_nextCalls) hk).imp_right (fun hm => ⟨hme, hfree k hm.2⟩)
  · intro q hq
    rcases mem_nextCalls hq with hq | ⟨c', hc', rfl⟩
    · exact ⟨h.names q hq, h.callers q hq⟩
    · exact ⟨heff.names c' hc', hme⟩

/-! ### The disk worker, and a WRITE -/

lemma mem_diskKeys_write {d : DiskStore} {key : String} {data : Bytes}
    {queue : List (String × Bytes)} (hq : d.queue = (key, data) :: queue)
    (h : k ∈ diskKeys (some (PeerCacheDisk.write safeName { d with queue := queue } key data).1)
      ∨ k = key ∨ k ∈ (PeerCacheDisk.write safeName { d with queue := queue } key data).2) :
    k ∈ diskKeys (some d) := by
  obtain ⟨dropped, index, files, heq, hitems⟩ := enforceCapacity_spec
    (writePage safeName { d with queue := queue } key data).index.items.length
    (writePage safeName { d with queue := queue } key data) []
  have hwrite : PeerCacheDisk.write safeName { d with queue := queue } key data = _ := heq
  rw [hwrite] at h
  have hkey : key ∈ diskKeys (some d) := by
    refine List.mem_append_right _ ?_
    rw [hq]
    exact (.head _)
  have hindex : ∀ j, j ∈ (dropped ++ index.items).map Prod.fst → j ∈ diskKeys (some d) := by
    intro j hj
    rw [← hitems] at hj
    rcases mem_writePage_keys.mp hj with rfl | hj
    · exact hkey
    · exact List.mem_append_left _ (List.mem_append_left _ hj)
  rcases h with h | rfl | h
  · rcases List.mem_append.mp h with h | h
    · rcases List.mem_append.mp h with h | h
      · exact hindex k (List.map_append ▸ List.mem_append_right _ h)
      · exact List.mem_append_left _ (List.mem_append_right _ h)
    · refine List.mem_append_right _ ?_
      rw [hq]
      exact .tail _ h
  · exact hkey
  · rw [List.nil_append] at h
    exact hindex k (List.map_append ▸ List.mem_append_left _ h)

lemma apart_own {s : PageOwner} (h : Apart owners nodes w) (hdir : s.dir = w.cluster.dir)
    (hheld : ∀ k ∈ held s.pool s.disk, Has w me k) (hcalls : ∀ q ∈ calls, q ∈ w.calls
      ∨ (q.1 = me ∧ me ∈ nodes ∧ q.2.Names me ∧ ∀ k ∈ q.2.keys, Has w me k)) :
    Apart owners nodes ⟨w.cluster.setNode me s, calls⟩ := by
  have hhas : ∀ n k, Has ⟨w.cluster.setNode me s, calls⟩ n k → Has w n k := by
    rintro n k (hk | ⟨q, hq, hqn, hk⟩)
    · by_cases hn : n = me
      · subst hn
        rw [setNode_hosts_self] at hk
        exact hheld k hk
      · rw [setNode_hosts_ne _ hn] at hk; exact .inl hk
    · rcases hcalls q hq with hold | ⟨hqm, -, -, hkeys⟩
      · exact .inr ⟨q, hold, hqn, hk⟩
      · exact hqn.symm.trans hqm ▸ hkeys k hk
  have hmove : Moves owners me w ⟨w.cluster.setNode me s, calls⟩ := by
    refine ⟨fun n k _ => hhas n k, fun node k hne => absurd ?_ hne⟩
    show (s.dir node).get? k = _
    rw [hdir]
  refine hmove.apart h (fun k hk => .inl (hhas me k hk)) ?_
  intro q hq
  rcases hcalls q hq with hold | ⟨hqm, hme, hnames, -⟩
  · exact ⟨h.names q hold, h.callers q hold⟩
  · exact hqm.symm ▸ ⟨hnames, hme⟩

/-! ### Every action -/

/-- **ONE ACTION** that meets the condition. -/
lemma step_apart (h : Apart owners nodes w) {a : Act} (hok : Exclusive owners nodes w a)
    (hstep : step owners nodes safeName w a = some w') : Apart owners nodes w' := by
  cases a with
  | publish me update pages | ingest me pages | prepare me pages | commit me keys | ensure me keys =>
    exact apart_start h hstep (namesAll_empty me) (List.forall_mem_nil _)
  | write me addr data =>
    cases hstep
    exact apart_own h rfl (fun _ hk => .inl hk) (fun _ hq => .inl hq)
  | promote me keys =>
    refine apart_start h hstep (namesAll_empty me) ?_
    intro k hk
    have hkeys : k ∈ (keys ++ []) ++ [] := hk
    rw [List.append_nil, List.append_nil] at hkeys
    exact hok k hkeys
  | work me =>
    rw [step] at hstep
    by_cases hbusy : ∃ q ∈ w.calls, q.1 = me ∧ q.2.isWorker
    · rw [if_pos hbusy] at hstep; cases hstep
    rw [if_neg hbusy] at hstep
    cases hd : (w.cluster.hosts me).disk with
    | none => rw [hd] at hstep; cases hstep
    | some d =>
      rw [hd] at hstep
      simp only at hstep
      cases hq : d.queue with
      | nil => rw [hq] at hstep; cases hstep
      | cons q queue =>
        obtain ⟨key, data⟩ := q
        rw [hq] at hstep
        obtain ⟨hme, rfl⟩ := start_eq hstep
        have hdisk : ∀ k, k ∈ diskKeys (some d) → Has w me k := by
          intro k hk
          refine .inl (List.mem_append_right _ ?_)
          rw [hd]
          exact hk
        have hwrite : ∀ k, k ∈ diskKeys (some (PeerCacheDisk.write safeName
            { d with queue := queue } key data).1) ∨ k = key ∨ k ∈ (PeerCacheDisk.write safeName
            { d with queue := queue } key data).2 → Has w me k :=
          fun k hk => hdisk k (mem_diskKeys_write hq hk)
        refine apart_own h rfl ?_ ?_
        · intro k hk
          rcases List.mem_append.mp hk with hk | hk
          · exact .inl (List.mem_append_left _ hk)
          · exact hwrite k (.inl hk)
        · intro q hq'
          rcases List.mem_append.mp hq' with hq' | hq'
          · exact .inl hq'
          · obtain rfl := List.mem_singleton.mp hq'
            refine .inr ⟨rfl, hme, ⟨namesAll_empty me, ?_⟩, ?_⟩
            · split_ifs
              · exact namesAll_empty me
              · exact namesAll_empty me
            · intro k hk
              refine hwrite k (Or.inr ?_)
              split_ifs at hk
              · exact .inl (List.mem_singleton.mp hk)
              · exact List.mem_cons.mp hk
  | next i fails =>
    rw [step] at hstep
    cases hc : w.calls[i]? with
    | none => rw [hc] at hstep; cases hstep
    | some q =>
      obtain ⟨me, c⟩ := q
      rw [hc] at hstep
      cases hstep
      exact apart_next h hc (hok (me, c) hc)
        (advance_effect fails (h.names _ (List.mem_of_getElem? hc)))

end

lemma apart_init (owners : Owners) (nodes : List String) (cfg : String → NodeConfig) :
    Apart owners nodes (World.init cfg) := by
  have hnone : ∀ n k, ¬ Has (World.init cfg) n k := by
    rintro n k (hk | ⟨q, hq, -⟩)
    · rcases List.mem_append.mp hk with hk | hk
      · cases hk
      · have hdisk : k ∈ diskKeys ((cfg n).disk.map DiskStore.empty) := hk
        cases hd : (cfg n).disk with
        | none | some size => rw [hd] at hdisk; cases hdisk
    · cases hq
  exact ⟨fun n _ k hn => absurd hn (hnone n k), fun k _ _ _ _ n hn => absurd hn (hnone n k),
    List.forall_mem_nil _, List.forall_mem_nil _,
    fun n k hn => absurd hn (hnone n k)⟩

/-- **A NODE CHANGES ONLY ITS OWN ENTRIES.**  In every state of every run in which pages come to a pool,
    and requests to promote them to a node, only where no other node has them: a step of a call at `me`,
    such as the eviction callback of its pool or of its disk tier or the deletion after a failed
    promote, leaves every entry that names another node as it is. -/
theorem own_entries_only (owners : Owners) (nodes : List String)
    (safeName : String → String) (cfg : String → NodeConfig) (acts : List Act) (w : World)
    (hok : Guarded (step owners nodes safeName) (Exclusive owners nodes) (World.init cfg) acts)
    (hrun : run (step owners nodes safeName) (World.init cfg) acts = some w)
    (i : Nat) (me : String) (c : Call) (hcall : w.calls[i]? = some (me, c)) (fails : Bool) (w' : World)
    (hstep : step owners nodes safeName w (.next i fails) = some w') (node k : String)
    (loc : DataLocation) (hentry : (w.cluster.dir node).get? k = some loc) (hother : loc.nodeId ≠ me) :
    (w'.cluster.dir node).get? k = some loc := by
  have h : Apart owners nodes w :=
    run_invariant (fun _ _ _ _ hs hok hst => step_apart hs hok hst) (apart_init owners nodes cfg) hok hrun
  rw [step, hcall] at hstep
  obtain rfl := Option.some.inj hstep
  exact (moves_next hcall (advance_effect fails (h.names _ (List.mem_of_getElem? hcall)))).foreign h
    hentry hother

/-- Every node has a pool for one byte and no disk tier. -/
def onePagePools : String → NodeConfig := fun _ => ⟨⟨100, 1, 7, [7], fun _ => 0⟩, none⟩

/-- The nodes are `a` and `b`; the directory is at `a`. -/
abbrev twoNodes : World → Act → Option World := step (fun _ => ["a"]) ["a", "b"] id

/-- The steps of a call that publishes one page and is the oldest. -/
def publishSteps : List Act := List.replicate 6 (.next 0 false)

/-- `a` publishes `k` and `b` publishes `m`; then `a` publishes `j`, which evicts `k`. -/
def apartRun : List Act :=
  [.publish "a" true [("k", [1])]] ++ publishSteps ++ [.publish "b" true [("m", [3])]] ++ publishSteps
    ++ [.publish "a" true [("j", [2])], .next 0 false]

/-- The state after a run of the two nodes. -/
def reached (acts : List Act) : World :=
  (run twoNodes (World.init onePagePools) acts).getD (World.init onePagePools)

/-- The callback deletes the entry of `k`, and leaves that of `m`. -/
theorem own_entries_only_two_nodes :
    ((reached apartRun).calls[0]?.map (fun q => (q.1, q.2.callback.keys))) = some ("a", ["k"])
      ∧ (((reached (apartRun ++ [.next 0 false])).cluster.dir "a").get? "k") = none
      ∧ (((reached (apartRun ++ [.next 0 false])).cluster.dir "a").get? "m")
        = some ⟨"b", 100, 7, 1, true⟩ := by
  have hrun : run twoNodes (World.init onePagePools) apartRun = some (reached apartRun) := rfl
  have hstep : twoNodes (reached apartRun) (.next 0 false)
      = some (reached (apartRun ++ [.next 0 false])) := rfl
  have hcall : (reached apartRun).calls[0]?
      = some ("a", ⟨.evicting ["k"], .writingThrough ⟨true, [], OrderedDict.empty⟩ "j" [2] 100⟩) := rfl
  refine ⟨by decide +kernel, by decide +kernel, ?_⟩
  exact own_entries_only (fun _ => ["a"]) ["a", "b"] id onePagePools apartRun (reached apartRun)
    (by decide +kernel) hrun 0 "a" _ hcall false _ hstep "a" "m" ⟨"b", 100, 7, 1, true⟩
    (by decide +kernel) (by decide)

/-- Both nodes find that `k` is not in the directory, and publish it; then `a` publishes `j`. -/
def raceRun : List Act :=
  [.publish "a" true [("k", [1])], .publish "b" true [("k", [1])]] ++ publishSteps ++ publishSteps
    ++ [.publish "a" true [("j", [2])], .next 0 false]

/-- **THE ENTRY OF ANOTHER NODE DELETED**: `k` is evicted from the pool of `a` while the entry names `b`,
    which has the page, and the callback at `a` deletes it. -/
theorem foreign_entry_deleted :
    run twoNodes (World.init onePagePools) raceRun = some (reached raceRun)
      ∧ ((reached raceRun).calls[0]?.map (fun q => (q.1, q.2.callback.keys))) = some ("a", ["k"])
      ∧ ((reached raceRun).cluster.dir "a").get? "k" = some ⟨"b", 100, 7, 1, true⟩
      ∧ "k" ∈ ((reached raceRun).cluster.hosts "b").pool.entries.keys
      ∧ (twoNodes (reached raceRun) (.next 0 false)).map (fun w => (w.cluster.dir "a").get? "k")
        = some none := by
  refine ⟨rfl, ?_, ?_, ?_, ?_⟩
  · decide +kernel
  · decide +kernel
  · decide +kernel
  · decide +kernel

end PeerCacheCalls
