import PeerCache.ClearProofs
import PeerCache.OwnerStepsProofs
import PeerCache.HandledPagesProofs

/-! # The length map and the pages a node still has

    `_key_len` gets a key when its page is published or promoted.  Only the callback of the disk tier
    takes a key out again; the callback of the pool does not.  So a page that leaves the pool stays in
    the map when there is no disk tier, or when the tier has refused it because it is longer than the
    whole tier.  Which pages leave is decided by the pool before each page that is placed
    (`victims`). -/

namespace PeerCacheOwner

open PeerCachePool PeerCacheDirectory PeerCacheDisk PeerCacheStorage PeerCacheP2pDisk Transition List

/-- What happens at a node. -/
inductive LengthCall where
  | set (keys : List String) (pages : List Bytes)
  | get (keys : List String) (sizes : List Nat)
  | promote (keys : List String)
  | clear (turns : List Nat)
  /-- other nodes change the directory -/
  | others (dir : Shards)

section

variable (me : String) (owners : Owners) (c : KeySpace) (safeName : String → String)

/-- One call, up to its return. -/
def perform (s : PageOwner) : LengthCall → PageOwner
  | .set keys pages => (batchSetV1 me owners c s keys pages).2
  | .get keys sizes => (batchGetV1 me owners c s keys sizes).2
  | .promote keys => (dataPromote me owners s keys).owner
  | .clear turns => clear owners safeName turns s
  | .others dir => s.setDir dir

/-- The node after these calls, the disk queue drained after each. -/
def drained (s : PageOwner) (calls : List LengthCall) : PageOwner :=
  calls.foldl (fun s a => drainDisk owners safeName (perform me owners c safeName s a)) s

/-- A node that starts: nothing is queued and no length is known.  The disk tier may have pages. -/
def starting (pool : PublishedPool String) (disk : Option DiskStore) (dir : Shards) : PageOwner :=
  ⟨pool, disk.map (fun d => { d with inflight := [], queue := [] }), OrderedDict.empty, dir⟩

end

/-- Every key of the map is in the pool or in the disk index. -/
def LengthsKept (s : PageOwner) : Prop :=
  ∀ k ∈ s.keyLen.keys, k ∈ s.pool.entries.keys ∨ k ∈ indexed s.disk

instance (s : PageOwner) : Decidable (LengthsKept s) := inferInstanceAs (Decidable (∀ k ∈ _, _))

instance (disk : Option DiskStore) (k : String) : Decidable (OnDisk disk k) :=
  match disk with
  | none => isFalse (by rintro ⟨d, ⟨⟩, -⟩)
  | some d => decidable_of_iff (k ∈ d.index.keys ∨ k ∈ d.queue.map Prod.fst)
      ⟨fun hk => ⟨d, rfl, hk⟩, fun ⟨_, hd, hk⟩ => Option.some.inj hd ▸ hk⟩

/-- Every key of the map is in the pool, or on disk, or queued for it. -/
def Covered (s : PageOwner) : Prop :=
  ∀ k ∈ s.keyLen.keys, k ∈ s.pool.entries.keys ∨ OnDisk s.disk k

/-! ## Draining the queue -/

section Drain

variable {owners : Owners} {safeName : String → String} {s : PageOwner} {d : DiskStore}
  {k : String}

lemma onDisk_some : OnDisk (some d) k ↔ k ∈ d.index.keys ∨ k ∈ d.queue.map Prod.fst :=
  ⟨fun ⟨_, hd, hk⟩ => Option.some.inj hd ▸ hk, fun hk => ⟨d, rfl, hk⟩⟩

lemma onDisk_work_iff : OnDisk (some d) k
    ↔ OnDisk (some (work safeName d).1) k ∨ k ∈ (work safeName d).2 := by
  refine ⟨onDisk_work safeName, ?_⟩
  rcases work_cases safeName d with ⟨-, heq⟩ | ⟨key, data, queue, dropped, index, files, hq, heq, hitems⟩
  · rw [heq]; exact fun h => h.resolve_right not_mem_nil
  · have hindex : k ∈ dropped.map Prod.fst ∨ k ∈ index.keys → OnDisk (some d) k := by
      intro h
      have hin : k ∈ (writePage safeName d key data).index.keys := by
        rw [OrderedDict.keys, hitems, map_append]
        exact mem_append.mpr h
      rw [onDisk_some, hq]
      rcases mem_writePage_keys.mp hin with rfl | hold
      · exact .inr (.head _)
      · exact .inl hold
    rw [heq, onDisk_some]
    rintro ((hkept | hqueued) | hdropped)
    · exact hindex (.inr hkept)
    · rw [onDisk_some, hq]; exact .inr (.tail _ hqueued)
    · exact hindex (.inl hdropped)

/-- **A TURN OF THE WORKER** uncovers nothing and covers nothing. -/
lemma covered_diskWork : Covered (diskWork owners safeName s) ↔ Covered s := by
  cases hd : s.disk with
  | none => rw [diskWork, hd]
  | some d =>
    have hwork : diskWork owners safeName s
        = onDiskEvict owners (s.setDisk (some (work safeName d).1)) (work safeName d).2 := by
      rw [diskWork, hd]
    rw [hwork, Covered, Covered, hd]
    refine forall_congr' (fun k => ?_)
    show (k ∈ ((work safeName d).2.foldl OrderedDict.erase s.keyLen).keys →
      _ ∨ OnDisk (some (work safeName d).1) k) ↔ _
    rw [mem_foldl_erase, @onDisk_work_iff safeName d]
    tauto

lemma covered_drainDisk : Covered (drainDisk owners safeName s) ↔ Covered s := by
  rw [drainDisk_eq, workTurns]
  generalize (s.disk.map (fun d => d.queue.length)).getD 0 = turns
  induction turns generalizing s with
  | zero => rfl
  | succ turns ih => exact ih.trans covered_diskWork

lemma length_queue_work : (work safeName d).1.queue.length = d.queue.length - 1 := by
  rcases work_cases safeName d with ⟨hq, heq⟩ | ⟨key, data, queue, dropped, index, files, hq, heq, -⟩
  · rw [heq, hq]; rfl
  · rw [heq, hq]; rfl

lemma drainDisk_idle : ∀ d ∈ (drainDisk owners safeName s).disk, d.queue = [] := by
  have hturns : ∀ turns (s : PageOwner), (∀ d ∈ s.disk, d.queue.length ≤ turns) →
      ∀ d ∈ (workTurns owners safeName turns s).disk, d.queue = [] := by
    intro turns
    induction turns with
    | zero => exact fun s h d hd => length_eq_zero_iff.mp (Nat.le_zero.mp (h d hd))
    | succ turns ih =>
      intro s h
      refine ih (diskWork owners safeName s) ?_
      cases hdisk : s.disk with
      | none =>
        rw [diskWork, hdisk]
        intro d hd
        cases hdisk.symm.trans hd
      | some d =>
        rw [diskWork, hdisk]
        rintro e ⟨⟩
        have hle := h d hdisk
        rw [length_queue_work]
        omega
  rw [drainDisk_eq]
  refine hturns _ s ?_
  intro d hd
  rw [hd]
  exact Nat.le_refl _

/-- **WHAT A CALL LEAVES IS DECIDED WHEN IT RETURNS.** -/
lemma lengthsKept_drainDisk : LengthsKept (drainDisk owners safeName s) ↔ Covered s := by
  rw [← @covered_drainDisk owners safeName s]
  refine forall₂_congr (fun k _ => or_congr_right ?_)
  rw [mem_indexed]
  constructor
  · rintro ⟨d, hd, hk⟩; exact ⟨d, hd, .inl hk⟩
  · rintro ⟨d, hd, hk | hk⟩
    · exact ⟨d, hd, hk⟩
    · rw [drainDisk_idle d hd] at hk; cases hk

end Drain

/-! ## The pages a call places -/

/-- A page that a call stores, or brings back from disk. -/
inductive Turn where
  /-- a new page of `_publish_p2p` -/
  | store (key : String) (data : Bytes)
  /-- a key of `data_promote` -/
  | ensure (key : String)
  /-- a key of `_fetch` whose page the node has on disk only -/
  | fetch (key : String)

section

variable (me : String) (owners : Owners) (c : KeySpace)

/-- One page of a call. -/
def turn (s : PageOwner) : Turn → PageOwner
  | .store key data =>
      let st := publishPage me owners s key data
      if st.addr.isSome then noteStored st.owner key data else st.owner
  | .ensure key => (ensureOne me owners s key).owner
  | .fetch key => (ensureResident me owners s [key]).owner

/-- Room for the page is made without losing one: it is in the pool, or every page that goes and
    whose length is known is on disk or queued for it. -/
def Spills (s : PageOwner) (key : String) (length : Nat) : Prop :=
  key ∈ s.pool.entries.keys
    ∨ ∀ v ∈ victims s.pool length, v ∈ s.keyLen.keys → OnDisk s.disk v

instance (s : PageOwner) (key : String) (length : Nat) : Decidable (Spills s key length) :=
  inferInstanceAs (Decidable (_ ∨ ∀ v ∈ victims s.pool length, v ∈ s.keyLen.keys → _))

/-- The page of the turn, if there is one, is placed without losing one. -/
def Turn.Spills (s : PageOwner) : Turn → Prop
  | .store key data => PeerCacheOwner.Spills s key data.length
  | .ensure key | .fetch key => ∀ data ∈ (s.diskGet key).1, PeerCacheOwner.Spills s key data.length

instance (s : PageOwner) (a : Turn) : Decidable (a.Spills s) :=
  match a with
  | .store key data => inferInstanceAs (Decidable (PeerCacheOwner.Spills s key data.length))
  | .ensure key | .fetch key => inferInstanceAs (Decidable (∀ data ∈ (s.diskGet key).1, _))

/-- A new page is stored. -/
def storeTurn (q : (String × Bytes) × Admission) : Option Turn :=
  match q.2 with
  | .fresh => some (.store q.1.1 q.1.2)
  | _ => none

/-- The pages of a batch, with what the directory says of them. -/
def admitted (s : PageOwner) (pages : List (String × Bytes)) :
    List ((String × Bytes) × Admission) :=
  pages.zip ((existsKeys owners s.dir (pages.map Prod.fst)).map
    fun b => if b then Admission.existing else Admission.fresh)

/-- The turns of a call, by the directory it finds. -/
def LengthCall.turns (s : PageOwner) : LengthCall → List Turn
  | .set keys pages =>
      if (componentKeys c keys).1.length = pages.length then
        (admitted owners s ((componentKeys c keys).1.zip pages)).filterMap storeTurn
      else []
  | .get keys sizes =>
      if (componentKeys c keys).1.length = sizes.length then
        let asked := ((componentKeys c keys).1.zip sizes).map Prod.fst
        (promotions me (asked.zip (PeerCacheDirectory.get owners s.dir asked))).map .fetch
      else []
  | .promote keys => keys.map .ensure
  | .clear _ | .others _ => []

/-- Every page that the call places is placed without losing one, in the state before it. -/
def LengthCall.Spills (s : PageOwner) (a : LengthCall) : Prop :=
  Guarded (fun s t => some (turn me owners s t)) Turn.Spills s (a.turns me owners c s)

instance (s : PageOwner) (a : LengthCall) : Decidable (a.Spills me owners c s) :=
  inferInstanceAs (Decidable (Guarded _ _ s (a.turns me owners c s)))

/-- The keys of the pages that the turns store. -/
def stored (ts : List Turn) : List String :=
  ts.filterMap fun t => match t with
    | .store key _ => some key
    | _ => none

/-- The call stores each page once, and none that is in the pool already. -/
def LengthCall.StoresNew (s : PageOwner) (a : LengthCall) : Prop :=
  (stored (a.turns me owners c s)).Nodup
    ∧ ∀ k ∈ stored (a.turns me owners c s), k ∉ s.pool.entries.keys

end

section Turns

variable {me : String} {owners : Owners} {c : KeySpace} {safeName : String → String}
  {s t : PageOwner} {k v : String}

/-- **THE CALLS ARE THEIR TURNS**, as far as the pool, the disk tier and the map go. -/
lemma publishLoop_turns (ps : List ((String × Bytes) × Admission)) (s : PageOwner)
    (entries : Locations) :
    (publishLoop me owners ps s entries).owner = (ps.filterMap storeTurn).foldl (turn me owners) s := by
  fun_induction publishLoop me owners ps s entries with
  | case1 => rfl
  | case2 _ _ _ _ _ ih | case3 _ _ _ _ _ ih => exact ih
  | case4 key data _ s _ st hnone _ ih =>
    have hturn : turn me owners s (.store key data) = st.owner :=
      if_neg (by rw [hnone]; exact Bool.false_ne_true)
    exact ih.trans (congrArg (fun u => foldl (turn me owners) u _) hturn.symm)
  | case5 key data _ s _ st addr haddr _ _ ih =>
    have hturn : turn me owners s (.store key data) = noteStored st.owner key data :=
      if_pos (by rw [haddr]; rfl)
    exact ih.trans (congrArg (fun u => foldl (turn me owners) u _) hturn.symm)

lemma ensureLoop_turns (keys : List String) (s : PageOwner)
    (promoted : Locations) :
    (ensureLoop me owners keys s promoted).owner = (keys.map Turn.ensure).foldl (turn me owners) s := by
  induction keys generalizing s promoted with
  | nil => rfl
  | cons k keys ih => exact ih _ _

lemma resolve_turns (work : List (String × Option DataLocation)) (s : PageOwner) :
    (resolveNonResident me owners work s).owner
      = ((promotions me work).map Turn.fetch).foldl (turn me owners) s := by
  rw [foldl_map]
  exact resolve_owner work s

lemma covered_congr (hpool : ∀ k, k ∈ t.pool.entries.keys ↔ k ∈ s.pool.entries.keys)
    (hdisk : ∀ k, OnDisk t.disk k ↔ OnDisk s.disk k) (hlen : t.keyLen = s.keyLen) :
    Covered t ↔ Covered s := by
  rw [Covered, Covered, hlen]
  exact forall₂_congr fun k _ => or_congr (hpool k) (hdisk k)

lemma covered_touch (s : PageOwner) (k : String) :
    Covered (s.setPool (addressOf s.pool k).2) ↔ Covered s := by
  refine covered_congr ?_ (fun _ => Iff.rfl) rfl
  intro j
  rw [OrderedDict.mem_keys, OrderedDict.mem_keys]
  show (∃ x, (addressOf s.pool k).2.entries.get? j = some x) ↔ _
  rw [addressOf_get?]

lemma covered_reconcile (keys : List String) (s : PageOwner)
    (entries : Locations) :
    Covered (reconcile me keys s entries).2 ↔ Covered s := by
  induction keys generalizing s entries with
  | nil => rfl
  | cons k keys ih => exact (ih _ _).trans (covered_touch s k)

lemma covered_perform (s : PageOwner) (a : LengthCall) (ha : ∀ turns, a ≠ .clear turns) :
    Covered (perform me owners c safeName s a)
      ↔ Covered ((a.turns me owners c s).foldl (turn me owners) s) := by
  cases a with
  | set keys pages =>
    rw [perform, batchSetV1, LengthCall.turns]
    dsimp only
    split_ifs with hlen
    · rw [← publishLoop_turns _ s OrderedDict.empty]
      exact covered_reconcile _ _ _
    · rfl
  | get keys sizes =>
    rw [perform, batchGetV1, LengthCall.turns]
    dsimp only
    split_ifs with hlen
    · rw [← resolve_turns]
      rfl
    · rfl
  | promote keys =>
    rw [LengthCall.turns, ← ensureLoop_turns keys s OrderedDict.empty]
    exact Iff.rfl
  | clear turns => exact absurd rfl (ha turns)
  | others dir => exact Iff.rfl

/-! ## One page -/

/-- What placing a page leaves: the pool after it, the disk tier with at most this page more, and the
    map with this page if it was placed. -/
structure PlacedPage (s t : PageOwner) (k : String) (data : Bytes) : Prop where
  pool : t.pool = (publish s.pool k data).pool
  disk : ∀ j, OnDisk s.disk j → OnDisk t.disk j
  disk_from : ∀ j, j ≠ k → OnDisk t.disk j → OnDisk s.disk j
  lens : t.keyLen = s.keyLen
    ∨ (t.keyLen = s.keyLen.set k data.length ∧ k ∈ t.pool.entries.keys)

lemma onDisk_put_from {d : DiskStore} {j : String} {data : Bytes} (hj : j ≠ k)
    (h : OnDisk (some (PeerCacheDisk.put d k data)) j) : OnDisk (some d) j := by
  rcases put_queue_cases d k data with ⟨heq, -⟩ | ⟨heq, -⟩
  · rwa [heq] at h
  · rw [heq, onDisk_some, map_append, mem_append] at h
    rw [onDisk_some]
    exact h.imp_right fun hq => hq.resolve_right fun hk => hj (mem_singleton.mp hk)

lemma placed_mem {p : PublishedPool String} {data : Bytes} {addr : Nat}
    (h : (publish p k data).addr = some addr) : k ∈ (publish p k data).pool.entries.keys := by
  obtain ⟨x, hx, -⟩ := place_addr h
  exact OrderedDict.mem_keys.mpr ⟨x, hx⟩

lemma placedPage_store (s : PageOwner) (k : String) (data : Bytes) :
    PlacedPage s (turn me owners s (.store k data)) k data := by
  rw [turn]
  split_ifs with hsome
  · obtain ⟨addr, haddr⟩ := Option.isSome_iff_exists.mp hsome
    have hdisk : (noteStored (publishPage me owners s k data).owner k data).disk
        = s.disk.map fun d => PeerCacheDisk.put d k data := by
      show (publishPage me owners s k data).owner.disk.map _ = _
      rw [publishPage_disk]
    have hpool : (noteStored (publishPage me owners s k data).owner k data).pool
        = (publish s.pool k data).pool := publishPage_pool s k data
    refine ⟨hpool, ?_, ?_, .inr ⟨?_, ?_⟩⟩
    · intro j hj
      refine onDisk_diskPut ?_
      rw [publishPage_disk]
      exact hj
    · intro j hjk hj
      rw [hdisk] at hj
      cases hd : s.disk with
      | none =>
        rw [hd] at hj
        obtain ⟨d, ⟨⟩, -⟩ := hj
      | some d =>
        rw [hd] at hj
        exact onDisk_put_from hjk hj
    · show (publishPage me owners s k data).owner.keyLen.set k data.length = _
      rw [publishPage_keyLen]
    · rw [hpool]
      exact placed_mem haddr
  · refine ⟨publishPage_pool s k data, ?_, ?_, .inl (publishPage_keyLen s k data)⟩
    · intro j hj
      rw [publishPage_disk]
      exact hj
    · intro j _ hj
      rwa [publishPage_disk] at hj

lemma onDisk_diskGet_iff (s : PageOwner) (j k : String) :
    OnDisk (s.diskGet j).2.disk k ↔ OnDisk s.disk k := by
  rw [diskGet_disk]
  cases s.disk with
  | none => rfl
  | some d => exact onDisk_get d j k

variable (me owners) in
/-- **WHAT A TURN DOES**: it places a page, a new one or one that is on disk; or it changes nothing
    that counts here. -/
lemma turn_cases (s : PageOwner) (a : Turn) :
    (∃ k data, PlacedPage s (turn me owners s a) k data
        ∧ (a.Spills s ↔ PeerCacheOwner.Spills s k data.length)
        ∧ (a = .store k data ∨ OnDisk s.disk k))
      ∨ (a.Spills s ∧ (∀ j, j ∈ (turn me owners s a).pool.entries.keys ↔ j ∈ s.pool.entries.keys)
        ∧ (∀ j, OnDisk (turn me owners s a).disk j ↔ OnDisk s.disk j)
        ∧ (turn me owners s a).keyLen = s.keyLen) := by
  -- one key of `_ensure_resident`, with or without the put at its end
  have hensure : ∀ (k : String) (t : PageOwner), t.pool = (ensureOne me owners s k).owner.pool →
      t.disk = (ensureOne me owners s k).owner.disk →
      t.keyLen = (ensureOne me owners s k).owner.keyLen →
      (∃ data, PlacedPage s t k data ∧ ((∀ data ∈ (s.diskGet k).1,
            PeerCacheOwner.Spills s k data.length) ↔ PeerCacheOwner.Spills s k data.length)
          ∧ OnDisk s.disk k)
        ∨ ((∀ data ∈ (s.diskGet k).1, PeerCacheOwner.Spills s k data.length)
          ∧ (∀ j, j ∈ t.pool.entries.keys ↔ j ∈ s.pool.entries.keys)
          ∧ (∀ j, OnDisk t.disk j ↔ OnDisk s.disk j) ∧ t.keyLen = s.keyLen) := by
    intro k t hpool hdisk hlen
    rcases ensureOne_split me owners s k with
      ⟨x, hx, heq⟩ | ⟨hout, ⟨hnone, heq⟩ | ⟨data, r, hdata, rfl, hplaced⟩⟩
    · rw [heq] at hpool hdisk hlen
      have hin : k ∈ s.pool.entries.keys := OrderedDict.mem_keys.mpr ⟨x, hx⟩
      refine .inr ⟨fun _ _ => .inl hin, ?_, fun j => by rw [hdisk]; rfl, hlen⟩
      intro j
      rw [hpool, OrderedDict.mem_keys, OrderedDict.mem_keys]
      show (∃ x, (addressOf s.pool k).2.entries.get? j = some x) ↔ _
      rw [addressOf_get?]
    · rw [heq] at hpool hdisk hlen
      refine .inr ⟨fun _ hd => ?_, ?_, ?_, ?_⟩
      · rw [hnone] at hd
        cases hd
      · intro j
        rw [hpool, diskGet_pool]
      · intro j
        rw [hdisk]
        exact onDisk_diskGet_iff s k j
      · rw [hlen, diskGet_keyLen]
    · have hon : OnDisk s.disk k := by
        rw [diskGet_fst] at hdata
        obtain ⟨d, hd, hget⟩ := Option.bind_eq_some_iff.mp hdata
        exact ⟨d, hd, .inl (get_some hget)⟩
      have hmem : ∀ j, OnDisk (publishPage me owners (s.diskGet k).2 k data).owner.disk j
          ↔ OnDisk s.disk j := by
        intro j
        rw [publishPage_disk]
        exact onDisk_diskGet_iff s k j
      have hpub : (publishPage me owners (s.diskGet k).2 k data).owner.pool
          = (publish s.pool k data).pool := by rw [publishPage_pool, diskGet_pool]
      have hlens : (publishPage me owners (s.diskGet k).2 k data).owner.keyLen = s.keyLen := by
        rw [publishPage_keyLen, diskGet_keyLen]
      refine .inl ⟨data, ?_, ?_, hon⟩
      · have hplace : t.pool = (publish s.pool k data).pool ∧ (∀ j, OnDisk t.disk j ↔ OnDisk s.disk j)
            ∧ (t.keyLen = s.keyLen
              ∨ (t.keyLen = s.keyLen.set k data.length ∧ k ∈ t.pool.entries.keys)) := by
          rcases hplaced with ⟨-, heq⟩ | ⟨addr, haddr, heq⟩
          · rw [heq] at hpool hdisk hlen
            exact ⟨hpool.trans hpub, fun j => by rw [hdisk]; exact hmem j, .inl (hlen.trans hlens)⟩
          · rw [heq] at hpool hdisk hlen
            refine ⟨hpool.trans hpub, fun j => by rw [hdisk]; exact hmem j, .inr ⟨?_, ?_⟩⟩
            · rw [hlen]
              exact congrArg (OrderedDict.set · k data.length) hlens
            · rw [hpool]
              show k ∈ (publishPage me owners (s.diskGet k).2 k data).owner.pool.entries.keys
              rw [hpub, ← diskGet_pool s k]
              exact placed_mem haddr
        exact ⟨hplace.1, fun j => (hplace.2.1 j).mpr, fun j _ => (hplace.2.1 j).mp, hplace.2.2⟩
      · rw [hdata]
        exact ⟨fun h => h data rfl, by rintro h _ ⟨⟩; exact h⟩
  cases a with
  | store k data => exact .inl ⟨k, data, placedPage_store s k data, Iff.rfl, .inl rfl⟩
  | ensure k =>
    rcases hensure k (turn me owners s (.ensure k)) rfl rfl rfl with
      ⟨data, hplaced, hspills, hon⟩ | hsame
    · exact .inl ⟨k, data, hplaced, hspills, .inr hon⟩
    · exact .inr hsame
  | fetch k =>
    rcases hensure k (turn me owners s (.fetch k)) rfl rfl rfl with
      ⟨data, hplaced, hspills, hon⟩ | hsame
    · exact .inl ⟨k, data, hplaced, hspills, .inr hon⟩
    · exact .inr hsame

/-- The page is known by its length, and is nowhere. -/
structure Lost (v : String) (s : PageOwner) : Prop where
  known : v ∈ s.keyLen.keys
  pool : v ∉ s.pool.entries.keys
  disk : ¬ OnDisk s.disk v

lemma Lost.not_covered (h : Lost v s) : ¬ Covered s :=
  fun hc => (hc v h.known).elim h.pool h.disk

lemma PlacedPage.known {data : Bytes} (h : PlacedPage s t k data) {j : String}
    (hj : j ∈ s.keyLen.keys) : j ∈ t.keyLen.keys := by
  rcases h.lens with heq | ⟨heq, -⟩
  · rw [heq]; exact hj
  · rw [heq]; exact OrderedDict.mem_keys_set.mpr (.inr hj)

lemma PlacedPage.mem_pool {data : Bytes} (h : PlacedPage s t k data) {j : String}
    (hj : j ∈ t.pool.entries.keys) : j ∈ s.pool.entries.keys ∨ j = k := by
  rw [h.pool] at hj
  obtain ⟨x, hx⟩ := OrderedDict.mem_keys.mp hj
  rcases place_get?_from hx with hold | ⟨rfl, -⟩
  · exact .inl (OrderedDict.mem_keys.mpr ⟨x, hold⟩)
  · exact .inr rfl

lemma PlacedPage.covered {data : Bytes} (h : PlacedPage s t k data) (hs : Covered s)
    (hspills : PeerCacheOwner.Spills s k data.length) : Covered t := by
  intro j hj
  have hfrom : j ∈ s.keyLen.keys ∨ j ∈ t.pool.entries.keys := by
    rcases h.lens with heq | ⟨heq, hin⟩
    · exact .inl (heq ▸ hj)
    · rw [heq] at hj
      rcases OrderedDict.mem_keys_set.mp hj with rfl | hold
      · exact .inr hin
      · exact .inl hold
  rcases hfrom with hold | hin
  · rcases hs j hold with hin | hon
    · by_cases hstay : j ∈ (publish s.pool k data).pool.entries.keys
      · exact .inl (by rw [h.pool]; exact hstay)
      · -- it has gone, so it is one of the victims
        have hev := ((place_evicted s.pool k data.length _).2 j).mpr ⟨hin, hstay⟩
        obtain ⟨hout, hvictim⟩ := mem_place_evicted.mp hev
        exact .inr (h.disk j (hspills.resolve_left hout j hvictim hold))
    · exact .inr (h.disk j hon)
  · exact .inl hin

/-- **A PAGE THAT IS LOST** was in the pool before. -/
lemma PlacedPage.lost {data : Bytes} (h : PlacedPage s t k data)
    (hspills : ¬ PeerCacheOwner.Spills s k data.length) :
    ∃ v ∈ s.pool.entries.keys, Lost v t := by
  rw [PeerCacheOwner.Spills, not_or] at hspills
  obtain ⟨hout, hsome⟩ := hspills
  push Not at hsome
  obtain ⟨v, hv, hknown, hoff⟩ := hsome
  have hev : v ∈ (publish s.pool k data).evicted := mem_place_evicted.mpr ⟨hout, hv⟩
  obtain ⟨hin, hgone⟩ := ((place_evicted s.pool k data.length _).2 v).mp hev
  have hne : v ≠ k := fun heq => hout (heq ▸ hin)
  refine ⟨v, hin, h.known hknown, ?_, fun hon => hoff (h.disk_from v hne hon)⟩
  rw [h.pool]
  exact hgone

lemma covered_turn (hs : Covered s) {a : Turn} (h : a.Spills s) :
    Covered (turn me owners s a) := by
  rcases turn_cases me owners s a with
    ⟨k, data, hplaced, hspills, -⟩ | ⟨-, hpool, hdisk, hlen⟩
  · exact hplaced.covered hs (hspills.mp h)
  · exact (covered_congr hpool hdisk hlen).mpr hs

lemma Lost.keep (h : Lost v s) {a : Turn} (ha : ∀ data, a ≠ .store v data) :
    Lost v (turn me owners s a) := by
  rcases turn_cases me owners s a with
    ⟨k, data, hplaced, -, hkey⟩ | ⟨-, hpool, hdisk, hlen⟩
  · have hne : v ≠ k := by
      rintro rfl
      exact hkey.elim (ha data) h.disk
    exact ⟨hplaced.known h.known, fun hin => (hplaced.mem_pool hin).elim h.pool hne,
      fun hon => h.disk (hplaced.disk_from v hne hon)⟩
  · refine ⟨?_, ?_, ?_⟩
    · rw [hlen]; exact h.known
    · rw [hpool]; exact h.pool
    · rw [hdisk]; exact h.disk

/-! ## One call -/

lemma stored_cons (a : Turn) (ts : List Turn) :
    stored (a :: ts) = (match a with | .store key _ => [key] | _ => []) ++ stored ts := by
  cases a with
  | store key data => exact filterMap_cons_some rfl
  | ensure key | fetch key => exact filterMap_cons_none rfl

lemma Lost.keepAll (ts : List Turn) (h : Lost v s) (hv : v ∉ stored ts) :
    Lost v (ts.foldl (turn me owners) s) := by
  induction ts generalizing s with
  | nil => exact h
  | cons a ts ih =>
    rw [stored_cons, mem_append, not_or] at hv
    refine ih (h.keep ?_) hv.2
    rintro data rfl
    exact hv.1 (mem_singleton_self v)

/-- **A CALL LOSES NO PAGE EXACTLY WHEN NONE OF ITS TURNS DOES**, if what it stores is new. -/
lemma covered_turns_iff (ts : List Turn) (hs : Covered s)
    (hkind : (∀ a ∈ ts, ∃ key data, a = .store key data) ∨ stored ts = [])
    (hnodup : (stored ts).Nodup) (hnew : ∀ k ∈ stored ts, k ∉ s.pool.entries.keys) :
    Covered (ts.foldl (turn me owners) s)
      ↔ Guarded (fun s t => some (turn me owners s t)) Turn.Spills s ts := by
  induction ts generalizing s with
  | nil => exact iff_of_true hs trivial
  | cons a ts ih =>
    by_cases hspills : a.Spills s
    · have hnext : Covered (turn me owners s a) := covered_turn hs hspills
      have hrest := ih hnext ?_ ?_ ?_
      · exact hrest.trans ⟨fun h => ⟨hspills, by rintro _ ⟨⟩; exact h⟩, fun h => h.2 _ rfl⟩
      · refine hkind.imp (fun h b hb => h b (mem_cons_of_mem a hb)) (fun h => ?_)
        rw [stored_cons] at h
        exact (append_eq_nil_iff.mp h).2
      · rw [stored_cons] at hnodup
        exact (nodup_append.mp hnodup).2.1
      · intro k hk hin
        rcases hkind with hkind | hnil
        · obtain ⟨key, data, rfl⟩ := hkind a (.head _)
          rw [stored_cons] at hnodup hnew
          rcases (placedPage_store s key data).mem_pool hin with hold | rfl
          · exact hnew k (mem_append_right _ hk) hold
          · exact (nodup_cons.mp hnodup).1 hk
        · rw [(append_eq_nil_iff.mp ((stored_cons a ts).symm.trans hnil)).2] at hk
          cases hk
    · refine iff_of_false ?_ (fun h => hspills h.1)
      rcases turn_cases me owners s a with
        ⟨k, data, hplaced, hiff, -⟩ | ⟨h, -⟩
      · obtain ⟨v, hv, hlost⟩ := hplaced.lost (fun h => hspills (hiff.mpr h))
        refine (hlost.keepAll ts ?_).not_covered
        intro hin
        refine hnew v ?_ hv
        rw [stored_cons]
        exact mem_append_right _ hin
      · exact absurd h hspills

end Turns

/-! ## Every call -/

section

variable {me : String} {owners : Owners} {c : KeySpace} {safeName : String → String}
  {s : PageOwner}

lemma turns_kind (s : PageOwner) (a : LengthCall) :
    (∀ t ∈ a.turns me owners c s, ∃ key data, t = .store key data)
      ∨ stored (a.turns me owners c s) = [] := by
  cases a with
  | set keys pages =>
    rw [LengthCall.turns]
    split_ifs with hlen
    · refine .inl fun t ht => ?_
      obtain ⟨⟨⟨key, data⟩, adm⟩, -, hq⟩ := mem_filterMap.mp ht
      cases adm with
      | fresh => exact ⟨key, data, (Option.some.inj hq).symm⟩
      | existing | refused => cases hq
    · exact .inr rfl
  | get keys sizes =>
    rw [LengthCall.turns]
    split_ifs with hlen
    · refine .inr (filterMap_eq_nil_iff.mpr fun t ht => ?_)
      obtain ⟨key, -, rfl⟩ := mem_map.mp ht
      rfl
    · exact .inr rfl
  | promote keys =>
    refine .inr (filterMap_eq_nil_iff.mpr fun t ht => ?_)
    obtain ⟨key, -, rfl⟩ := mem_map.mp ht
    rfl
  | clear turns | others dir => exact .inr rfl

lemma LengthsKept.covered (h : LengthsKept s) : Covered s := by
  intro k hk
  refine (h k hk).imp_right fun hin => ?_
  obtain ⟨d, hd, hin⟩ := mem_indexed.mp hin
  exact ⟨d, hd, .inl hin⟩

lemma covered_call (hs : Covered s) {a : LengthCall} (h : a.Spills me owners c s) :
    Covered (perform me owners c safeName s a) := by
  by_cases hclear : ∃ turns, a = .clear turns
  · obtain ⟨turns, rfl⟩ := hclear
    -- the map is empty when `clear` returns
    rintro k ⟨⟩
  · rw [covered_perform s a fun turns ha => hclear ⟨turns, ha⟩]
    exact foldl_invariant (P := Covered) (fun s t _ hs ht => covered_turn hs ht) hs h

/-- **ONE CALL** that stores new pages. -/
lemma covered_call_iff (hs : Covered s) {a : LengthCall} (hnew : a.StoresNew me owners c s) :
    Covered (perform me owners c safeName s a) ↔ a.Spills me owners c s := by
  by_cases hclear : ∃ turns, a = .clear turns
  · obtain ⟨turns, rfl⟩ := hclear
    exact iff_of_true (by rintro k ⟨⟩) trivial
  · rw [covered_perform s a fun turns ha => hclear ⟨turns, ha⟩]
    exact covered_turns_iff _ hs (turns_kind s a) hnew.1 hnew.2

end

/-- **THE LENGTH MAP HAS ONLY PAGES OF THE NODE WHEN NO PAGE IS EVICTED THAT THE DISK TIER DOES NOT
    HAVE.**  For every disk configuration, ring, pool and directory: after a sequence of calls in
    which every page is placed without losing one, in the state before it, every key of the map is in
    the pool or in the disk index.  And for a call that stores each of its pages once, none of them in
    the pool already, this condition is exact. -/
theorem lengths_kept_iff_spills (me : String) (owners : Owners) (c : KeySpace)
    (safeName : String → String) (pool : PublishedPool String) (disk : Option DiskStore)
    (dir : Shards) :
    (∀ calls, Guarded (fun s a => some (drainDisk owners safeName (perform me owners c safeName s a)))
          (fun s a => a.Spills me owners c s) (starting pool disk dir) calls →
        LengthsKept (drained me owners c safeName (starting pool disk dir) calls))
      ∧ ∀ calls a, LengthsKept (drained me owners c safeName (starting pool disk dir) calls) →
        a.StoresNew me owners c (drained me owners c safeName (starting pool disk dir) calls) →
        (LengthsKept (drained me owners c safeName (starting pool disk dir) (calls ++ [a]))
          ↔ a.Spills me owners c (drained me owners c safeName (starting pool disk dir) calls)) := by
  refine ⟨?_, ?_⟩
  · intro calls h
    refine foldl_invariant (P := LengthsKept) ?_ (by rintro k ⟨⟩) h
    intro s a _ hs ha
    exact lengthsKept_drainDisk.mpr (covered_call hs.covered ha)
  · intro calls a hkept hnew
    rw [drained, foldl_append]
    exact lengthsKept_drainDisk.trans (covered_call_iff hkept.covered hnew)

/-- Two pages for a pool of one byte, with a disk tier that takes both. -/
theorem lengths_kept_iff_spills_disk :
    let start := starting (new 100 1 7 [7] (fun _ => 0)) (some (DiskStore.empty 2))
      (fun _ => OrderedDict.empty)
    let calls : List LengthCall := [.set ["a"] [[1]], .set ["b"] [[2]]]
    Guarded (fun s a => some (drainDisk (fun _ => ["n"]) id (perform "n" (fun _ => ["n"]) plainKeys id s a)))
        (fun s a => a.Spills "n" (fun _ => ["n"]) plainKeys s) start calls
      ∧ (drained "n" (fun _ => ["n"]) plainKeys id start calls).pool.entries.keys = ["b_0_k"]
      ∧ LengthsKept (drained "n" (fun _ => ["n"]) plainKeys id start calls) := by
  have hok : Guarded (fun s a => some (drainDisk (fun _ => ["n"]) id
        (perform "n" (fun _ => ["n"]) plainKeys id s a)))
      (fun s a => a.Spills "n" (fun _ => ["n"]) plainKeys s)
      (starting (new 100 1 7 [7] (fun _ => 0)) (some (DiskStore.empty 2)) (fun _ => OrderedDict.empty))
      [.set ["a"] [[1]], .set ["b"] [[2]]] := by decide +kernel
  exact ⟨hok, by decide +kernel, (lengths_kept_iff_spills _ _ _ _ _ _ _).1 _ hok⟩

/-- Two pages for a pool of one byte.  Without a disk tier, and with one of no bytes, the first page
    is gone and its length is still known. -/
theorem evicted_length_stays :
    let after (disk : Option DiskStore) := drained "n" (fun _ => ["n"]) plainKeys id
      (starting (new 100 1 7 [7] (fun _ => 0)) disk (fun _ => OrderedDict.empty))
      [.set ["a"] [[1]], .set ["b"] [[2]]]
    ("a_0_k" ∈ (after none).keyLen.keys ∧ ¬ LengthsKept (after none))
      ∧ ("a_0_k" ∈ (after (some (DiskStore.empty 0))).keyLen.keys
        ∧ ¬ LengthsKept (after (some (DiskStore.empty 0)))) := by
  decide +kernel

end PeerCacheOwner
