import PeerCache.LandingProofs
import PeerCache.StorageServerProofs

/-! # `_publish_storage` — writing a batch to the storage tier under failures

    A client groups its pages by storage owner and takes each group through
    `data_prepare_writes`, one-sided WRITEs, `data_commit_writes`, and `data_ingest` for the
    pages that were not committed.  Every request may be lost, before or after it is
    executed; a WRITE may fail and leave anything in its slot. -/

namespace PeerCacheStorageWrite

open PeerCachePool PeerCacheDirectory PeerCacheDisk PeerCacheOwner PeerCacheStorage Tiling
  OrderedDict List

/-! ## The model -/

/-- A storage node's own state. -/
structure Host where
  pool : PublishedPool String
  disk : Option DiskStore
  keyLen : OrderedDict String Nat

/-- The storage nodes and the directory. -/
structure Cluster where
  hosts : String → Host
  dir : Shards

namespace Cluster

/-- A node with the directory as it sees it. -/
def node (w : Cluster) (o : String) : PageOwner :=
  ⟨(w.hosts o).pool, (w.hosts o).disk, (w.hosts o).keyLen, w.dir⟩

def setNode (w : Cluster) (o : String) (s : PageOwner) : Cluster :=
  ⟨Function.update w.hosts o ⟨s.pool, s.disk, s.keyLen⟩, s.dir⟩

end Cluster

/-- A component page of the batch: where it lies in the client's memory. -/
structure Page where
  key : String
  ptr : Nat
  size : Nat
deriving DecidableEq

/-- What becomes of a request. -/
inductive Reply where
  | answered
  | lostRequest
  | lostReply
deriving DecidableEq

/-- What becomes of a WRITE; a failed one leaves `junk` in its slot. -/
inductive WriteOutcome where
  | ok
  | failed (junk : Nat → UInt8)

def WriteOutcome.isOk : WriteOutcome → Bool
  | .ok => true
  | .failed _ => false

/-- What goes wrong with one owner.  WRITEs are told apart by the page's place in the batch;
    `order` numbers the posted ones as they land, which over several rails may be any order. -/
structure Faults where
  prepare : Reply
  write : Nat → WriteOutcome
  order : List Nat
  commit : Reply
  ingest : Reply

/-- A WRITE that is posted: the page, its place in the batch and its slot. -/
structure Posted where
  page : Page
  idx : Nat
  slot : Slot

/-- The pages that were given a slot. -/
def posted (ps : List (Page × Nat)) (slots : List (Option Slot)) : List Posted :=
  (ps.zip slots).filterMap fun q => q.2.map (fun slot => ⟨q.1.1, q.1.2, slot⟩)

/-- The bytes a WRITE leaves in its slot. -/
def landed (mem : Mem) (x : Posted) : WriteOutcome → Bytes
  | .ok => mem.read x.page.ptr x.slot.length
  | .failed junk => (List.range x.slot.length).map junk

/-- One WRITE. -/
def writeOne (mem : Mem) (outcome : Nat → WriteOutcome) (s : PageOwner) (x : Posted) : PageOwner :=
  s.setPool (remoteWrite s.pool x.slot.remoteAddr (landed mem x (outcome x.idx)))

/-- `batch_write_multi`: the WRITEs of one owner, as they land. -/
def batchWrite (mem : Mem) (outcome : Nat → WriteOutcome) (order : List Nat) (xs : List Posted)
    (s : PageOwner) : PageOwner :=
  (Landing.landed xs order).foldl (writeOne mem outcome) s

/-- `write_ok`: for each key the outcome of its last WRITE. -/
def writeOk (outcome : Nat → WriteOutcome) (xs : List Posted) : OrderedDict String Bool :=
  xs.foldl (fun d x => d.set x.page.key (outcome x.idx).isOk) OrderedDict.empty

/-- `key_to_idx` -/
def keyToIdx (pages : List Page) : OrderedDict String Nat :=
  pages.zipIdx.foldl (fun d q => d.set q.1.key q.2) OrderedDict.empty

section

variable (owners : Owners) (mem : Mem)

/-- The commit request: the keys the client knows to be committed, and the server. -/
def commitCall (o : String) (reply : Reply) (s : PageOwner) (keys : List String) :
    List String × PageOwner :=
  if keys = [] then ([], s)
  else
    let r := dataCommitWrites o owners s keys
    match reply with
    | .lostRequest => ([], s)
    | .lostReply => ([], r.owner)
    | .answered => (((keys.zip r.results).filter (fun q => q.2)).map Prod.fst, r.owner)

/-- `results[idx] = True`, for an index if there is one. -/
def setTrue (results : List Bool) : Option Nat → List Bool
  | none => results
  | some i => results.set i true

/-- Committed pages whose last WRITE succeeded are reported `True`. -/
def markCommitted (pages : List Page) (ok : OrderedDict String Bool) (committed : List String)
    (results : List Bool) : List Bool :=
  ok.items.foldl (fun results q =>
    setTrue results (if q.2 ∧ q.1 ∈ committed then (keyToIdx pages).get? q.1 else none)) results

/-- The ingest request for the pages not yet reported `True`. -/
def ingestCall (o : String) (reply : Reply) (s : PageOwner) (fallback : List (Page × Nat))
    (results : List Bool) : List Bool × PageOwner :=
  if fallback = [] then (results, s)
  else
    let r := dataIngest o owners s (fallback.map fun q => (q.1.key, mem.read q.1.ptr q.1.size))
    match reply with
    | .lostRequest => (results, s)
    | .lostReply => (results, r.owner)
    | .answered =>
        ((fallback.zip r.results).foldl (fun results q =>
          setTrue results (if q.2 then some q.1.2 else none)) results, r.owner)

/-- The server after the WRITEs of a group. -/
def written (f : Faults) (ps : List (Page × Nat)) (prep : PreparedAll) : PageOwner :=
  batchWrite mem f.write f.order (posted ps prep.slots) prep.owner

/-- `commit_keys`: the keys of the WRITEs that succeeded. -/
def commitKeys (f : Faults) (xs : List Posted) : List String :=
  (xs.filter (fun x => (f.write x.idx).isOk)).map (fun x => x.page.key)

/-- The commit of a group. -/
def committedGroup (o : String) (f : Faults) (ps : List (Page × Nat)) (prep : PreparedAll) :
    List String × PageOwner :=
  commitCall owners o f.commit (written mem f ps prep) (commitKeys f (posted ps prep.slots))

/-- The results once the commit is through. -/
def reported (pages : List Page) (o : String) (f : Faults) (ps : List (Page × Nat))
    (prep : PreparedAll) (results : List Bool) : List Bool :=
  markCommitted pages (writeOk f.write (posted ps prep.slots))
    (committedGroup owners mem o f ps prep).1 results

/-- `fallback`: the pages of a group that are not reported `True`. -/
def fallbackOf (ps : List (Page × Nat)) (results : List Bool) : List (Page × Nat) :=
  ps.filter (fun q => !(results[q.2]?).getD false)

/-- The phases after the reply to a prepare: WRITEs, commit, and ingest of what is not reported
    `True` by then. -/
def writeGroup (pages : List Page) (o : String) (f : Faults) (ps : List (Page × Nat))
    (prep : PreparedAll) (results : List Bool) : List Bool × PageOwner :=
  let results := reported owners mem pages o f ps prep results
  ingestCall owners mem o f.ingest (committedGroup owners mem o f ps prep).2 (fallbackOf ps results)
    results

/-- One owner's group of pages. -/
def publishGroup (pages : List Page) (reachable : String → Bool) (faults : String → Faults)
    (acc : List Bool × Cluster) (group : String × List (Page × Nat)) : List Bool × Cluster :=
  let (o, ps) := group
  let (results, w) := acc
  if reachable o then
    let prep := dataPrepareWrites o owners (w.node o) (ps.map fun q => (q.1.key, q.1.size))
    match (faults o).prepare with
    | .lostRequest => (results, w)
    | .lostReply => (results, w.setNode o prep.owner)
    | .answered =>
        let r := writeGroup owners mem pages o (faults o) ps prep results
        (r.1, w.setNode o r.2)
  else (results, w)

/-- `pending`: the pages the directory does not know, by storage owner. -/
def pending (dir : Shards) (dataOwner : String → Option String) (pages : List Page) :
    OrderedDict String (List (Page × Nat)) :=
  pages.zipIdx.foldl (fun groups q =>
    if existMap owners dir q.1.key then groups
    else
      match dataOwner q.1.key with
      | none => groups
      | some o => groups.set o ((groups.get? o).getD [] ++ [q])) OrderedDict.empty

/-- `_publish_storage` -/
def publishStorage (storageNodes : List String) (dataOwner : String → Option String)
    (reachable : String → Bool) (faults : String → Faults) (w : Cluster) (pages : List Page) :
    List Bool × Cluster :=
  if storageNodes = [] then (pages.map (fun _ => false), w)
  else
    let results := pages.map (fun q => existMap owners w.dir q.key)
    (pending owners w.dir dataOwner pages).items.foldl
      (publishGroup owners mem pages reachable faults) (results, w)

end

/-! ## The conditions -/

section

variable {o : String} {owners : Owners} {content : String → Bytes} {mem : Mem}

/-- The pages of a group as the server sees them. -/
def request (existing : String → Bool) (ps : List (Page × Nat)) : List ((String × Nat) × Bool) :=
  ps.map fun q => ((q.1.key, q.1.size), existing q.1.key)

/-- The reply to the prepare of a group. -/
def prepareGroup (o : String) (owners : Owners) (s : PageOwner)
    (ps : List (Page × Nat)) : PreparedAll :=
  prepareLoop o owners (request (existMap owners s.dir) ps) s

lemma dataPrepareWrites_eq (s : PageOwner) (ps : List (Page × Nat)) :
    dataPrepareWrites o owners s (ps.map fun q => (q.1.key, q.1.size))
      = prepareGroup o owners s ps := by
  rw [dataPrepareWrites, map_map]
  rfl

/-- The pages of an ingest as the server sees them. -/
def ingestPages (owners : Owners) (mem : Mem) (dir : Shards)
    (ps : List (Page × Nat)) : List ((String × Bytes) × Admission) :=
  ps.map fun q => ((q.1.key, mem.read q.1.ptr q.1.size),
    admission q.1.key (existMap owners dir q.1.key))

/-- **WHAT LANDS LAST** in the page of the key, at `x`, is a WRITE of the whole page that
    succeeds. -/
def LandsLast (pool : PublishedPool String) (f : Faults) (xs : List Posted) (k : String)
    (x : Extent) : Prop :=
  ∃ before y after, Landing.landed xs f.order = before ++ y :: after ∧ y.page.key = k
    ∧ (f.write y.idx).isOk = true ∧ extentOf pool y.slot = x
    ∧ ∀ z ∈ after, Apart x (extentOf pool z.slot)

/-- **THE INGEST COPIES**: it comes to a point where the pool does not have the page. -/
def Recopied (owners : Owners) (mem : Mem) (o : String) (reply : Reply)
    (s : PageOwner) (fallback : List (Page × Nat)) (k : String) : Prop :=
  reply ≠ .lostRequest ∧ ∃ before after, fallback = before ++ after
    ∧ k ∉ (publishLoop o owners (ingestPages owners mem s.dir before) s
        OrderedDict.empty).owner.pool.entries.keys

/-- The commit reports no page of the key. -/
def CommitSilent (f : Faults) (xs : List Posted) (k : String) : Prop :=
  (writeOk f.write xs).get? k ≠ some true ∨ f.commit ≠ .answered

/-- **A GROUP IS HARMLESS** to the key.  If its page is in the pool once the group is reserved, then
    it has the right length and what lands last in it is its own WRITE; or it is not reported; or
    it leaves the pool again before the ingest is through. -/
def Harmless (owners : Owners) (mem : Mem) (content : String → Bytes)
    (pages : List Page) (o : String) (f : Faults) (s : PageOwner) (ps : List (Page × Nat))
    (results : List Bool) (k : String) : Prop :=
  let prep := prepareGroup o owners s ps
  let xs := posted ps prep.slots
  ∀ x, prep.owner.pool.entries.get? k = some x →
    (x.2 = (content k).length ∧ (x.2 = 0 ∨ LandsLast prep.owner.pool f xs k x))
      ∨ (CommitSilent f xs k ∧ (f.ingest ≠ .answered ∨ k = ""))
      ∨ Recopied owners mem o f.ingest (committedGroup owners mem o f ps prep).2
          (fallbackOf ps (reported owners mem pages o f ps prep results)) k

/-- The pages are as long as the contents of their keys. -/
def SizedPages (content : String → Bytes) (ps : List (Page × Nat)) : Prop :=
  ∀ q ∈ ps, q.1.size = (content q.1.key).length

variable {existing : String → Bool} {k : String} {s : PageOwner} {x : Extent}
  {outcome : Nat → WriteOutcome} {xs : List Posted} {y : Posted} {d e : Shards} {i : Nat}

lemma request_sized {ps : List (Page × Nat)} (h : SizedPages content ps) :
    ∀ q ∈ request existing ps, q.1.2 = (content q.1.1).length := by
  intro q hq
  obtain ⟨x, hx, rfl⟩ := mem_map.mp hq
  exact h x hx

/-! ## `batch_write_multi` -/

lemma length_landed (x : Posted) (out : WriteOutcome) :
    (landed mem x out).length = x.slot.length := by
  cases out with
  | ok => exact Mem.length_read _ _ _
  | failed junk => rw [landed, length_map, length_range]

lemma batchWrite_frame (mem : Mem) (outcome : Nat → WriteOutcome) (xs : List Posted)
    (s : PageOwner) :
    ∃ buf, xs.foldl (writeOne mem outcome) s = s.setPool { s.pool with buf := buf } := by
  induction xs generalizing s with
  | nil => exact ⟨s.pool.buf, rfl⟩
  | cons x xs ih =>
    obtain ⟨buf, hbuf⟩ := ih (writeOne mem outcome s x)
    exact ⟨buf, hbuf⟩

lemma batchWrite_holds (outcome : Nat → WriteOutcome) (xs : List Posted)
    (h : HoldsFor content s.pool k)
    (hapart : ∀ e, s.pool.entries.get? k = some e → ∀ z ∈ xs, Apart e (extentOf s.pool z.slot)) :
    HoldsFor content (xs.foldl (writeOne mem outcome) s).pool k := by
  induction xs generalizing s with
  | nil => exact h
  | cons x xs ih =>
    refine ih (s := writeOne mem outcome s x) ?_ ?_
    · refine holdsFor_remoteWrite h ?_
      intro e he
      rw [length_landed]
      exact hapart e he x (.head _)
    · exact fun e he z hz => hapart e he z (mem_cons_of_mem x hz)

/-- **A SUCCESSFUL LAST WRITE** leaves the content in the page. -/
lemma LandsLast.holds {f : Faults} (h : LandsLast s.pool f xs k x)
    (hx : s.pool.entries.get? k = some x) (hlen : x.2 = (content k).length)
    (hbytes : ∀ y ∈ xs, mem.read y.page.ptr (content y.page.key).length = content y.page.key) :
    HoldsFor content (batchWrite mem f.write f.order xs s).pool k := by
  obtain ⟨before, y, after, hxs, rfl, hok, hext, hafter⟩ := h
  have hy : y ∈ xs := Landing.mem_of_landed (hxs ▸ mem_append_right _ (.head _))
  obtain ⟨buf, hbuf⟩ := batchWrite_frame mem f.write before s
  have hlength : y.slot.length = (content y.page.key).length := (congrArg Prod.snd hext).trans hlen
  have hland : landed mem y (f.write y.idx) = content y.page.key := by
    cases hout : f.write y.idx with
    | ok => rw [landed, hlength]; exact hbytes y hy
    | failed junk => rw [hout] at hok; cases hok
  rw [batchWrite, hxs, foldl_append, foldl_cons, hbuf, writeOne, hland]
  refine batchWrite_holds f.write after (holdsFor_remoteWrite_same ?_) ?_
  · intro e he
    obtain rfl := Option.some.inj (hx.symm.trans he)
    rw [← hext, extentOf, hlength]
    rfl
  · intro e he z hz
    obtain rfl := Option.some.inj (hx.symm.trans he)
    exact hafter z hz

/-! ## Who names pages -/

/-- Only `o` has named pages, and only of `keys`. -/
def Names (o : String) (keys : List String) (dir dir' : Shards) : Prop :=
  ∀ node k loc, (dir' node).get? k = some loc → loc.resident = true →
    (dir node).get? k = some loc ∨ (loc.nodeId = o ∧ k ∈ keys)

lemma Names.refl (o : String) (keys : List String) (dir : Shards) : Names o keys dir dir :=
  fun _ _ _ h _ => .inl h

lemma Names.trans {keys : List String} {f : Shards} (h : Names o keys d e) (h' : Names o keys e f) :
    Names o keys d f := by
  intro node k loc hk hres
  rcases h' node k loc hk hres with hk | hk
  · exact h node k loc hk hres
  · exact .inr hk

lemma Names.mono {keys keys' : List String} (h : Names o keys d e) (hsub : keys ⊆ keys') :
    Names o keys' d e :=
  fun node k loc hk hres => (h node k loc hk hres).imp_right (fun ⟨h1, h2⟩ => ⟨h1, hsub h2⟩)

lemma Names.put {keys : List String} {entries : Locations}
    (h : Names o keys d e) (hent : ∀ k loc, entries.get? k = some loc → loc.nodeId = o ∧ k ∈ keys) :
    Names o keys d (put owners e entries) := by
  intro node k loc hk hres
  rcases put_get?_cases hk with ⟨-, hput⟩ | ⟨hold, -⟩
  · exact .inr (hent k loc hput)
  · exact h node k loc hold hres

/-! ## The requests after the WRITEs -/

variable (o owners) in
/-- **THE COMMIT REQUEST**, however it ends, keeps pages and names only the keys asked for. -/
lemma commitCall_spec (content : String → Bytes) (reply : Reply) (hi : Inv s.pool)
    (keys : List String) :
    (∃ evicted, Effect content s.pool (commitCall owners o reply s keys).2.pool evicted [])
      ∧ Names o keys s.dir (commitCall owners o reply s keys).2.dir := by
  have hsame : (∃ evicted, Effect content s.pool s.pool evicted []) ∧ Names o keys s.dir s.dir :=
    ⟨⟨[], Effect.refl hi⟩, Names.refl o keys s.dir⟩
  have hdone : (∃ evicted,
        Effect content s.pool (dataCommitWrites o owners s keys).owner.pool evicted [])
      ∧ Names o keys s.dir (dataCommitWrites o owners s keys).owner.dir := by
    obtain ⟨heff, hent⟩ := commitLoop_spec o owners content keys hi OrderedDict.empty
    refine ⟨⟨[], heff.pool⟩, Names.put ?_ ?_⟩
    · exact fun node k loc hk hres => .inl (heff.resident node k loc hk hres).1
    · intro k loc hk
      rcases hent k loc hk with hk | ⟨hmem, -, hme⟩
      · cases hk
      · exact ⟨hme, hmem⟩
  rw [commitCall]
  split_ifs with hnil
  · exact hsame
  · cases reply with
    | lostRequest => exact hsame
    | lostReply => exact hdone
    | answered => exact hdone

lemma commitCall_answered {reply : Reply} {keys : List String}
    (h : k ∈ (commitCall owners o reply s keys).1) : reply = .answered := by
  rw [commitCall] at h
  split_ifs at h with hnil
  · cases h
  · cases reply with
    | lostRequest | lostReply => cases h
    | answered => rfl

/-- The bytes of the pages are the contents of their keys. -/
def BytesOf (content : String → Bytes) (mem : Mem) (ps : List (Page × Nat)) : Prop :=
  ∀ q ∈ ps, mem.read q.1.ptr q.1.size = content q.1.key

variable {fallback : List (Page × Nat)} {p : PublishedPool String} {dir : Shards}

lemma dataIngest_eq (s : PageOwner) (fallback : List (Page × Nat)) :
    dataIngest o owners s (fallback.map fun q => (q.1.key, mem.read q.1.ptr q.1.size))
      = publishPages o owners s (ingestPages owners mem s.dir fallback) := by
  rw [dataIngest, map_map]
  rfl

variable (owners dir) in
lemma ingestPages_bytes (hbytes : BytesOf content mem fallback) :
    ∀ q ∈ ingestPages owners mem dir fallback, q.1.2 = content q.1.1 := by
  intro q hq
  obtain ⟨x, hx, rfl⟩ := mem_map.mp hq
  exact hbytes x hx

/-- **THE INGEST REQUEST**, however it ends. -/
lemma ingestCall_spec (o : String) (owners : Owners) (reply : Reply)
    (hi : Inv s.pool) (hbytes : BytesOf content mem fallback) (results : List Bool) :
    (∃ evicted,
        Effect content s.pool (ingestCall owners mem o reply s fallback results).2.pool evicted [])
      ∧ Names o (fallback.map (fun q => q.1.key)) s.dir
          (ingestCall owners mem o reply s fallback results).2.dir := by
  have hsame : (∃ evicted, Effect content s.pool s.pool evicted [])
      ∧ Names o (fallback.map (fun q => q.1.key)) s.dir s.dir :=
    ⟨⟨[], Effect.refl hi⟩, Names.refl o _ s.dir⟩
  have hdone : ∀ r, publishPages o owners s (ingestPages owners mem s.dir fallback) = r →
      (∃ evicted, Effect content s.pool r.owner.pool evicted [])
        ∧ Names o (fallback.map (fun q => q.1.key)) s.dir r.owner.dir := by
    rintro r rfl
    obtain ⟨t, entries, hown, heff, -, hent⟩ := publishPages_spec o owners
      (ingestPages owners mem s.dir fallback) (ingestPages_bytes owners s.dir hbytes) hi
    rw [hown]
    refine ⟨⟨_, heff.pool⟩, Names.put ?_ ?_⟩
    · exact fun node k loc hk hres => .inl (heff.resident node k loc hk hres).1
    · intro k loc hk
      obtain ⟨hmem, -, hme⟩ := hent.batch k loc hk
      rw [ingestPages, map_map] at hmem
      exact ⟨hme, hmem⟩
  rw [ingestCall, dataIngest_eq]
  split_ifs with hnil
  · exact hsame
  · cases reply with
    | lostRequest => exact hsame
    | lostReply => exact hdone _ rfl
    | answered => exact hdone _ rfl

lemma Recopied.holds {reply : Reply} (h : Recopied owners mem o reply s fallback k)
    (hi : Inv s.pool) (hbytes : BytesOf content mem fallback) (results : List Bool) :
    HoldsFor content (ingestCall owners mem o reply s fallback results).2.pool k := by
  obtain ⟨hreply, before, after, rfl, hout⟩ := h
  have hdone : HoldsFor content (publishPages o owners s
      (ingestPages owners mem s.dir (before ++ after))).owner.pool k := by
    have hpages := ingestPages_bytes owners s.dir hbytes
    rw [ingestPages, map_append] at hpages ⊢
    exact publishPages_holds hpages hi hout
  rw [ingestCall, dataIngest_eq]
  split_ifs with hnil
  · obtain rfl := (append_eq_nil_iff.mp hnil).1
    exact holdsFor_of_not_mem hout
  · cases reply with
    | lostRequest => exact absurd rfl hreply
    | lostReply => exact hdone
    | answered => exact hdone

/-! ## What is reported -/

lemma foldl_setTrue {A : Type} (f : A → Option Nat) (l : List A) {results : List Bool}
    (h : (l.foldl (fun results a => setTrue results (f a)) results)[i]? = some true) :
    results[i]? = some true ∨ ∃ a ∈ l, f a = some i := by
  induction l generalizing results with
  | nil => exact .inl h
  | cons a l ih =>
    rw [foldl_cons] at h
    rcases ih h with h | ⟨b, hb, hfb⟩
    · cases hfa : f a with
      | none => rw [hfa] at h; exact .inl h
      | some j =>
        rw [hfa, setTrue] at h
        by_cases hij : j = i
        · exact .inr ⟨a, (.head _), hij ▸ hfa⟩
        · rw [getElem?_set_ne hij] at h; exact .inl h
    · exact .inr ⟨b, mem_cons_of_mem a hb, hfb⟩

lemma keyToIdx_get? {pages : List Page} {k : String} {i : Nat}
    (h : (keyToIdx pages).get? k = some i) : ∃ p, pages[i]? = some p ∧ p.key = k := by
  rcases foldl_set_cases (fun q : Page × Nat => q.1.key) (fun q => q.2) h with
    ⟨q, hq, hkey, hidx⟩ | hnone
  · exact ⟨q.1, hidx ▸ mem_zipIdx_iff_getElem?.mp hq, hkey⟩
  · cases hnone

/-- **WHAT THE COMMIT REPORTS**: a page whose key was committed and whose last WRITE succeeded. -/
lemma markCommitted_true {pages : List Page} {ok : OrderedDict String Bool}
    {committed : List String} {results : List Bool}
    (h : (markCommitted pages ok committed results)[i]? = some true) :
    results[i]? = some true
      ∨ ∃ p, pages[i]? = some p ∧ ok.get? p.key = some true ∧ p.key ∈ committed := by
  rcases foldl_setTrue _ ok.items h with h | ⟨q, hq, hfq⟩
  · exact .inl h
  · by_cases hcond : q.2 ∧ q.1 ∈ committed
    · rw [if_pos hcond] at hfq
      obtain ⟨p, hp, hkey⟩ := keyToIdx_get? hfq
      refine .inr ⟨p, hp, ?_, hkey ▸ hcond.2⟩
      rw [hkey, ← hcond.1]
      exact get?_eq_some.mpr hq
    · rw [if_neg hcond] at hfq; cases hfq

/-- **WHAT THE INGEST REPORTS**, if it is answered: pages with a key. -/
lemma ingestCall_true {reply : Reply} {results : List Bool}
    (h : (ingestCall owners mem o reply s fallback results).1[i]? = some true) :
    results[i]? = some true ∨ (reply = .answered ∧ ∃ q ∈ fallback, q.2 = i ∧ q.1.key ≠ "") := by
  rw [ingestCall, dataIngest_eq] at h
  split_ifs at h with hnil
  · exact .inl h
  · cases reply with
    | lostRequest => exact .inl h
    | lostReply => exact .inl h
    | answered =>
      rcases foldl_setTrue _ _ h with h | ⟨q, hq, hfq⟩
      · exact .inl h
      · refine .inr ⟨rfl, q.1, (of_mem_zip hq).1, ?_⟩
        by_cases hok : q.2 = true
        · rw [if_pos hok] at hfq
          refine ⟨Option.some.inj hfq, ?_⟩
          intro hempty
          -- the server refuses a page without a key
          have hzip : (((q.1.1.key, mem.read q.1.1.ptr q.1.1.size),
              admission q.1.1.key (existMap owners s.dir q.1.1.key)), q.2)
              ∈ (ingestPages owners mem s.dir fallback).zip (publishPages o owners s
                  (ingestPages owners mem s.dir fallback)).results := by
            rw [ingestPages, zip_map_left]
            exact mem_map.mpr ⟨q, hq, rfl⟩
          have hfalse := publishLoop_refused o owners _ s OrderedDict.empty _ hzip
            (by rw [hempty]; rfl)
          cases hok.symm.trans hfalse
        · rw [if_neg hok] at hfq; cases hfq

lemma writeOk_mem {ok : Bool} (h : (writeOk outcome xs).get? k = some ok) :
    ∃ x ∈ xs, x.page.key = k := by
  rcases foldl_set_cases (fun x : Posted => x.page.key)
      (fun x => (outcome x.idx).isOk) h with ⟨x, hx, hkey, -⟩ | hnone
  · exact ⟨x, hx, hkey⟩
  · cases hnone

lemma posted_mem {ps : List (Page × Nat)} {slots : List (Option Slot)} {x : Posted}
    (h : x ∈ posted ps slots) : (x.page, x.idx) ∈ ps ∧ some x.slot ∈ slots := by
  obtain ⟨q, hq, hx⟩ := mem_filterMap.mp h
  obtain ⟨slot, hslot, rfl⟩ := Option.map_eq_some_iff.mp hx
  obtain ⟨hps, hslots⟩ := of_mem_zip hq
  exact ⟨hps, hslot ▸ hslots⟩

/-! ## One group -/

/-- No page of the key is reported `True`. -/
def Unreported (pages : List Page) (k : String) (results : List Bool) : Prop :=
  ∀ (i : Nat) (p : Page), pages[i]? = some p → p.key = k → results[i]? ≠ some true

section group

variable {pages : List Page} {f : Faults} {ps : List (Page × Nat)} {prep : PreparedAll}
  {results : List Bool}

lemma commitKeys_subset : commitKeys f (posted ps prep.slots) ⊆ ps.map (fun q => q.1.key) := by
  intro k hk
  obtain ⟨x, hx, rfl⟩ := mem_map.mp hk
  exact mem_map.mpr ⟨_, (posted_mem (mem_filter.mp hx).1).1, rfl⟩

lemma fallbackOf_bytes (h : BytesOf content mem ps) : BytesOf content mem (fallbackOf ps results) :=
  fun q hq => h q (mem_filter.mp hq).1

lemma written_frame (mem : Mem) (f : Faults) (ps : List (Page × Nat)) (prep : PreparedAll) :
    ∃ buf, written mem f ps prep = prep.owner.setPool { prep.owner.pool with buf := buf } :=
  batchWrite_frame mem f.write _ prep.owner

lemma written_inv (hi : Inv prep.owner.pool) : Inv (written mem f ps prep).pool := by
  obtain ⟨buf, hbuf⟩ := written_frame mem f ps prep
  rw [hbuf]
  exact ⟨hi.tiles, hi.next_le, hi.used_eq⟩

variable (mem f ps) in
/-- **THE COMMIT OF A GROUP** keeps pages, and names pages of its keys only. -/
lemma committedGroup_spec (owners : Owners) (o : String) (content : String → Bytes)
    (hi : Inv prep.owner.pool) :
    (∃ evicted, Effect content (written mem f ps prep).pool
        (committedGroup owners mem o f ps prep).2.pool evicted [])
      ∧ Names o (ps.map (fun q => q.1.key)) prep.owner.dir
          (committedGroup owners mem o f ps prep).2.dir := by
  obtain ⟨buf, hbuf⟩ := written_frame mem f ps prep
  have hinv : Inv (written mem f ps prep).pool := written_inv hi
  obtain ⟨heff, hnames⟩ :=
    commitCall_spec o owners content f.commit hinv (commitKeys f (posted ps prep.slots))
  rw [show (written mem f ps prep).dir = prep.owner.dir by rw [hbuf]; rfl] at hnames
  exact ⟨heff, hnames.mono commitKeys_subset⟩

/-- **AFTER THE WRITES** a group keeps pages, and names pages of its keys only. -/
lemma writeGroup_spec (hi : Inv prep.owner.pool) (hbytes : BytesOf content mem ps) :
    (∃ evicted, Effect content (written mem f ps prep).pool
        (writeGroup owners mem pages o f ps prep results).2.pool evicted [])
      ∧ Names o (ps.map (fun q => q.1.key)) prep.owner.dir
          (writeGroup owners mem pages o f ps prep results).2.dir := by
  obtain ⟨⟨ev, hceff⟩, hcnames⟩ :=
    committedGroup_spec mem f ps owners o content hi
  obtain ⟨⟨ev', hieff⟩, hinames⟩ := ingestCall_spec o owners f.ingest hceff.inv
    (fallbackOf_bytes hbytes) (reported owners mem pages o f ps prep results)
  exact ⟨⟨ev ++ ev', hceff.trans hieff⟩,
    hcnames.trans (hinames.mono (map_subset _ (filter_subset_self ps)))⟩

lemma writeGroup_true (hps : ∀ q ∈ ps, pages[q.2]? = some q.1) {i : Nat}
    (h : (writeGroup owners mem pages o f ps prep results).1[i]? = some true) :
    results[i]? = some true ∨ ∃ p, pages[i]? = some p ∧ p.key ∈ ps.map (fun q => q.1.key) := by
  rcases ingestCall_true h with h | ⟨-, q, hq, rfl, -⟩
  · rcases markCommitted_true h with h | ⟨p, hp, hok, -⟩
    · exact .inl h
    · obtain ⟨x, hx, hkey⟩ := writeOk_mem hok
      exact .inr ⟨p, hp, mem_map.mpr ⟨_, (posted_mem hx).1, hkey⟩⟩
  · have hmem := (mem_filter.mp hq).1
    exact .inr ⟨q.1, hps q hmem, mem_map.mpr ⟨q, hmem, rfl⟩⟩

lemma writeGroup_silent (hps : ∀ q ∈ ps, pages[q.2]? = some q.1)
    (hfalse : Unreported pages k results)
    (hsilent : CommitSilent f (posted ps prep.slots) k) (hing : f.ingest ≠ .answered ∨ k = "") :
    Unreported pages k (writeGroup owners mem pages o f ps prep results).1 := by
  intro i p hp hpk htrue
  rcases ingestCall_true htrue with htrue | ⟨hans, q, hq, rfl, hne⟩
  · rcases markCommitted_true htrue with htrue | ⟨p', hp', hok, hcom⟩
    · exact hfalse i p hp hpk htrue
    · obtain rfl := Option.some.inj (hp.symm.trans hp')
      subst hpk
      exact hsilent.elim (fun h => h hok) (fun h => h (commitCall_answered hcom))
  · obtain rfl := Option.some.inj (hp.symm.trans (hps q (mem_filter.mp hq).1))
    exact hing.elim (fun h => h hans) (fun h => hne (hpk.trans h))

end group

/-- **A GROUP THAT IS HARMLESS TO THE KEY**: its page holds the content afterwards, or is not
    reported. -/
lemma writeGroup_keeps {pages : List Page} {f : Faults} {ps : List (Page × Nat)}
    {results : List Bool} {s : PageOwner} {k : String} (hi : Inv s.pool)
    (hlen : SizedPages content ps) (hbytes : BytesOf content mem ps)
    (hps : ∀ q ∈ ps, pages[q.2]? = some q.1) (hfalse : Unreported pages k results)
    (hsafe : Harmless owners mem content pages o f s ps results k) :
    HoldsFor content
        (writeGroup owners mem pages o f ps (prepareGroup o owners s ps) results).2.pool k
      ∨ Unreported pages k
        (writeGroup owners mem pages o f ps (prepareGroup o owners s ps) results).1 := by
  have heff : OwnerEffect owners content s (prepareGroup o owners s ps).owner _ _ :=
    ownerEffect_prepareLoop o owners _ (request_sized hlen) hi
  rw [Harmless] at hsafe
  generalize prepareGroup o owners s ps = prep at heff hsafe ⊢
  obtain ⟨⟨ev, hgroup⟩, -⟩ : (∃ evicted, Effect content (written mem f ps prep).pool
      (writeGroup owners mem pages o f ps prep results).2.pool evicted []) ∧ _ :=
    writeGroup_spec heff.pool.inv hbytes
  obtain ⟨buf, hbuf⟩ := written_frame mem f ps prep
  have hkeep : HoldsFor content (written mem f ps prep).pool k →
      HoldsFor content (writeGroup owners mem pages o f ps prep results).2.pool k :=
    hgroup.holds k (.inr not_mem_nil)
  have hentry : (written mem f ps prep).pool.entries = prep.owner.pool.entries := by
    rw [hbuf]
    rfl
  cases hx : prep.owner.pool.entries.get? k with
  | none =>
    refine .inl (hkeep ?_)
    intro e he
    rw [hentry, hx] at he
    cases he
  | some x =>
    rcases hsafe x hx with ⟨hlength, hlast⟩ | ⟨hsilent, hing⟩ | hre
    · refine .inl (hkeep ?_)
      rcases hlast with hzero | hlast
      · intro e he
        rw [hentry, hx] at he
        obtain rfl := Option.some.inj he
        rw [hlength] at hzero
        rw [hlength, hzero, length_eq_zero_iff.mp hzero]
        exact ⟨rfl, rfl⟩
      · refine hlast.holds hx hlength ?_
        intro y hy
        have hmem := (posted_mem hy).1
        rw [← hlen _ hmem]
        exact hbytes _ hmem
    · exact .inr (writeGroup_silent hps hfalse hsilent hing)
    · obtain ⟨⟨ev, hcommit⟩, -⟩ := committedGroup_spec mem f ps owners o content
        heff.pool.inv
      exact .inl (hre.holds hcommit.inv (fallbackOf_bytes hbytes) _)

/-! ## `pending` -/

section pending

variable {pages : List Page} {dataOwner : String → Option String}

/-- Whether a page goes to `o`. -/
def goesTo (owners : Owners) (dir : Shards) (dataOwner : String → Option String)
    (o : String) (q : Page × Nat) : Bool :=
  !existMap owners dir q.1.key && decide (dataOwner q.1.key = some o)

lemma pending_foldl (dir : Shards) (o : String) (l : List (Page × Nat))
    (groups : OrderedDict String (List (Page × Nat))) :
    (l.foldl (fun groups q =>
      if existMap owners dir q.1.key then groups
      else
        match dataOwner q.1.key with
        | none => groups
        | some o => groups.set o ((groups.get? o).getD [] ++ [q])) groups).get? o
      = if l.filter (goesTo owners dir dataOwner o) = [] then groups.get? o
        else some ((groups.get? o).getD [] ++ l.filter (goesTo owners dir dataOwner o)) := by
  induction l generalizing groups with
  | nil => rfl
  | cons q l ih =>
    rw [foldl_cons, ih]
    by_cases hex : existMap owners dir q.1.key = true
    · rw [if_pos hex, filter_cons_of_neg (by rw [goesTo, hex]; exact Bool.false_ne_true)]
    · rw [if_neg hex]
      cases how : dataOwner q.1.key with
      | none =>
        rw [filter_cons_of_neg (by rw [goesTo, how]; simp)]
      | some o' =>
        by_cases ho : o' = o
        · subst ho
          rw [filter_cons_of_pos (by rw [goesTo, how]; simpa using hex)]
          simp only [get?_set, if_true]
          by_cases hnil : l.filter (goesTo owners dir dataOwner o') = []
          · simp [hnil]
          · simp [hnil]
        · rw [filter_cons_of_neg (by rw [goesTo, how]; simp [ho])]
          simp only [get?_set, if_neg (Ne.symm ho)]

/-- **A PENDING GROUP** has exactly the pages that go to its owner, in order. -/
lemma mem_pending {dir : Shards} {g : String × List (Page × Nat)}
    (h : g ∈ (pending owners dir dataOwner pages).items) :
    g.2 = pages.zipIdx.filter (goesTo owners dir dataOwner g.1) := by
  have hget : (pending owners dir dataOwner pages).get? g.1 = some g.2 :=
    get?_eq_some.mpr h
  rw [pending, pending_foldl] at hget
  split_ifs at hget with hnil
  · cases hget
  · exact (Option.some.inj hget).symm

end pending

end

end PeerCacheStorageWrite
