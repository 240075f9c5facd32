import Mathlib
import PeerCache.DirectoryClientProofs
import PeerCache.PageOwnerProofs

/-! # Re-publishing after a membership change

    When the ring changes, every live node puts the entries of its pool again
    (`_republish_directory`), 512 keys at a time, each chunk as one `dir_put` request per
    owner.  The shards may hold anything from before, several nodes may hold the same
    page, and nothing orders the requests of different nodes. -/

namespace PeerCacheDirectoryClient

open PeerCacheRing PeerCachePool PeerCacheOwner PeerCacheDirectory OrderedDict List Option Function

/-- A `dir_put` request: the node it goes to, and the entries. -/
abbrev PutRequest : Type := String × OrderedDict String Dict

/-- A request arrives. -/
def deliver (shards : PeerCacheDirectoryClient.Shards) (request : PutRequest) :
    PeerCacheDirectoryClient.Shards :=
  Function.update shards request.1 (onPut (shards request.1) request.2)

/-- The requests of `_republish_directory`, in the order the node sends them. -/
def republishRequests (hash : String → Nat) (codec : Codec PeerCacheDirectory.DataLocation)
    (c : DirectoryClient) (me : String) (s : PageOwner) : List PutRequest :=
  ((republishEntries me s).chunks 512).flatMap (fun chunk => (putRequests hash codec c chunk).items)

/-! ## What a shard ends up with -/

/-- **THE LAST REQUEST WINS**: the entry of a key at a node is that of a request, or the node has
    been sent nothing for the key. -/
lemma foldl_deliver (requests : List PutRequest) (shards : PeerCacheDirectoryClient.Shards)
    (node key : String) :
    (∃ d, (∃ request ∈ requests, request.1 = node ∧ request.2.get? key = some d)
        ∧ (requests.foldl deliver shards node).get? key = some d)
      ∨ ((∀ request ∈ requests, request.1 = node → request.2.get? key = none)
        ∧ (requests.foldl deliver shards node).get? key = (shards node).get? key) := by
  induction requests generalizing shards with
  | nil => exact .inr ⟨forall_mem_nil _, rfl⟩
  | cons request requests ih =>
    rw [foldl_cons]
    rcases ih (deliver shards request) with ⟨d, ⟨r, hr, hnode, hd⟩, hget⟩ | ⟨hnone, hget⟩
    · exact .inl ⟨d, ⟨r, .tail _ hr, hnode, hd⟩, hget⟩
    · by_cases hn : request.1 = node
      · have hshard : deliver shards request node = (shards node).update request.2 := by
          rw [deliver, hn, update_self]; rfl
        rw [hshard, get?_update] at hget
        cases hd : request.2.get? key with
        | none =>
          refine .inr ⟨forall_mem_cons.mpr ⟨fun _ => hd, hnone⟩, ?_⟩
          rw [hget, hd]; rfl
        | some d =>
          refine .inl ⟨d, ⟨request, (.head _), hn, hd⟩, ?_⟩
          rw [hget, hd]; rfl
      · refine .inr ⟨forall_mem_cons.mpr ⟨fun h => absurd h hn, hnone⟩, ?_⟩
        rw [hget, deliver, update_of_ne (Ne.symm hn)]

/-! ## What a node sends -/

lemma snapshotEntries_get? (me : String) (pool : PublishedPool String) (key : String) :
    (snapshotEntries me pool).get? key
      = (pool.entries.get? key).map (fun x => residentLocation me pool (pool.base + x.1) x.2) := by
  rw [snapshotEntries, snapshot, foldl_map]
  refine (get?_foldl_set_map pool.entries
    (fun x => residentLocation me pool (pool.base + x.1) x.2) empty key).trans ?_
  rw [get?_empty, or_none]

variable {hash : String → Nat} {codec : Codec PeerCacheDirectory.DataLocation} {c : DirectoryClient}
  {me : String} {s : PageOwner}

variable {d : Dict}

lemma mem_putRequests {entries : OrderedDict String PeerCacheDirectory.DataLocation}
    {node key : String} :
    (∃ request ∈ (putRequests hash codec c entries).items, request.1 = node ∧ request.2.get? key = some d)
      ↔ node ∈ owners hash c key ∧ ∃ loc, entries.get? key = some loc ∧ codec.toDict loc = d := by
  have hsent : ((putRequests hash codec c entries).get? node).bind (fun d => d.get? key)
      = if node ∈ owners hash c key then (entries.get? key).map codec.toDict else none :=
    putRequests_get? entries node key
  constructor
  · rintro ⟨⟨n, m⟩, hmem, rfl, hd⟩
    rw [get?_eq_some.mpr hmem, bind_some, hd] at hsent
    by_cases hn : n ∈ owners hash c key
    · rw [if_pos hn] at hsent
      exact ⟨hn, map_eq_some_iff.mp hsent.symm⟩
    · rw [if_neg hn] at hsent; cases hsent
  · rintro ⟨hn, loc, hloc, rfl⟩
    rw [if_pos hn, hloc] at hsent
    obtain ⟨m, hm, hd⟩ := bind_eq_some_iff.mp hsent
    exact ⟨(node, m), get?_eq_some.mp hm, rfl, hd⟩

/-- **ONE NODE'S REPUBLISH**: its requests are its entries at their owners; the chunks do not
    show. -/
lemma mem_republishRequests {node key : String} :
    (∃ request ∈ republishRequests hash codec c me s, request.1 = node ∧ request.2.get? key = some d)
      ↔ node ∈ owners hash c key
        ∧ ∃ loc, (republishEntries me s).get? key = some loc ∧ codec.toDict loc = d := by
  have hchunk : ∀ loc, (∃ chunk ∈ (republishEntries me s).chunks 512, chunk.get? key = some loc)
      ↔ (republishEntries me s).get? key = some loc := by
    intro loc
    rw [get?_eq_some, ← mem_chunks (show 0 < 512 by decide)]
    simp only [get?_eq_some]
  constructor
  · rintro ⟨request, hmem, hnode, hd⟩
    obtain ⟨chunk, hc, hreq⟩ := mem_flatMap.mp hmem
    obtain ⟨hn, loc, hloc, hd⟩ := mem_putRequests.mp ⟨request, hreq, hnode, hd⟩
    exact ⟨hn, loc, (hchunk loc).mp ⟨chunk, hc, hloc⟩, hd⟩
  · rintro ⟨hn, loc, hloc, hd⟩
    obtain ⟨chunk, hc, hloc⟩ := (hchunk loc).mpr hloc
    obtain ⟨request, hreq, hnode, hd⟩ := mem_putRequests.mpr ⟨hn, loc, hloc, hd⟩
    exact ⟨request, mem_flatMap.mpr ⟨chunk, hc, hreq⟩, hnode, hd⟩

lemma republishEntries_get? (hdisk : s.disk = none) (key : String) (d : Dict) :
    (∃ loc, (republishEntries me s).get? key = some loc ∧ codec.toDict loc = d)
      ↔ ∃ x, s.pool.entries.get? key = some x
        ∧ codec.toDict (residentLocation me s.pool (s.pool.base + x.1) x.2) = d := by
  have hentries : republishEntries me s = snapshotEntries me s.pool := by
    rw [republishEntries, hdisk]
  rw [hentries, snapshotEntries_get?]
  constructor
  · rintro ⟨loc, hloc, hd⟩
    obtain ⟨x, hx, rfl⟩ := map_eq_some_iff.mp hloc
    exact ⟨x, hx, hd⟩
  · rintro ⟨x, hx, hd⟩
    exact ⟨_, by rw [hx]; rfl, hd⟩

/-! ## All nodes -/

/-- **RE-PUBLISHING RESTORES EVERY RESIDENT PAGE.**  The live nodes hold any pools and send their
    requests with rings that place keys as the reader's does; the shards hold anything; the
    requests arrive in any order.  A key that some live pool holds is then found at a live pool
    that holds it, at its address and with its length. -/
theorem republish_restores (hash : String → Nat) (codec : Codec PeerCacheDirectory.DataLocation)
    (vnodes : Nat) (ring : List RingOp) (hring : (run hash vnodes ring).sortedKeys ≠ [])
    (hnames : "" ∉ (run hash vnodes ring).nodes) (replicas : Int)
    (live : List String) (rings : String → List RingOp) (counts : String → Int)
    (hsame : ∀ node ∈ live, ∀ key,
      getNode hash (run hash vnodes (rings node)) key = getNode hash (run hash vnodes ring) key)
    (owner : String → PageOwner) (hdisk : ∀ node ∈ live, (owner node).disk = none)
    (shards : PeerCacheDirectoryClient.Shards) (requests : List PutRequest)
    (hsent : requests.Perm (live.flatMap (fun node => republishRequests hash codec
      (DirectoryClient.new (run hash vnodes (rings node)) (counts node)) node (owner node))))
    (key : String) (hheld : ∃ node ∈ live, key ∈ (owner node).pool.entries.keys) :
    ∃ node ∈ live, ∃ x, (owner node).pool.entries.get? key = some x
      ∧ PeerCacheDirectoryClient.get hash codec (fun _ => true)
          (DirectoryClient.new (run hash vnodes ring) replicas) (requests.foldl deliver shards) [key]
        = [some (residentLocation node (owner node).pool ((owner node).pool.base + x.1) x.2)] := by
  generalize hp : nodeAt (run hash vnodes ring)
    (bisect (run hash vnodes ring).sortedKeys (hash key)) = p
  have hnode : getNode hash (run hash vnodes ring) key = some p :=
    (getNode_eq_nodeAt hring key).trans (congrArg some hp)
  have hne : p ≠ "" := fun h => hnames (h ▸ hp ▸ nodeAt_mem (run_held hash vnodes ring) hring _)
  -- every live node sends the pages of its pool to the reader's primary
  have howner : ∀ node ∈ live,
      p ∈ owners hash (DirectoryClient.new (run hash vnodes (rings node)) (counts node)) key := by
    intro node hlive
    exact mem_owners_of_primary (primary_of_getNode (run_held hash vnodes (rings node))
      ((hsame node hlive key).trans hnode) hne (counts node))
  have hreq : ∀ d, (∃ request ∈ requests, request.1 = p ∧ request.2.get? key = some d)
      ↔ ∃ node ∈ live, ∃ x, (owner node).pool.entries.get? key = some x
        ∧ codec.toDict (residentLocation node (owner node).pool ((owner node).pool.base + x.1) x.2)
          = d := by
    intro d
    constructor
    · rintro ⟨request, hmem, hr⟩
      obtain ⟨node, hlive, hmem⟩ := List.mem_flatMap.mp (hsent.mem_iff.mp hmem)
      have hloc := (mem_republishRequests.mp ⟨request, hmem, hr⟩).2
      exact ⟨node, hlive, (republishEntries_get? (hdisk node hlive) key d).mp hloc⟩
    · rintro ⟨node, hlive, hx⟩
      obtain ⟨request, hmem, hr⟩ := mem_republishRequests.mpr
        ⟨howner node hlive, (republishEntries_get? (hdisk node hlive) key d).mpr hx⟩
      exact ⟨request, hsent.mem_iff.mpr (List.mem_flatMap.mpr ⟨node, hlive, hmem⟩), hr⟩
  -- so the last request that the primary is given for the key names such a pool
  rcases foldl_deliver requests shards p key with ⟨d, hlast, hget⟩ | ⟨hnone, -⟩
  · obtain ⟨node, hlive, x, hx, rfl⟩ := (hreq d).mp hlast
    refine ⟨node, hlive, x, hx, ?_⟩
    have hprim : primary hash (DirectoryClient.new (run hash vnodes ring) replicas) key = some p :=
      primary_of_getNode (run_held hash vnodes ring) hnode hne replicas
    refine (get_all (one_le_replicas _ replicas) (fun _ =>
      some (residentLocation node (owner node).pool ((owner node).pool.base + x.1) x.2)) ?_).trans ?_
    · intro k hk q hq
      obtain rfl := List.mem_singleton.mp hk
      obtain rfl := some.inj (hprim.symm.trans hq)
      exact hget
    · rw [List.map_singleton, hprim]
      rfl
  · obtain ⟨node, hlive, hkey⟩ := hheld
    obtain ⟨x, hx⟩ := mem_keys.mp hkey
    obtain ⟨request, hmem, hto, hd⟩ := (hreq _).mpr ⟨node, hlive, x, hx, rfl⟩
    cases (hnone request hmem hto).symm.trans hd

/-- A node whose pool holds the page `k` alone. -/
def holderOfK (base : Nat) : PageOwner :=
  ⟨(publish (PeerCachePool.new base 64 7 [] (fun _ => 0)) "k" [1, 2, 3]).pool, none, OrderedDict.empty,
    fun _ => OrderedDict.empty⟩

/-- Two holders of `k`, a shard with a malformed entry for it, and the requests in reverse order. -/
theorem republish_restores_two_holders :
    ∃ node ∈ ["a", "b"], ∃ x, (holderOfK (if node = "a" then 1000 else 2000)).pool.entries.get? "k"
        = some x
      ∧ PeerCacheDirectoryClient.get charCode (located (fun n => n) (fun _ => []) (fun _ => []))
          (fun _ => true) (DirectoryClient.new (run charCode 2 [.addNode "a", .addNode "b"]) 2)
          ((["a", "b"].flatMap (fun node => republishRequests charCode
              (located (fun n => n) (fun _ => []) (fun _ => []))
              (DirectoryClient.new (run charCode 2 [.addNode "a", .addNode "b"]) 2) node
              (holderOfK (if node = "a" then 1000 else 2000)))).reverse.foldl deliver
            (fun _ => ⟨[("k", ⟨[("node_id", .int 3)], by decide⟩)], by decide⟩)) ["k"]
        = [some (residentLocation node (holderOfK (if node = "a" then 1000 else 2000)).pool
            ((holderOfK (if node = "a" then 1000 else 2000)).pool.base + x.1) x.2)] :=
  republish_restores charCode (located (fun n => n) (fun _ => []) (fun _ => [])) 2
    [.addNode "a", .addNode "b"] (by decide) (by decide) 2 ["a", "b"]
    (fun _ => [.addNode "a", .addNode "b"]) (fun _ => 2) (fun _ _ _ => rfl)
    (fun node => holderOfK (if node = "a" then 1000 else 2000)) (fun _ _ => rfl) _ _
    (List.reverse_perm _) "k" ⟨"a", by decide, by decide⟩

/-- **ONE NODE'S REPUBLISH REFINES THE ABSTRACT ONE**: its chunked requests, delivered in the order it
    sends them, leave the shards as one `put` of all its entries leaves the abstract ones. -/
theorem republish_represents {shards : PeerCacheDirectoryClient.Shards}
    (h : Represents codec s.dir shards) :
    Represents codec (republishDirectory me (owners hash c) s).dir
      ((republishRequests hash codec c me s).foldl deliver shards) := by
  intro node key
  have hput : ((republishDirectory me (owners hash c) s).dir node).get? key
      = (if node ∈ owners hash c key then (republishEntries me s).get? key else none).or
          ((s.dir node).get? key) := PeerCacheDirectory.put_get? s.dir (republishEntries me s) node key
  rw [hput]
  rcases foldl_deliver (republishRequests hash codec c me s) shards node key with
    ⟨d, hlast, hget⟩ | ⟨hnone, hget⟩
  · obtain ⟨hn, loc, hloc, rfl⟩ := mem_republishRequests.mp hlast
    rw [hget, if_pos hn, hloc]
    rfl
  · have hsilent : (if node ∈ owners hash c key then (republishEntries me s).get? key else none)
        = none := by
      by_cases hn : node ∈ owners hash c key
      · rw [if_pos hn]
        cases hloc : (republishEntries me s).get? key with
        | none => rfl
        | some loc =>
          obtain ⟨request, hmem, hto, hd⟩ := mem_republishRequests.mpr ⟨hn, loc, hloc, rfl⟩
          cases (hnone request hmem hto).symm.trans hd
      · rw [if_neg hn]
    rw [hget, h, hsilent]
    rfl

/-- Two pages in the pool of `a`, one for each of two owners. -/
def twoPagesOfA : PublishedPool String :=
  (publish (publish (PeerCachePool.new 1000 64 7 [] (fun _ => 0)) "k" [1, 2, 3]).pool "b!k" [4]).pool

/-- Entries from before: one of `k` at a node that no longer has it, and one of another page. -/
def oldEntries : OrderedDict String PeerCacheDirectory.DataLocation :=
  ⟨[("k", ⟨"b", 2000, 7, 3, true⟩), ("z", ⟨"b", 2003, 7, 1, true⟩)], by decide⟩

/-- The entries go to two owners, in two requests; the old entry of `k` is overwritten and that of
    `z` stays. -/
theorem republish_represents_two_owners :
    let codec := located id (fun _ => []) (fun _ => [])
    let c := DirectoryClient.new (run charCode 2 [.addNode "a", .addNode "b"]) 1
    let s : PageOwner := ⟨twoPagesOfA, none, OrderedDict.empty,
      PeerCacheDirectory.put (owners charCode c) (fun _ => OrderedDict.empty) oldEntries⟩
    let requests := republishRequests charCode codec c "a" s
    let shards := requests.foldl deliver
      (PeerCacheDirectoryClient.put charCode codec (fun _ => true) c (fun _ => OrderedDict.empty)
        oldEntries)
    requests.map (fun request => (request.1, request.2.keys)) = [("a", ["k"]), ("b", ["b!k"])]
      ∧ Represents codec (republishDirectory "a" (owners charCode c) s).dir shards
      ∧ (shards "a").get? "k" = some (codec.toDict ⟨"a", 1000, 7, 3, true⟩)
      ∧ (shards "b").get? "b!k" = some (codec.toDict ⟨"a", 1003, 7, 1, true⟩)
      ∧ (shards "a").get? "z" = some (codec.toDict ⟨"b", 2003, 7, 1, true⟩) := by
  intro codec c s requests shards
  have hold : Represents codec s.dir (PeerCacheDirectoryClient.put charCode codec (fun _ => true) c
      (fun _ => empty) oldEntries) := put_represents (fun _ _ => rfl) oldEntries
  exact ⟨by decide +kernel, republish_represents hold, by decide +kernel, by decide +kernel,
    by decide +kernel⟩

end PeerCacheDirectoryClient
