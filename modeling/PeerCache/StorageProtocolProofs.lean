import PeerCache.HandledPagesProofs
import PeerCache.StorageServerProofs
import PeerCache.TransitionProofs

/-! # The storage write protocol — clients, one server, any interleaving

    Any number of clients prepare, WRITE and commit pages at one storage server, ingest and
    promote pages, while the server's disk worker runs and the ring changes.  A reservation
    sits in the pool like a finished page, and the server never asks whether it has been
    written: it republishes it (`unwritten_page_republished`), takes it for the page when
    another client ingests the key, or commits it for a client whose own reservation was
    evicted. -/

namespace PeerCacheProtocol

open PeerCachePool PeerCacheDirectory PeerCacheDisk PeerCacheOwner PeerCacheStorage Transition Tiling List

/-- A client's `_publish_storage`: nothing outstanding, or between prepare and commit, with the
    slots still to be written and the keys written. -/
inductive Client where
  | idle
  | writing (pending : List Slot) (written : List String)
deriving DecidableEq

structure World where
  server : PageOwner
  owners : Owners
  clients : Nat → Client
  /-- history: the keys whose entry was reserved and not written since -/
  unwritten : List String

namespace World

def setServer (w : World) (server : PageOwner) : World := { w with server := server }

def setClient (w : World) (c : Nat) (client : Client) : World :=
  { w with clients := Function.update w.clients c client }

/-- The server after a request that evicted `evicted` and reserved `reserved`. -/
def served (w : World) (server : PageOwner) (evicted reserved : List String) : World :=
  { w with
    server := server
    unwritten :=
      w.unwritten.filter (fun k => decide (k ∈ w.server.pool.entries.keys ∧ k ∉ evicted))
        ++ reserved.filter (fun k => decide (k ∉ w.server.pool.entries.keys ∨ k ∈ evicted)) }

end World

inductive Act where
  | prepare (c : Nat) (keys : List String)
  | write (c i : Nat)
  | commit (c : Nat)
  | ingest (keys : List String)
  | promote (keys : List String)
  | diskWork
  | membership (owners : Owners)
  | republish

section

variable (me : String) (safeName : String → String) (content : String → Bytes)

/-- The reply to a prepare of pages of these keys. -/
def prepareReply (w : World) (keys : List String) : PreparedAll :=
  dataPrepareWrites me w.owners w.server (keys.map fun k => (k, (content k).length))

/-- A client's WRITE into a slot. -/
def landWrite (w : World) (slot : Slot) : World :=
  { w with
    server := w.server.setPool (remoteWrite w.server.pool slot.remoteAddr (content slot.key))
    unwritten :=
      if w.server.pool.entries.get? slot.key = some (extentOf w.server.pool slot) then
        w.unwritten.filter (fun k => decide (k ≠ slot.key))
      else w.unwritten }

/-- One step; `none` when it is not enabled. -/
def step (w : World) : Act → Option World
  | .prepare c keys =>
      match w.clients c with
      | .writing _ _ => none
      | .idle =>
          let r := prepareReply me content w keys
          some ((w.served r.owner r.evicted keys).setClient c (.writing (r.slots.filterMap id) []))
  | .write c i =>
      match w.clients c with
      | .idle => none
      | .writing pending written =>
          match pending[i]? with
          | none => none
          | some slot =>
              some ((landWrite content w slot).setClient c
                (.writing (pending.eraseIdx i) (written ++ [slot.key])))
  | .commit c =>
      match w.clients c with
      | .writing [] written =>
          some ((w.served (dataCommitWrites me w.owners w.server written).owner [] []).setClient c .idle)
      | _ => none
  | .ingest keys =>
      let r := dataIngest me w.owners w.server (keys.map fun k => (k, content k))
      some (w.served r.owner r.evicted [])
  | .promote keys =>
      let r := dataPromote me w.owners w.server keys
      some (w.served r.owner r.evicted [])
  | .diskWork => some (w.setServer (diskWork w.owners safeName w.server))
  | .membership owners => some { w with owners := owners }
  | .republish => some (w.setServer (republishDirectory me w.owners w.server))

/-- No shard names a page for the key. -/
def Unnamed (w : World) (k : String) : Prop :=
  ∀ node loc, (w.server.dir node).get? k = some loc → loc.resident = false

/-- The pages of a request are reserved one after the other, and `k` need not make room for any. -/
def Spared (owners : Owners) (k : String) :
    List ((String × Nat) × Bool) → PageOwner → Prop
  | [], _ => True
  | ((key, length), existing) :: pages, s =>
      (key = "" ∨ length = 0 ∨ key ∈ s.pool.entries.keys ∨ k ∉ victims s.pool length)
        ∧ Spared owners k pages (prepareOne me owners s key length existing).owner

/-- The conditions on a step. -/
def Safe (w : World) : Act → Prop
  | .prepare _ keys => ∀ k ∈ keys, (k ∈ w.server.pool.entries.keys ∧ Spared me w.owners k
      (keys.map fun j => ((j, (content j).length), existMap w.owners w.server.dir j)) w.server)
        ∨ Unnamed w k
  | .write c i =>
      match w.clients c with
      | .idle => True
      | .writing pending _ => ∀ slot, pending[i]? = some slot →
          ∀ k x, w.server.pool.entries.get? k = some x →
            Apart x (extentOf w.server.pool slot)
              ∨ (k = slot.key ∧ x = extentOf w.server.pool slot)
  | .commit c =>
      match w.clients c with
      | .idle => True
      | .writing _ written => ∀ k ∈ written, k ∈ w.server.pool.entries.keys → k ∉ w.unwritten
  | .ingest keys => ∀ k ∈ keys, k ∈ w.server.pool.entries.keys → k ∉ w.unwritten
  | .republish => ∀ k ∈ w.server.pool.entries.keys, k ∉ w.unwritten
  | _ => True

end

/-- A fresh server. -/
def World.init (pool : PublishedPool String) (disk : Option Nat) (owners : Owners) :
    World :=
  ⟨⟨pool, disk.map DiskStore.empty, OrderedDict.empty, fun _ => OrderedDict.empty⟩, owners,
    fun _ => .idle, []⟩

/-! ## The server's invariant -/

section

variable {me : String} {owners : Owners} {safeName : String → String}
  {content : String → Bytes} {keysUsed : Set String}

/-- Pages written hold their content, and only those are named. -/
structure ServerInv (safeName : String → String) (content : String → Bytes)
    (keysUsed : Set String) (s : PageOwner) (unwritten : List String) : Prop where
  pool : Inv s.pool
  sized : ∀ k, SizedFor content s.pool k
  holds : ∀ k, k ∉ unwritten → HoldsFor content s.pool k
  named : ∀ node k loc, (s.dir node).get? k = some loc → loc.resident = true →
    Current s.pool k loc → k ∉ unwritten
  disk : DiskSound safeName content keysUsed s

namespace ServerInv

variable {s t : PageOwner} {unwritten evicted reserved : List String}

lemma mem_served {w : World} {k : String} : k ∈ (w.served t evicted reserved).unwritten
      ↔ (k ∈ w.unwritten ∧ k ∈ w.server.pool.entries.keys ∧ k ∉ evicted)
        ∨ (k ∈ reserved ∧ (k ∉ w.server.pool.entries.keys ∨ k ∈ evicted)) := by
  simp only [World.served, mem_append, mem_filter, decide_eq_true_eq]

/-- **A REQUEST BEFORE ITS PUT.**  A key resident all along keeps its page and its names; of the
    others only the reserved ones are unwritten, and those had no name. -/
lemma served {w : World} (h : ServerInv safeName content keysUsed w.server w.unwritten)
    (heff : OwnerEffect owners content w.server t evicted reserved)
    (hd : DiskSound safeName content keysUsed t)
    (hres : ∀ k ∈ reserved, (k ∈ w.server.pool.entries.keys ∧ k ∉ evicted) ∨ Unnamed w k) :
    ServerInv safeName content keysUsed t (w.served t evicted reserved).unwritten where
  pool := heff.pool.inv
  sized := fun k => heff.pool.sized k (h.sized k)
  holds := by
    intro k hk
    rw [mem_served, not_or] at hk
    by_cases hstay : k ∈ w.server.pool.entries.keys ∧ k ∉ evicted
    · exact heff.pool.holds k (.inl hstay) (h.holds k (fun hu => hk.1 ⟨hu, hstay⟩))
    · have hnot : k ∉ reserved := by
        intro hr
        refine hk.2 ⟨hr, ?_⟩
        by_cases hin : k ∈ w.server.pool.entries.keys
        · exact .inr (by_contra fun hev => hstay ⟨hin, hev⟩)
        · exact .inl hin
      by_cases hin : k ∈ w.server.pool.entries.keys
      · exact heff.pool.dropped k (by_contra fun hev => hstay ⟨hin, hev⟩) hnot
      · exact heff.pool.holds k (.inr hnot) (holdsFor_of_not_mem hin)
  named := by
    intro node k loc hk hloc hcur hu
    have hold := (heff.resident node k loc hk hloc).1
    rcases mem_served.mp hu with ⟨hu, hstay⟩ | ⟨hr, hgone⟩
    · -- the entry is the old one, so the name was current before
      obtain ⟨x, hx, haddr, hlen⟩ := hcur
      refine h.named node k loc hold hloc ⟨x, heff.pool.get?_before hx hstay.1 hstay.2, ?_, hlen⟩ hu
      rw [haddr, heff.pool.region.base]
    · rcases hres k hr with ⟨hin, hev⟩ | hun
      · exact hgone.elim (fun h => h hin) (fun h => hev h)
      · exact nomatch hloc.symm.trans (hun node loc hold)
  disk := hd

lemma put (h : ServerInv safeName content keysUsed s unwritten)
    {entries : Locations}
    (hent : ∀ k loc, entries.get? k = some loc → loc.resident = true → k ∉ unwritten) :
    ServerInv safeName content keysUsed (s.setDir (PeerCacheDirectory.put owners s.dir entries))
      unwritten where
  pool := h.pool
  sized := h.sized
  holds := h.holds
  disk := h.disk
  named := by
    intro node k loc hk hloc hcur
    rcases put_get?_cases hk with ⟨-, hput⟩ | ⟨hold, -⟩
    · exact hent k loc hput hloc
    · exact h.named node k loc hold hloc hcur

lemma delete (h : ServerInv safeName content keysUsed s unwritten) (keys : List String) :
    ServerInv safeName content keysUsed (s.setDir (PeerCacheDirectory.delete owners s.dir keys))
      unwritten where
  pool := h.pool
  sized := h.sized
  holds := h.holds
  disk := h.disk
  named := fun node k loc hk => h.named node k loc (delete_get?_some hk).1

lemma diskWork (hinj : Set.InjOn safeName keysUsed)
    (h : ServerInv safeName content keysUsed s unwritten) :
    ServerInv safeName content keysUsed (PeerCacheOwner.diskWork owners safeName s) unwritten := by
  obtain ⟨hpool, hdir⟩ := diskWork_spec owners safeName s
  refine ⟨hpool ▸ h.pool, hpool ▸ h.sized, hpool ▸ h.holds, ?_, diskSound_diskWork hinj h.disk⟩
  intro node k loc hk hloc hcur
  exact h.named node k loc (hdir node k loc hk).1 hloc (hpool ▸ hcur)

end ServerInv

/-! ## The requests -/

variable {w : World}

variable (me) in
lemma mem_prepareOne_evicted {owners : Owners} {key k : String} {length : Nat}
    (existing : Bool) : k ∈ (prepareOne me owners s key length existing).evicted
      ↔ ¬ (key = "" ∨ length = 0 ∨ key ∈ s.pool.entries.keys ∨ k ∉ victims s.pool length) := by
  have hnew : k ∈ (prepareNew me owners s key length).evicted
      ↔ key ∉ s.pool.entries.keys ∧ k ∈ victims s.pool length := mem_place_evicted
  rw [prepareOne]
  split_ifs with hbad hex
  · simp only [not_mem_nil, false_iff, not_not]
    tauto
  · rw [addressOf]
    cases hx : s.pool.entries.get? key with
    | none =>
      rw [hnew]
      tauto
    | some x =>
      have hin : key ∈ s.pool.entries.keys := OrderedDict.mem_keys.mpr ⟨x, hx⟩
      simp [hin]
  · rw [hnew]
    tauto

/-- The condition is that the prepare evicts no page of `k`. -/
lemma spared_iff {owners : Owners} {k : String}
    (pages : List ((String × Nat) × Bool)) :
    Spared me owners k pages s ↔ k ∉ (prepareLoop me owners pages s).evicted := by
  induction pages generalizing s with
  | nil => exact iff_of_true trivial not_mem_nil
  | cons q pages ih =>
    obtain ⟨⟨key, length⟩, existing⟩ := q
    rw [Spared, prepareLoop, mem_append, not_or, mem_prepareOne_evicted, not_not, ih]

/-- **PREPARE** -/
lemma serverInv_prepare (h : ServerInv safeName content keysUsed w.server w.unwritten) (c : Nat)
    (keys : List String) (hok : Safe me content w (.prepare c keys)) :
    ServerInv safeName content keysUsed (prepareReply me content w keys).owner
      (w.served (prepareReply me content w keys).owner (prepareReply me content w keys).evicted
        keys).unwritten := by
  have heff : OwnerEffect w.owners content w.server (prepareReply me content w keys).owner
      (prepareReply me content w keys).evicted ((keys.map fun k => (k, (content k).length)).map Prod.fst) := by
    refine ownerEffect_dataPrepareWrites ?_ h.pool
    intro q hq
    obtain ⟨k, -, rfl⟩ := mem_map.mp hq
    rfl
  rw [map_map, show (Prod.fst ∘ fun k => (k, (content k).length)) = id from rfl, map_id] at heff
  refine h.served heff (h.disk.congr (prepareLoop_disk _ _)) fun k hk => (hok k hk).imp_left ?_
  refine fun hin => ⟨hin.1, ?_⟩
  rw [prepareReply, dataPrepareWrites, map_map]
  exact (spared_iff _).mp hin.2

/-- **COMMIT** -/
lemma serverInv_commit (h : ServerInv safeName content keysUsed w.server w.unwritten)
    {keys : List String} (hused : ∀ k ∈ keys, k ∈ keysUsed)
    (hok : ∀ k ∈ keys, k ∈ w.server.pool.entries.keys → k ∉ w.unwritten) :
    ServerInv safeName content keysUsed (dataCommitWrites me w.owners w.server keys).owner
      (w.served (dataCommitWrites me w.owners w.server keys).owner [] []).unwritten := by
  obtain ⟨heff, hent⟩ := commitLoop_spec me w.owners content keys h.pool OrderedDict.empty
  have hkeys : ∀ k ∈ keys, HoldsFor content w.server.pool k := by
    intro k hk
    by_cases hin : k ∈ w.server.pool.entries.keys
    · exact h.holds k (hok k hk hin)
    · exact holdsFor_of_not_mem hin
  have hserved := h.served heff (diskSound_commitLoop keys h.pool h.disk hused hkeys _)
    (forall_mem_nil _)
  refine hserved.put ?_
  intro k loc hk _ hu
  rcases hent k loc hk with hk | ⟨hmem, hin, -⟩
  · cases hk
  · rcases ServerInv.mem_served.mp hu with ⟨hu, -⟩ | ⟨hr, -⟩
    · exact hok k hmem hin hu
    · cases hr

/-- **INGEST** -/
lemma serverInv_ingest (h : ServerInv safeName content keysUsed w.server w.unwritten)
    {keys : List String} (hused : ∀ k ∈ keys, k ∈ keysUsed)
    (hok : ∀ k ∈ keys, k ∈ w.server.pool.entries.keys → k ∉ w.unwritten) :
    ServerInv safeName content keysUsed
      (dataIngest me w.owners w.server (keys.map fun k => (k, content k))).owner
      (w.served (dataIngest me w.owners w.server (keys.map fun k => (k, content k))).owner
        (dataIngest me w.owners w.server (keys.map fun k => (k, content k))).evicted []).unwritten := by
  rw [dataIngest, map_map]
  generalize hp : keys.map ((fun q : String × Bytes =>
    (q, admission q.1 (existMap w.owners w.server.dir q.1))) ∘ fun k => (k, content k)) = pages
  have hpages : ∀ q ∈ pages, q.1.1 ∈ keys ∧ q.1.2 = content q.1.1 := by
    intro q hq
    rw [← hp] at hq
    obtain ⟨k, hk, rfl⟩ := mem_map.mp hq
    exact ⟨hk, rfl⟩
  obtain ⟨t, entries, hown, heff, hdisk, hent⟩ :=
    publishPages_spec me w.owners pages (fun q hq => (hpages q hq).2) h.pool
  have hsound : DiskSound safeName content keysUsed t :=
    (diskSound_publishLoop pages (fun q hq => ⟨hused _ (hpages q hq).1, (hpages q hq).2⟩) h.disk
      OrderedDict.empty).congr hdisk
  rw [hown]
  refine (h.served heff hsound (forall_mem_nil _)).put ?_
  intro k loc hk _ hu
  obtain ⟨q, hq, rfl⟩ := mem_map.mp (hent.batch k loc hk).1
  rcases ServerInv.mem_served.mp hu with ⟨hu, hin, -⟩ | ⟨hr, -⟩
  · exact hok _ (hpages q hq).1 hin hu
  · cases hr

/-- **PROMOTE** -/
lemma serverInv_promote (h : ServerInv safeName content keysUsed w.server w.unwritten)
    (keys : List String) :
    ServerInv safeName content keysUsed (dataPromote me w.owners w.server keys).owner
      (w.served (dataPromote me w.owners w.server keys).owner
        (dataPromote me w.owners w.server keys).evicted []).unwritten := by
  obtain ⟨heff, hdisk, hprom⟩ := ensureLoop_spec me w.owners keys h.pool h.disk OrderedDict.empty
  refine (ServerInv.put (h.served heff hdisk (forall_mem_nil _)) ?_).delete _
  intro k loc hk _ hu
  rcases hprom k loc hk with hk | hk
  · cases hk
  · rcases ServerInv.mem_served.mp hu with ⟨-, hin, hev⟩ | ⟨hr, -⟩
    · exact hev (hk hin)
    · cases hr

/-- **A WRITE** that lands on no other key's page. -/
lemma serverInv_write (h : ServerInv safeName content keysUsed w.server w.unwritten) {slot : Slot}
    (hlen : slot.length = (content slot.key).length)
    (hok : ∀ k x, w.server.pool.entries.get? k = some x →
      Apart x (extentOf w.server.pool slot) ∨ (k = slot.key ∧ x = extentOf w.server.pool slot)) :
    ServerInv safeName content keysUsed (landWrite content w slot).server
      (landWrite content w slot).unwritten := by
  have hext : extentOf w.server.pool slot
      = (slot.remoteAddr - w.server.pool.base, (content slot.key).length) := by rw [extentOf, hlen]
  have hsub : ∀ k, k ∈ (landWrite content w slot).unwritten → k ∈ w.unwritten := by
    intro k hk
    rw [landWrite] at hk
    simp only at hk
    split_ifs at hk with hcur
    · exact (mem_filter.mp hk).1
    · exact hk
  refine ⟨inv_remoteWrite h.pool _ _, h.sized, ?_, ?_, h.disk.congr rfl⟩
  · intro k hk
    by_cases hcur : k = slot.key
        ∧ w.server.pool.entries.get? slot.key = some (extentOf w.server.pool slot)
    · -- the slot is the key's own page
      obtain ⟨rfl, hx⟩ := hcur
      refine holdsFor_remoteWrite_same ?_
      intro e he
      rw [Option.some.inj (he.symm.trans hx), hext]
    · have hold : k ∉ w.unwritten := by
        intro hu
        refine hk ?_
        rw [landWrite]
        simp only
        split_ifs with hx
        · exact mem_filter.mpr ⟨hu, decide_eq_true (fun hkey => hcur ⟨hkey, hx⟩)⟩
        · exact hu
      refine holdsFor_remoteWrite (h.holds k hold) ?_
      intro e he
      rw [← hext]
      rcases hok k e he with hapart | ⟨rfl, rfl⟩
      · exact hapart
      · exact absurd ⟨rfl, he⟩ hcur
  · intro node k loc hk hloc hcur hu
    exact h.named node k loc hk hloc hcur (hsub k hu)

/-! ## Every run -/

/-- Slots outstanding are of the lengths of their contents. -/
structure ClientOk (content : String → Bytes) (keysUsed : Set String) (client : Client) : Prop where
  pending : ∀ pending written, client = .writing pending written →
    ∀ slot ∈ pending, slot.key ∈ keysUsed ∧ slot.length = (content slot.key).length
  written : ∀ pending written, client = .writing pending written → ∀ k ∈ written, k ∈ keysUsed

lemma clientOk_idle : ClientOk content keysUsed .idle := ⟨nofun, nofun⟩

lemma clientOk_writing {pending : List Slot} {written : List String}
    (hp : ∀ slot ∈ pending, slot.key ∈ keysUsed ∧ slot.length = (content slot.key).length)
    (hw : ∀ k ∈ written, k ∈ keysUsed) : ClientOk content keysUsed (.writing pending written) := by
  refine ⟨?_, ?_⟩
  · intro _ _ heq
    cases heq
    exact hp
  · intro _ _ heq
    cases heq
    exact hw

structure WorldInv (safeName : String → String) (content : String → Bytes)
    (keysUsed : Set String) (w : World) : Prop where
  server : ServerInv safeName content keysUsed w.server w.unwritten
  clients : ∀ c, ClientOk content keysUsed (w.clients c)

lemma WorldInv.setClient (h : WorldInv safeName content keysUsed w) {c : Nat} {client : Client}
    (hc : ClientOk content keysUsed client) :
    WorldInv safeName content keysUsed (w.setClient c client) := by
  refine ⟨h.server, ?_⟩
  intro d
  show ClientOk content keysUsed (Function.update w.clients c client d)
  by_cases hd : d = c
  · rw [hd, Function.update_self]; exact hc
  · rw [Function.update_of_ne hd]; exact h.clients d

/-- The keys of a request that can enter the server. -/
def Act.keys : Act → List String
  | .prepare _ keys => keys
  | .ingest keys => keys
  | _ => []

lemma prepareReply_slots (h : ServerInv safeName content keysUsed w.server w.unwritten)
    {keys : List String} (hused : ∀ k ∈ keys, k ∈ keysUsed) :
    ∀ slot ∈ (prepareReply me content w keys).slots.filterMap id,
      slot.key ∈ keysUsed ∧ slot.length = (content slot.key).length := by
  intro slot hslot
  obtain ⟨o, ho, hid⟩ := mem_filterMap.mp hslot
  obtain rfl : o = some slot := hid
  have hpages : ∀ q ∈ (keys.map fun k => (k, (content k).length)).map
      (fun q => (q, existMap w.owners w.server.dir q.1)),
      q.1.1 ∈ keys ∧ q.1.2 = (content q.1.1).length := by
    intro q hq
    obtain ⟨x, hx, rfl⟩ := mem_map.mp hq
    obtain ⟨k, hk, rfl⟩ := mem_map.mp hx
    exact ⟨hk, rfl⟩
  obtain ⟨hmem, hlen⟩ := prepareLoop_slots _ (fun q hq => (hpages q hq).2) h.pool h.sized ho
  obtain ⟨q, hq, hkey⟩ := mem_map.mp hmem
  exact ⟨hkey ▸ hused _ (hpages q hq).1, hlen⟩

/-- **ONE SAFE STEP** keeps the invariant. -/
lemma step_worldInv (hinj : Set.InjOn safeName keysUsed) {t : World} {a : Act}
    (h : WorldInv safeName content keysUsed w) (hused : ∀ k ∈ a.keys, k ∈ keysUsed)
    (hok : Safe me content w a) (hstep : step me safeName content w a = some t) :
    WorldInv safeName content keysUsed t := by
  cases a with
  | prepare c keys =>
    cases hc : w.clients c with
    | writing pending written => simp only [step, hc] at hstep; cases hstep
    | idle =>
      simp only [step, hc] at hstep
      cases hstep
      have hserved : WorldInv safeName content keysUsed (w.served
          (prepareReply me content w keys).owner (prepareReply me content w keys).evicted keys) :=
        ⟨serverInv_prepare h.server c keys hok, h.clients⟩
      refine hserved.setClient ?_
      exact clientOk_writing (prepareReply_slots h.server hused)
        (forall_mem_nil _)
  | write c i =>
    cases hc : w.clients c with
    | idle => simp only [step, hc] at hstep; cases hstep
    | writing pending written =>
      cases hi : pending[i]? with
      | none => simp only [step, hc, hi] at hstep; cases hstep
      | some slot =>
        simp only [step, hc, hi] at hstep
        cases hstep
        simp only [Safe, hc] at hok
        have hpend := (h.clients c).pending pending written hc
        have hslot := hpend slot (mem_of_getElem? hi)
        refine WorldInv.setClient ⟨serverInv_write h.server hslot.2 (hok slot hi), h.clients⟩ ?_
        refine clientOk_writing (fun s hs => hpend s (mem_of_mem_eraseIdx hs)) ?_
        intro k hk
        rcases mem_append.mp hk with hk | hk
        · exact (h.clients c).written pending written hc k hk
        · exact (mem_singleton.mp hk) ▸ hslot.1
  | commit c =>
    cases hc : w.clients c with
    | idle => simp only [step, hc] at hstep; cases hstep
    | writing pending written =>
      cases pending with
      | cons slot pending => simp only [step, hc] at hstep; cases hstep
      | nil =>
        simp only [step, hc] at hstep
        cases hstep
        simp only [Safe, hc] at hok
        have hwritten := (h.clients c).written [] written hc
        have hserved : WorldInv safeName content keysUsed (w.served
            (dataCommitWrites me w.owners w.server written).owner [] []) :=
          ⟨serverInv_commit h.server hwritten hok, h.clients⟩
        exact hserved.setClient clientOk_idle
  | ingest keys =>
    cases hstep
    exact ⟨serverInv_ingest h.server hused hok, h.clients⟩
  | promote keys =>
    cases hstep
    exact ⟨serverInv_promote h.server keys, h.clients⟩
  | diskWork =>
    cases hstep
    exact ⟨h.server.diskWork hinj, h.clients⟩
  | membership owners =>
    cases hstep
    exact ⟨h.server, h.clients⟩
  | republish =>
    cases hstep
    -- the snapshot lists reservations too; only the guard keeps unwritten ones out
    refine ⟨h.server.put ?_, h.clients⟩
    exact fun k loc hk hres => hok k (republishEntries_resident hk hres)

lemma worldInv_init {pool : PublishedPool String} (hi : Inv pool) (hempty : pool.entries.keys = [])
    (disk : Option Nat) (owners : Owners) :
    WorldInv safeName content keysUsed (World.init pool disk owners) where
  server :=
    { pool := hi
      sized := fun k x hx => absurd (OrderedDict.mem_keys.mpr ⟨x, hx⟩) (hempty ▸ not_mem_nil)
      holds := fun k _ => holdsFor_of_not_mem (hempty ▸ not_mem_nil)
      named := fun _ _ _ hk => nomatch hk
      disk := by
        intro d hd
        obtain ⟨n, -, rfl⟩ := Option.map_eq_some_iff.mp hd
        exact diskOk_empty n }
  clients := fun _ => clientOk_idle

end

/-- The keys that a list of actions can bring to the server. -/
def keysOf (acts : List Act) : Set String := { k | ∃ a ∈ acts, k ∈ a.keys }

/-- **NO WRONG BYTES WHEN EVERY STEP IS SAFE.**  Any number of clients, any interleaving, any ring
    changes: a resident directory entry that is the pool's entry of its key reads the key's
    content. -/
theorem no_wrong_bytes_when_safe (me : String) (safeName : String → String)
    (content : String → Bytes) (base capacity rkey : Nat) (rkeys : List Nat) (buf : Mem)
    (disk : Option Nat) (owners : Owners) (acts : List Act)
    (hinj : Set.InjOn safeName (keysOf acts)) {w : World}
    (hok : Guarded (step me safeName content) (Safe me content)
      (World.init (new base capacity rkey rkeys buf) disk owners) acts)
    (hrun : Transition.run (step me safeName content)
      (World.init (new base capacity rkey rkeys buf) disk owners) acts = some w) :
    ∀ node k loc, (w.server.dir node).get? k = some loc → loc.resident = true →
      Current w.server.pool k loc → readLocation w.server.pool loc = content k := by
  have hinit : WorldInv safeName content (keysOf acts)
      (World.init (new base capacity rkey rkeys buf) disk owners) :=
    worldInv_init (inv_new _ _ _ _ _) rfl disk owners
  have hw := run_invariant (fun _ a _ ha h hsafe hstep =>
    step_worldInv hinj h (fun k hk => ⟨a, ha, hk⟩) hsafe hstep) hinit hok hrun
  intro node k loc hk hres hcur
  exact hcur.read (hw.server.holds k (hw.server.named node k loc hk hres hcur))

/-- A server with room for one page of one byte, zeroed. -/
def onePageServer : World := World.init (new 100 1 7 [7] (fun _ => 0)) none (fun _ => ["s"])

def oneByte : String → Bytes := fun _ => [1]

/-- Two clients write one page, and the first commits it. -/
def writeRun : List Act := [.prepare 0 ["k"], .prepare 1 ["k"], .write 1 0, .write 0 0, .commit 0]

/-- The slot they are given. -/
def slotK : Slot := ⟨"k", "s", 100, 7, 1⟩

/-- What the conditions of a step look at. -/
structure Look where
  first : Client
  second : Client
  items : List (String × Nat × Nat)
  extent : Nat × Nat
  unwritten : List String
deriving DecidableEq

def look (w : World) : Look :=
  ⟨w.clients 0, w.clients 1, w.server.pool.entries.items, extentOf w.server.pool slotK, w.unwritten⟩

lemma look_eq {w : World} {acts : List Act} {l : Look}
    (h : (Transition.run (step "s" id oneByte) onePageServer acts).map look = some l)
    (hw : Transition.run (step "s" id oneByte) onePageServer acts = some w) : look w = l := by
  rw [hw] at h
  exact Option.some.inj h

/-- The one page in the pool is the slot. -/
lemma safe_write {w : World} {c : Nat} (hc : w.clients c = .writing [slotK] [])
    (hitems : w.server.pool.entries.items = [("k", (0, 1))])
    (hext : extentOf w.server.pool slotK = (0, 1)) : Safe "s" oneByte w (.write c 0) := by
  simp only [Safe, hc]
  intro slot hslot k x hx
  cases hslot
  have hmem := OrderedDict.get?_eq_some.mp hx
  rw [hitems, mem_singleton, Prod.mk.injEq] at hmem
  exact .inr ⟨hmem.1, hmem.2.trans hext.symm⟩

lemma writeRun_safe : Guarded (step "s" id oneByte) (Safe "s" oneByte) onePageServer writeRun := by
  refine ⟨fun _ _ => .inr (by rintro _ _ ⟨⟩), fun t ht => ?_⟩
  have hrun₁ : Transition.run (step "s" id oneByte) onePageServer [.prepare 0 ["k"]] = some t := by
    rw [Transition.run, ht]; rfl
  have h₁ := look_eq (l := ⟨.writing [slotK] [], .idle, [("k", 0, 1)], (0, 1), ["k"]⟩)
    (by decide +kernel) hrun₁
  simp only [look, Look.mk.injEq] at h₁
  have hin : "k" ∈ t.server.pool.entries.keys := by
    rw [OrderedDict.keys, h₁.2.2.1]
    exact .head _
  refine ⟨forall_mem_singleton.mpr (.inl ⟨hin, .inr (.inr (.inl hin)), trivial⟩), fun u hu => ?_⟩
  have hrun₂ : Transition.run (step "s" id oneByte) onePageServer
      [.prepare 0 ["k"], .prepare 1 ["k"]] = some u := by
    rw [Transition.run, ht, Option.bind_some, Transition.run, hu]; rfl
  have h₂ := look_eq
    (l := ⟨.writing [slotK] [], .writing [slotK] [], [("k", 0, 1)], (0, 1), ["k"]⟩) (by decide +kernel) hrun₂
  simp only [look, Look.mk.injEq] at h₂
  refine ⟨safe_write h₂.2.1 h₂.2.2.1 h₂.2.2.2.1, fun v hv => ?_⟩
  have hrun₃ : Transition.run (step "s" id oneByte) onePageServer
      [.prepare 0 ["k"], .prepare 1 ["k"], .write 1 0] = some v := by
    rw [Transition.run, ht, Option.bind_some, Transition.run, hu, Option.bind_some, Transition.run,
      hv]; rfl
  have h₃ := look_eq (l := ⟨.writing [slotK] [], .writing [] ["k"], [("k", 0, 1)], (0, 1), []⟩)
    (by decide +kernel) hrun₃
  simp only [look, Look.mk.injEq] at h₃
  refine ⟨safe_write h₃.1 h₃.2.2.1 h₃.2.2.2.1, fun x hx => ?_⟩
  have hrun₄ : Transition.run (step "s" id oneByte) onePageServer
      [.prepare 0 ["k"], .prepare 1 ["k"], .write 1 0, .write 0 0] = some x := by
    rw [Transition.run, ht, Option.bind_some, Transition.run, hu, Option.bind_some, Transition.run,
      hv, Option.bind_some, Transition.run, hx]; rfl
  have h₄ := look_eq (l := ⟨.writing [] ["k"], .writing [] ["k"], [("k", 0, 1)], (0, 1), []⟩)
    (by decide +kernel) hrun₄
  simp only [look, Look.mk.injEq] at h₄
  refine ⟨?_, fun _ _ => trivial⟩
  simp only [Safe, h₄]
  exact fun _ _ _ => not_mem_nil

/-- The page written by both and committed is named, and holds its byte. -/
theorem no_wrong_bytes_when_safe_two_clients :
    ∃ w, Transition.run (step "s" id oneByte) onePageServer writeRun = some w
      ∧ ((w.server.dir "s").get? "k").isSome
      ∧ ∀ node k loc, (w.server.dir node).get? k = some loc → loc.resident = true →
        Current w.server.pool k loc → readLocation w.server.pool loc = oneByte k := by
  have hnamed : (Transition.run (step "s" id oneByte) onePageServer writeRun).map
      (fun w => ((w.server.dir "s").get? "k").isSome) = some true := by decide +kernel
  obtain ⟨w, hrun, hw⟩ := Option.map_eq_some_iff.mp hnamed
  exact ⟨w, hrun, hw, no_wrong_bytes_when_safe "s" id oneByte 100 1 7 [7] (fun _ => 0) none
    (fun _ => ["s"]) writeRun (Set.injOn_id _) writeRun_safe hrun⟩

/-- **AN UNWRITTEN PAGE REPUBLISHED**: between a client's prepare and its WRITE the membership
    changes, and the server republishes its pool.  The directory then names the reservation as
    the page, and it holds what was in the slot before. -/
theorem unwritten_page_republished :
    oneByte "k" = [1]
      ∧ (Transition.run (step "s" id oneByte) onePageServer
          [.prepare 0 ["k"], .membership (fun _ => ["s"]), .republish]).map
          (fun w => ((w.server.dir "s").get? "k").map (fun loc =>
            (loc.resident, decide (Current w.server.pool "k" loc), readLocation w.server.pool loc)))
        = some (some (true, true, [0])) := by
  exact ⟨rfl, by decide +kernel⟩

end PeerCacheProtocol
