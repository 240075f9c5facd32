import PeerCache.PublishBatchProofs

/-! # The storage server — prepare, commit, ingest, promote

    A client writes pages to a storage server in two phases.  `data_prepare_writes` reserves
    slots in the server's pool and returns their addresses; the client WRITEs the pages
    there; `data_commit_writes` puts the entries of the keys in the directory.
    `data_ingest` takes the bytes in the request itself, `data_promote` brings pages back
    from disk. -/

namespace PeerCacheStorage

open PeerCachePool PeerCacheDirectory PeerCacheDisk PeerCacheOwner Tiling OrderedDict

/-- `_slot_dict`: where a client may WRITE a page. -/
structure Slot where
  key : String
  nodeId : String
  remoteAddr : Nat
  rkey : Nat
  length : Nat
deriving DecidableEq

/-- Where a slot lies in the pool. -/
def extentOf (pool : PublishedPool String) (slot : Slot) : Extent :=
  (slot.remoteAddr - pool.base, slot.length)

section

variable (me : String) (owners : Owners)

def slotDict (pool : PublishedPool String) (key : String) (remoteAddr length : Nat) : Slot :=
  ⟨key, me, remoteAddr, pool.rkey, length⟩

/-- `exist_map` of the handlers: what `directory.exists` answers for a key at the start of the
    request. -/
def existMap (dir : Shards) (key : String) : Bool := (view owners dir key).isSome

/-! ## `_on_data_prepare_writes` -/

structure Prepared where
  slot : Option Slot
  owner : PageOwner
  evicted : List String

/-- A page that has no slot yet. -/
def prepareNew (s : PageOwner) (key : String) (length : Nat) : Prepared :=
  let r := reservePage me owners s key length
  ⟨r.addr.map (fun addr => slotDict me r.owner.pool key addr length), r.owner, r.evicted⟩

/-- One page of the request; `existing` is what the directory said at its start. -/
def prepareOne (s : PageOwner) (key : String) (length : Nat) (existing : Bool) : Prepared :=
  if key = "" ∨ length = 0 then ⟨none, s, []⟩
  else if existing then
    match addressOf s.pool key with
    | (some (addr, ln), pool) => ⟨some (slotDict me pool key addr ln), s.setPool pool, []⟩
    | (none, _) => prepareNew me owners s key length
  else prepareNew me owners s key length

structure PreparedAll where
  slots : List (Option Slot)
  owner : PageOwner
  evicted : List String

def prepareLoop : List ((String × Nat) × Bool) → PageOwner → PreparedAll
  | [], s => ⟨[], s, []⟩
  | ((key, length), existing) :: pages, s =>
      let e := prepareOne me owners s key length existing
      let r := prepareLoop pages e.owner
      ⟨e.slot :: r.slots, r.owner, e.evicted ++ r.evicted⟩

/-- `_on_data_prepare_writes` -/
def dataPrepareWrites (s : PageOwner) (pages : List (String × Nat)) : PreparedAll :=
  prepareLoop me owners (pages.map fun q => (q, existMap owners s.dir q.1)) s

/-! ## `_on_data_commit_writes` -/

structure Committed where
  results : List Bool
  entries : Locations
  owner : PageOwner

/-- A page found in the pool goes to disk as it is there, and its length is noted. -/
def commitPage (s : PageOwner) (key : String) (addr length : Nat) : PageOwner :=
  let s := (s.setPool (addressOf s.pool key).2).setLen key length
  s.diskPut key (s.pool.buf.read (addr - s.pool.base) length)

def commitLoop : List String → PageOwner → Locations → Committed
  | [], s, entries => ⟨[], entries, s⟩
  | key :: keys, s, entries =>
      match (addressOf s.pool key).1 with
      | none =>
          let r := commitLoop keys s entries
          { r with results := false :: r.results }
      | some (addr, length) =>
          let s := commitPage s key addr length
          let r := commitLoop keys s (entries.set key (residentLocation me s.pool addr length))
          { r with results := true :: r.results }

/-- `_on_data_commit_writes` -/
def dataCommitWrites (s : PageOwner) (keys : List String) : Committed :=
  let r := commitLoop me keys s OrderedDict.empty
  { r with owner := r.owner.setDir (put owners r.owner.dir r.entries) }

/-! ## `_on_data_ingest`, `_on_data_promote` -/

/-- What `_on_data_ingest` does with a page. -/
def admission (key : String) (existing : Bool) : Admission :=
  if key = "" then .refused else if existing then .existing else .fresh

/-- `_on_data_ingest` -/
def dataIngest (s : PageOwner) (pages : List (String × Bytes)) : Published :=
  publishPages me owners s
    (pages.map fun q => (q, admission q.1 (existMap owners s.dir q.1)))

/-- `_on_data_promote` -/
def dataPromote (s : PageOwner) (keys : List String) : EnsuredAll :=
  let r := ensureResident me owners s keys
  let misses := ((keys.zip r.locs).filter (fun q => decide (q.2 = none))).map Prod.fst
  { r with owner := r.owner.setDir (delete owners r.owner.dir misses) }

end

section

variable {me : String} {owners : Owners} {content : String → Bytes}
  {safeName : String → String} {keysUsed : Set String}

/-! ## What the handlers do -/

/-- **ONE PAGE OF A PREPARE**: refused, or the page the directory knows, or reserved. -/
lemma prepareOne_cases (me : String) (owners : Owners) (s : PageOwner) (key : String)
    (length : Nat) (existing : Bool) :
    ((key = "" ∨ length = 0) ∧ prepareOne me owners s key length existing = ⟨none, s, []⟩)
      ∨ (∃ x, s.pool.entries.get? key = some x ∧ prepareOne me owners s key length existing
          = ⟨some (slotDict me (addressOf s.pool key).2 key (s.pool.base + x.1) x.2),
              s.setPool (addressOf s.pool key).2, []⟩)
      ∨ prepareOne me owners s key length existing = prepareNew me owners s key length := by
  rw [prepareOne]
  by_cases hbad : key = "" ∨ length = 0
  · rw [if_pos hbad]; exact .inl ⟨hbad, rfl⟩
  · rw [if_neg hbad]
    cases existing with
    | false => exact .inr (.inr rfl)
    | true =>
      rw [if_pos rfl]
      cases hx : s.pool.entries.get? key with
      | none =>
        rw [show addressOf s.pool key = (none, s.pool) by rw [addressOf, hx]]
        exact .inr (.inr rfl)
      | some x =>
        refine .inr (.inl ⟨x, rfl, ?_⟩)
        rw [show addressOf s.pool key = (some (s.pool.base + x.1, x.2), (addressOf s.pool key).2)
          from Prod.ext ((addressOf_fst s.pool key).trans (by rw [hx]; rfl)) rfl]

lemma prepareNew_pool (s : PageOwner) (key : String) (length : Nat) :
    (prepareNew me owners s key length).owner.pool = (reserve s.pool key length).pool :=
  onPoolEvict_pool _ _

variable {s : PageOwner} {length : Nat}

lemma ownerEffect_prepareOne (me : String) (owners : Owners) (hi : Inv s.pool)
    {key : String} (hlen : length = (content key).length) (existing : Bool) :
    OwnerEffect owners content s (prepareOne me owners s key length existing).owner
      (prepareOne me owners s key length existing).evicted [key] := by
  subst hlen
  rcases prepareOne_cases me owners s key (content key).length existing with
    ⟨-, heq⟩ | ⟨x, -, heq⟩ | heq
  · rw [heq]; exact (OwnerEffect.refl hi).mono (List.nil_subset _)
  · rw [heq]; exact (ownerEffect_addressOf hi key).mono (List.nil_subset _)
  · rw [heq]; exact ownerEffect_reservePage hi key

variable (me owners) in
/-- **PREPARE** is an effect that reserves the request's keys. -/
lemma ownerEffect_prepareLoop (pages : List ((String × Nat) × Bool))
    (hpages : ∀ q ∈ pages, q.1.2 = (content q.1.1).length) (hi : Inv s.pool) :
    OwnerEffect owners content s (prepareLoop me owners pages s).owner
      (prepareLoop me owners pages s).evicted (pages.map (fun q => q.1.1)) := by
  induction pages generalizing s with
  | nil => exact OwnerEffect.refl hi
  | cons q pages ih =>
    obtain ⟨⟨key, length⟩, existing⟩ := q
    obtain ⟨hlen, htail⟩ := List.forall_mem_cons.mp hpages
    have hone := ownerEffect_prepareOne me owners hi hlen existing
    exact hone.trans (ih htail hone.pool.inv)

lemma ownerEffect_dataPrepareWrites {pages : List (String × Nat)}
    (hpages : ∀ q ∈ pages, q.2 = (content q.1).length) (hi : Inv s.pool) :
    OwnerEffect owners content s (dataPrepareWrites me owners s pages).owner
      (dataPrepareWrites me owners s pages).evicted (pages.map Prod.fst) := by
  have hzip : ∀ q ∈ pages.map (fun q => (q, existMap owners s.dir q.1)),
      q.1.2 = (content q.1.1).length := by
    intro q hq
    obtain ⟨x, hx, rfl⟩ := List.mem_map.mp hq
    exact hpages x hx
  have heff : OwnerEffect owners content s (dataPrepareWrites me owners s pages).owner
      (dataPrepareWrites me owners s pages).evicted _ := ownerEffect_prepareLoop me owners _ hzip hi
  rw [List.map_map] at heff
  exact heff

lemma prepareOne_disk (s : PageOwner) (key : String) (length : Nat) (existing : Bool) :
    (prepareOne me owners s key length existing).owner.disk = s.disk := by
  rcases prepareOne_cases me owners s key length existing with ⟨-, heq⟩ | ⟨x, -, heq⟩ | heq
  · rw [heq]
  · rw [heq]; rfl
  · rw [heq]; exact store_disk _ _

lemma prepareLoop_disk (pages : List ((String × Nat) × Bool)) (s : PageOwner) :
    (prepareLoop me owners pages s).owner.disk = s.disk := by
  induction pages generalizing s with
  | nil => rfl
  | cons q pages ih => exact (ih _).trans (prepareOne_disk s _ _ _)

/-- A slot names the entry its key has in a pool. -/
structure SlotOf (content : String → Bytes) (pool : PublishedPool String) (key : String)
    (slot : Slot) : Prop where
  key_eq : slot.key = key
  address : ∃ x, pool.entries.get? key = some x ∧ slot.remoteAddr = pool.base + x.1
  length : slot.length = (content key).length

variable {existing : Bool}

/-- **A SLOT RETURNED** is the key's entry. -/
lemma prepareOne_slot {key : String} {slot : Slot} (hsize : SizedFor content s.pool key)
    (hlen : length = (content key).length)
    (h : (prepareOne me owners s key length existing).slot = some slot) :
    SlotOf content (prepareOne me owners s key length existing).owner.pool key slot := by
  subst hlen
  rcases prepareOne_cases me owners s key (content key).length existing with
    ⟨-, heq⟩ | ⟨x, hx, heq⟩ | heq
  · rw [heq] at h; cases h
  · rw [heq] at h ⊢
    cases h
    refine ⟨rfl, ⟨x, (addressOf_get? s.pool key key).trans hx, ?_⟩, hsize x hx⟩
    exact congrArg (· + x.1) (addressOf_region s.pool key).base.symm
  · rw [heq] at h ⊢
    obtain ⟨addr, haddr, rfl⟩ := Option.map_eq_some_iff.mp h
    obtain ⟨x, hx, hax, -⟩ := place_addr haddr
    rw [prepareNew_pool]
    refine ⟨rfl, ⟨x, hx, ?_⟩, rfl⟩
    exact hax.trans (congrArg (· + x.1) (place_region s.pool key _ _).base.symm)

lemma extentOf_congr {p q : PublishedPool String} (h : q.base = p.base) (slot : Slot) :
    extentOf q slot = extentOf p slot := by
  rw [extentOf, extentOf, h]

lemma prepareLoop_slots (pages : List ((String × Nat) × Bool))
    (hpages : ∀ q ∈ pages, q.1.2 = (content q.1.1).length) (hi : Inv s.pool)
    (hsize : ∀ k, SizedFor content s.pool k) {slot : Slot}
    (h : some slot ∈ (prepareLoop me owners pages s).slots) :
    slot.key ∈ pages.map (fun q => q.1.1) ∧ slot.length = (content slot.key).length := by
  induction pages generalizing s with
  | nil => cases h
  | cons q pages ih =>
    obtain ⟨⟨key, length⟩, existing⟩ := q
    obtain ⟨hlen, htail⟩ := List.forall_mem_cons.mp hpages
    have hone := ownerEffect_prepareOne me owners hi hlen existing
    rcases List.mem_cons.mp h with hslot | hrest
    · have hof := prepareOne_slot (hsize key) hlen hslot.symm
      rw [hof.key_eq]
      exact ⟨List.mem_cons_self, hof.length⟩
    · obtain ⟨hmem, hl⟩ := ih htail hone.pool.inv (fun k => hone.pool.sized k (hsize k)) hrest
      exact ⟨.tail _ hmem, hl⟩

/-! ## Commit -/

lemma ownerEffect_commitPage (hi : Inv s.pool) (key : String) (addr length : Nat) :
    OwnerEffect owners content s (commitPage s key addr length) [] [] :=
  (ownerEffect_addressOf hi key).note rfl rfl (fun _ hk => mem_keys_set.mpr (.inr hk))

/-- **COMMIT** touches pages and puts an entry for those it finds in the pool. -/
lemma commitLoop_spec (me : String) (owners : Owners) (content : String → Bytes)
    (keys : List String) (hi : Inv s.pool) (entries : Locations) :
    OwnerEffect owners content s (commitLoop me keys s entries).owner [] []
      ∧ ∀ k loc, (commitLoop me keys s entries).entries.get? k = some loc →
        entries.get? k = some loc ∨ (k ∈ keys ∧ k ∈ s.pool.entries.keys ∧ loc.nodeId = me) := by
  induction keys generalizing s entries with
  | nil => exact ⟨OwnerEffect.refl hi, fun _ _ h => .inl h⟩
  | cons key keys ih =>
    rw [commitLoop]
    cases hal : (addressOf s.pool key).1 with
    | none =>
      obtain ⟨heff, hent⟩ := ih hi entries
      refine ⟨heff, fun k loc hk => (hent k loc hk).imp_right ?_⟩
      exact fun ⟨h1, h2, h3⟩ => ⟨.tail _ h1, h2, h3⟩
    | some a =>
      have hpage : OwnerEffect owners content s (commitPage s key a.1 a.2) [] [] :=
        ownerEffect_commitPage hi key a.1 a.2
      obtain ⟨heff, hent⟩ := ih hpage.pool.inv (entries.set key
        (residentLocation me (commitPage s key a.1 a.2).pool a.1 a.2))
      refine ⟨hpage.trans heff, ?_⟩
      intro k loc hk
      rcases hent k loc hk with hk | ⟨hmem, hin, hme⟩
      · rw [get?_set] at hk
        split_ifs at hk with hkk
        · cases hk
          rw [addressOf_fst] at hal
          obtain ⟨x, hx, -⟩ := Option.map_eq_some_iff.mp hal
          exact .inr ⟨hkk ▸ (.head _), hkk ▸ mem_keys.mpr ⟨x, hx⟩, rfl⟩
        · exact .inl hk
      · obtain ⟨x, hx⟩ := mem_keys.mp hin
        refine .inr ⟨.tail _ hmem, mem_keys.mpr ⟨x, ?_⟩, hme⟩
        exact (addressOf_get? s.pool key k).symm.trans hx

lemma diskSound_commitLoop (keys : List String) (hi : Inv s.pool)
    (hd : DiskSound safeName content keysUsed s) (hused : ∀ k ∈ keys, k ∈ keysUsed)
    (hkeys : ∀ k ∈ keys, HoldsFor content s.pool k) (entries : Locations) :
    DiskSound safeName content keysUsed (commitLoop me keys s entries).owner := by
  induction keys generalizing s entries with
  | nil => exact hd
  | cons key keys ih =>
    obtain ⟨hkey, htail⟩ := List.forall_mem_cons.mp hkeys
    obtain ⟨hk, hrest⟩ := List.forall_mem_cons.mp hused
    rw [commitLoop]
    cases hal : (addressOf s.pool key).1 with
    | none => exact ih hi hd hrest htail entries
    | some a =>
      have htouch : Effect content s.pool (addressOf s.pool key).2 [] [] := effect_addressOf hi key
      refine ih htouch.inv ?_ hrest ?_ _
      · rw [addressOf_fst] at hal
        obtain ⟨x, hx, rfl⟩ := Option.map_eq_some_iff.mp hal
        have hdata : (addressOf s.pool key).2.buf.read
            (s.pool.base + x.1 - (addressOf s.pool key).2.base) x.2 = content key := by
          rw [addressOf_buf, (addressOf_region s.pool key).base, Nat.add_sub_cancel_left]
          exact (hkey x hx).2
        rw [commitPage]
        simp only [PageOwner.setLen, PageOwner.setPool]
        rw [hdata]
        exact diskSound_diskPut (hd.congr rfl) hk
      · exact fun j hj => htouch.holds j (.inr List.not_mem_nil) (htail j hj)

end

end PeerCacheStorage
