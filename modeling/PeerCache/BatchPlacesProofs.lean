import PeerCache.HandledPagesProofs
import PeerCache.PromoteStepsProofs
import PeerCache.HandOutProofs

/-! # The places a batch hands out

    `_ensure_resident` collects a location for each key of its list, and
    `_on_data_prepare_writes` a slot for each page of its request.  Both answer at their end
    with addresses taken along the way, and both may have evicted a page they answered for. -/

namespace PeerCacheOwner

open PeerCachePool PeerCacheDirectory PeerCacheDisk Transition List OrderedDict Option Function

section

variable (me : String) (owners : Owners)

/-- One key of `_ensure_resident`, with the keys before it. -/
def ensureTurn (st : List String × PageOwner) (k : String) : List String × PageOwner :=
  (k :: st.1, (ensureOne me owners st.2 k).owner)

/-- The key is in the pool, or not on disk, or its page spares those handled so far. -/
def PromoteSpares (st : List String × PageOwner) (k : String) : Prop :=
  k ∈ st.2.pool.entries.keys
    ∨ ∀ data ∈ (st.2.diskGet k).1, SparesHandled st.1 data.length st.2.pool

instance (st : List String × PageOwner) (k : String) : Decidable (PromoteSpares st k) :=
  inferInstanceAs (Decidable (_ ∨ ∀ data ∈ (st.2.diskGet k).1, _))

/-- Every key of the list spares the keys before it. -/
abbrev PromotesSpare (s : PageOwner) (keys : List String) : Prop :=
  Guarded (fun st k => some (ensureTurn me owners st k)) PromoteSpares ([], s) keys

/-- The locations of the result, and those put in the directory, are current on return. -/
structure LocationsValid (s : PageOwner) (keys : List String) : Prop where
  result : ∀ q ∈ keys.zip (ensureResident me owners s keys).locs, ∀ loc, q.2 = some loc →
    Current (ensureResident me owners s keys).owner.pool q.1 loc
  put : ∀ k loc, (ensureResident me owners s keys).promoted.get? k = some loc →
    Current (ensureResident me owners s keys).owner.pool k loc

end

section

variable {me : String} {owners : Owners} {s : PageOwner} {handled : List String}

/-! ## One key -/

lemma ensureOne_pool (s : PageOwner) (k : String) :
    (k ∈ s.pool.entries.keys ∧ (ensureOne me owners s k).owner.pool = (addressOf s.pool k).2)
      ∨ (k ∉ s.pool.entries.keys
        ∧ (((s.diskGet k).1 = none ∧ (ensureOne me owners s k).owner.pool = s.pool)
          ∨ ∃ data, (s.diskGet k).1 = some data
            ∧ (ensureOne me owners s k).owner.pool = (publish s.pool k data).pool)) := by
  rcases ensureOne_split me owners s k with
    ⟨x, hx, heq⟩ | ⟨hout, ⟨hnone, heq⟩ | ⟨data, r, hdata, rfl, ⟨-, heq⟩ | ⟨addr, -, heq⟩⟩⟩
  · refine .inl ⟨mem_keys.mpr ⟨x, hx⟩, ?_⟩
    rw [heq]
    rfl
  · refine .inr ⟨hout, .inl ⟨hnone, ?_⟩⟩
    rw [heq]
    exact diskGet_pool s k
  · refine .inr ⟨hout, .inr ⟨data, hdata, ?_⟩⟩
    rw [heq]
    exact (publishPage_pool _ k data).trans (by rw [diskGet_pool])
  · refine .inr ⟨hout, .inr ⟨data, hdata, ?_⟩⟩
    rw [heq]
    exact (publishPage_pool _ k data).trans (by rw [diskGet_pool])

variable {k : String}

variable {loc : DataLocation} {promoted : Locations}

lemma ensureOne_at (hloc : (ensureOne me owners s k).loc = some loc) :
    Current (ensureOne me owners s k).owner.pool k loc := by
  rcases ensureOne_split me owners s k with
    ⟨x, hx, heq⟩ | ⟨hout, ⟨-, heq⟩ | ⟨data, r, -, rfl, ⟨-, heq⟩ | ⟨addr, haddr, heq⟩⟩⟩
  · rw [heq] at hloc ⊢
    cases hloc
    refine ⟨x, (addressOf_get? s.pool k k).trans hx, ?_, rfl⟩
    exact congrArg (· + x.1) (addressOf_region s.pool k).base.symm
  · rw [heq] at hloc; cases hloc
  · rw [heq] at hloc; cases hloc
  · rw [heq] at hloc ⊢
    cases hloc
    have hout' : k ∉ (s.diskGet k).2.pool.entries.keys := by
      rw [diskGet_pool]
      exact hout
    exact publishPage_current hout' haddr

lemma ensureOne_some (hk : k ∈ (ensureOne me owners s k).owner.pool.entries.keys) :
    ∃ loc, (ensureOne me owners s k).loc = some loc := by
  cases hloc : (ensureOne me owners s k).loc with
  | none => exact absurd hk (out_ensureOne hloc).1
  | some loc => exact ⟨loc, rfl⟩

lemma handledLast_ensureOne (h : HandledLast handled s.pool) (k : String) :
    HandledLast (k :: handled) (ensureOne me owners s k).owner.pool := by
  rcases ensureOne_pool s k with ⟨-, heq⟩ | ⟨hout, ⟨-, heq⟩ | ⟨data, -, heq⟩⟩
  · rw [heq]; exact handledLast_addressOf h k
  · rw [heq]; exact handledLast_skip h hout
  · rw [heq]; exact handledLast_place h k _ _

lemma ensureOne_keeps (hlast : HandledLast handled s.pool) (h : PromoteSpares (handled, s) k)
    {j : String} (hj : j ∈ handled) {x : Tiling.Extent} (hx : s.pool.entries.get? j = some x) :
    (ensureOne me owners s k).owner.pool.entries.get? j = some x := by
  rcases ensureOne_pool s k with ⟨-, heq⟩ | ⟨hout, ⟨-, heq⟩ | ⟨data, hdata, heq⟩⟩
  · rw [heq, addressOf_get?]; exact hx
  · rw [heq]; exact hx
  · rw [heq]
    exact place_keeps hlast (h.imp_right (fun hall => hall data hdata)) _ hj hx

lemma ensureOne_drops (h : ¬ PromoteSpares (handled, s) k) :
    ∃ j ∈ handled, j ∉ (ensureOne me owners s k).owner.pool.entries.keys
      ∧ j ∈ s.pool.entries.keys := by
  obtain ⟨hk, hall⟩ := not_or.mp h
  rcases ensureOne_pool s k with ⟨hin, -⟩ | ⟨hout, ⟨hnone, -⟩ | ⟨data, hdata, heq⟩⟩
  · exact absurd hin hk
  · refine absurd ?_ hall
    intro data hdata
    cases hnone.symm.trans hdata
  · have hcost : ¬ SparesHandled handled data.length s.pool := by
      intro hspare
      refine hall ?_
      intro other hother
      obtain rfl := some.inj (hdata.symm.trans hother)
      exact hspare
    obtain ⟨j, hj, hin, hgone⟩ := place_drops hout hcost (fun off m => m.write off data)
    exact ⟨j, hj, heq ▸ hgone, hin⟩

/-! ## The whole list -/

lemma ensureLoop_foldl (keys : List String) (s : PageOwner) (handled : List String)
    (promoted : Locations) :
    (ensureLoop me owners keys s promoted).owner
      = (keys.foldl (ensureTurn me owners) (handled, s)).2 := by
  induction keys generalizing s handled promoted with
  | nil => rfl
  | cons k keys ih => exact ih _ (k :: handled) _

lemma ensureLoop_base (keys : List String) (s : PageOwner)
    (promoted : Locations) :
    (ensureLoop me owners keys s promoted).owner.pool.base = s.pool.base := by
  induction keys generalizing s promoted with
  | nil => rfl
  | cons k keys ih => exact (ih _ _).trans (ensureOne_base k)

/-- The promotion of a list, as a batch that hands out the extents of the pool. -/
def ensureBatch (me : String) (owners : Owners) :
    HandOut.Batch (List String × PageOwner) String String Tiling.Extent where
  turn := ensureTurn me owners
  key := some
  handled := Prod.fst
  held st k := st.2.pool.entries.get? k
  Right st k v := ∀ loc, (ensureOne me owners st.2 k).loc = some loc →
    ∃ x, v = some x ∧ loc.remoteAddr = st.2.pool.base + x.1 ∧ loc.length = x.2
  Spares := PromoteSpares
  Ok st := HandledLast st.1 st.2.pool
  handled_turn _ _ := rfl
  held_turn hv := (ensureOne_entry hv).imp_right (fun h => congrArg some h.1.symm)
  ok_turn h k := handledLast_ensureOne h k
  keeps hlast hspare hk hv := ensureOne_keeps hlast hspare hk hv
  right := by
    rintro st k j - hkey loc hloc
    obtain rfl := Option.some.inj hkey
    obtain ⟨x, hx, haddr, hlen⟩ := ensureOne_at hloc
    exact ⟨x, hx, haddr.trans (congrArg (· + x.1) (ensureOne_base k)), hlen⟩
  unanswered := by
    intro st k h v loc hloc
    obtain ⟨x, hx, -⟩ := h loc hloc
    cases hx
  answered := by
    intro st k j v hkey hv h
    obtain rfl := Option.some.inj hkey
    obtain ⟨loc, hloc⟩ := ensureOne_some (OrderedDict.mem_keys.mpr ⟨v, hv⟩)
    obtain ⟨x, hx, -⟩ := h loc hloc
    cases hx
  breaks := by
    intro st k h
    obtain ⟨j, hj, hgone, hin⟩ := ensureOne_drops h
    obtain ⟨v, hv⟩ := OrderedDict.mem_keys.mp hin
    exact Or.inl ⟨j, v, hj, hv, OrderedDict.get?_eq_none.mpr hgone⟩

lemma ensureLoop_promoted {keys : List String}
    (h : (ensureLoop me owners keys s promoted).promoted.get? k = some loc) :
    promoted.get? k = some loc
      ∨ (k, some loc) ∈ keys.zip (ensureLoop me owners keys s promoted).locs := by
  induction keys generalizing s promoted with
  | nil => exact .inl h
  | cons j keys ih =>
    rcases ih h with hadd | hin
    · rcases addPromoted_get? hadd with hold | ⟨rfl, -, hloc⟩
      · exact .inl hold
      · refine .inr (mem_cons.mpr (Or.inl ?_))
        rw [← hloc]
    · exact .inr (.tail _ hin)

lemma ensureLoop_right {keys : List String} {last : List String × PageOwner}
    (hbase : last.2.pool.base = s.pool.base) :
    (∀ q ∈ keys.zip (ensureLoop me owners keys s promoted).locs, ∀ loc, q.2 = some loc →
        Current last.2.pool q.1 loc)
      ↔ (ensureBatch me owners).AllRight last (handled, s) keys := by
  induction keys generalizing s handled promoted with
  | nil => exact iff_of_true (forall_mem_nil _) trivial
  | cons k keys ih =>
    refine forall_mem_cons.trans (and_congr ?_ (ih (hbase.trans (ensureOne_base k).symm)))
    have hright : (∀ loc, (ensureOne me owners s k).loc = some loc → Current last.2.pool k loc)
        ↔ (ensureBatch me owners).Right (handled, s) k (last.2.pool.entries.get? k) := by
      refine forall₂_congr (fun loc _ => ?_)
      rw [Current, hbase]
    refine hright.trans ⟨?_, fun h => h k rfl⟩
    intro h j hj
    cases hj
    exact h

lemma ensureResident_right (s : PageOwner) (keys : List String) :
    (∀ q ∈ keys.zip (ensureResident me owners s keys).locs, ∀ loc, q.2 = some loc →
        Current (ensureResident me owners s keys).owner.pool q.1 loc)
      ↔ (ensureBatch me owners).AllRight ((ensureBatch me owners).after ([], s) keys) ([], s) keys := by
  have hlast : (ensureLoop me owners keys s empty).owner
      = ((ensureBatch me owners).after ([], s) keys).2 := ensureLoop_foldl keys s [] _
  have hbase : ((ensureBatch me owners).after ([], s) keys).2.pool.base = s.pool.base := by
    rw [← hlast]
    exact ensureLoop_base keys s _
  have hpool : (ensureResident me owners s keys).owner.pool
      = ((ensureBatch me owners).after ([], s) keys).2.pool := congrArg (fun t => t.pool) hlast
  rw [hpool]
  exact ensureLoop_right hbase

/-- Where every key spares those before it, the locations are valid. -/
lemma locationsValid_of_spares {keys : List String} (h : PromotesSpare me owners s keys) :
    LocationsValid me owners s keys := by
  have hresult := (ensureResident_right s keys).mpr
    (HandOut.Batch.right_of_spares (handledLast_nil s.pool) h)
  refine ⟨hresult, ?_⟩
  intro k loc hput
  rcases ensureLoop_promoted hput with hold | hin
  · cases hold
  · exact hresult _ hin loc rfl

/-- **BATCHED PROMOTION**: the locations are valid when every key spares those before it, and
    among distinct keys only then. -/
theorem locations_valid_iff (me : String) (owners : Owners) (s : PageOwner)
    (keys : List String) :
    (PromotesSpare me owners s keys → LocationsValid me owners s keys)
      ∧ (keys.Nodup → (LocationsValid me owners s keys ↔ PromotesSpare me owners s keys)) := by
  refine ⟨locationsValid_of_spares, fun hnodup => ⟨?_, locationsValid_of_spares⟩⟩
  intro h
  have hkeys : (keys.filterMap (ensureBatch me owners).key).Nodup := by
    show (keys.filterMap some).Nodup
    rw [filterMap_some]
    exact hnodup
  exact HandOut.Batch.spares_of_right hkeys (fun _ hk => absurd hk not_mem_nil)
    (fun _ hk => absurd hk not_mem_nil) ((ensureResident_right s keys).mp h.result)

/-- A node whose disk holds two pages of one byte, with room for so many bytes in its pool. -/
def twoOnDisk (capacity : Nat) : PageOwner :=
  ⟨new 100 capacity 7 [7] (fun _ => 0),
    some (work id (work id (PeerCacheDisk.put (PeerCacheDisk.put (DiskStore.empty 10) "a" [1])
      "b" [2])).1).1,
    OrderedDict.empty, fun _ => OrderedDict.empty⟩

/-- With room for both, both locations hold. -/
theorem locations_valid_iff_room : PromotesSpare "n" (fun _ => ["n"]) (twoOnDisk 2) ["a", "b"]
    ∧ LocationsValid "n" (fun _ => ["n"]) (twoOnDisk 2) ["a", "b"] := by
  have h : PromotesSpare "n" (fun _ => ["n"]) (twoOnDisk 2) ["a", "b"] := by decide +kernel
  exact ⟨h, (locations_valid_iff "n" (fun _ => ["n"]) (twoOnDisk 2) ["a", "b"]).1 h⟩

/-- With room for one, the second page takes the place of the first, whose location is returned
    and put all the same. -/
theorem second_evicts_first :
    (ensureResident "n" (fun _ => ["n"]) (twoOnDisk 1) ["a", "b"]).locs
        = [some ⟨"n", 100, 7, 1, true⟩, some ⟨"n", 100, 7, 1, true⟩]
      ∧ ((ensureResident "n" (fun _ => ["n"]) (twoOnDisk 1) ["a", "b"]).owner.dir "n").get? "a"
        = some ⟨"n", 100, 7, 1, true⟩
      ∧ (ensureResident "n" (fun _ => ["n"]) (twoOnDisk 1) ["a", "b"]).owner.pool.entries.keys = ["b"]
      ∧ ¬ LocationsValid "n" (fun _ => ["n"]) (twoOnDisk 1) ["a", "b"] := by
  refine ⟨by decide +kernel, by decide +kernel, by decide +kernel, ?_⟩
  intro h
  have hcur := h.result ("a", some ⟨"n", 100, 7, 1, true⟩) (by decide +kernel) _ rfl
  revert hcur
  decide +kernel

end

end PeerCacheOwner

namespace PeerCacheStorage

open PeerCachePool PeerCacheDirectory PeerCacheOwner Transition Tiling

section

variable (me : String) (owners : Owners)

/-- A page `_on_data_prepare_writes` answers with no slot, whatever the pool. -/
def Refused (page : String × Nat) : Prop := page.1 = "" ∨ page.2 = 0

instance (page : String × Nat) : Decidable (Refused page) :=
  inferInstanceAs (Decidable (_ ∨ _))

/-- One page of a prepare, with the keys before it; a refused page is not handled. -/
def prepareTurn (st : List String × PageOwner) (q : (String × Nat) × Bool) :
    List String × PageOwner :=
  (if Refused q.1 then st.1 else q.1.1 :: st.1,
    (prepareOne me owners st.2 q.1.1 q.1.2 q.2).owner)

/-- The page is refused; or it is in the pool, and known to the directory or long enough; or it
    is not, and its reservation spares the pages handled so far. -/
def PrepareSpares (st : List String × PageOwner) (q : (String × Nat) × Bool) : Prop :=
  Refused q.1
    ∨ (∃ x ∈ st.2.pool.entries.get? q.1.1, q.2 = true ∨ q.1.2 ≤ x.2)
    ∨ (q.1.1 ∉ st.2.pool.entries.keys ∧ SparesHandled st.1 q.1.2 st.2.pool)

instance (st : List String × PageOwner) (q : (String × Nat) × Bool) : Decidable (PrepareSpares st q) :=
  inferInstanceAs (Decidable (_ ∨ (∃ x ∈ st.2.pool.entries.get? q.1.1, _) ∨ _))

/-- The pages of a request, with what the directory says of them at its start. -/
def asked (s : PageOwner) (pages : List (String × Nat)) : List ((String × Nat) × Bool) :=
  pages.map fun q => (q, existMap owners s.dir q.1)

/-- Every page of the request spares the pages before it. -/
abbrev PreparesSpare (s : PageOwner) (pages : List (String × Nat)) : Prop :=
  Guarded (fun st q => some (prepareTurn me owners st q)) PrepareSpares ([], s) (asked owners s pages)

/-- The range a slot names lies in the extent of its key. -/
def Inside (pool : PublishedPool String) (slot : Slot) : Prop :=
  ∃ x, pool.entries.get? slot.key = some x ∧ pool.base + x.1 ≤ slot.remoteAddr
    ∧ slot.remoteAddr + slot.length ≤ pool.base + x.1 + x.2

/-- The addresses of a slot. -/
def Slot.range (slot : Slot) : Extent := (slot.remoteAddr, slot.length)

/-- The write targets of a reply are sound in the pool it leaves. -/
structure SlotsSound (pool : PublishedPool String) (slots : List (Option Slot)) : Prop where
  inside : ∀ slot, some slot ∈ slots → Inside pool slot
  disjoint : ∀ a b, some a ∈ slots → some b ∈ slots → a.key ≠ b.key → Apart a.range b.range
  others : ∀ slot, some slot ∈ slots → ∀ k x, k ≠ slot.key → pool.entries.get? k = some x →
    Apart slot.range (pool.base + x.1, x.2)

end

section

variable {me : String} {owners : Owners} {s : PageOwner} {handled : List String}

/-! ## One page -/

lemma prepareOne_pool (s : PageOwner) {key : String} {length : Nat} (existing : Bool)
    (hok : ¬ Refused (key, length)) :
    (existing = true ∧ (∃ x, s.pool.entries.get? key = some x
        ∧ (prepareOne me owners s key length existing).slot
          = some (slotDict me (addressOf s.pool key).2 key (s.pool.base + x.1) x.2))
      ∧ (prepareOne me owners s key length existing).owner.pool = (addressOf s.pool key).2)
    ∨ ((existing = true → key ∉ s.pool.entries.keys)
      ∧ (prepareOne me owners s key length existing).slot = (reserve s.pool key length).addr.map
          (fun addr => slotDict me (reserve s.pool key length).pool key addr length)
      ∧ (prepareOne me owners s key length existing).owner.pool
        = (reserve s.pool key length).pool) := by
  have hnew : (prepareNew me owners s key length).slot = (reserve s.pool key length).addr.map
      (fun addr => slotDict me (reserve s.pool key length).pool key addr length) := by
    have hpool : (prepareNew me owners s key length).owner.pool = (reserve s.pool key length).pool :=
      prepareNew_pool s key length
    rw [← hpool]
    rfl
  have hgood : ¬ (key = "" ∨ length = 0) := hok
  rw [prepareOne, if_neg hgood]
  cases existing with
  | false => exact .inr ⟨fun h => (by cases h), hnew, prepareNew_pool s key length⟩
  | true =>
    rw [if_pos rfl]
    cases hx : s.pool.entries.get? key with
    | none =>
      rw [show addressOf s.pool key = (none, s.pool) by rw [addressOf, hx]]
      exact .inr ⟨fun _ => OrderedDict.get?_eq_none.mp hx, hnew, prepareNew_pool s key length⟩
    | some x =>
      have haddr : addressOf s.pool key
          = (some (s.pool.base + x.1, x.2), (addressOf s.pool key).2) :=
        Prod.ext ((addressOf_fst s.pool key).trans (by rw [hx]; rfl)) rfl
      rw [haddr]
      exact .inl ⟨rfl, ⟨x, rfl, rfl⟩, rfl⟩

variable {q : (String × Nat) × Bool}

lemma prepareOne_refused (s : PageOwner) (h : Refused q.1) :
    prepareOne me owners s q.1.1 q.1.2 q.2 = ⟨none, s, []⟩ := by
  have hbad : q.1.1 = "" ∨ q.1.2 = 0 := h
  rw [prepareOne, if_pos hbad]

lemma prepareOne_step (s : PageOwner) (q : (String × Nat) × Bool) :
    (prepareOne me owners s q.1.1 q.1.2 q.2).owner.pool = s.pool
      ∨ ∃ op, (prepareOne me owners s q.1.1 q.1.2 q.2).owner.pool = step s.pool op := by
  by_cases hbad : Refused q.1
  · rw [prepareOne_refused s hbad]; exact .inl rfl
  · rcases prepareOne_pool s q.2 hbad with ⟨-, -, heq⟩ | ⟨-, -, heq⟩
    · exact .inr ⟨.addressOf q.1.1, heq⟩
    · exact .inr ⟨.reserve q.1.1 q.1.2, heq⟩

lemma prepareOne_base (s : PageOwner) (q : (String × Nat) × Bool) :
    (prepareOne me owners s q.1.1 q.1.2 q.2).owner.pool.base = s.pool.base := by
  rcases prepareOne_step s q with heq | ⟨op, heq⟩
  · rw [heq]
  · rw [heq]; exact (step_region s.pool op).base

/-- **A SLOT RIGHT AFTER ITS PAGE**: it is of the page's key, starts where the entry starts, and
    is as long as the entry or as was asked. -/
lemma prepareOne_place {slot : Slot} (h : (prepareOne me owners s q.1.1 q.1.2 q.2).slot = some slot) :
    slot.key = q.1.1 ∧ ∃ x,
      (prepareOne me owners s q.1.1 q.1.2 q.2).owner.pool.entries.get? q.1.1 = some x
        ∧ slot.remoteAddr = (prepareOne me owners s q.1.1 q.1.2 q.2).owner.pool.base + x.1
        ∧ (slot.length = x.2
          ∨ (q.2 = false ∧ s.pool.entries.get? q.1.1 = some x ∧ slot.length = q.1.2)) := by
  have hok : ¬ Refused q.1 := by
    intro hbad
    rw [prepareOne_refused s hbad] at h
    cases h
  rcases prepareOne_pool s q.2 hok with ⟨-, ⟨x, hx, hslot⟩, heq⟩ | ⟨hnot, hslot, heq⟩
  · rw [heq]
    obtain rfl := Option.some.inj (hslot.symm.trans h)
    refine ⟨rfl, x, (addressOf_get? s.pool _ _).trans hx, ?_, .inl rfl⟩
    exact congrArg (· + x.1) (addressOf_region s.pool q.1.1).base.symm
  · rw [heq]
    obtain ⟨addr, haddr, rfl⟩ := Option.map_eq_some_iff.mp (hslot.symm.trans h)
    obtain ⟨x, hx, rfl, hold⟩ := place_addr haddr
    refine ⟨rfl, x, hx, congrArg (· + x.1) (place_region s.pool _ _ _).base.symm, ?_⟩
    rcases hold with hold | ⟨-, hlen⟩
    · refine .inr ⟨?_, hold, rfl⟩
      cases hq : q.2 with
      | false => rfl
      | true => exact absurd (OrderedDict.mem_keys.mpr ⟨x, hold⟩) (hnot hq)
    · exact .inl hlen.symm

lemma prepareOne_some (hok : ¬ Refused q.1)
    (hin : q.1.1 ∈ (prepareOne me owners s q.1.1 q.1.2 q.2).owner.pool.entries.keys) :
    ∃ slot, (prepareOne me owners s q.1.1 q.1.2 q.2).slot = some slot := by
  rcases prepareOne_pool s q.2 hok with ⟨-, ⟨x, -, hslot⟩, -⟩ | ⟨-, hslot, heq⟩
  · exact ⟨_, hslot⟩
  · cases haddr : (reserve s.pool q.1.1 q.1.2).addr with
    | none =>
      rw [heq] at hin
      exact absurd hin (place_addr_none haddr)
    | some addr => exact ⟨_, hslot.trans (by rw [haddr]; rfl)⟩

lemma handledLast_prepareTurn {st : List String × PageOwner} (h : HandledLast st.1 st.2.pool)
    (q : (String × Nat) × Bool) :
    HandledLast (prepareTurn me owners st q).1 (prepareTurn me owners st q).2.pool := by
  rw [prepareTurn]
  split_ifs with hbad
  · rw [prepareOne_refused _ hbad]; exact h
  · rcases prepareOne_pool st.2 q.2 hbad with ⟨-, -, heq⟩ | ⟨-, -, heq⟩
    · rw [heq]; exact handledLast_addressOf h q.1.1
    · rw [heq]; exact handledLast_place h q.1.1 _ _

variable {j : String} {x : Extent}

lemma prepareOne_keeps (hlast : HandledLast handled s.pool) (h : PrepareSpares (handled, s) q)
    (hj : j ∈ handled) (hx : s.pool.entries.get? j = some x) :
    (prepareOne me owners s q.1.1 q.1.2 q.2).owner.pool.entries.get? j = some x := by
  by_cases hbad : Refused q.1
  · rw [prepareOne_refused s hbad]; exact hx
  · have hspare : q.1.1 ∈ s.pool.entries.keys ∨ SparesHandled handled q.1.2 s.pool := by
      rcases h.resolve_left hbad with ⟨y, hy, -⟩ | ⟨-, hspare⟩
      · exact .inl (OrderedDict.mem_keys.mpr ⟨y, hy⟩)
      · exact .inr hspare
    rcases prepareOne_pool s q.2 hbad with ⟨-, -, heq⟩ | ⟨-, -, heq⟩
    · rw [heq, addressOf_get?]; exact hx
    · rw [heq]; exact place_keeps hlast hspare _ hj hx

lemma prepareOne_entry
    (hx : (prepareOne me owners s q.1.1 q.1.2 q.2).owner.pool.entries.get? j = some x) :
    s.pool.entries.get? j = some x ∨ (¬ Refused q.1 ∧ j = q.1.1) := by
  by_cases hbad : Refused q.1
  · rw [prepareOne_refused s hbad] at hx; exact .inl hx
  · rcases prepareOne_pool s q.2 hbad with ⟨-, -, heq⟩ | ⟨-, -, heq⟩
    · rw [heq, addressOf_get?] at hx; exact .inl hx
    · rw [heq] at hx
      rcases place_get?_from hx with hold | ⟨rfl, -⟩
      · exact .inl hold
      · exact .inr ⟨hbad, rfl⟩

lemma prepareOne_inside (h : PrepareSpares (handled, s) q) {slot : Slot}
    (hslot : (prepareOne me owners s q.1.1 q.1.2 q.2).slot = some slot) :
    Inside (prepareOne me owners s q.1.1 q.1.2 q.2).owner.pool slot := by
  obtain ⟨hkey, x, hx, haddr, hlen⟩ := prepareOne_place hslot
  refine ⟨x, hkey ▸ hx, haddr.ge, ?_⟩
  have hle : slot.length ≤ x.2 := by
    rcases hlen with hlen | ⟨hq, hold, hlen⟩
    · exact hlen.le
    · rw [hlen]
      rcases h with hbad | ⟨y, hy, hlong⟩ | ⟨hout, -⟩
      · rw [prepareOne_refused s hbad] at hslot; cases hslot
      · obtain rfl := Option.some.inj (hold.symm.trans hy)
        rcases hlong with htrue | hlong
        · cases hq.symm.trans htrue
        · exact hlong
      · exact absurd (OrderedDict.mem_keys.mpr ⟨x, hold⟩) hout
  omega

lemma prepareOne_breaks (h : ¬ PrepareSpares (handled, s) q) : ¬ Refused q.1 ∧
    ((∃ j ∈ handled, j ∉ (prepareOne me owners s q.1.1 q.1.2 q.2).owner.pool.entries.keys
        ∧ j ∈ s.pool.entries.keys)
      ∨ ∃ slot x, (prepareOne me owners s q.1.1 q.1.2 q.2).slot = some slot
        ∧ (prepareOne me owners s q.1.1 q.1.2 q.2).owner.pool.entries.get? q.1.1 = some x
        ∧ x.2 < slot.length) := by
  obtain ⟨hok, hlong, hcost⟩ := not_or.mp h |>.imp_right not_or.mp
  refine ⟨hok, ?_⟩
  cases hx : s.pool.entries.get? q.1.1 with
  | none =>
    have hout := OrderedDict.get?_eq_none.mp hx
    have hcost' : ¬ SparesHandled handled q.1.2 s.pool := fun hspare => hcost ⟨hout, hspare⟩
    rcases prepareOne_pool s q.2 hok with ⟨-, ⟨y, hy, -⟩, -⟩ | ⟨-, -, heq⟩
    · exact absurd (OrderedDict.mem_keys.mpr ⟨y, hy⟩) hout
    · obtain ⟨j, hj, hin, hgone⟩ := place_drops hout hcost' (fun _ m => m)
      exact .inl ⟨j, hj, heq ▸ hgone, hin⟩
  | some x =>
    have hshort : q.2 ≠ true ∧ x.2 < q.1.2 := by
      refine ⟨fun hq => hlong ⟨x, hx, .inl hq⟩, ?_⟩
      exact not_le.mp (fun hle => hlong ⟨x, hx, .inr hle⟩)
    rcases prepareOne_pool s q.2 hok with ⟨hq, -, -⟩ | ⟨-, hslot, heq⟩
    · exact absurd hq hshort.1
    · rcases place_cases s.pool q.1.1 q.1.2 (fun _ m => m) with
        ⟨e, he, hplace⟩ | ⟨hout, -⟩ | ⟨hout, -⟩
      · obtain rfl := Option.some.inj (hx.symm.trans he)
        refine .inr ⟨slotDict me (reserve s.pool q.1.1 q.1.2).pool q.1.1 (s.pool.base + x.1) q.1.2,
          x, ?_, ?_, hshort.2⟩
        · rw [hslot, reserve, hplace]; rfl
        · rw [heq, reserve, hplace]
          exact (OrderedDict.get?_moveToEnd s.pool.entries _ _).trans hx
      · exact absurd (OrderedDict.mem_keys.mpr ⟨x, hx⟩) hout
      · exact absurd (OrderedDict.mem_keys.mpr ⟨x, hx⟩) hout

/-! ## The whole request -/

lemma prepareLoop_foldl (pages : List ((String × Nat) × Bool)) (s : PageOwner)
    (handled : List String) : (prepareLoop me owners pages s).owner
      = (pages.foldl (prepareTurn me owners) (handled, s)).2 := by
  induction pages generalizing s handled with
  | nil => rfl
  | cons q pages ih => exact ih _ _

lemma prepareLoop_base (pages : List ((String × Nat) × Bool)) (s : PageOwner) :
    (prepareLoop me owners pages s).owner.pool.base = s.pool.base := by
  induction pages generalizing s with
  | nil => rfl
  | cons q pages ih => exact (ih _).trans (prepareOne_base s q)

lemma inv_prepareLoop (pages : List ((String × Nat) × Bool)) (hi : Inv s.pool) :
    Inv (prepareLoop me owners pages s).owner.pool := by
  induction pages generalizing s with
  | nil => exact hi
  | cons q pages ih =>
    refine ih ?_
    rcases prepareOne_step s q with heq | ⟨op, heq⟩
    · rw [heq]; exact hi
    · rw [heq]; exact step_inv hi op

/-- A request, as a batch that hands out the extents of the pool; a refused page is for no key. -/
def prepareBatch (me : String) (owners : Owners) :
    HandOut.Batch (List String × PageOwner) ((String × Nat) × Bool) String Extent where
  turn := prepareTurn me owners
  key q := if Refused q.1 then none else some q.1.1
  handled := Prod.fst
  held st k := st.2.pool.entries.get? k
  Right st q v := ∀ slot, (prepareOne me owners st.2 q.1.1 q.1.2 q.2).slot = some slot →
    ∃ x, v = some x ∧ st.2.pool.base + x.1 ≤ slot.remoteAddr
      ∧ slot.remoteAddr + slot.length ≤ st.2.pool.base + x.1 + x.2
  Spares := PrepareSpares
  Ok st := HandledLast st.1 st.2.pool
  handled_turn := by
    intro st q
    show (if Refused q.1 then st.1 else q.1.1 :: st.1) = _
    by_cases hbad : Refused q.1
    · rw [if_pos hbad, if_pos hbad]
      rfl
    · rw [if_neg hbad, if_neg hbad]
      rfl
  held_turn := by
    intro st q k v hv
    refine (prepareOne_entry hv).imp_right ?_
    rintro ⟨hok, rfl⟩
    exact if_neg hok
  ok_turn h q := handledLast_prepareTurn h q
  keeps hlast hspare hk hv := prepareOne_keeps hlast hspare hk hv
  right := by
    intro st q k hspare hkey slot hslot
    obtain ⟨-, hkey⟩ := Option.ite_none_left_eq_some.mp hkey
    obtain rfl := Option.some.inj hkey
    obtain ⟨x, hx, hplace⟩ := prepareOne_inside hspare hslot
    rw [prepareOne_base] at hplace
    rw [(prepareOne_place hslot).1] at hx
    exact ⟨x, hx, hplace⟩
  unanswered := by
    intro st q h v slot hslot
    obtain ⟨x, hx, -⟩ := h slot hslot
    cases hx
  answered := by
    intro st q k v hkey hv h
    obtain ⟨hok, hkey⟩ := Option.ite_none_left_eq_some.mp hkey
    obtain rfl := Option.some.inj hkey
    obtain ⟨slot, hslot⟩ := prepareOne_some hok (OrderedDict.mem_keys.mpr ⟨v, hv⟩)
    obtain ⟨x, hx, -⟩ := h slot hslot
    cases hx
  breaks := by
    intro st q h
    obtain ⟨hok, ⟨j, hj, hgone, hin⟩ | ⟨slot, x, hslot, hx, hshort⟩⟩ := prepareOne_breaks h
    · obtain ⟨v, hv⟩ := OrderedDict.mem_keys.mp hin
      exact Or.inl ⟨j, v, hj, hv, OrderedDict.get?_eq_none.mpr hgone⟩
    · refine Or.inr ⟨q.1.1, x, if_neg hok, hx, ?_⟩
      intro hright
      obtain ⟨y, hy, hfrom, hto⟩ := hright slot hslot
      obtain rfl := Option.some.inj hy
      omega

lemma prepareOne_right {last : PageOwner} (hbase : last.pool.base = s.pool.base)
    (q : (String × Nat) × Bool) :
    (∀ slot, (prepareOne me owners s q.1.1 q.1.2 q.2).slot = some slot → Inside last.pool slot)
      ↔ ∀ k, (prepareBatch me owners).key q = some k →
        (prepareBatch me owners).Right (handled, s) q (last.pool.entries.get? k) := by
  show _ ↔ ∀ k, (if Refused q.1 then none else some q.1.1) = some k → _
  by_cases hbad : Refused q.1
  · rw [if_pos hbad, prepareOne_refused s hbad]
    exact iff_of_true nofun nofun
  · have hright : (∀ slot, (prepareOne me owners s q.1.1 q.1.2 q.2).slot = some slot →
          Inside last.pool slot)
        ↔ (prepareBatch me owners).Right (handled, s) q (last.pool.entries.get? q.1.1) := by
      refine forall₂_congr (fun slot hslot => ?_)
      rw [Inside, (prepareOne_place hslot).1, hbase]
    rw [if_neg hbad]
    refine hright.trans ⟨?_, fun h => h q.1.1 rfl⟩
    intro h k hk
    cases hk
    exact h

lemma prepareLoop_right {pages : List ((String × Nat) × Bool)} {last : List String × PageOwner}
    (hbase : last.2.pool.base = s.pool.base) :
    (∀ slot, some slot ∈ (prepareLoop me owners pages s).slots → Inside last.2.pool slot)
      ↔ (prepareBatch me owners).AllRight last (handled, s) pages := by
  induction pages generalizing s handled with
  | nil => exact iff_of_true (fun slot hslot => absurd hslot List.not_mem_nil) trivial
  | cons q pages ih =>
    have hnext : last.2.pool.base = (prepareOne me owners s q.1.1 q.1.2 q.2).owner.pool.base :=
      hbase.trans (prepareOne_base s q).symm
    refine Iff.trans ?_ (and_congr (prepareOne_right hbase q) (ih hnext))
    constructor
    · intro h
      exact ⟨fun slot hslot => h slot (List.mem_cons.mpr (.inl hslot.symm)),
        fun slot hslot => h slot (.tail _ hslot)⟩
    · rintro ⟨hfirst, hlater⟩ slot hslot
      rcases List.mem_cons.mp hslot with hslot | hslot
      · exact hfirst slot hslot.symm
      · exact hlater slot hslot

lemma slotsSound_iff {pool : PublishedPool String} (hi : Inv pool) (slots : List (Option Slot)) :
    SlotsSound pool slots ↔ ∀ slot, some slot ∈ slots → Inside pool slot := by
  refine ⟨fun h => h.inside, ?_⟩
  intro hinside
  have hcovers : ∀ {slot : Slot} {x : Extent} {a : Nat}, pool.base + x.1 ≤ slot.remoteAddr →
      slot.remoteAddr + slot.length ≤ pool.base + x.1 + x.2 → Covers slot.range a →
      Covers x (a - pool.base) ∧ pool.base ≤ a := by
    rintro slot x a hfrom hto ⟨hlo, hhi⟩
    simp only [Slot.range] at hlo hhi
    refine ⟨⟨?_, ?_⟩, ?_⟩
    · omega
    · omega
    · omega
  refine ⟨hinside, ?_, ?_⟩
  · intro a b ha hb hne y hy hz
    obtain ⟨x, hx, hfrom, hto⟩ := hinside a ha
    obtain ⟨x', hx', hfrom', hto'⟩ := hinside b hb
    exact entries_apart hi hx hx' hne _ (hcovers hfrom hto hy).1 (hcovers hfrom' hto' hz).1
  · intro slot hslot k z hne hz a ha hcov
    obtain ⟨x, hx, hfrom, hto⟩ := hinside slot hslot
    obtain ⟨hxa, hbase⟩ := hcovers hfrom hto ha
    refine entries_apart hi hx hz (Ne.symm hne) _ hxa ?_
    obtain ⟨hlo, hhi⟩ := hcov
    simp only at hlo hhi
    exact ⟨by omega, by omega⟩

lemma asked_keys (me : String) (owners : Owners) (s : PageOwner)
    (pages : List (String × Nat)) :
    (asked owners s pages).filterMap (prepareBatch me owners).key
      = (pages.filter (fun q => decide (¬ Refused q))).map Prod.fst := by
  rw [asked, List.filterMap_map]
  induction pages with
  | nil => rfl
  | cons q pages ih =>
    by_cases hbad : Refused q
    · have hq : ((prepareBatch me owners).key ∘ fun q => (q, existMap owners s.dir q.1)) q = none :=
        if_pos hbad
      rw [List.filterMap_cons_none hq, List.filter_cons_of_neg (by rwa [decide_eq_true_eq, not_not])]
      exact ih
    · have hq : ((prepareBatch me owners).key ∘ fun q => (q, existMap owners s.dir q.1)) q
          = some q.1 := if_neg hbad
      rw [List.filterMap_cons_some hq, List.filter_cons_of_pos (by rwa [decide_eq_true_eq]),
        List.map_cons]
      exact congrArg _ ih

lemma dataPrepareWrites_right (s : PageOwner) (pages : List (String × Nat)) :
    (∀ slot, some slot ∈ (dataPrepareWrites me owners s pages).slots →
        Inside (dataPrepareWrites me owners s pages).owner.pool slot)
      ↔ (prepareBatch me owners).AllRight
        ((prepareBatch me owners).after ([], s) (asked owners s pages)) ([], s)
        (asked owners s pages) := by
  have hlast : (dataPrepareWrites me owners s pages).owner
      = ((prepareBatch me owners).after ([], s) (asked owners s pages)).2 :=
    prepareLoop_foldl (asked owners s pages) s []
  have hbase : ((prepareBatch me owners).after ([], s) (asked owners s pages)).2.pool.base
      = s.pool.base := by
    rw [← hlast]
    exact prepareLoop_base _ s
  rw [hlast]
  exact prepareLoop_right hbase

/-- **WRITE TARGETS**: over a pool reached by its own calls, whatever bytes were written to it
    from the network, the slots of a reply are sound when every page of the request spares those
    before it, and for distinct keys only then. -/
theorem slots_sound_iff (me : String) (owners : Owners) {s : PageOwner}
    {base capacity rkey : Nat} {rkeys : List Nat} {buf mem : Mem} {ops : List (PoolOp String)}
    (hpool : s.pool = { PeerCachePool.run (new base capacity rkey rkeys buf) ops with buf := mem })
    (pages : List (String × Nat)) :
    (PreparesSpare me owners s pages →
        SlotsSound (dataPrepareWrites me owners s pages).owner.pool
          (dataPrepareWrites me owners s pages).slots)
      ∧ (((pages.filter (fun q => decide (¬ Refused q))).map Prod.fst).Nodup →
        (SlotsSound (dataPrepareWrites me owners s pages).owner.pool
            (dataPrepareWrites me owners s pages).slots
          ↔ PreparesSpare me owners s pages)) := by
  have hi : Inv (dataPrepareWrites me owners s pages).owner.pool := by
    have hrun := run_inv ops (inv_new base capacity rkey rkeys buf)
    refine inv_prepareLoop _ ?_
    rw [hpool]
    exact ⟨hrun.tiles, hrun.next_le, hrun.used_eq⟩
  rw [slotsSound_iff hi]
  rw [dataPrepareWrites_right]
  have hsound : PreparesSpare me owners s pages →
      (prepareBatch me owners).AllRight
        ((prepareBatch me owners).after ([], s) (asked owners s pages)) ([], s)
        (asked owners s pages) :=
    fun h => HandOut.Batch.right_of_spares (handledLast_nil s.pool) h
  refine ⟨hsound, fun hnodup => ⟨?_, hsound⟩⟩
  rw [← asked_keys me owners s] at hnodup
  exact HandOut.Batch.spares_of_right hnodup (fun _ hk => absurd hk List.not_mem_nil)
    (fun _ hk => absurd hk List.not_mem_nil)

/-- A storage server with an empty pool of so many bytes and an empty directory. -/
def emptyServer (capacity : Nat) : PageOwner :=
  ⟨new 100 capacity 7 [7] (fun _ => 0), none, OrderedDict.empty, fun _ => OrderedDict.empty⟩

/-- Two pages of one byte in a pool of two. -/
theorem slots_sound_iff_room :
    PreparesSpare "n" (fun _ => ["n"]) (emptyServer 2) [("a", 1), ("b", 1)]
      ∧ SlotsSound (dataPrepareWrites "n" (fun _ => ["n"]) (emptyServer 2) [("a", 1), ("b", 1)]).owner.pool
        (dataPrepareWrites "n" (fun _ => ["n"]) (emptyServer 2) [("a", 1), ("b", 1)]).slots := by
  have h : PreparesSpare "n" (fun _ => ["n"]) (emptyServer 2) [("a", 1), ("b", 1)] := by
    decide +kernel
  have hpool : (emptyServer 2).pool
      = { PeerCachePool.run (new 100 2 7 [7] (fun _ => 0)) [] with buf := fun _ => 0 } := rfl
  exact ⟨h, (slots_sound_iff "n" (fun _ => ["n"]) hpool [("a", 1), ("b", 1)]).1 h⟩

/-- In a pool of one byte both slots name the same byte, and the first key is gone. -/
theorem slots_share_a_byte :
    (dataPrepareWrites "n" (fun _ => ["n"]) (emptyServer 1) [("a", 1), ("b", 1)]).slots
        = [some ⟨"a", "n", 100, 7, 1⟩, some ⟨"b", "n", 100, 7, 1⟩]
      ∧ (dataPrepareWrites "n" (fun _ => ["n"]) (emptyServer 1)
          [("a", 1), ("b", 1)]).owner.pool.entries.keys = ["b"]
      ∧ ¬ SlotsSound (dataPrepareWrites "n" (fun _ => ["n"]) (emptyServer 1)
            [("a", 1), ("b", 1)]).owner.pool
          (dataPrepareWrites "n" (fun _ => ["n"]) (emptyServer 1) [("a", 1), ("b", 1)]).slots := by
  have hslots : (dataPrepareWrites "n" (fun _ => ["n"]) (emptyServer 1) [("a", 1), ("b", 1)]).slots
      = [some ⟨"a", "n", 100, 7, 1⟩, some ⟨"b", "n", 100, 7, 1⟩] := by decide +kernel
  refine ⟨hslots, by decide +kernel, ?_⟩
  intro h
  rw [hslots] at h
  have hapart := h.disjoint ⟨"a", "n", 100, 7, 1⟩ ⟨"b", "n", 100, 7, 1⟩ (by decide) (by decide)
    (by decide)
  exact hapart 100 ⟨le_refl _, by decide⟩ ⟨le_refl _, by decide⟩

end

end PeerCacheStorage
