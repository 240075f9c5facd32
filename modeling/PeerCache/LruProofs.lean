import Mathlib
import PeerCache.PoolProofs

/-! # With one page size the pool is an LRU cache

    The abstract cache is an `LruMap`: at most `bound` entries, oldest first, where a
    use moves an entry to the end and an insertion into a full map drops the first.
    It knows nothing of offsets, free lists or bump pointers. -/

/-- A least-recently-used map with room for `bound` entries, oldest first. -/
structure LruMap (K V : Type) (bound : Nat) where
  entries : OrderedDict K V
  size_le : entries.items.length ≤ bound

namespace LruMap

variable {K V : Type} {bound : Nat}

/-- The map with no entries. -/
def empty : LruMap K V bound := ⟨OrderedDict.empty, Nat.zero_le _⟩

variable [DecidableEq K]

lemma insertLast_length {d : OrderedDict K V} {k : K} {v : V} (h : k ∉ d.keys) :
    (d.insertLast k v).items.length = d.items.length + 1 := by
  rw [OrderedDict.insertLast_items_of_not_mem h, List.length_append]
  rfl

/-- Use a key: it becomes the most recently used one. -/
def touch (m : LruMap K V bound) (k : K) : LruMap K V bound :=
  ⟨m.entries.moveToEnd k, by
    rw [(OrderedDict.moveToEnd_perm m.entries k).length_eq]
    exact m.size_le⟩

/-- Drop a key. -/
def remove (m : LruMap K V bound) (k : K) : LruMap K V bound :=
  ⟨m.entries.erase k, (List.length_filter_le _ _).trans m.size_le⟩

/-- Insert a key, or use it if it is there.  A full map gives up its oldest entry.
    Returns the evicted keys. -/
def put (m : LruMap K V bound) (k : K) (v : V) : List K × LruMap K V bound :=
  if hk : k ∈ m.entries.keys then ([], m.touch k)
  else if hroom : m.entries.items.length < bound then
    ([], ⟨m.entries.insertLast k v, by rw [insertLast_length hk]; exact hroom⟩)
  else
    match hpop : m.entries.popFirst with
    | none => ([], m)
    | some (old, rest) =>
        ([old.1], ⟨rest.insertLast k v, by
          have hitems := OrderedDict.popFirst_items hpop
          have hrest : k ∉ rest.keys := by
            intro hm
            refine hk ?_
            show k ∈ m.entries.items.map Prod.fst
            rw [hitems]
            exact List.mem_cons_of_mem _ hm
          have hsize := m.size_le
          rw [hitems, List.length_cons] at hsize
          rw [insertLast_length hrest]
          exact hsize⟩)

end LruMap

namespace PeerCacheLru

open Tiling PeerCachePool List

variable {K : Type} {L : Nat}

/-! ## Counting slots -/

/-- Every extent the pool ever cut off has length `L`. -/
def UniformExtents (L : Nat) (p : PublishedPool K) : Prop := ∀ e ∈ p.extents, e.2 = L

lemma sum_of_uniform {l : List Extent} (h : ∀ e ∈ l, e.2 = L) :
    (l.map Prod.snd).sum = L * l.length := by
  induction l with
  | nil => rfl
  | cons e l ih =>
    rw [map_cons, sum_cons, ih (fun x hx => h x (mem_cons_of_mem e hx)),
      h e (.head _), length_cons]
    ring

lemma nextOffset_eq {p : PublishedPool K} (hi : Inv p) (hu : UniformExtents L p) :
    p.nextOffset = L * (p.entries.items.length + (freeSlots p.free).length) := by
  have h := hi.tiles.total
  rw [sum_of_uniform hu] at h
  rw [← h, PublishedPool.extents, length_append, length_map]

lemma popFree_none_iff {p : PublishedPool K} (hu : UniformExtents L p) :
    popFree p.free L = none ↔ freeSlots p.free = [] := by
  constructor
  · intro h
    refine eq_nil_iff_forall_not_mem.mpr ?_
    intro e he
    exact popFree_none h he (hu e (mem_append_right _ he))
  · intro h
    cases hpop : popFree p.free L with
    | none => rfl
    | some x =>
      obtain ⟨off, free'⟩ := x
      have hperm := freeSlots_popFree hpop
      rw [h] at hperm
      exact absurd hperm.nil_eq (cons_ne_nil _ _).symm

lemma allocate_room {p : PublishedPool K} (hi : Inv p) (hu : UniformExtents L p)
    (hL : 0 < L) (hfit : L ≤ p.capacity) (hroom : p.entries.items.length < p.capacity / L) :
    ∃ off, (allocate p L).off = some off ∧ (allocate p L).evicted = []
      ∧ (allocate p L).pool.entries = p.entries := by
  rw [allocate, if_neg (Nat.not_lt.mpr hfit)]
  cases hpop : popFree p.free L with
  | some x => exact ⟨x.1, rfl, rfl, rfl⟩
  | none =>
    -- no free slot: the bump pointer stands right after the resident pages
    have hnext := nextOffset_eq hi hu
    rw [(popFree_none_iff hu).mp hpop, length_nil, Nat.add_zero] at hnext
    have hbump : p.nextOffset + L ≤ p.capacity := by
      have hle : (p.entries.items.length + 1) * L ≤ p.capacity :=
        (Nat.le_div_iff_mul_le hL).mp hroom
      rw [hnext, Nat.mul_comm L]
      rw [Nat.succ_mul] at hle
      exact hle
    refine ⟨p.nextOffset, ?_, ?_, ?_⟩ <;> simp only [hbump, if_true]

lemma full_pool {p : PublishedPool K} (hi : Inv p) (hu : UniformExtents L p) (hL : 0 < L)
    (hfull : p.capacity / L ≤ p.entries.items.length) :
    popFree p.free L = none ∧ p.capacity < p.nextOffset + L := by
  have hnext := nextOffset_eq hi hu
  have hle : p.entries.items.length + (freeSlots p.free).length ≤ p.capacity / L := by
    rw [Nat.le_div_iff_mul_le hL, Nat.mul_comm]
    exact hnext ▸ hi.next_le
  have hnil : (freeSlots p.free).length = 0 := by omega
  have hsize : p.entries.items.length = p.capacity / L := by omega
  refine ⟨(popFree_none_iff hu).mpr (length_eq_zero_iff.mp hnil), ?_⟩
  rw [hnext, hnil, hsize, Nat.add_zero]
  have hdiv := Nat.div_add_mod p.capacity L
  have hmod := Nat.mod_lt p.capacity hL
  omega

lemma allocate_full {p : PublishedPool K} (hi : Inv p) (hu : UniformExtents L p)
    (hL : 0 < L) (hfit : L ≤ p.capacity) (hfull : p.capacity / L ≤ p.entries.items.length) :
    ∃ off old rest, p.entries.popFirst = some (old, rest)
      ∧ (allocate p L).off = some off ∧ (allocate p L).evicted = [old.1]
      ∧ (allocate p L).pool.entries = rest := by
  obtain ⟨hpop, hbump⟩ := full_pool hi hu hL hfull
  have hpos : 0 < p.entries.items.length := Nat.lt_of_lt_of_le (Nat.div_pos hfit hL) hfull
  obtain ⟨fuel, hfuel⟩ : ∃ fuel, p.entries.items.length = fuel + 1 :=
    ⟨p.entries.items.length - 1, by omega⟩
  cases hfirst : p.entries.popFirst with
  | none =>
    rw [OrderedDict.popFirst_eq_none.mp hfirst] at hpos
    exact absurd hpos (Nat.lt_irrefl 0)
  | some x =>
    obtain ⟨old, rest⟩ := x
    have hmem : old ∈ p.entries.items := by
      rw [OrderedDict.popFirst_items hfirst]
      exact (.head _)
    have hlen : old.2.2 = L := hu old.2 (mem_append_left _ (mem_map_of_mem hmem))
    obtain ⟨free', hfree⟩ := popFree_pushFree p.free old.2.2 old.2.1
    have hfree1 : popFree (evictFirst p old rest).free L = some (old.2.1, free') := by
      rw [← hlen]; exact hfree
    have halloc : allocate p L
        = ⟨some old.2.1, { evictFirst p old rest with free := free' }, [old.1]⟩ := by
      rw [allocate, if_neg (Nat.not_lt.mpr hfit), hpop]
      simp only [Nat.not_le.mpr hbump, if_false]
      rw [hfuel, evictLoop, hfirst]
      simp only [hlen, if_true, hfree1, nil_append]
    refine ⟨old.2.1, old, rest, rfl, ?_, ?_, ?_⟩ <;> rw [halloc]
    rfl

variable [DecidableEq K]

lemma uniform_place {p : PublishedPool K} (hu : UniformExtents L p) (key : K)
    (copy : Nat → Mem → Mem) : UniformExtents L (place p key L copy).pool := by
  intro e he
  rcases place_extents p key L copy with ⟨hperm, -⟩ | ⟨hperm, -⟩
  · exact hu e (hperm.mem_iff.mp he)
  · rcases mem_cons.mp (hperm.mem_iff.mp he) with rfl | he
    · rfl
    · exact hu e he

/-- **NO PAGE IS REFUSED** if all pages have one length, and one of them fits. -/
lemma uniform_place_addr {p : PublishedPool K} (hi : Inv p) (hu : UniformExtents L p)
    (hfit : L ≤ p.capacity) (key : K) (copy : Nat → Mem → Mem) : (place p key L copy).addr ≠ none := by
  intro hnone
  rcases place_cases p key L copy with ⟨e, -, heq⟩ | ⟨-, hoff, -⟩ | ⟨-, off, -, heq⟩
  · rw [heq] at hnone; cases hnone
  · rcases noSlot_of_allocate hoff with hcap | ⟨hext, hbump⟩
    · omega
    · -- no extent is of the length, so there is none: the pool is empty
      have hnil : p.extents = [] :=
        eq_nil_iff_forall_not_mem.mpr (fun e he => hext e he (hu e he))
      have htotal := hi.tiles.total
      rw [hnil] at htotal
      have hzero : p.nextOffset = 0 := htotal.symm
      omega
  · rw [heq] at hnone; cases hnone

lemma uniform_remove {p : PublishedPool K} (hu : UniformExtents L p) (key : K) :
    UniformExtents L (remove p key) := by
  rw [remove]
  cases hg : p.entries.get? key with
  | none => exact hu
  | some e0 =>
    obtain ⟨off, length⟩ := e0
    have hin : (off, length) ∈ p.extents := mem_append_left _
      (mem_map.mpr ⟨_, OrderedDict.get?_eq_some.mp hg, rfl⟩)
    intro e he
    rcases mem_append.mp he with he | he
    · obtain ⟨item, hitem, rfl⟩ := mem_map.mp he
      exact hu item.2 (mem_append_left _
        (mem_map.mpr ⟨item, (OrderedDict.mem_erase.mp hitem).1, rfl⟩))
    · rcases mem_cons.mp ((freeSlots_pushFree p.free length off).mem_iff.mp he)
        with rfl | he
      · exact hu _ hin
      · exact hu e (mem_append_right _ he)

/-! ## The simulation -/

/-- What a caller of the pool sees. -/
inductive PoolObs (K : Type) where
  | placed (ok : Bool) (evicted : List K)
  | looked (page : Option Bytes)
  | removed

/-- What a caller of the abstract map sees; `looked (some none)` is a page that was only
    reserved, whose bytes the map does not fix. -/
inductive LruObs (K : Type) where
  | placed (evicted : List K)
  | looked (page : Option (Option Bytes))
  | removed

/-- The observation a pool call makes. -/
def poolObs (p : PublishedPool K) : PoolOp K → PoolObs K
  | .publish key data => .placed (publish p key data).addr.isSome (publish p key data).evicted
  | .reserve key length =>
      .placed (reserve p key length).addr.isSome (reserve p key length).evicted
  | .addressOf key =>
      .looked ((addressOf p key).1.map (fun al => p.buf.read (al.1 - p.base) al.2))
  | .remove _ => .removed

/-- The same call on the abstract map. -/
def lruStep {bound : Nat} (m : LruMap K (Option Bytes) bound) :
    PoolOp K → LruObs K × LruMap K (Option Bytes) bound
  | .publish key data => (.placed (m.put key (some data)).1, (m.put key (some data)).2)
  | .reserve key _ => (.placed (m.put key none).1, (m.put key none).2)
  | .addressOf key => (.looked (m.entries.get? key), m.touch key)
  | .remove key => (.removed, m.remove key)

/-- The observations of a sequence of calls on the pool. -/
def poolTrace (p : PublishedPool K) : List (PoolOp K) → List (PoolObs K)
  | [] => []
  | op :: ops => poolObs p op :: poolTrace (step p op) ops

/-- The observations of the same calls on the abstract map. -/
def lruTrace {bound : Nat} (m : LruMap K (Option Bytes) bound) :
    List (PoolOp K) → List (LruObs K)
  | [] => []
  | op :: ops => (lruStep m op).1 :: lruTrace (lruStep m op).2 ops

omit [DecidableEq K] in
/-- The pool's observation is the map's: nothing fails, the same keys are evicted, the
    same keys are found, and a published page has the published bytes. -/
def Agrees (L : Nat) : PoolObs K → LruObs K → Prop
  | .placed ok evicted, .placed evicted' => ok = true ∧ evicted = evicted'
  | .looked none, .looked none => True
  | .looked (some bytes), .looked (some (some data)) => bytes = data
  | .looked (some bytes), .looked (some none) => bytes.length = L
  | .removed, .removed => True
  | _, _ => False

omit [DecidableEq K] in
/-- The calls of a client that uses one page length. -/
def UniformOp (L : Nat) : PoolOp K → Prop
  | .publish _ data => data.length = L
  | .reserve _ length => length = L
  | .addressOf _ => True
  | .remove _ => True

/-- The pool `p` represents the map `m`. -/
structure Represents {bound : Nat} (L : Nat) (p : PublishedPool K)
    (m : LruMap K (Option Bytes) bound) : Prop where
  inv : Inv p
  uniform : UniformExtents L p
  bound_eq : p.capacity / L = bound
  fits : L ≤ p.capacity
  keys : p.entries.keys = m.entries.keys
  bytes : ∀ k e data, p.entries.get? k = some e → m.entries.get? k = some (some data) →
    p.buf.read e.1 e.2 = data

variable {bound : Nat} {m : LruMap K (Option Bytes) bound} {p : PublishedPool K}

lemma represents_length (h : Represents L p m) :
    p.entries.items.length = m.entries.items.length := by
  have hk := congrArg length h.keys
  rw [OrderedDict.keys, OrderedDict.keys, length_map, length_map] at hk
  exact hk

lemma represents_touch (h : Represents L p m) (key : K) :
    Represents L { p with entries := p.entries.moveToEnd key } (m.touch key) := by
  refine ⟨inv_moveToEnd h.inv key, ?_, h.bound_eq, h.fits, ?_, ?_⟩
  · intro e he
    refine h.uniform e ?_
    exact (((OrderedDict.moveToEnd_perm p.entries key).map Prod.snd).append_right _).mem_iff.mp he
  · show (p.entries.moveToEnd key).keys = (m.entries.moveToEnd key).keys
    by_cases hk : key ∈ p.entries.keys
    · rw [OrderedDict.moveToEnd_keys hk, OrderedDict.moveToEnd_keys (h.keys ▸ hk), h.keys]
    · have hk' : key ∉ m.entries.keys := h.keys ▸ hk
      rw [OrderedDict.moveToEnd, OrderedDict.moveToEnd, OrderedDict.get?_eq_none.mpr hk,
        OrderedDict.get?_eq_none.mpr hk']
      exact h.keys
  · intro k e data hp hm
    refine h.bytes k e data ?_ ?_
    · exact (OrderedDict.get?_moveToEnd p.entries key k).symm.trans hp
    · exact (OrderedDict.get?_moveToEnd m.entries key k).symm.trans hm

/-- The key the copy leaves readable: the data for `publish`, nothing for `reserve`. -/
def CopyLeaves (L : Nat) (copy : Nat → Mem → Mem) (v : Option Bytes) : Prop :=
  ∀ off m data, v = some data → (copy off m).read off L = data

variable {copy : Nat → Mem → Mem} {v : Option Bytes}

lemma represents_insert {key : K} {off : Nat} {rest : OrderedDict K (Option Bytes)}
    {m' : LruMap K (Option Bytes) bound} (h : Represents L p m) (hin : CopiesInside L copy)
    (hleaves : CopyLeaves L copy v) (hkey : key ∉ p.entries.keys)
    (hoff : (allocate p L).off = some off) (hrest : ∀ x, x ∈ rest.items → x ∈ m.entries.items)
    (hkeys : (allocate p L).pool.entries.keys = rest.keys) (hm' : m'.entries = rest.insertLast key v) :
    Represents L (insertPage (allocate p L).pool key off L copy) m' := by
  have hspec := allocate_spec p L
  have hkey' : key ∉ (allocate p L).pool.entries.keys := fun hm => hkey (hspec.keys_subset hm)
  have hplace : (place p key L copy).pool = insertPage (allocate p L).pool key off L copy := by
    rcases place_cases p key L copy with ⟨e, hg, -⟩ | ⟨-, hnone, -⟩ | ⟨-, off', hoff', heq⟩
    · exact absurd (OrderedDict.mem_keys.mpr ⟨e, hg⟩) hkey
    · rw [hoff] at hnone; cases hnone
    · obtain rfl : off = off' := Option.some.inj (hoff.symm.trans hoff')
      rw [heq]
  refine ⟨inv_insertPage hspec h.inv hkey hoff copy, hplace ▸ uniform_place h.uniform key copy,
    ?_, ?_, ?_, ?_⟩
  · show (allocate p L).pool.capacity / L = bound
    rw [hspec.same.capacity]
    exact h.bound_eq
  · show L ≤ (allocate p L).pool.capacity
    rw [hspec.same.capacity]
    exact h.fits
  · show (insertPage (allocate p L).pool key off L copy).entries.items.map Prod.fst
      = m'.entries.items.map Prod.fst
    rw [insertPage_items hkey', hm', OrderedDict.insertLast_items_of_not_mem (hkeys ▸ hkey'),
      map_append, map_append]
    exact congrArg (· ++ [key]) hkeys
  · intro k e data hp hm
    rw [hm', OrderedDict.get?_insertLast] at hm
    by_cases hk : k = key
    · -- the page just inserted: its bytes are the copied ones
      rw [if_pos hk] at hm
      rw [insertPage_get?, if_pos hk] at hp
      cases hp
      exact hleaves off _ data (Option.some.inj hm)
    · -- a page that stayed: its bytes did not move
      rw [if_neg hk] at hm
      have hstay : k ∈ (place p key L copy).pool.entries.keys := by
        rw [hplace]
        exact OrderedDict.mem_keys.mpr ⟨e, hp⟩
      have hp' : (allocate p L).pool.entries.get? k = some e := by
        rw [insertPage_get?, if_neg hk] at hp
        exact hp
      obtain ⟨dropped, hitems, -, -⟩ := hspec.oldest
      have hold : p.entries.get? k = some e := by
        rw [OrderedDict.get?_eq_some, hitems]
        exact mem_append_right _ (OrderedDict.get?_eq_some.mp hp')
      rw [← hplace, place_buf_of_mem hin h.inv hold hstay]
      refine h.bytes k e data hold ?_
      exact OrderedDict.get?_eq_some.mpr (hrest _ (OrderedDict.get?_eq_some.mp hm))

lemma represents_place (hL : 0 < L) (h : Represents L p m) (hin : CopiesInside L copy)
    (hleaves : CopyLeaves L copy v) (key : K) :
    Represents L (place p key L copy).pool (m.put key v).2 ∧ (place p key L copy).addr.isSome = true
      ∧ (place p key L copy).evicted = (m.put key v).1 := by
  have hlen := represents_length h
  rcases place_cases p key L copy with ⟨e, hg, heq⟩ | ⟨hkey, hnone, -⟩ | ⟨hkey, off, hoff, heq⟩
  · -- a key that is there is only touched
    have hk : key ∈ m.entries.keys := h.keys ▸ OrderedDict.mem_keys.mpr ⟨e, hg⟩
    rw [heq, LruMap.put, dif_pos hk]
    exact ⟨represents_touch h key, rfl, rfl⟩
  · -- the pool never fails: with room it finds a slot, without room it evicts one
    by_cases hroom : p.entries.items.length < p.capacity / L
    · obtain ⟨off, hoff, -⟩ := allocate_room h.inv h.uniform hL h.fits hroom
      rw [hnone] at hoff; cases hoff
    · obtain ⟨off, old, rest, -, hoff, -⟩ :=
        allocate_full h.inv h.uniform hL h.fits (Nat.le_of_not_lt hroom)
      rw [hnone] at hoff; cases hoff
  · have hk : key ∉ m.entries.keys := h.keys ▸ hkey
    rw [heq, LruMap.put, dif_neg hk]
    by_cases hroom : p.entries.items.length < p.capacity / L
    · obtain ⟨off', hoff', hev, hent⟩ := allocate_room h.inv h.uniform hL h.fits hroom
      have hroom' : m.entries.items.length < bound := by rw [← hlen, ← h.bound_eq]; exact hroom
      rw [dif_pos hroom']
      refine ⟨?_, rfl, hev⟩
      refine represents_insert h hin hleaves hkey hoff (fun x hx => hx) ?_ rfl
      rw [hent]; exact h.keys
    · obtain ⟨off', old, rest, hpop, hoff', hev, hent⟩ :=
        allocate_full h.inv h.uniform hL h.fits (Nat.le_of_not_lt hroom)
      have hroom' : ¬ m.entries.items.length < bound := by
        rw [← hlen, ← h.bound_eq]; exact hroom
      rw [dif_neg hroom']
      have hkeys : p.entries.keys = old.1 :: rest.keys := by
        show p.entries.items.map Prod.fst = _
        rw [OrderedDict.popFirst_items hpop]
        rfl
      -- the oldest entry of the map is the one the pool evicted
      split
      · rename_i hnone
        have hnil : m.entries.keys = [] := by
          show m.entries.items.map Prod.fst = []
          rw [OrderedDict.popFirst_eq_none.mp hnone]
          rfl
        rw [← h.keys, hkeys] at hnil
        cases hnil
      · rename_i mold mrest hmpop
        have hmitems := OrderedDict.popFirst_items hmpop
        have hmkeys : m.entries.keys = mold.1 :: mrest.keys := by
          show m.entries.items.map Prod.fst = _
          rw [hmitems]
          rfl
        rw [h.keys, hmkeys] at hkeys
        obtain ⟨hold, hrest⟩ := cons.inj hkeys
        refine ⟨?_, rfl, ?_⟩
        · refine represents_insert h hin hleaves hkey hoff ?_ ?_ rfl
          · intro x hx
            rw [hmitems]
            exact .tail _ hx
          · rw [hent]; exact hrest.symm
        · rw [hev, hold]

lemma represents_remove (h : Represents L p m) (key : K) :
    Represents L (remove p key) (m.remove key) := by
  have hget : ∀ k, (remove p key).entries.get? k = if k = key then none else p.entries.get? k := by
    intro k
    rw [remove]
    cases hg : p.entries.get? key with
    | none =>
      by_cases hk : k = key
      · rw [if_pos hk, hk]; exact hg
      · rw [if_neg hk]
    | some e => exact OrderedDict.get?_erase p.entries key k
  have hreg := step_region p (.remove key)
  have hbuf : (remove p key).buf = p.buf := by
    rw [remove]
    cases p.entries.get? key <;> rfl
  refine ⟨inv_remove h.inv key, uniform_remove h.uniform key, ?_, ?_, ?_, ?_⟩
  · rw [show (remove p key).capacity = p.capacity from hreg.capacity]; exact h.bound_eq
  · rw [show (remove p key).capacity = p.capacity from hreg.capacity]; exact h.fits
  · have hfilter : ∀ {V : Type} (d : OrderedDict K V),
        (d.erase key).keys = d.keys.filter (fun j => decide (j ≠ key)) := by
      intro V d
      show (d.items.filter (fun x => decide (x.1 ≠ key))).map Prod.fst = _
      rw [OrderedDict.keys, filter_map]
      rfl
    show (remove p key).entries.keys = (m.entries.erase key).keys
    rw [hfilter, ← h.keys, ← hfilter, remove]
    cases hg : p.entries.get? key with
    | none => rw [OrderedDict.erase_of_not_mem (OrderedDict.get?_eq_none.mp hg)]
    | some e => rfl
  · intro k e data hp hm
    rw [hget] at hp
    have hm' : (m.entries.erase key).get? k = some (some data) := hm
    rw [OrderedDict.get?_erase] at hm'
    by_cases hk : k = key
    · rw [if_pos hk] at hp; cases hp
    · rw [if_neg hk] at hp hm'
      rw [hbuf]
      exact h.bytes k e data hp hm'

/-- **ONE STEP**: a uniform call keeps the representation and is observed alike. -/
lemma represents_step (hL : 0 < L) (h : Represents L p m) {op : PoolOp K} (hop : UniformOp L op) :
    Represents L (step p op) (lruStep m op).2 ∧ Agrees L (poolObs p op) (lruStep m op).1 := by
  cases op with
  | publish key data =>
    have hlen : data.length = L := hop
    subst hlen
    obtain ⟨hr, hok, hev⟩ := represents_place (v := some data) hL h (copiesInside_write data)
      (fun off m' d hd => by
        cases hd
        exact Mem.read_write_same m' off data) key
    exact ⟨hr, hok, hev⟩
  | reserve key length =>
    have hlen : length = L := hop
    subst hlen
    obtain ⟨hr, hok, hev⟩ := represents_place (v := none) hL h (copiesInside_none length)
      nofun key
    exact ⟨hr, hok, hev⟩
  | addressOf key =>
    show Represents L (addressOf p key).2 (m.touch key)
      ∧ Agrees L (.looked ((addressOf p key).1.map (fun al => p.buf.read (al.1 - p.base) al.2)))
          (.looked (m.entries.get? key))
    have htouch := represents_touch h key
    rw [addressOf]
    cases hg : p.entries.get? key with
    | none =>
      have hk : key ∉ m.entries.keys := h.keys ▸ OrderedDict.get?_eq_none.mp hg
      rw [OrderedDict.get?_eq_none.mpr hk]
      rw [OrderedDict.moveToEnd, hg] at htouch
      exact ⟨htouch, trivial⟩
    | some e =>
      refine ⟨htouch, ?_⟩
      obtain ⟨v, hv⟩ := OrderedDict.mem_keys.mp (h.keys ▸ OrderedDict.mem_keys.mpr ⟨e, hg⟩)
      rw [hv]
      show Agrees L (.looked (some (p.buf.read (p.base + e.1 - p.base) e.2))) (.looked (some v))
      rw [Nat.add_sub_cancel_left]
      cases v with
      | some data => exact h.bytes key e data hg hv
      | none =>
        show (p.buf.read e.1 e.2).length = L
        rw [Mem.length_read]
        exact h.uniform e (mem_append_left _
          (mem_map.mpr ⟨(key, e), OrderedDict.get?_eq_some.mp hg, rfl⟩))
  | remove key => exact ⟨represents_remove h key, trivial⟩

lemma represents_run (hL : 0 < L) (ops : List (PoolOp K)) (hops : ∀ op ∈ ops, UniformOp L op) :
    ∀ {p : PublishedPool K} {m : LruMap K (Option Bytes) bound}, Represents L p m →
      List.Forall₂ (Agrees L) (poolTrace p ops) (lruTrace m ops) := by
  induction ops with
  | nil => intro p m _; exact List.Forall₂.nil
  | cons op ops ih =>
    intro p m h
    obtain ⟨hnext, hobs⟩ := represents_step hL h (hops op (.head _))
    exact List.Forall₂.cons hobs (ih (fun o ho => hops o (mem_cons_of_mem op ho)) hnext)

/-- **EXACT LRU.**  With one page length `L`, `0 < L ≤ capacity`, every sequence of calls on
    a fresh pool is observed exactly as on an LRU map with `capacity / L` entries: no call
    fails, the same keys are evicted at the same calls, the same keys are found, and a page
    found has the bytes of the publish that inserted it. -/
theorem pool_is_lru (base capacity rkey : Nat) (rkeys : List Nat) (buf : Mem)
    (hL : 0 < L) (hfit : L ≤ capacity) (ops : List (PoolOp K))
    (hops : ∀ op ∈ ops, UniformOp L op) :
    List.Forall₂ (Agrees L) (poolTrace (new base capacity rkey rkeys buf) ops)
      (lruTrace (LruMap.empty : LruMap K (Option Bytes) (capacity / L)) ops) := by
  refine represents_run hL ops hops ?_
  refine ⟨inv_new base capacity rkey rkeys buf, ?_, rfl, hfit, rfl, ?_⟩
  · intro e he; exact nomatch he
  · intro k e data hp; exact nomatch hp

/-- Two pages fit, the second `publish` of a third evicts the page that was not touched. -/
theorem pool_is_lru_two_pages :
    List.Forall₂ (Agrees 4)
      (poolTrace (new 100 9 1 [] (fun _ => 0))
        [.publish "a" [1, 2, 3, 4], .publish "b" [5, 6, 7, 8], .addressOf "a",
          .publish "c" [9, 9, 9, 9], .addressOf "a", .addressOf "b"])
      (lruTrace (LruMap.empty : LruMap String (Option Bytes) (9 / 4))
        [.publish "a" [1, 2, 3, 4], .publish "b" [5, 6, 7, 8], .addressOf "a",
          .publish "c" [9, 9, 9, 9], .addressOf "a", .addressOf "b"]) :=
  pool_is_lru 100 9 1 [] (fun _ => 0) (by decide) (by decide) _ (by
    intro op hop
    simp only [mem_cons, not_mem_nil, or_false] at hop
    rcases hop with rfl | rfl | rfl | rfl | rfl | rfl <;> first | rfl | trivial)

end PeerCacheLru
