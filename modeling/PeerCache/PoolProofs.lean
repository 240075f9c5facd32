import Mathlib
import PeerCache.OrderedDictProofs
import PeerCache.TilingProofs

/-! # The published pool — space accounting over every history

    `PublishedPool` (`pool.py`) hands out byte ranges of one registered buffer.
    Space is in one of three places: cut off by the bump pointer `nextOffset`,
    on the exact-size free list, or held by a resident entry.  `_allocate` moves it
    between them, evicting least-recently-used entries when it must. -/

namespace PeerCachePool

open Tiling OrderedDict

/-- `PublishedPool`: the registered buffer `buf` (bytes at offsets from `base`), the
    bump pointer, the per-length free list, and the entries in least-recently-used
    order.  `used` is a Python integer: nothing stops a wrong count from going
    negative. -/
structure PublishedPool (K : Type) where
  base : Nat
  capacity : Nat
  rkey : Nat
  rkeys : List Nat
  nextOffset : Nat
  free : OrderedDict Nat (List Nat)
  entries : OrderedDict K (Nat × Nat)
  used : Int
  buf : Mem

/-- `PublishedPool.__init__` over a buffer with the given contents. -/
def new {K : Type} (base capacity rkey : Nat) (rkeys : List Nat) (buf : Mem) :
    PublishedPool K where
  base := base
  capacity := capacity
  rkey := rkey
  rkeys := if rkeys = [] then [rkey] else rkeys
  nextOffset := 0
  free := OrderedDict.empty
  entries := OrderedDict.empty
  used := 0
  buf := buf

/-- What `publish` and `reserve` return, the pool they leave, and the keys they hand to
    `on_evict`. -/
structure Placed (K : Type) where
  addr : Option Nat
  pool : PublishedPool K
  evicted : List K

/-! ## The free list -/

/-- `self._free.setdefault(length, []).append(off)` -/
def pushFree (free : OrderedDict Nat (List Nat)) (length off : Nat) :
    OrderedDict Nat (List Nat) :=
  free.set length ((free.get? length).getD [] ++ [off])

/-- `self._free[length].pop()` when that list is there and not empty. -/
def popFree (free : OrderedDict Nat (List Nat)) (length : Nat) :
    Option (Nat × OrderedDict Nat (List Nat)) :=
  match free.get? length with
  | none => none
  | some offs =>
      match offs.getLast? with
      | none => none
      | some off => some (off, free.set length offs.dropLast)

/-- The extents on the free list. -/
def freeSlots (free : OrderedDict Nat (List Nat)) : List Extent :=
  free.items.flatMap (fun p => p.2.map (fun off => (off, p.1)))

lemma freeSlots_set (free : OrderedDict Nat (List Nat)) (length : Nat) (offs : List Nat) :
    (freeSlots (free.set length offs)).Perm
      (offs.map (fun off => (off, length)) ++ freeSlots (free.erase length)) := by
  have h := (set_perm free length offs).flatMap_right
    (fun p : Nat × List Nat => p.2.map (fun off => (off, p.1)))
  exact h

lemma freeSlots_split (free : OrderedDict Nat (List Nat)) (length : Nat) : (freeSlots free).Perm
      (((free.get? length).getD []).map (fun off => (off, length))
        ++ freeSlots (free.erase length)) := by
  cases hg : free.get? length with
  | none =>
    rw [erase_of_not_mem (get?_eq_none.mp hg)]
    exact List.Perm.refl _
  | some offs =>
    exact (items_perm_of_mem (get?_eq_some.mp hg)).flatMap_right _

lemma freeSlots_pushFree (free : OrderedDict Nat (List Nat)) (length off : Nat) :
    (freeSlots (pushFree free length off)).Perm ((off, length) :: freeSlots free) := by
  refine (freeSlots_set free length _).trans ?_
  rw [List.map_append]
  refine ((List.perm_append_comm.append_right _)).trans ?_
  exact ((freeSlots_split free length).symm.cons (off, length))

lemma freeSlots_popFree {free free' : OrderedDict Nat (List Nat)} {length off : Nat}
    (h : popFree free length = some (off, free')) :
    (freeSlots free).Perm ((off, length) :: freeSlots free') := by
  unfold popFree at h
  cases hg : free.get? length with
  | none => rw [hg] at h; cases h
  | some offs =>
    rw [hg] at h
    cases hl : offs.getLast? with
    | none => simp only [hl] at h; cases h
    | some last =>
      simp only [hl] at h
      obtain ⟨rfl, rfl⟩ := Prod.mk.inj (Option.some.inj h)
      have hoffs : offs = offs.dropLast ++ [last] := (List.dropLast_append_getLast? last hl).symm
      refine (freeSlots_split free length).trans ?_
      rw [hg, Option.getD_some]
      refine List.Perm.trans ?_ ((freeSlots_set free length offs.dropLast).symm.cons _)
      rw [hoffs, List.map_append, List.dropLast_concat, ← List.cons_append]
      exact List.perm_append_comm.append_right _

lemma popFree_pushFree (free : OrderedDict Nat (List Nat)) (length off : Nat) :
    ∃ free', popFree (pushFree free length off) length = some (off, free') := by
  refine ⟨(pushFree free length off).set length ((free.get? length).getD []), ?_⟩
  have hget : (pushFree free length off).get? length
      = some ((free.get? length).getD [] ++ [off]) := by
    show (free.set length _).get? length = _
    rw [get?_set, if_pos rfl]
  show (match (pushFree free length off).get? length with
    | none => none
    | some offs =>
      match offs.getLast? with
      | none => none
      | some o => some (o, (pushFree free length off).set length offs.dropLast)) = _
  rw [hget]
  simp

/-! ## The operations -/

variable {K : Type}

/-- Everything the pool has cut off so far: the extents of the entries and of the free
    slots. -/
def PublishedPool.extents (p : PublishedPool K) : List Extent :=
  p.entries.items.map Prod.snd ++ freeSlots p.free

/-- The lengths of the resident entries, added up. -/
def residentBytes (items : List (K × Extent)) : Nat := (items.map (fun e => e.2.2)).sum

/-- What `_allocate` returns, the pool it leaves, and the keys appended to `evicted`. -/
structure Allocated (K : Type) where
  off : Option Nat
  pool : PublishedPool K
  evicted : List K

/-- One turn of `while self._entries`: the least-recently-used entry gives its slot to
    the free list. -/
def evictFirst (p : PublishedPool K) (old : K × Extent) (rest : OrderedDict K Extent) :
    PublishedPool K :=
  { p with
    entries := rest
    used := p.used - old.2.2
    free := pushFree p.free old.2.2 old.2.1 }

/-- The eviction loop of `_allocate`.  Every turn pops one entry, so `fuel`, started at
    the number of entries, is the loop's own bound. -/
def evictLoop (length : Nat) : Nat → PublishedPool K → List K → Allocated K
  | 0, p, evicted => ⟨none, p, evicted⟩
  | fuel + 1, p, evicted =>
      match p.entries.popFirst with
      | none => ⟨none, p, evicted⟩
      | some (old, rest) =>
          let p1 := evictFirst p old rest
          let evicted1 := evicted ++ [old.1]
          if old.2.2 = length then
            match popFree p1.free length with
            | none => ⟨none, p1, evicted1⟩
            | some (off, free') => ⟨some off, { p1 with free := free' }, evicted1⟩
          else evictLoop length fuel p1 evicted1

/-- `PublishedPool._allocate` -/
def allocate (p : PublishedPool K) (length : Nat) : Allocated K :=
  if length > p.capacity then ⟨none, p, []⟩
  else
    match popFree p.free length with
    | some (off, free') => ⟨some off, { p with free := free' }, []⟩
    | none =>
        if p.nextOffset + length ≤ p.capacity then
          ⟨some p.nextOffset, { p with nextOffset := p.nextOffset + length }, []⟩
        else evictLoop length p.entries.items.length p []

variable [DecidableEq K]

/-- `self._entries[key] = (off, length)`, moved to the end and counted, with the buffer as
    `copy` leaves it. -/
def insertPage (p : PublishedPool K) (key : K) (off length : Nat) (copy : Nat → Mem → Mem) :
    PublishedPool K :=
  { p with
    buf := copy off p.buf
    entries := (p.entries.set key (off, length)).moveToEnd key
    used := p.used + length }

/-- The shared body of `publish` and `reserve`; `copy off` is what happens to the buffer
    once the page has its offset. -/
def place (p : PublishedPool K) (key : K) (length : Nat) (copy : Nat → Mem → Mem) : Placed K :=
  match p.entries.get? key with
  | some existing =>
      ⟨some (p.base + existing.1), { p with entries := p.entries.moveToEnd key }, []⟩
  | none =>
      let a := allocate p length
      match a.off with
      | none => ⟨none, a.pool, a.evicted⟩
      | some off => ⟨some (a.pool.base + off), insertPage a.pool key off length copy, a.evicted⟩

/-- `PublishedPool.publish` of the `data` found at `src_ptr`. -/
def publish (p : PublishedPool K) (key : K) (data : Bytes) : Placed K :=
  place p key data.length (fun off m => m.write off data)

/-- `PublishedPool.reserve`: the same, with no copy yet. -/
def reserve (p : PublishedPool K) (key : K) (length : Nat) : Placed K :=
  place p key length (fun _ m => m)

/-- `PublishedPool.address_of` -/
def addressOf (p : PublishedPool K) (key : K) : Option (Nat × Nat) × PublishedPool K :=
  match p.entries.get? key with
  | none => (none, p)
  | some (offset, length) =>
      (some (p.base + offset, length), { p with entries := p.entries.moveToEnd key })

/-- `PublishedPool.remove` -/
def remove (p : PublishedPool K) (key : K) : PublishedPool K :=
  match p.entries.get? key with
  | none => p
  | some (off, length) =>
      { p with
        entries := p.entries.erase key
        used := p.used - length
        free := pushFree p.free length off }

omit [DecidableEq K] in
/-- `PublishedPool.snapshot` -/
def snapshot (p : PublishedPool K) : List (K × Nat × Nat) :=
  p.entries.items.map (fun e => (e.1, p.base + e.2.1, e.2.2))

/-! ## What an allocation can do -/

/-- The fields no pool operation touches. -/
structure SameRegion (p q : PublishedPool K) : Prop where
  base : q.base = p.base
  capacity : q.capacity = p.capacity
  rkey : q.rkey = p.rkey
  rkeys : q.rkeys = p.rkeys

/-- **What `_allocate` can do**, in full: the buffer is untouched, the evicted keys are
    the oldest entries, and the extent returned is either an old one that nobody holds
    any more or a fresh cut that fits. -/
structure AllocSpec (p : PublishedPool K) (length : Nat) (a : Allocated K) : Prop where
  same : SameRegion p a.pool
  buf : a.pool.buf = p.buf
  oldest : ∃ dropped, p.entries.items = dropped ++ a.pool.entries.items
    ∧ a.evicted = dropped.map Prod.fst
    ∧ a.pool.used = p.used - (residentBytes dropped : Int)
  failed : a.off = none →
    a.pool.extents.Perm p.extents ∧ a.pool.nextOffset = p.nextOffset
  found : ∀ off, a.off = some off →
    (((off, length) :: a.pool.extents).Perm p.extents
        ∧ a.pool.nextOffset = p.nextOffset)
      ∨ (off = p.nextOffset ∧ a.pool.extents.Perm p.extents
        ∧ a.pool.nextOffset = p.nextOffset + length ∧ p.nextOffset + length ≤ p.capacity)

omit [DecidableEq K] in
lemma SameRegion.refl (p : PublishedPool K) : SameRegion p p := ⟨rfl, rfl, rfl, rfl⟩

omit [DecidableEq K] in
lemma SameRegion.symm {p q : PublishedPool K} (h : SameRegion p q) : SameRegion q p :=
  ⟨h.base.symm, h.capacity.symm, h.rkey.symm, h.rkeys.symm⟩

omit [DecidableEq K] in
lemma SameRegion.trans {p q r : PublishedPool K} (h1 : SameRegion p q) (h2 : SameRegion q r) :
    SameRegion p r :=
  ⟨h2.base.trans h1.base, h2.capacity.trans h1.capacity, h2.rkey.trans h1.rkey,
    h2.rkeys.trans h1.rkeys⟩

omit [DecidableEq K] in
lemma evictFirst_extents {p : PublishedPool K} {old : K × Extent} {rest : OrderedDict K Extent}
    (h : p.entries.popFirst = some (old, rest)) :
    (evictFirst p old rest).extents.Perm p.extents := by
  show (rest.items.map Prod.snd ++ freeSlots (pushFree p.free old.2.2 old.2.1)).Perm
    (p.entries.items.map Prod.snd ++ freeSlots p.free)
  rw [popFirst_items h, List.map_cons, List.cons_append]
  refine ((freeSlots_pushFree p.free old.2.2 old.2.1).append_left _).trans ?_
  exact List.perm_middle

omit [DecidableEq K] in
lemma AllocSpec.evict {p q : PublishedPool K} {length : Nat} {old : K × Extent}
    {rest : OrderedDict K Extent} {off : Option Nat} {more : List K}
    (hpop : p.entries.popFirst = some (old, rest))
    (h : AllocSpec (evictFirst p old rest) length ⟨off, q, more⟩) :
    AllocSpec p length ⟨off, q, old.1 :: more⟩ := by
  have hext := evictFirst_extents hpop
  obtain ⟨dropped, hitems, hkeys, hused⟩ := h.oldest
  refine ⟨⟨h.same.base, h.same.capacity, h.same.rkey, h.same.rkeys⟩, h.buf, ?_, ?_, ?_⟩
  · refine ⟨old :: dropped, ?_, congrArg (old.1 :: ·) hkeys, ?_⟩
    · rw [popFirst_items hpop]; exact congrArg (old :: ·) hitems
    · have hsum : residentBytes (old :: dropped) = old.2.2 + residentBytes dropped := List.sum_cons
      have hu : q.used = p.used - (old.2.2 : Int) - (residentBytes dropped : Int) := hused
      rw [hsum, hu]
      push_cast
      ring
  · intro hnone; exact ⟨(h.failed hnone).1.trans hext, (h.failed hnone).2⟩
  · intro o ho
    rcases h.found o ho with ⟨hp, hn⟩ | ⟨hoff, hp, hn, hc⟩
    · exact .inl ⟨hp.trans hext, hn⟩
    · exact .inr ⟨hoff, hp.trans hext, hn, hc⟩

omit [DecidableEq K] in
lemma AllocSpec.stop (p : PublishedPool K) (length : Nat) : AllocSpec p length ⟨none, p, []⟩ where
  same := SameRegion.refl p
  buf := rfl
  oldest := ⟨[], rfl, rfl, by simp [residentBytes]⟩
  failed := fun _ => ⟨List.Perm.refl _, rfl⟩
  found := by intro off h; cases h

omit [DecidableEq K] in
lemma AllocSpec.popFree {p : PublishedPool K} {length off : Nat}
    {free' : OrderedDict Nat (List Nat)} (h : popFree p.free length = some (off, free')) :
    AllocSpec p length ⟨some off, { p with free := free' }, []⟩ where
  same := ⟨rfl, rfl, rfl, rfl⟩
  buf := rfl
  oldest := ⟨[], rfl, rfl, by simp [residentBytes]⟩
  failed := by intro h; cases h
  found := by
    intro o ho
    cases ho
    refine .inl ⟨?_, rfl⟩
    exact List.perm_middle.symm.trans ((freeSlots_popFree h).symm.append_left _)

omit [DecidableEq K] in
lemma evictLoop_spec (length : Nat) : ∀ (fuel : Nat) (p : PublishedPool K) (evicted : List K),
      ∃ more, AllocSpec p length
          ⟨(evictLoop length fuel p evicted).off, (evictLoop length fuel p evicted).pool, more⟩
        ∧ (evictLoop length fuel p evicted).evicted = evicted ++ more := by
  intro fuel
  induction fuel with
  | zero =>
    intro p evicted
    exact ⟨[], AllocSpec.stop p length, (List.append_nil evicted).symm⟩
  | succ fuel ih =>
    intro p evicted
    rw [evictLoop]
    cases hpop : p.entries.popFirst with
    | none => exact ⟨[], AllocSpec.stop p length, (List.append_nil evicted).symm⟩
    | some x =>
      obtain ⟨old, rest⟩ := x
      by_cases hlen : old.2.2 = length
      · -- the freed slot has the wanted length, so the loop returns it
        obtain ⟨free', hfree⟩ := popFree_pushFree p.free old.2.2 old.2.1
        have hfree1 : popFree (evictFirst p old rest).free length = some (old.2.1, free') := by
          rw [← hlen]; exact hfree
        simp only [hlen, if_true, hfree1]
        exact ⟨[old.1], AllocSpec.evict hpop (AllocSpec.popFree hfree1), rfl⟩
      · simp only [hlen, if_false]
        obtain ⟨more, hspec, hmore⟩ := ih (evictFirst p old rest) (evicted ++ [old.1])
        refine ⟨old.1 :: more, AllocSpec.evict hpop hspec, ?_⟩
        rw [hmore, List.append_assoc]
        rfl

omit [DecidableEq K] in
lemma allocate_spec (p : PublishedPool K) (length : Nat) :
    AllocSpec p length (allocate p length) := by
  rw [allocate]
  by_cases hcap : length > p.capacity
  · rw [if_pos hcap]; exact AllocSpec.stop p length
  · rw [if_neg hcap]
    cases hfree : popFree p.free length with
    | some x =>
      obtain ⟨off, free'⟩ := x
      exact AllocSpec.popFree hfree
    | none =>
      by_cases hfit : p.nextOffset + length ≤ p.capacity
      · simp only [hfit, if_true]
        refine ⟨⟨rfl, rfl, rfl, rfl⟩, rfl, ⟨[], rfl, rfl, by simp [residentBytes]⟩, ?_, ?_⟩
        · intro h; cases h
        · intro off hoff
          exact .inr ⟨(Option.some.inj hoff).symm, List.Perm.refl _, rfl, hfit⟩
      · simp only [hfit, if_false]
        obtain ⟨more, hspec, hmore⟩ := evictLoop_spec length p.entries.items.length p []
        rw [List.nil_append] at hmore
        rw [← hmore] at hspec
        exact hspec

/-! ## The representation invariant -/

/-- The representation invariant of the pool. -/
structure Inv (p : PublishedPool K) : Prop where
  tiles : Tiles p.extents p.nextOffset
  next_le : p.nextOffset ≤ p.capacity
  used_eq : p.used = (residentBytes p.entries.items : Int)

omit [DecidableEq K] in
lemma inv_new (base capacity rkey : Nat) (rkeys : List Nat) (buf : Mem) :
    Inv (new base capacity rkey rkeys buf : PublishedPool K) :=
  ⟨tiles_nil, Nat.zero_le _, rfl⟩

omit [DecidableEq K] in
lemma residentBytes_perm {l l' : List (K × Extent)} (h : l.Perm l') :
    residentBytes l = residentBytes l' :=
  (h.map (fun e : K × Extent => e.2.2)).sum_eq

omit [DecidableEq K] in
lemma residentBytes_append (l l' : List (K × Extent)) :
    residentBytes (l ++ l') = residentBytes l + residentBytes l' := by
  rw [residentBytes, List.map_append, List.sum_append]
  rfl

omit [DecidableEq K] in
lemma AllocSpec.tiles {p : PublishedPool K} {length off : Nat} {a : Allocated K}
    (h : AllocSpec p length a) (hi : Inv p) (hoff : a.off = some off) :
    Tiles ((off, length) :: a.pool.extents) a.pool.nextOffset
      ∧ a.pool.nextOffset ≤ a.pool.capacity := by
  rw [h.same.capacity]
  rcases h.found off hoff with ⟨hp, hn⟩ | ⟨ho, hp, hn, hc⟩
  · rw [hn]; exact ⟨hi.tiles.perm hp.symm, hi.next_le⟩
  · rw [hn, ho]; exact ⟨(hi.tiles.perm hp.symm).push length, hc⟩

omit [DecidableEq K] in
lemma AllocSpec.used_eq {p : PublishedPool K} {length : Nat} {a : Allocated K}
    (h : AllocSpec p length a) (hi : Inv p) :
    a.pool.used = (residentBytes a.pool.entries.items : Int) := by
  obtain ⟨dropped, hitems, -, hused⟩ := h.oldest
  have hu := hi.used_eq
  rw [hitems, residentBytes_append] at hu
  push_cast at hu
  omega

omit [DecidableEq K] in
lemma AllocSpec.keys_subset {p : PublishedPool K} {length : Nat} {a : Allocated K}
    (h : AllocSpec p length a) {k : K} (hk : k ∈ a.pool.entries.keys) : k ∈ p.entries.keys := by
  obtain ⟨dropped, hitems, -, -⟩ := h.oldest
  show k ∈ p.entries.items.map Prod.fst
  rw [hitems, List.map_append]
  exact List.mem_append_right _ hk

lemma insertPage_items {p : PublishedPool K} {key : K} (h : key ∉ p.entries.keys)
    (off length : Nat) (copy : Nat → Mem → Mem) :
    (insertPage p key off length copy).entries.items
      = p.entries.items ++ [(key, (off, length))] := by
  have hset := set_items_of_not_mem (v := (off, length)) h
  show ((p.entries.set key (off, length)).moveToEnd key).items = _
  rw [moveToEnd_of_last hset, hset]

lemma insertPage_keys {p : PublishedPool K} {key : K} (h : key ∉ p.entries.keys)
    (off length : Nat) (copy : Nat → Mem → Mem) :
    (insertPage p key off length copy).entries.keys = p.entries.keys ++ [key] := by
  show (insertPage p key off length copy).entries.items.map Prod.fst = _
  rw [insertPage_items h, List.map_append]
  rfl

lemma insertPage_get? (p : PublishedPool K) (key k : K) (off length : Nat)
    (copy : Nat → Mem → Mem) :
    (insertPage p key off length copy).entries.get? k
      = if k = key then some (off, length) else p.entries.get? k := by
  show ((p.entries.set key (off, length)).moveToEnd key).get? k = _
  rw [get?_moveToEnd, get?_set]

/-- **What `publish` and `reserve` can do**: find the key, fail, or insert it. -/
lemma place_cases (p : PublishedPool K) (key : K) (length : Nat) (copy : Nat → Mem → Mem) :
    (∃ e, p.entries.get? key = some e ∧ place p key length copy
        = ⟨some (p.base + e.1), { p with entries := p.entries.moveToEnd key }, []⟩)
    ∨ (key ∉ p.entries.keys ∧ (allocate p length).off = none ∧ place p key length copy
        = ⟨none, (allocate p length).pool, (allocate p length).evicted⟩)
    ∨ (key ∉ p.entries.keys ∧ ∃ off, (allocate p length).off = some off ∧ place p key length copy
          = ⟨some (p.base + off), insertPage (allocate p length).pool key off length copy,
              (allocate p length).evicted⟩) := by
  cases hg : p.entries.get? key with
  | some e =>
      refine .inl ⟨e, rfl, ?_⟩
      rw [place, hg]
  | none =>
      refine Or.inr ?_
      have hk := get?_eq_none.mp hg
      cases ho : (allocate p length).off with
      | none =>
          refine .inl ⟨hk, rfl, ?_⟩
          rw [place, hg]
          simp only [ho]
      | some off =>
          refine .inr ⟨hk, off, rfl, ?_⟩
          rw [place, hg]
          simp only [ho, (allocate_spec p length).same.base]

lemma inv_moveToEnd {p : PublishedPool K} (h : Inv p) (key : K) :
    Inv { p with entries := p.entries.moveToEnd key } := by
  have hperm := moveToEnd_perm p.entries key
  refine ⟨h.tiles.perm ?_, h.next_le, ?_⟩
  · exact ((hperm.map Prod.snd).symm).append_right _
  · rw [residentBytes_perm hperm]; exact h.used_eq

lemma inv_insertPage {p : PublishedPool K} {key : K} {length off : Nat} {a : Allocated K}
    (h : AllocSpec p length a) (hi : Inv p) (hk : key ∉ p.entries.keys)
    (hoff : a.off = some off) (copy : Nat → Mem → Mem) :
    Inv (insertPage a.pool key off length copy) := by
  have hk' : key ∉ a.pool.entries.keys := fun hm => hk (h.keys_subset hm)
  have hitems := insertPage_items hk' off length copy
  obtain ⟨htiles, hcap⟩ := h.tiles hi hoff
  refine ⟨htiles.perm ?_, hcap, ?_⟩
  · show ((off, length) :: (a.pool.entries.items.map Prod.snd ++ freeSlots a.pool.free)).Perm
      ((insertPage a.pool key off length copy).entries.items.map Prod.snd ++ freeSlots a.pool.free)
    rw [hitems, List.map_append, List.append_assoc]
    exact List.perm_middle.symm
  · rw [hitems, residentBytes_append]
    show a.pool.used + (length : Int) = _
    rw [h.used_eq hi]
    simp [residentBytes]

lemma inv_place {p : PublishedPool K} (h : Inv p) (key : K) (length : Nat)
    (copy : Nat → Mem → Mem) : Inv (place p key length copy).pool := by
  have hspec := allocate_spec p length
  rcases place_cases p key length copy with ⟨e, -, heq⟩ | ⟨-, hnone, heq⟩ | ⟨hk, off, hoff, heq⟩
  · rw [heq]; exact inv_moveToEnd h key
  · rw [heq]
    obtain ⟨hperm, hnext⟩ := hspec.failed hnone
    refine ⟨?_, ?_, hspec.used_eq h⟩
    · rw [hnext]; exact h.tiles.perm hperm.symm
    · rw [hnext, hspec.same.capacity]; exact h.next_le
  · rw [heq]; exact inv_insertPage hspec h hk hoff copy

lemma inv_remove {p : PublishedPool K} (h : Inv p) (key : K) : Inv (remove p key) := by
  rw [remove]
  cases hg : p.entries.get? key with
  | none => exact h
  | some e =>
    obtain ⟨off, length⟩ := e
    have hperm := items_perm_of_mem (get?_eq_some.mp hg)
    refine ⟨h.tiles.perm ?_, h.next_le, ?_⟩
    · refine ((hperm.map Prod.snd).append_right _).trans ?_
      refine List.Perm.trans ?_ ((freeSlots_pushFree p.free length off).symm.append_left _)
      exact List.perm_middle.symm
    · have hu := h.used_eq
      rw [residentBytes_perm hperm] at hu
      have hsum : residentBytes ((key, (off, length)) :: (p.entries.erase key).items)
          = length + residentBytes (p.entries.erase key).items := List.sum_cons
      rw [hsum] at hu
      push_cast at hu
      show p.used - (length : Int) = (residentBytes (p.entries.erase key).items : Int)
      omega

lemma inv_addressOf {p : PublishedPool K} (h : Inv p) (key : K) : Inv (addressOf p key).2 := by
  rw [addressOf]
  cases hg : p.entries.get? key with
  | none => exact h
  | some e => exact inv_moveToEnd h key

/-! ## Pages that stay -/

lemma place_get?_of_mem {p : PublishedPool K} {key k : K} {length : Nat}
    {copy : Nat → Mem → Mem} {e : Extent} (hk : p.entries.get? k = some e)
    (hstay : k ∈ (place p key length copy).pool.entries.keys) :
    (place p key length copy).pool.entries.get? k = some e := by
  have hspec := allocate_spec p length
  -- whatever survives the allocation is an item of the old dictionary
  have hkept : k ∈ (allocate p length).pool.entries.keys →
      (allocate p length).pool.entries.get? k = some e := by
    intro hm
    obtain ⟨dropped, hitems, -, -⟩ := hspec.oldest
    obtain ⟨e', he'⟩ := mem_keys.mp hm
    have hmem : (k, e') ∈ p.entries.items := by
      rw [hitems]
      exact List.mem_append_right _ (get?_eq_some.mp he')
    rw [he', p.entries.value_unique hmem (get?_eq_some.mp hk)]
  rcases place_cases p key length copy with ⟨_, -, heq⟩ | ⟨-, -, heq⟩ | ⟨hkey, off, -, heq⟩
  · rw [heq]; exact (get?_moveToEnd p.entries key k).trans hk
  · rw [heq] at hstay ⊢; exact hkept hstay
  · have hne : k ≠ key := by
      rintro rfl
      exact hkey (mem_keys.mpr ⟨e, hk⟩)
    have hget : (place p key length copy).pool.entries.get? k
        = (allocate p length).pool.entries.get? k := by
      rw [heq]
      exact (insertPage_get? _ key k off length copy).trans (if_neg hne)
    obtain ⟨x, hx⟩ := mem_keys.mp hstay
    rw [hget] at hx ⊢
    exact hkept (mem_keys.mpr ⟨x, hx⟩)

lemma insertPage_apart {p : PublishedPool K} {k : K} {length off : Nat} {e : Extent}
    (hi : Inv p) (hoff : (allocate p length).off = some off)
    (hk : (allocate p length).pool.entries.get? k = some e) : Apart e (off, length) := by
  obtain ⟨htiles, -⟩ := (allocate_spec p length).tiles hi hoff
  refine ((List.pairwise_cons.mp htiles.apart).1 e ?_).symm
  exact List.mem_append_left _ (List.mem_map.mpr ⟨(k, e), get?_eq_some.mp hk, rfl⟩)

/-- The copy writes inside the page it was given. -/
def CopiesInside (length : Nat) (copy : Nat → Mem → Mem) : Prop :=
  ∀ (off : Nat) (m : Mem) (e : Extent), Apart e (off, length) →
    (copy off m).read e.1 e.2 = m.read e.1 e.2

lemma copiesInside_write (data : Bytes) :
    CopiesInside data.length (fun off m => m.write off data) :=
  fun _ m _ h => read_write_apart m h

lemma copiesInside_none (length : Nat) : CopiesInside length (fun _ m => m) :=
  fun _ _ _ _ => rfl

lemma place_buf_of_mem {p : PublishedPool K} {key k : K} {length : Nat}
    {copy : Nat → Mem → Mem} {e : Extent} (hcopy : CopiesInside length copy)
    (hi : Inv p) (hk : p.entries.get? k = some e)
    (hstay : k ∈ (place p key length copy).pool.entries.keys) :
    (place p key length copy).pool.buf.read e.1 e.2 = p.buf.read e.1 e.2 := by
  have hspec := allocate_spec p length
  have hget := place_get?_of_mem hk hstay
  rcases place_cases p key length copy with ⟨_, -, heq⟩ | ⟨-, -, heq⟩ | ⟨hkey, off, hoff, heq⟩
  · rw [heq]
  · rw [heq]; exact congrArg (fun m : Mem => m.read e.1 e.2) hspec.buf
  · have hne : k ≠ key := by
      rintro rfl
      exact hkey (mem_keys.mpr ⟨e, hk⟩)
    rw [heq] at hget ⊢
    show (copy off (allocate p length).pool.buf).read e.1 e.2 = _
    rw [hspec.buf]
    refine hcopy off p.buf e (insertPage_apart (k := k) hi hoff ?_)
    exact ((insertPage_get? _ key k off length copy).trans (if_neg hne)).symm.trans hget

lemma place_evicted (p : PublishedPool K) (key : K) (length : Nat) (copy : Nat → Mem → Mem) :
    (place p key length copy).evicted <+: p.entries.keys
      ∧ ∀ k, k ∈ (place p key length copy).evicted
          ↔ k ∈ p.entries.keys ∧ k ∉ (place p key length copy).pool.entries.keys := by
  obtain ⟨dropped, hitems, hev, -⟩ := (allocate_spec p length).oldest
  have hkeys : p.entries.keys = dropped.map Prod.fst ++ (allocate p length).pool.entries.keys := by
    show p.entries.items.map Prod.fst = _
    rw [hitems, List.map_append]
    rfl
  -- the evicted keys and the ones that stay are the two parts of a list without duplicates
  have hnd := p.entries.nodup_keys
  rw [hkeys, List.nodup_append] at hnd
  rcases place_cases p key length copy with ⟨e, -, heq⟩ | ⟨-, -, heq⟩ | ⟨hkey, off, -, heq⟩
  · rw [heq]
    refine ⟨List.nil_prefix, ?_⟩
    intro k
    constructor
    · intro h; cases h
    · rintro ⟨h1, h2⟩
      obtain ⟨v, hv⟩ := mem_keys.mp h1
      exact absurd (mem_keys.mpr
        ⟨v, (get?_moveToEnd p.entries key k).trans hv⟩) h2
  · rw [heq]
    refine ⟨⟨_, by rw [hev]; exact hkeys.symm⟩, ?_⟩
    intro k
    rw [hev, hkeys, List.mem_append]
    constructor
    · intro h; exact ⟨.inl h, fun h2 => hnd.2.2 k h k h2 rfl⟩
    · rintro ⟨h1 | h1, h2⟩
      · exact h1
      · exact absurd h1 h2
  · rw [heq]
    refine ⟨⟨_, by rw [hev]; exact hkeys.symm⟩, ?_⟩
    intro k
    have hk' : key ∉ (allocate p length).pool.entries.keys :=
      fun hm => hkey ((allocate_spec p length).keys_subset hm)
    rw [hev, insertPage_keys hk', List.mem_append, List.mem_singleton]
    constructor
    · intro h
      have hmem : k ∈ p.entries.keys := by
        rw [hkeys]; exact List.mem_append_left _ h
      refine ⟨hmem, ?_⟩
      rintro (h2 | rfl)
      · exact hnd.2.2 k h k h2 rfl
      · exact hkey hmem
    · rintro ⟨h1, h2⟩
      rw [hkeys, List.mem_append] at h1
      exact h1.resolve_right (fun h => h2 (.inl h))

lemma place_region (p : PublishedPool K) (key : K) (length : Nat) (copy : Nat → Mem → Mem) :
    SameRegion p (place p key length copy).pool := by
  have hspec := allocate_spec p length
  rcases place_cases p key length copy with ⟨_, -, heq⟩ | ⟨-, -, heq⟩ | ⟨-, off, -, heq⟩
  · rw [heq]; exact ⟨rfl, rfl, rfl, rfl⟩
  · rw [heq]; exact hspec.same
  · rw [heq]
    exact ⟨hspec.same.base, hspec.same.capacity, hspec.same.rkey, hspec.same.rkeys⟩

/-- **THE EXTENTS AFTER A `place`** are the old ones, or one more is cut off at the bump pointer. -/
lemma place_extents (p : PublishedPool K) (key : K) (length : Nat) (copy : Nat → Mem → Mem) :
    ((place p key length copy).pool.extents.Perm p.extents
        ∧ (place p key length copy).pool.nextOffset = p.nextOffset)
      ∨ ((place p key length copy).pool.extents.Perm ((p.nextOffset, length) :: p.extents)
        ∧ (place p key length copy).pool.nextOffset = p.nextOffset + length
        ∧ p.nextOffset + length ≤ p.capacity) := by
  have hspec := allocate_spec p length
  rcases place_cases p key length copy with ⟨_, -, heq⟩ | ⟨-, hnone, heq⟩ | ⟨hkey, off, hoff, heq⟩
  · rw [heq]
    exact .inl ⟨((moveToEnd_perm p.entries key).map Prod.snd).append_right _, rfl⟩
  · rw [heq]; exact .inl (hspec.failed hnone)
  · rw [heq]
    have hk' : key ∉ (allocate p length).pool.entries.keys := fun hm => hkey (hspec.keys_subset hm)
    have hins : (insertPage (allocate p length).pool key off length copy).extents.Perm
        ((off, length) :: (allocate p length).pool.extents) := by
      show ((insertPage (allocate p length).pool key off length copy).entries.items.map Prod.snd
        ++ freeSlots (allocate p length).pool.free).Perm _
      rw [insertPage_items hk', List.map_append, List.append_assoc]
      exact List.perm_middle
    rcases hspec.found off hoff with ⟨hperm, hnext⟩ | ⟨rfl, hperm, hnext, hfit⟩
    · exact .inl ⟨hins.trans hperm, hnext⟩
    · exact .inr ⟨hins.trans (hperm.cons _), hnext, hfit⟩

/-! ## When a page is refused -/

omit [DecidableEq K] in
lemma popFree_none {free : OrderedDict Nat (List Nat)} {length : Nat}
    (h : popFree free length = none) {e : Extent} (he : e ∈ freeSlots free) : e.2 ≠ length := by
  rintro rfl
  obtain ⟨item, hitem, hoff⟩ := List.mem_flatMap.mp he
  obtain ⟨off, hmem, rfl⟩ := List.mem_map.mp hoff
  rw [popFree, get?_eq_some.mpr (show (item.1, item.2) ∈ free.items from hitem)] at h
  cases hl : item.2.getLast? with
  | none =>
    rw [List.getLast?_eq_none_iff.mp hl] at hmem
    cases hmem
  | some o => simp only [hl] at h; cases h

omit [DecidableEq K] in
lemma evictLoop_none {length fuel : Nat} {p : PublishedPool K} {evicted : List K}
    (hfuel : p.entries.items.length ≤ fuel) (h : (evictLoop length fuel p evicted).off = none)
    {e : K × Extent} (he : e ∈ p.entries.items) : e.2.2 ≠ length := by
  induction fuel generalizing p evicted with
  | zero =>
    rw [List.length_eq_zero_iff.mp (Nat.le_zero.mp hfuel)] at he
    cases he
  | succ fuel ih =>
    rw [evictLoop] at h
    cases hp : p.entries.popFirst with
    | none =>
      rw [popFirst_eq_none.mp hp] at he
      cases he
    | some r =>
      obtain ⟨old, rest⟩ := r
      have hitems := popFirst_items hp
      rw [hp] at h
      simp only at h
      by_cases hold : old.2.2 = length
      · -- the slot just freed would have been handed out
        obtain ⟨free', hfree⟩ := popFree_pushFree p.free old.2.2 old.2.1
        rw [if_pos hold, ← hold, show popFree (evictFirst p old rest).free old.2.2
          = some (old.2.1, free') from hfree] at h
        cases h
      · rw [if_neg hold] at h
        rw [hitems] at he hfuel
        rcases List.mem_cons.mp he with rfl | he
        · exact hold
        · exact ih (p := evictFirst p old rest) (Nat.le_of_succ_le_succ hfuel) h he

/-- The pool has no slot of the length and cannot cut one off. -/
def NoSlot (length : Nat) (p : PublishedPool K) : Prop :=
  p.capacity < length ∨ ((∀ e ∈ p.extents, e.2 ≠ length) ∧ p.capacity < p.nextOffset + length)

omit [DecidableEq K] in
/-- **A FAILED ALLOCATION** means that there is no slot of the length. -/
lemma noSlot_of_allocate {p : PublishedPool K} {length : Nat} (h : (allocate p length).off = none) :
    NoSlot length p := by
  rw [allocate] at h
  by_cases hcap : length > p.capacity
  · exact .inl hcap
  · rw [if_neg hcap] at h
    cases hpop : popFree p.free length with
    | some x => rw [hpop] at h; cases h
    | none =>
      rw [hpop] at h
      simp only at h
      by_cases hbump : p.nextOffset + length ≤ p.capacity
      · rw [if_pos hbump] at h; cases h
      · rw [if_neg hbump] at h
        refine .inr ⟨?_, Nat.lt_of_not_le hbump⟩
        intro e he
        rcases List.mem_append.mp he with he | he
        · obtain ⟨item, hitem, rfl⟩ := List.mem_map.mp he
          exact evictLoop_none (Nat.le_refl _) h hitem
        · exact popFree_none hpop he

lemma noSlot_place {p : PublishedPool K} {length : Nat} (h : NoSlot length p) (key : K) (size : Nat)
    (copy : Nat → Mem → Mem) : NoSlot length (place p key size copy).pool := by
  rw [NoSlot, (place_region p key size copy).capacity]
  refine h.imp_right ?_
  rintro ⟨hext, hbump⟩
  rcases place_extents p key size copy with ⟨hperm, hnext⟩ | ⟨hperm, hnext, hfit⟩
  · rw [hnext]; exact ⟨fun e he => hext e (hperm.mem_iff.mp he), hbump⟩
  · rw [hnext]
    refine ⟨?_, by omega⟩
    intro e he
    rcases List.mem_cons.mp (hperm.mem_iff.mp he) with rfl | he
    · omega
    · exact hext e he

lemma place_of_noSlot {p : PublishedPool K} {key : K} {length : Nat} (h : NoSlot length p)
    (hkey : key ∉ p.entries.keys) (copy : Nat → Mem → Mem) :
    (place p key length copy).addr = none := by
  have hspec := allocate_spec p length
  rcases place_cases p key length copy with ⟨e, he, -⟩ | ⟨-, -, heq⟩ | ⟨-, off, hoff, -⟩
  · exact absurd (mem_keys.mpr ⟨e, he⟩) hkey
  · rw [heq]
  · rcases h with hcap | ⟨hext, hbump⟩
    · rw [allocate, if_pos hcap] at hoff; cases hoff
    · rcases hspec.found off hoff with ⟨hperm, -⟩ | ⟨-, -, -, hfit⟩
      · exact absurd rfl (hext (off, length) (hperm.mem_iff.mp (.head _)))
      · omega

/-! ## Whole histories -/

/-- A call on the pool. -/
inductive PoolOp (K : Type) where
  | publish (key : K) (data : Bytes)
  | reserve (key : K) (length : Nat)
  | addressOf (key : K)
  | remove (key : K)

omit [DecidableEq K] in
/-- The key a call names. -/
def PoolOp.key : PoolOp K → K
  | .publish key _ => key
  | .reserve key _ => key
  | .addressOf key => key
  | .remove key => key

/-- The pool after a call. -/
def step (p : PublishedPool K) : PoolOp K → PublishedPool K
  | .publish key data => (publish p key data).pool
  | .reserve key length => (reserve p key length).pool
  | .addressOf key => (addressOf p key).2
  | .remove key => remove p key

/-- The pool after a sequence of calls. -/
def run (p : PublishedPool K) (ops : List (PoolOp K)) : PublishedPool K := ops.foldl step p

lemma step_inv {p : PublishedPool K} (h : Inv p) (op : PoolOp K) : Inv (step p op) := by
  cases op with
  | publish key data => exact inv_place h key data.length _
  | reserve key length => exact inv_place h key length _
  | addressOf key => exact inv_addressOf h key
  | remove key => exact inv_remove h key

lemma step_region (p : PublishedPool K) (op : PoolOp K) : SameRegion p (step p op) := by
  cases op with
  | publish key data => exact place_region p key data.length _
  | reserve key length => exact place_region p key length _
  | addressOf key =>
    show SameRegion p (addressOf p key).2
    rw [addressOf]
    cases p.entries.get? key <;> exact ⟨rfl, rfl, rfl, rfl⟩
  | remove key =>
    show SameRegion p (remove p key)
    rw [remove]
    cases p.entries.get? key <;> exact ⟨rfl, rfl, rfl, rfl⟩

lemma run_inv (ops : List (PoolOp K)) : ∀ {p : PublishedPool K}, Inv p → Inv (run p ops) := by
  induction ops with
  | nil => intro p h; exact h
  | cons op ops ih => intro p h; exact ih (step_inv h op)

lemma run_region (ops : List (PoolOp K)) (p : PublishedPool K) : SameRegion p (run p ops) := by
  induction ops generalizing p with
  | nil => exact SameRegion.refl p
  | cons op ops ih => exact (step_region p op).trans (ih (step p op))

/-! ## The entries are in the order of their last use -/

/-- The position, from 1, of the last call that names the key; 0 if there is none. -/
def lastUse (ops : List (PoolOp K)) (k : K) : Nat :=
  (ops.foldl (fun acc op => (acc.1 + 1, if op.key = k then acc.1 + 1 else acc.2)) (0, 0)).2

private lemma lastUse_count (ops : List (PoolOp K)) (k : K) :
    (ops.foldl (fun (acc : Nat × Nat) op =>
      (acc.1 + 1, if op.key = k then acc.1 + 1 else acc.2)) (0, 0)).1 = ops.length := by
  induction ops using List.reverseRecOn with
  | nil => rfl
  | append_singleton ops op ih => rw [List.foldl_append, List.length_append, ← ih]; rfl

lemma lastUse_append (ops : List (PoolOp K)) (op : PoolOp K) (k : K) :
    lastUse (ops ++ [op]) k = if op.key = k then ops.length + 1 else lastUse ops k := by
  rw [lastUse, List.foldl_append, ← lastUse_count ops k]
  rfl

lemma lastUse_le (ops : List (PoolOp K)) (k : K) : lastUse ops k ≤ ops.length := by
  induction ops using List.reverseRecOn with
  | nil => exact Nat.le_refl 0
  | append_singleton ops op ih =>
    rw [lastUse_append, List.length_append]
    split_ifs with h
    · exact Nat.le_refl _
    · exact Nat.le_succ_of_le ih

lemma moveToEnd_keys_cases (d : OrderedDict K Extent) (key : K) (h : key ∈ d.keys) :
    ∃ kept, kept.Sublist d.keys ∧ key ∉ kept ∧ (d.moveToEnd key).keys = kept ++ [key] := by
  refine ⟨d.keys.filter (fun j => decide (j ≠ key)), List.filter_sublist, ?_,
    moveToEnd_keys h⟩
  intro hm
  exact of_decide_eq_true (List.mem_filter.mp hm).2 rfl

lemma place_keys (p : PublishedPool K) (key : K) (length : Nat) (copy : Nat → Mem → Mem) :
    ∃ kept, kept.Sublist p.entries.keys ∧ key ∉ kept
      ∧ ((place p key length copy).pool.entries.keys = kept
        ∨ (place p key length copy).pool.entries.keys = kept ++ [key]) := by
  have hspec := allocate_spec p length
  obtain ⟨dropped, hitems, -, -⟩ := hspec.oldest
  have hsub : (allocate p length).pool.entries.keys.Sublist p.entries.keys := by
    show ((allocate p length).pool.entries.items.map Prod.fst).Sublist
      (p.entries.items.map Prod.fst)
    rw [hitems, List.map_append]
    exact List.sublist_append_right _ _
  rcases place_cases p key length copy with ⟨e, hg, heq⟩ | ⟨hkey, -, heq⟩ | ⟨hkey, off, -, heq⟩
  · obtain ⟨kept, h1, h2, h3⟩ :=
      moveToEnd_keys_cases p.entries key (mem_keys.mpr ⟨e, hg⟩)
    rw [heq]
    exact ⟨kept, h1, h2, .inr h3⟩
  · rw [heq]
    exact ⟨_, hsub, fun hm => hkey (hspec.keys_subset hm), .inl rfl⟩
  · have hk' : key ∉ (allocate p length).pool.entries.keys := fun hm => hkey (hspec.keys_subset hm)
    rw [heq]
    exact ⟨_, hsub, hk', .inr (insertPage_keys hk' off length copy)⟩

lemma step_keys (p : PublishedPool K) (op : PoolOp K) :
    ∃ kept, kept.Sublist p.entries.keys ∧ op.key ∉ kept
      ∧ ((step p op).entries.keys = kept ∨ (step p op).entries.keys = kept ++ [op.key]) := by
  cases op with
  | publish key data => exact place_keys p key data.length _
  | reserve key length => exact place_keys p key length _
  | addressOf key =>
    show ∃ kept, kept.Sublist p.entries.keys ∧ key ∉ kept
      ∧ ((addressOf p key).2.entries.keys = kept ∨ (addressOf p key).2.entries.keys = kept ++ [key])
    rw [addressOf]
    cases hg : p.entries.get? key with
    | none => exact ⟨_, List.Sublist.refl _, get?_eq_none.mp hg, .inl rfl⟩
    | some e =>
      obtain ⟨kept, h1, h2, h3⟩ :=
        moveToEnd_keys_cases p.entries key (mem_keys.mpr ⟨e, hg⟩)
      exact ⟨kept, h1, h2, .inr h3⟩
  | remove key =>
    show ∃ kept, kept.Sublist p.entries.keys ∧ key ∉ kept
      ∧ ((remove p key).entries.keys = kept ∨ (remove p key).entries.keys = kept ++ [key])
    rw [remove]
    cases hg : p.entries.get? key with
    | none => exact ⟨_, List.Sublist.refl _, get?_eq_none.mp hg, .inl rfl⟩
    | some e =>
      refine ⟨_, ?_, ?_, .inl rfl⟩
      · exact List.filter_sublist.map Prod.fst
      · exact fun hm => (mem_keys_erase.mp hm).1 rfl

lemma run_keys_lru (base capacity rkey : Nat) (rkeys : List Nat) (buf : Mem)
    (ops : List (PoolOp K)) :
    (run (new base capacity rkey rkeys buf) ops).entries.keys.Pairwise
      (fun a b => lastUse ops a < lastUse ops b) := by
  induction ops using List.reverseRecOn with
  | nil => exact List.Pairwise.nil
  | append_singleton ops op ih =>
    rw [run, List.foldl_append]
    obtain ⟨kept, hsub, hnot, hkeys⟩ := step_keys (run (new base capacity rkey rkeys buf) ops) op
    have hold : ∀ k ∈ kept, lastUse (ops ++ [op]) k = lastUse ops k := by
      intro k hk
      rw [lastUse_append, if_neg]
      rintro rfl
      exact hnot hk
    have hkept : kept.Pairwise (fun a b => lastUse (ops ++ [op]) a < lastUse (ops ++ [op]) b) := by
      refine (ih.sublist hsub).imp_of_mem ?_
      intro a b ha hb hab
      rw [hold a ha, hold b hb]
      exact hab
    rcases hkeys with h | h
    · exact h.symm ▸ hkept
    · refine h.symm ▸ List.pairwise_append.mpr ⟨hkept, List.pairwise_singleton _ _, ?_⟩
      intro a ha b hb
      obtain rfl := List.mem_singleton.mp hb
      rw [hold a ha, lastUse_append, if_pos rfl]
      exact Nat.lt_succ_of_le (lastUse_le ops a)

/-! ## The main result -/

/-- The keys that left are the evicted ones: once each, in the order of the entries. -/
def EvictsLeaving (p : PublishedPool K) (r : Placed K) : Prop :=
  r.evicted <+: p.entries.keys ∧ r.evicted.Nodup
    ∧ ∀ k, k ∈ r.evicted ↔ k ∈ p.entries.keys ∧ k ∉ r.pool.entries.keys

lemma place_evictsLeaving (p : PublishedPool K) (key : K) (length : Nat)
    (copy : Nat → Mem → Mem) : EvictsLeaving p (place p key length copy) := by
  obtain ⟨hpre, hmem⟩ := place_evicted p key length copy
  exact ⟨hpre, hpre.sublist.nodup p.entries.nodup_keys, hmem⟩

/-- **REPRESENTATION INVARIANT.**  After any calls on a fresh pool of any capacity: the
    extents of entries and free slots are pairwise apart and tile `[0, nextOffset)`, which
    fits the capacity; `used` is the sum of the resident lengths; the next `publish` or
    `reserve` hands to `on_evict` exactly the keys that leave, once each and least
    recently used first; and a `publish` changes no byte of a page that stays. -/
theorem pool_representation (base capacity rkey : Nat) (rkeys : List Nat) (buf : Mem)
    (ops : List (PoolOp K)) :
    let p := run (new base capacity rkey rkeys buf) ops
    (p.extents.Pairwise Apart
        ∧ (∀ x, x < p.nextOffset ↔ ∃ e ∈ p.extents, Covers e x)
        ∧ p.nextOffset ≤ capacity)
      ∧ p.used = (residentBytes p.entries.items : Int)
      ∧ (p.entries.keys.Pairwise (fun a b => lastUse ops a < lastUse ops b)
        ∧ (∀ key data, EvictsLeaving p (publish p key data))
        ∧ ∀ key length, EvictsLeaving p (reserve p key length))
      ∧ ∀ key data k e, p.entries.get? k = some e →
          k ∈ (publish p key data).pool.entries.keys →
          (publish p key data).pool.entries.get? k = some e
            ∧ (publish p key data).pool.buf.read e.1 e.2 = p.buf.read e.1 e.2 := by
  intro p
  have hi : Inv p := run_inv ops (inv_new base capacity rkey rkeys buf)
  have hcap : p.capacity = capacity := (run_region ops (new base capacity rkey rkeys buf)).capacity
  refine ⟨⟨hi.tiles.apart, hi.tiles.cover, hcap ▸ hi.next_le⟩, hi.used_eq, ⟨?_, ?_, ?_⟩, ?_⟩
  · exact run_keys_lru base capacity rkey rkeys buf ops
  · intro key data
    exact place_evictsLeaving p key data.length _
  · intro key length
    exact place_evictsLeaving p key length _
  · intro key data k e hk hstay
    exact ⟨place_get?_of_mem hk hstay, place_buf_of_mem (copiesInside_write data) hi hk hstay⟩

end PeerCachePool
