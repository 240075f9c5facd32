import Mathlib
import PeerCache.PoolProofs

/-! # Refused pages — what the pool can still hold, and what a refusal costs

    Freed space goes to exact-size free lists and never back to the bump pointer, and
    no two free slots are ever merged.  A request of some length is therefore served
    from three places only: a free slot of that very length, the bytes behind the bump
    pointer, or a resident page of that very length that is evicted.  `HasSlot` says so
    of the pool before the call. -/

namespace PeerCachePool

open Tiling

variable {K : Type}

/-- Some extent, free or resident, has exactly this length, or one can be cut off. -/
def HasSlot (length : Nat) (p : PublishedPool K) : Prop :=
  (∃ e ∈ p.extents, e.2 = length) ∨ p.nextOffset + length ≤ p.capacity

/-! ## The refused allocation -/

variable {length : Nat} {p : PublishedPool K}

lemma evictLoop_none_items {fuel : Nat} {evicted : List K} (hfuel : p.entries.items.length ≤ fuel)
    (h : (evictLoop length fuel p evicted).off = none) :
    (evictLoop length fuel p evicted).pool.entries.items = [] := by
  induction fuel generalizing p evicted with
  | zero => exact List.length_eq_zero_iff.mp (Nat.le_zero.mp hfuel)
  | succ fuel ih =>
    rw [evictLoop] at h ⊢
    cases hpop : p.entries.popFirst with
    | none => exact OrderedDict.popFirst_eq_none.mp hpop
    | some x =>
      obtain ⟨old, rest⟩ := x
      rw [hpop] at h
      simp only at h ⊢
      by_cases hold : old.2.2 = length
      · -- the slot just freed would have been handed out
        obtain ⟨free', hfree⟩ := popFree_pushFree p.free old.2.2 old.2.1
        rw [if_pos hold, ← hold, show popFree (evictFirst p old rest).free old.2.2
          = some (old.2.1, free') from hfree] at h
        cases h
      · rw [if_neg hold] at h ⊢
        rw [OrderedDict.popFirst_items hpop] at hfuel
        exact ih (p := evictFirst p old rest) (Nat.le_of_succ_le_succ hfuel) h

/-- **WHAT A REFUSAL COSTS**: nothing when the length is over the capacity, and every
    resident page otherwise. -/
lemma allocate_none (h : (allocate p length).off = none) :
    (p.capacity < length ∧ allocate p length = ⟨none, p, []⟩)
      ∨ (allocate p length).pool.entries.items = [] := by
  rw [allocate] at h ⊢
  by_cases hcap : length > p.capacity
  · rw [if_pos hcap]; exact .inl ⟨hcap, rfl⟩
  · rw [if_neg hcap] at h ⊢
    refine Or.inr ?_
    cases hpop : popFree p.free length with
    | some x =>
      rw [hpop] at h
      cases h
    | none =>
      rw [hpop] at h
      simp only at h ⊢
      by_cases hbump : p.nextOffset + length ≤ p.capacity
      · rw [if_pos hbump] at h; cases h
      · rw [if_neg hbump] at h ⊢; exact evictLoop_none_items (Nat.le_refl _) h

lemma HasSlot.le_capacity (h : HasSlot length p) (hi : Inv p) : length ≤ p.capacity := by
  rcases h with ⟨e, he, rfl⟩ | hbump
  · rcases Nat.eq_zero_or_pos e.2 with hzero | hpos
    · omega
    · -- the last byte of the extent lies under the bump pointer
      have hlast : e.1 + e.2 - 1 < p.nextOffset :=
        (hi.tiles.cover _).mpr ⟨e, he, by omega, by omega⟩
      have hnext := hi.next_le
      omega
  · omega

lemma noSlot_iff (hi : Inv p) : NoSlot length p ↔ ¬ HasSlot length p := by
  constructor
  · rintro (hcap | ⟨hext, hbump⟩) hslot
    · exact Nat.not_lt.mpr (hslot.le_capacity hi) hcap
    · rcases hslot with ⟨e, he, hlen⟩ | hfit
      · exact hext e he hlen
      · omega
  · intro hslot
    refine .inr ⟨fun e he hlen => hslot (.inl ⟨e, he, hlen⟩), ?_⟩
    exact Nat.lt_of_not_le (fun hfit => hslot (.inr hfit))

variable [DecidableEq K]

lemma place_addr_iff {key : K} (hi : Inv p) (hkey : key ∉ p.entries.keys) (copy : Nat → Mem → Mem) :
    (∃ addr, (place p key length copy).addr = some addr) ↔ HasSlot length p := by
  constructor
  · rintro ⟨addr, haddr⟩
    by_contra hslot
    rw [place_of_noSlot ((noSlot_iff hi).mpr hslot) hkey copy] at haddr
    cases haddr
  · intro hslot
    rcases place_cases p key length copy with ⟨e, -, heq⟩ | ⟨-, hnone, -⟩ | ⟨-, off, -, heq⟩
    · exact ⟨_, by rw [heq]⟩
    · exact absurd hslot ((noSlot_iff hi).mp (noSlot_of_allocate hnone))
    · exact ⟨_, by rw [heq]⟩

/-- **EVERY PAGE SIZE, WHILE IT HAS A SLOT.**  After any calls on a fresh pool, a
    `publish` of a new key, of any length, returns an address if and only if a free slot or
    a resident page has exactly that length, or that many bytes are left behind the bump
    pointer. -/
theorem publish_returns_iff (base capacity rkey : Nat) (rkeys : List Nat) (buf : Mem)
    (ops : List (PoolOp K)) (key : K) (data : Bytes)
    (hnew : key ∉ (run (new base capacity rkey rkeys buf) ops).entries.keys) :
    (∃ addr, (publish (run (new base capacity rkey rkeys buf) ops) key data).addr = some addr)
      ↔ HasSlot data.length (run (new base capacity rkey rkeys buf) ops) :=
  place_addr_iff (run_inv ops (inv_new base capacity rkey rkeys buf)) hnew _

/-- Two pages of one byte fill a pool of two; a third page takes the slot of the first. -/
theorem publish_returns_iff_same_length :
    (2 : Nat) ∉ (run (new 0 2 0 [] (fun _ => 0)) [.publish 0 [1], .publish 1 [1]]).entries.keys
      ∧ HasSlot 1 (run (K := Nat) (new 0 2 0 [] (fun _ => 0)) [.publish 0 [1], .publish 1 [1]])
      ∧ ∃ addr, (publish (run (new 0 2 0 [] (fun _ => 0))
          [.publish 0 [1], .publish 1 [1]]) 2 [1]).addr = some addr := by
  have hslot : HasSlot 1
      (run (K := Nat) (new 0 2 0 [] (fun _ => 0)) [.publish 0 [1], .publish 1 [1]]) :=
    .inl ⟨(0, 1), by decide, rfl⟩
  exact ⟨by decide, hslot, (publish_returns_iff 0 2 0 [] (fun _ => 0)
    [.publish 0 [1], .publish 1 [1]] 2 [1] (by decide)).mpr hslot⟩

/-- A pool of two bytes that has held two pages of one byte holds no page of two: not in
    this call, and not after it has evicted everything. -/
theorem no_slot_of_two :
    (2 : Nat) ∉ (run (new 0 2 0 [] (fun _ => 0)) [.publish 0 [1], .publish 1 [1]]).entries.keys
      ∧ (publish (run (new 0 2 0 [] (fun _ => 0)) [.publish 0 [1], .publish 1 [1]])
          2 [1, 1]).addr = none := by
  decide

/-! ## The pool after a refusal -/

/-- What a caller can see of the pool is as it was: the resident keys with their extents
    and bytes, the account, and no key handed to `on_evict`. -/
structure Untouched (p : PublishedPool K) (r : Placed K) : Prop where
  entries : ∀ k, r.pool.entries.get? k = p.entries.get? k
  bytes : ∀ k e, p.entries.get? k = some e → r.pool.buf.read e.1 e.2 = p.buf.read e.1 e.2
  used : r.pool.used = p.used
  evicted : r.evicted = []

/-- The call finds the key or a slot, or has nothing to lose. -/
def CostsNothing (p : PublishedPool K) (key : K) (length : Nat) : Prop :=
  key ∈ p.entries.keys ∨ HasSlot length p ∨ p.capacity < length ∨ p.entries.items = []

lemma place_untouched_iff (hi : Inv p) (key : K) (length : Nat) (copy : Nat → Mem → Mem) :
    ((place p key length copy).addr = none → Untouched p (place p key length copy))
      ↔ CostsNothing p key length := by
  rcases place_cases p key length copy with ⟨e, he, heq⟩ | ⟨hkey, hnone, heq⟩ | ⟨hkey, off, hoff, heq⟩
  · -- the key is resident, and the call returns its address
    rw [heq]
    exact ⟨fun _ => .inl (OrderedDict.mem_keys.mpr ⟨e, he⟩), fun _ h => by cases h⟩
  · rw [heq]
    have hslot := (noSlot_iff hi).mp (noSlot_of_allocate hnone)
    obtain ⟨dropped, hitems, hev, hused⟩ := (allocate_spec p length).oldest
    rcases allocate_none hnone with ⟨hcap, ha⟩ | hempty
    · rw [ha]
      exact ⟨fun _ => .inr (.inr (.inl hcap)),
        fun _ _ => ⟨fun _ => rfl, fun _ _ _ => rfl, rfl, rfl⟩⟩
    · rw [hempty, List.append_nil] at hitems
      constructor
      · intro h
        have hnil : (allocate p length).evicted = [] := (h rfl).evicted
        rw [hev, List.map_eq_nil_iff] at hnil
        exact .inr (.inr (.inr (hitems.trans hnil)))
      · rintro (hmem | hfound | hcap | hnothing) -
        · exact absurd hmem hkey
        · exact absurd hfound hslot
        · rw [show allocate p length = ⟨none, p, []⟩ by rw [allocate, if_pos hcap]]
          exact ⟨fun _ => rfl, fun _ _ _ => rfl, rfl, rfl⟩
        · -- nothing was resident, so nothing was dropped
          have hdropped : dropped = [] := hitems.symm.trans hnothing
          have hsame : (allocate p length).pool.entries.items = p.entries.items :=
            hempty.trans hnothing.symm
          refine ⟨?_, ?_, ?_, ?_⟩
          · intro k
            exact congrArg (fun l : List (K × Extent) => l.lookup k) hsame
          · intro k e _
            exact congrArg (fun m : Mem => m.read e.1 e.2) (allocate_spec p length).buf
          · rw [hused, hdropped]; simp [residentBytes]
          · rw [hev, hdropped]; rfl
  · rw [heq]
    refine ⟨fun _ => .inr (Or.inl ?_), fun _ h => by cases h⟩
    exact (place_addr_iff hi hkey copy).mp ⟨_, by rw [heq]⟩

/-- **A REFUSAL LEAVES THE POOL AS IT WAS ONLY WHEN THERE IS NOTHING TO EVICT.**  After any
    calls on a fresh pool, for every key and length: a `publish` or `reserve` that returns
    `None` leaves the resident keys, their extents and bytes and the account as they were
    and evicts nothing, if and only if the key is resident or the length has a slot (the
    call does not fail), the length is over the capacity, or nothing is resident. -/
theorem refusal_untouched_iff (base capacity rkey : Nat) (rkeys : List Nat) (buf : Mem)
    (ops : List (PoolOp K)) (key : K) :
    let p := run (new base capacity rkey rkeys buf) ops
    (∀ data : Bytes, ((publish p key data).addr = none → Untouched p (publish p key data))
        ↔ CostsNothing p key data.length)
      ∧ ∀ length, ((reserve p key length).addr = none → Untouched p (reserve p key length))
        ↔ CostsNothing p key length := by
  intro p
  have hi : Inv p := run_inv ops (inv_new base capacity rkey rkeys buf)
  exact ⟨fun data => place_untouched_iff hi key data.length _,
    fun length => place_untouched_iff hi key length _⟩

/-- Two pages of one byte are resident, a page of two bytes is refused, and both are
    gone. -/
theorem refusal_evicts_all :
    (publish (run (new 0 2 0 [] (fun _ => 0)) [.publish 0 [1], .publish 1 [1]])
        (2 : Nat) [1, 1]).addr = none
      ∧ (publish (run (new 0 2 0 [] (fun _ => 0)) [.publish 0 [1], .publish 1 [1]])
        (2 : Nat) [1, 1]).evicted = [0, 1]
      ∧ ¬ Untouched (run (new 0 2 0 [] (fun _ => 0)) [.publish 0 [1], .publish 1 [1]])
        (publish (run (new 0 2 0 [] (fun _ => 0)) [.publish 0 [1], .publish 1 [1]])
          (2 : Nat) [1, 1]) := by
  refine ⟨by decide, by decide, ?_⟩
  intro h
  exact absurd h.evicted (by decide)

end PeerCachePool
