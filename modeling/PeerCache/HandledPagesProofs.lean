import PeerCache.PoolContentProofs
import PeerCache.PoolRefusalProofs

/-! # A batch on the pool, and the pages it has handled

    A call that looks up or places a list of pages, one after the other, hands out
    addresses as it goes.  Every page it has handled is at the end of the least recently
    used order, behind all pages it has not touched (`HandledLast`).  So a later page of
    the batch takes a handled one away exactly when nothing else can serve it: no free slot
    of its length, no bytes behind the bump pointer, and no untouched page of its length.
    `SparesHandled` says the opposite, of the pool before that page is placed. -/

namespace PeerCachePool

open Tiling List

variable {K : Type}

/-! ## How far the eviction loop goes -/

variable {length : Nat} {p : PublishedPool K} {handled : List K}

variable {fuel : Nat} {evicted : List K}

lemma evictLoop_stops {before after : List (K × Extent)} {e : K × Extent}
    (hitems : p.entries.items = before ++ e :: after) (he : e.2.2 = length) :
    ∃ more, (evictLoop length fuel p evicted).evicted = evicted ++ more
      ∧ more <+: (before ++ [e]).map Prod.fst := by
  induction fuel generalizing p evicted before with
  | zero => exact ⟨[], (append_nil _).symm, nil_prefix⟩
  | succ fuel ih =>
    rw [evictLoop]
    cases hpop : p.entries.popFirst with
    | none => exact ⟨[], (append_nil _).symm, nil_prefix⟩
    | some x =>
      obtain ⟨old, rest⟩ := x
      have hold := OrderedDict.popFirst_items hpop
      rw [hitems] at hold
      have hhead : [old.1] <+: (before ++ [e]).map Prod.fst := by
        cases before with
        | nil =>
          obtain ⟨rfl, -⟩ := List.cons.inj hold
          exact prefix_refl _
        | cons f before =>
          obtain ⟨rfl, -⟩ := List.cons.inj hold
          exact ⟨(before ++ [e]).map Prod.fst, rfl⟩
      by_cases hlen : old.2.2 = length
      · simp only [hlen, if_true]
        cases popFree (evictFirst p old rest).free length with
        | none | some f => exact ⟨[old.1], rfl, hhead⟩
      · simp only [hlen, if_false]
        -- the entry of the length lies further on
        cases before with
        | nil =>
          obtain ⟨rfl, -⟩ := List.cons.inj hold
          exact absurd he hlen
        | cons f before =>
          obtain ⟨rfl, hrest⟩ := List.cons.inj hold
          have hitems' : (evictFirst p f rest).entries.items = before ++ e :: after := hrest.symm
          obtain ⟨more, hmore, hpre⟩ := ih hitems'
          refine ⟨f.1 :: more, ?_, cons_prefix_cons.mpr ⟨rfl, hpre⟩⟩
          rw [hmore, append_assoc]
          rfl

lemma evictLoop_found {off : Nat} (h : (evictLoop length fuel p evicted).off = some off) :
    ∃ e ∈ p.entries.items, e.2.2 = length ∧ e.1 ∈ (evictLoop length fuel p evicted).evicted := by
  induction fuel generalizing p evicted with
  | zero =>
    rw [evictLoop] at h
    cases h
  | succ fuel ih =>
    rw [evictLoop] at h ⊢
    cases hpop : p.entries.popFirst with
    | none =>
      rw [hpop] at h
      cases h
    | some x =>
      obtain ⟨old, rest⟩ := x
      rw [hpop] at h
      have hitems := OrderedDict.popFirst_items hpop
      by_cases hlen : old.2.2 = length
      · simp only [hlen, if_true]
        refine ⟨old, hitems ▸ (.head _), hlen, ?_⟩
        cases popFree (evictFirst p old rest).free length with
        | none | some f => exact mem_append_right _ (.head _)
      · simp only [hlen, if_false] at h ⊢
        obtain ⟨e, he, helen, hev⟩ := ih h
        exact ⟨e, hitems ▸ mem_cons_of_mem old he, helen, hev⟩

/-! ## The pages that go -/

/-- The pages that make room for a new one of this length, from the front of the order of use: none
    if it does not fit the pool at all, a free slot of its length or the bytes behind the bump pointer
    serve it; else all up to the first of its length. -/
def victims (p : PublishedPool K) (length : Nat) : List K :=
  if p.capacity < length ∨ (∃ e ∈ freeSlots p.free, e.2 = length) ∨ p.nextOffset + length ≤ p.capacity
  then []
  else (p.entries.items.takeWhile fun e => e.2.2 ≠ length).map Prod.fst
    ++ (p.entries.items.find? fun e => e.2.2 = length).toList.map Prod.fst

lemma evictLoop_evicted (hfuel : p.entries.items.length ≤ fuel) :
    (evictLoop length fuel p evicted).evicted = evicted
      ++ ((p.entries.items.takeWhile fun e => e.2.2 ≠ length).map Prod.fst
        ++ (p.entries.items.find? fun e => e.2.2 = length).toList.map Prod.fst) := by
  induction fuel generalizing p evicted with
  | zero =>
    rw [length_eq_zero_iff.mp (Nat.le_zero.mp hfuel)]
    exact (append_nil _).symm
  | succ fuel ih =>
    rw [evictLoop]
    cases hpop : p.entries.popFirst with
    | none =>
      rw [OrderedDict.popFirst_eq_none.mp hpop]
      exact (append_nil _).symm
    | some x =>
      obtain ⟨old, rest⟩ := x
      have hitems := OrderedDict.popFirst_items hpop
      rw [hitems, length_cons] at hfuel
      rw [hitems, takeWhile_cons, find?_cons]
      by_cases hlen : old.2.2 = length
      · simp only [hlen, if_true, ne_eq, not_true_eq_false, decide_false, Bool.false_eq_true, if_false,
          decide_true, map_nil, nil_append, Option.toList_some, map_singleton]
        cases popFree (evictFirst p old rest).free length with
        | none | some f => rfl
      · simp only [hlen, if_false, ne_eq, not_false_eq_true, decide_true, if_true, decide_false, map_cons]
        rw [ih (p := evictFirst p old rest) (Nat.le_of_succ_le_succ hfuel), append_assoc]
        rfl

/-- **WHAT AN ALLOCATION EVICTS**, read off the pool before it. -/
lemma allocate_evicted (p : PublishedPool K) (length : Nat) :
    (allocate p length).evicted = victims p length := by
  rw [allocate, victims]
  by_cases hcap : length > p.capacity
  · rw [if_pos hcap, if_pos (.inl hcap)]
  · rw [if_neg hcap]
    cases hpop : popFree p.free length with
    | some x =>
      have hfree : ∃ e ∈ freeSlots p.free, e.2 = length :=
        ⟨(x.1, length), (freeSlots_popFree hpop).mem_iff.mpr (.head _), rfl⟩
      exact (if_pos (.inr (.inl hfree))).symm
    | none =>
      have hfree : ¬ ∃ e ∈ freeSlots p.free, e.2 = length := by
        rintro ⟨e, he, hlen⟩
        exact popFree_none hpop he hlen
      simp only
      by_cases hbump : p.nextOffset + length ≤ p.capacity
      · rw [if_pos hbump, if_pos (.inr (.inr hbump))]
      · rw [if_neg hbump, if_neg (not_or.mpr ⟨hcap, not_or.mpr ⟨hfree, hbump⟩⟩),
          evictLoop_evicted (Nat.le_refl _), nil_append]

/-! ## Handled pages -/

/-- The resident pages that were handled come last in the order of use. -/
def HandledLast (handled : List K) (p : PublishedPool K) : Prop :=
  p.entries.keys.Pairwise (fun j k => j ∈ handled → k ∈ handled)

/-- A new page of this length can be placed, or is refused, without a handled one going. -/
def SparesHandled (handled : List K) (length : Nat) (p : PublishedPool K) : Prop :=
  p.capacity < length ∨ (∃ e ∈ freeSlots p.free, e.2 = length)
    ∨ p.nextOffset + length ≤ p.capacity
    ∨ (∃ e ∈ p.entries.items, e.2.2 = length ∧ e.1 ∉ handled)
    ∨ ∀ k ∈ handled, k ∉ p.entries.keys

instance [DecidableEq K] (handled : List K) (length : Nat) (p : PublishedPool K) :
    Decidable (SparesHandled handled length p) :=
  inferInstanceAs (Decidable (_ ∨ (∃ e ∈ freeSlots p.free, e.2 = length) ∨ _
    ∨ (∃ e ∈ p.entries.items, e.2.2 = length ∧ e.1 ∉ handled) ∨ ∀ k ∈ handled, k ∉ p.entries.keys))

lemma handledLast_nil (p : PublishedPool K) : HandledLast [] p :=
  pairwise_of_forall (fun _ _ h => absurd h not_mem_nil)

lemma HandledLast.step {q : PublishedPool K} {kept : List K} {k : K} (h : HandledLast handled p)
    (hsub : kept.Sublist p.entries.keys) (hk : k ∉ kept)
    (hq : q.entries.keys = kept ∨ q.entries.keys = kept ++ [k]) : HandledLast (k :: handled) q := by
  have hkept : kept.Pairwise (fun i j => i ∈ k :: handled → j ∈ k :: handled) := by
    refine (h.sublist hsub).imp_of_mem ?_
    intro i j hi _ hij hmem
    rcases mem_cons.mp hmem with rfl | hmem
    · exact absurd hi hk
    · exact mem_cons_of_mem k (hij hmem)
  rcases hq with hq | hq
  · rw [HandledLast, hq]; exact hkept
  · rw [HandledLast, hq]
    refine pairwise_append.mpr ⟨hkept, pairwise_singleton _ _, ?_⟩
    intro i _ j hj _
    rw [mem_singleton.mp hj]
    exact (.head _)

lemma evicted_mem {k : K} (h : k ∈ (allocate p length).evicted) : k ∈ p.entries.keys := by
  obtain ⟨dropped, hitems, hev, -⟩ := (allocate_spec p length).oldest
  show k ∈ p.entries.items.map Prod.fst
  rw [hitems, map_append]
  exact mem_append_left _ (hev ▸ h)

/-- **WHAT AN ALLOCATION SPARES.** -/
lemma allocate_spares (hlast : HandledLast handled p) (h : SparesHandled handled length p) :
    ∀ k ∈ (allocate p length).evicted, k ∉ handled := by
  intro k hk hmem
  have hin := evicted_mem hk
  -- only the loop evicts, and it runs over the order from its front
  rw [allocate] at hk
  by_cases hcap : length > p.capacity
  · rw [if_pos hcap] at hk; cases hk
  · rw [if_neg hcap] at hk
    cases hpop : popFree p.free length with
    | some x =>
      rw [hpop] at hk
      cases hk
    | none =>
      rw [hpop] at hk
      simp only at hk
      by_cases hbump : p.nextOffset + length ≤ p.capacity
      · rw [if_pos hbump] at hk; cases hk
      · rw [if_neg hbump] at hk
        rcases h with hcap' | ⟨e, he, hlen⟩ | hfit | ⟨e, he, hlen, hnot⟩ | hnone
        · exact hcap hcap'
        · exact popFree_none hpop he hlen
        · exact hbump hfit
        · -- it stops at the untouched entry of the length, and what comes before is untouched
          obtain ⟨before, after, hitems⟩ := append_of_mem he
          obtain ⟨more, hmore, hpre⟩ := evictLoop_stops hitems hlen
          rw [hmore, nil_append] at hk
          have hbefore := hpre.subset hk
          rw [map_append, mem_append, map_singleton, mem_singleton] at hbefore
          rcases hbefore with hbefore | rfl
          · have hpair : (before.map Prod.fst ++ e.1 :: after.map Prod.fst).Pairwise
                (fun i j => i ∈ handled → j ∈ handled) := by
              have hkeys : p.entries.keys = before.map Prod.fst ++ e.1 :: after.map Prod.fst := by
                show p.entries.items.map Prod.fst = _
                rw [hitems, map_append, map_cons]
              rw [← hkeys]
              exact hlast
            exact hnot ((pairwise_append.mp hpair).2.2 k hbefore e.1 (.head _) hmem)
          · exact hnot hmem
        · exact hnone k hmem hin

/-- **WHAT AN ALLOCATION COSTS** when it cannot spare the handled pages: one of them goes. -/
lemma allocate_drops (h : ¬ SparesHandled handled length p) :
    ∃ k ∈ handled, k ∈ (allocate p length).evicted := by
  simp only [SparesHandled, not_or, not_exists, not_and, not_forall, not_not] at h
  obtain ⟨hcap, hfree, hbump, hsame, j, hj, hjin⟩ := h
  cases hoff : (allocate p length).off with
  | none =>
    -- a refused page has emptied the pool
    rcases allocate_none hoff with ⟨hc, -⟩ | hempty
    · exact absurd hc hcap
    · obtain ⟨dropped, hitems, hev, -⟩ := (allocate_spec p length).oldest
      rw [hempty, append_nil] at hitems
      refine ⟨j, hj, ?_⟩
      rw [hev, ← hitems]
      exact hjin
  | some off =>
    have hloop : allocate p length = evictLoop length p.entries.items.length p [] := by
      rw [allocate, if_neg hcap]
      cases hpop : popFree p.free length with
      | some x => exact absurd rfl (hfree (x.1, length)
          ((freeSlots_popFree hpop).mem_iff.mpr (.head _)))
      | none => simp only [hbump, if_false]
    rw [hloop] at hoff ⊢
    obtain ⟨e, he, hlen, hev⟩ := evictLoop_found hoff
    exact ⟨e.1, hsame e he hlen, hev⟩

variable [DecidableEq K]

/-! ## Placing a page -/

/-- The pages that go when a page is placed. -/
lemma mem_place_evicted {k key : K} {copy : Nat → Mem → Mem} :
    k ∈ (place p key length copy).evicted ↔ key ∉ p.entries.keys ∧ k ∈ victims p length := by
  rw [← allocate_evicted]
  rcases place_cases p key length copy with ⟨e, he, heq⟩ | ⟨hnot, -, heq⟩ | ⟨hnot, off, -, heq⟩
  · rw [heq]
    exact iff_of_false not_mem_nil (fun h => h.1 (OrderedDict.mem_keys.mpr ⟨e, he⟩))
  · rw [heq, and_iff_right hnot]
  · rw [heq, and_iff_right hnot]

lemma handledLast_place (h : HandledLast handled p) (k : K) (length : Nat) (copy : Nat → Mem → Mem) :
    HandledLast (k :: handled) (place p k length copy).pool := by
  obtain ⟨kept, hsub, hk, hkeys⟩ := place_keys p k length copy
  exact h.step hsub hk hkeys

lemma handledLast_addressOf (h : HandledLast handled p) (k : K) :
    HandledLast (k :: handled) (addressOf p k).2 := by
  obtain ⟨kept, hsub, hk, hkeys⟩ := step_keys p (.addressOf k)
  exact h.step hsub hk hkeys

omit [DecidableEq K] in
lemma handledLast_skip (h : HandledLast handled p) {k : K} (hk : k ∉ p.entries.keys) :
    HandledLast (k :: handled) p :=
  h.step (List.Sublist.refl _) hk (.inl rfl)

lemma place_keeps {key : K} (hlast : HandledLast handled p)
    (h : key ∈ p.entries.keys ∨ SparesHandled handled length p) (copy : Nat → Mem → Mem) {k : K}
    (hk : k ∈ handled) {x : Extent} (hx : p.entries.get? k = some x) :
    (place p key length copy).pool.entries.get? k = some x := by
  refine place_get?_of_not_evicted hx ?_
  rcases place_cases p key length copy with ⟨e, -, heq⟩ | ⟨hnot, -, heq⟩ | ⟨hnot, off, -, heq⟩
  · rw [heq]; exact not_mem_nil
  · rw [heq]
    exact fun hev => allocate_spares hlast (h.resolve_left hnot) k hev hk
  · rw [heq]
    exact fun hev => allocate_spares hlast (h.resolve_left hnot) k hev hk

lemma place_drops {key : K} (hkey : key ∉ p.entries.keys) (h : ¬ SparesHandled handled length p)
    (copy : Nat → Mem → Mem) :
    ∃ k ∈ handled, k ∈ p.entries.keys ∧ k ∉ (place p key length copy).pool.entries.keys := by
  obtain ⟨k, hk, hev⟩ := allocate_drops h
  refine ⟨k, hk, ((place_evicted p key length copy).2 k).mp ?_⟩
  rcases place_cases p key length copy with ⟨e, he, -⟩ | ⟨-, -, heq⟩ | ⟨-, off, -, heq⟩
  · exact absurd (OrderedDict.mem_keys.mpr ⟨e, he⟩) hkey
  · rw [heq]; exact hev
  · rw [heq]; exact hev

end PeerCachePool
