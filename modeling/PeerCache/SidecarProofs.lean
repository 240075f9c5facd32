import PeerCache.ProbeProofs

/-! # What `batch_exists_v2` promises

    The pages that `batch_exists_v2` calls usable are fetched next, from the KV pool and from
    every sidecar pool.  An `ALL_PAGES` transfer lists a page for each KV page, a
    `TRAILING_PAGES` transfer the pages of a window that must be there as a whole. -/

namespace PeerCacheKeys

open PeerCacheP2pDisk PeerCacheDirectory List

open PeerCacheCluster (Keyspace lookupKeys)

/-! ## The promise -/

section

variable (n : Node) (s : Place)

/-- The storage key has an entry. -/
def InDirectory (x : String) : Prop := (view n.owners s.dir x).isSome = true

instance (x : String) : Decidable (InDirectory n s x) := inferInstanceAs (Decidable (_ = true))

/-- What is cached is in the directory; by default nothing is cached. -/
def CacheFresh : Prop := ∀ x, (s.cached x).isSome = true → InDirectory n s x

/-- What is promised when `pages` pages are usable. -/
structure Promise (keys : List String) (transfers : List Transfer) (pages : Nat) : Prop where
  kv : ∀ x ∈ (componentKeys n.layout.space (keys.take pages)).1, InDirectory n s x
  allPages : ∀ t ∈ transfers, t.hitPolicy = .allPages → pages ≤ t.keys.length
    ∧ ∀ x ∈ (v2ComponentKeys n.layout t.name (t.keys.take pages)).1, InDirectory n s x
  trailing : ∀ t ∈ transfers, t.hitPolicy = .trailingPages →
    (∃ x ∈ (v2ComponentKeys n.layout t.name t.keys).1, ¬ InDirectory n s x) → pages = 0

/-- What keeps the answer at `m` pages: a component of the first `m + 1` pages listed is missing, or
    one of as many components as the window has pages. -/
def StopsAt (t : Transfer) (m : Nat) : Prop :=
  match t.hitPolicy with
  | .allPages =>
      ∃ x ∈ (v2ComponentKeys n.layout t.name (t.keys.take (m + 1))).1, ¬ InDirectory n s x
  | .trailingPages =>
      ∃ x ∈ (v2ComponentKeys n.layout t.name t.keys).1.take t.keys.length, ¬ InDirectory n s x

/-- The first `m` KV pages are in the directory, under their raw keys or as components. -/
def FoundAs (raw : Bool) (keys : List String) (m : Nat) : Prop :=
  ∀ x ∈ (lookupKeys n.layout.space raw (keys.take m)).1, InDirectory n s x

instance (raw : Bool) (keys : List String) (m : Nat) : Decidable (FoundAs n s raw keys m) :=
  inferInstanceAs (Decidable (∀ x ∈ (lookupKeys n.layout.space raw (keys.take m)).1, _))

/-- The KV pages are looked up by their raw keys: the node has used the generic API, or it has not
    found a page yet and the first one is not there as components. -/
def looksRaw (f : Keyspace) (keys : List String) : Bool :=
  f.rawKeys || (!f.detected && !decide (FoundAs n s false keys 1))

/-- Page `i` is there where the KV pages are looked up, as all before it, and no transfer keeps the
    answer at `i`. -/
structure Offered (f : Keyspace) (keys : List String) (transfers : List Transfer) (i : Nat) :
    Prop where
  listed : i < keys.length
  found : FoundAs n s (looksRaw n s f keys) keys (i + 1)
  free : ∀ t ∈ transfers, ¬ StopsAt n s t i

end

variable {n : Node} {s : Place} {f : Keyspace} {keys : List String} {transfers : List Transfer}

lemma CacheFresh.found (h : CacheFresh n s) (x : String) :
    (locate n s x).isSome = true ↔ InDirectory n s x := by
  rw [locate, Option.isSome_or, Bool.or_eq_true]
  exact ⟨fun hx => hx.elim (h x) id, Or.inr⟩

/-! ## The KV pages -/

lemma lt_length_takeWhile {α : Type} {p : α → Bool} {l : List α} {i : Nat} :
    i < (l.takeWhile p).length ↔ i < l.length ∧ ∀ a ∈ l.take (i + 1), p a = true := by
  induction l generalizing i with
  | nil => simp
  | cons a l ih =>
    rw [takeWhile_cons, take_succ_cons, forall_mem_cons]
    split_ifs with ha
    · cases i with
      | zero => simp [ha]
      | succ i => rw [length_cons, length_cons, Nat.succ_lt_succ_iff, Nat.succ_lt_succ_iff, ih,
          and_iff_right ha]
    · exact iff_of_false (Nat.not_lt_zero i) (fun h => ha h.2.1)

lemma lt_hits_iff (hmode : s.slotmap = false) (hfresh : CacheFresh n s) (raw : Bool) (i : Nat) :
    i < hits n s raw keys ↔ i < keys.length ∧ FoundAs n s raw keys (i + 1) := by
  have hfinds : ∀ x, finds n s x = true ↔ InDirectory n s x := by
    intro x
    rw [finds, hmode]
    exact hfresh.found x
  rw [hits, lt_length_takeWhile, FoundAs, lookupKeys_eq]
  simp only [forall_mem_flatMap, all_eq_true, hfinds]

/-- **WHICH KV PAGES ARE FOUND**, in the key space the probe looks in. -/
lemma lt_batchExists_iff (hmode : s.slotmap = false) (hfresh : CacheFresh n s) (i : Nat) :
    i < (batchExists n s f keys).1
      ↔ i < keys.length ∧ FoundAs n s (looksRaw n s f keys) keys (i + 1) := by
  have hzero : hits n s false keys ≠ 0 ↔ keys ≠ [] ∧ FoundAs n s false keys 1 := by
    rw [← Nat.pos_iff_ne_zero, lt_hits_iff hmode hfresh, length_pos_iff]
  rw [batchExists_fst, hmode, looksRaw]
  simp only [Bool.false_eq_true, false_or]
  cases hraw : f.rawKeys with
  | true => rw [f.locked hraw, if_pos (.inl rfl), Bool.true_or, lt_hits_iff hmode hfresh]
  | false =>
    cases hdet : f.detected with
    | true => rw [if_pos (.inl rfl), lt_hits_iff hmode hfresh]; rfl
    | false =>
      by_cases hfirst : FoundAs n s false keys 1
      · -- found as components, or there are no pages
        by_cases hnil : keys = []
        · subst hnil
          exact iff_of_false (by split_ifs <;> exact Nat.not_lt_zero i) (fun h => Nat.not_lt_zero i h.1)
        · rw [if_pos (.inr (hzero.mpr ⟨hnil, hfirst⟩)), lt_hits_iff hmode hfresh, decide_eq_true hfirst]
          rfl
      · rw [if_neg (not_or.mpr ⟨Bool.false_ne_true, fun h => hfirst (hzero.mp h).2⟩),
          lt_hits_iff hmode hfresh, decide_eq_false hfirst]
        rfl

/-! ## The loop over the transfers -/

variable {t : Transfer}

variable {kvPages m : Nat}

lemma le_boundary_trailing (hpolicy : t.hitPolicy = .trailingPages) (hpos : 0 < m)
    (hm : m ≤ kvPages) :
    m ≤ boundary n s kvPages t
      ↔ ∀ x ∈ (v2ComponentKeys n.layout t.name t.keys).1.take t.keys.length,
        (locate n s x).isSome = true := by
  -- without keys the window is 1, of no components
  have hwindow : (v2ComponentKeys n.layout t.name t.keys).1.take
        (if t.keys = [] then 1 else t.keys.length)
      = (v2ComponentKeys n.layout t.name t.keys).1.take t.keys.length := by
    by_cases hnil : t.keys = []
    · have hkeys := storageKeys_eq n.layout (.v2 t.name) []
      rw [storageKeys] at hkeys
      rw [hnil, hkeys]
      rfl
    · rw [if_neg hnil]
  have hwindowPos : 0 < if t.keys = [] then 1 else t.keys.length := by
    split_ifs with hnil
    · exact Nat.one_pos
    · exact length_pos_iff.mpr hnil
  have hfound : ((((dirGet n s (v2ComponentKeys n.layout t.name t.keys).1).map Option.isSome).take
        (if t.keys = [] then 1 else t.keys.length)).all id = true
        ∧ 0 < if t.keys = [] then 1 else t.keys.length)
      ↔ ∀ x ∈ (v2ComponentKeys n.layout t.name t.keys).1.take t.keys.length,
        (locate n s x).isSome = true := by
    rw [and_iff_left hwindowPos, dirGet, map_map, ← map_take, hwindow, all_map,
      all_eq_true]
    exact Iff.rfl
  rw [boundary, hpolicy, ← hfound]
  generalize (if t.keys = [] then 1 else t.keys.length) = window
  simp only
  split_ifs with hall
  · exact iff_of_true hm hall
  · exact iff_of_false (Nat.not_le.mpr hpos) hall

lemma boundary_le_iff (hfresh : CacheFresh n s) (hm : m < kvPages) (t : Transfer) :
    boundary n s kvPages t ≤ m ↔ StopsAt n s t m := by
  rw [← Nat.lt_succ_iff, ← Nat.not_le, StopsAt]
  cases hpolicy : t.hitPolicy with
  | allPages =>
    simp only [le_boundary_allPages hpolicy (Nat.succ_le_of_lt hm), hfresh.found, not_forall,
      exists_prop]
  | trailingPages =>
    simp only [le_boundary_trailing hpolicy m.succ_pos (Nat.succ_le_of_lt hm), hfresh.found,
      not_forall, exists_prop]

/-- **WHEN AT MOST `m` PAGES ARE USABLE**: the KV pool has no more, or a transfer stops there. -/
lemma usable_le_iff (hfresh : CacheFresh n s) (m : Nat) :
    (batchExistsV2 n s f keys transfers).1.1 ≤ m
      ↔ (batchExists n s f keys).1 ≤ m ∨ ∃ t ∈ transfers, StopsAt n s t m := by
  rw [batchExistsV2]
  simp only [sidecarLoop_le_iff]
  by_cases hm : (batchExists n s f keys).1 ≤ m
  · exact iff_of_true (.inl hm) (.inl hm)
  · rw [or_iff_right hm, or_iff_right hm]
    simp only [boundary_le_iff hfresh (Nat.not_le.mp hm)]

lemma usable_found (hfresh : CacheFresh n s) (ht : t ∈ transfers)
    (hpolicy : t.hitPolicy = .allPages) :
    ∀ x ∈ (v2ComponentKeys n.layout t.name
      (t.keys.take (batchExistsV2 n s f keys transfers).1.1)).1, InDirectory n s x := by
  have hkv : (batchExistsV2 n s f keys transfers).1.1 ≤ (batchExists n s f keys).1 :=
    sidecarLoop_le transfers _ _
  have hb : (batchExistsV2 n s f keys transfers).1.1 ≤ boundary n s (batchExists n s f keys).1 t :=
    (sidecarLoop_le_iff transfers _ _).mpr (.inr ⟨t, ht, le_refl _⟩)
  intro x hx
  exact (hfresh.found x).mp ((le_boundary_allPages hpolicy hkv).mp hb x hx)

/-- **WHICH PAGES ARE USABLE**, by the flag before the call, the directory and the lists. -/
lemma lt_usable_iff (hmode : s.slotmap = false) (hfresh : CacheFresh n s) (i : Nat) :
    i < (batchExistsV2 n s f keys transfers).1.1 ↔ Offered n s f keys transfers i := by
  rw [← Nat.not_le, usable_le_iff hfresh, not_or, Nat.not_le, lt_batchExists_iff hmode hfresh]
  simp only [not_exists, not_and]
  exact ⟨fun h => ⟨h.1.1, h.1.2, h.2⟩, fun h => ⟨⟨h.listed, h.found⟩, h.free⟩⟩

lemma foundAs_iff_offered (hmode : s.slotmap = false) (hfresh : CacheFresh n s) :
    FoundAs n s false keys (batchExistsV2 n s f keys transfers).1.1
      ↔ (looksRaw n s f keys = true →
          ∀ i, Offered n s f keys transfers i → FoundAs n s false keys (i + 1)) := by
  constructor
  · intro h _ i hi
    have hlt := (lt_usable_iff hmode hfresh i).mpr hi
    intro x hx
    rw [lookupKeys_eq] at hx
    refine h x ?_
    rw [lookupKeys_eq]
    obtain ⟨k, hk, hx⟩ := mem_flatMap.mp hx
    exact mem_flatMap.mpr ⟨k, (take_subset_take_left keys (Nat.succ_le_of_lt hlt)) hk, hx⟩
  · intro h
    cases hpages : (batchExistsV2 n s f keys transfers).1.1 with
    | zero =>
      intro x hx
      rw [take_zero, lookupKeys_eq] at hx
      cases hx
    | succ i =>
      have hi : Offered n s f keys transfers i := by
        rw [← lt_usable_iff hmode hfresh, hpages]
        exact Nat.lt_succ_self i
      cases hraw : looksRaw n s f keys with
      | true => exact h hraw i hi
      | false =>
        have hfound := hi.found
        rwa [hraw] at hfound

/-! ## The main result -/

lemma promise_iff (hmode : s.slotmap = false) (hfresh : CacheFresh n s) :
    Promise n s keys transfers (batchExistsV2 n s f keys transfers).1.1
      ↔ (looksRaw n s f keys = true →
          ∀ i, Offered n s f keys transfers i → FoundAs n s false keys (i + 1))
        ∧ (∀ t ∈ transfers, t.hitPolicy = .allPages → ¬ Offered n s f keys transfers t.keys.length)
        ∧ ∀ t ∈ transfers, t.hitPolicy = .trailingPages →
          (∃ x ∈ (v2ComponentKeys n.layout t.name t.keys).1, ¬ InDirectory n s x) →
            ¬ Offered n s f keys transfers 0 := by
  have hfew : ∀ m, (batchExistsV2 n s f keys transfers).1.1 ≤ m
      ↔ ¬ Offered n s f keys transfers m := by
    intro m
    rw [← lt_usable_iff hmode hfresh, Nat.not_lt]
  constructor
  · intro h
    refine ⟨(foundAs_iff_offered hmode hfresh).mp h.kv, ?_, ?_⟩
    · intro t ht hpolicy
      exact (hfew _).mp (h.allPages t ht hpolicy).1
    · intro t ht hpolicy hmissing
      exact (hfew 0).mp (h.trailing t ht hpolicy hmissing).le
  · rintro ⟨hkv, hall, htrailing⟩
    refine ⟨(foundAs_iff_offered hmode hfresh).mpr hkv, ?_, ?_⟩
    · intro t ht hpolicy
      exact ⟨(hfew _).mpr (hall t ht hpolicy), usable_found hfresh ht hpolicy⟩
    · intro t ht hpolicy hmissing
      exact Nat.le_zero.mp ((hfew 0).mpr (htrailing t ht hpolicy hmissing))

lemma stopsAt_of_missing (hpolicy : t.hitPolicy = .trailingPages)
    (hone : (v2ComponentKeys n.layout t.name t.keys).2 = 1)
    (hmissing : ∃ x ∈ (v2ComponentKeys n.layout t.name t.keys).1, ¬ InDirectory n s x) (m : Nat) :
    StopsAt n s t m := by
  have hkeys := storageKeys_eq n.layout (.v2 t.name) t.keys
  rw [storageKeys] at hkeys
  have hlen : (v2ComponentKeys n.layout t.name t.keys).1.length = t.keys.length := by
    rw [hkeys] at hone ⊢
    simp only at hone
    simp only [length_flatMap, length_map, hone, map_const', sum_replicate,
      smul_eq_mul, Nat.mul_one]
  rw [StopsAt, hpolicy]
  simp only [← hlen, take_length]
  exact hmissing

/-- The directory after two KV pages, one page of the indexer and half a draft page were published. -/
def afterFour : Place :=
  ⟨false, (publishP2p "n" (fun _ => ["n"]) freshOwner
    [("x__k", [1]), ("y__k", [2]), ("x_0_indexer", [3]), ("x_0_draft_k", [4])]).owner.dir,
    fun _ => none, fun _ => PeerCacheSlot.SlotRegion.zero⟩

end PeerCacheKeys
