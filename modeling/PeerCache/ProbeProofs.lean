import PeerCache.StorageKeyProofs
import PeerCache.SlotPublishProofs
import PeerCache.P2pClusterProofs

/-! # Existence probes, and the keys they look up

    `batch_exists` answers how many leading pages of a list are there.  It looks up the keys
    of the key space it believes in: component keys, or raw keys once the generic API was
    used or found to be used.  A write goes through `_component_keys`, `_v2_component_keys`
    or `_tag_keys`, and the probe must look where the write went. -/

namespace PeerCacheKeys

open PeerCacheP2pDisk PeerCacheDirectory PeerCacheOwner PeerCacheSlot List

open PeerCacheP2pRace (hitPrefix)

open PeerCacheCluster (Keyspace lookupKeys probeKeys)

/-! ## Looking keys up -/

/-- A node that probes, with the placement all nodes share. -/
structure Node where
  me : String
  layout : Layout
  owners : Owners
  hash : SlotHash
  geom : SlotGeometry
  dataOwner : String → Option String
  /-- The directory is kept somewhere. -/
  ring : ∀ k, owners k ≠ []

/-- What there is to be found during a call: the directory, the read locations that are cached
    and not expired, the slots. -/
structure Place where
  slotmap : Bool
  dir : Shards
  cached : String → Option DataLocation
  cluster : Cluster

section

variable (n : Node) (s : Place)

/-- One key of `_dir_get`. -/
def locate (k : String) : Option DataLocation := (s.cached k).or (view n.owners s.dir k)

/-- `_dir_get` -/
def dirGet (keys : List String) : List (Option DataLocation) := keys.map (locate n s)

/-- One key of `_exists_slotmap`, every READ succeeding. -/
def existsOne (key : String) : Bool :=
  match n.dataOwner key with
  | none => false
  | some o =>
      if o = n.me then (existsLocal n.hash n.geom (s.cluster n.me) key).isSome
      else
        let scratch := readBucket n.geom (s.cluster o).mem (n.geom.bucketIndex n.hash key)
        (List.range n.geom.ways).any
          (fun way => (slotPresent n.hash (snapHeader n.geom scratch way) key).isSome)

/-- `_exists_slotmap` -/
def existsSlotmap (keys : List String) : List Bool := keys.map (existsOne n s)

/-- The storage key is found by the lookup of the mode. -/
def finds (k : String) : Bool := if s.slotmap then existsOne n s k else (locate n s k).isSome

end

/-! ## `batch_exists` -/

/-- The counting loop of the slotmap branch, over the pages that are left. -/
def countBlocks (mult : Nat) : Nat → List Bool → Nat
  | 0, _ => 0
  | pages + 1, present =>
      let block := present.take mult
      if block ≠ [] ∧ block.all id = true then countBlocks mult pages (present.drop mult) + 1 else 0

/-- `batch_exists`: the pages found, and the key space from then on. -/
def batchExists (n : Node) (s : Place) (f : Keyspace) (keys : List String) : Nat × Keyspace :=
  if s.slotmap then
    let (compKeys, mult) := lookupKeys n.layout.space f.rawKeys keys
    let found := countBlocks mult keys.length (existsSlotmap n s compKeys)
    (found, if found = 0 then f else f.detect)
  else
    let p := probeKeys n.layout.space (dirGet n s) f keys
    (p.pages, p.keyspace)

/-! ## The pages found -/

/-- The storage keys a probe looks up for one page. -/
def pageKeys (n : Node) (raw : Bool) (k : String) : List String :=
  if raw then [k] else componentsOf n.layout.space (tagOf n.layout.space.keyTag ++ k)

/-- How many keys that is. -/
def pageSize (n : Node) (raw : Bool) : Nat := if raw then 1 else multiplier n.layout.space

/-- The leading pages all of whose keys are found. -/
def hits (n : Node) (s : Place) (raw : Bool) (keys : List String) : Nat :=
  (keys.takeWhile (fun k => (pageKeys n raw k).all (finds n s))).length

lemma lookupKeys_eq (n : Node) (raw : Bool) (keys : List String) :
    lookupKeys n.layout.space raw keys = (keys.flatMap (pageKeys n raw), pageSize n raw) := by
  cases raw with
  | true =>
    show (keys, 1) = (keys.flatMap (fun k => [k]), 1)
    rw [flatMap_singleton']
  | false =>
    show ((tagKeys n.layout.space keys).flatMap (componentsOf n.layout.space), _) = _
    rw [tagKeys_eq, flatMap_map]
    rfl

lemma length_pageKeys (n : Node) (raw : Bool) (k : String) :
    (pageKeys n raw k).length = pageSize n raw := by
  cases raw with
  | true => rfl
  | false => exact length_componentsOf _ _

lemma pageSize_pos (n : Node) (raw : Bool) : 0 < pageSize n raw := by
  cases raw with
  | true => exact Nat.one_pos
  | false =>
    show 0 < multiplier n.layout.space
    rw [multiplier]
    cases n.layout.space.isMla with
    | true => exact Nat.one_pos
    | false => exact Nat.two_pos

variable {mult : Nat} {me k : String}

variable {α β : Type}

/-- **`_hit_prefix`** of pages of one size counts the leading pages that are there. -/
lemma hitPrefix_pages {γ : Type} (hmult : 0 < mult) {page : α → List β}
    (hsize : ∀ k, (page k).length = mult) (look : β → Option γ) (keys : List α) :
    hitPrefix ((keys.flatMap page).map look) mult
      = (keys.takeWhile (fun k => (page k).all (fun x => (look x).isSome))).length := by
  induction keys with
  | nil => exact Nat.zero_div mult
  | cons k keys ih =>
    rw [flatMap_cons, map_append, hitPrefix, findIdx?_append, takeWhile_cons,
      length_map, hsize]
    cases hfirst : ((page k).map look).findIdx? Option.isNone with
    | none =>
      have hall : (page k).all (fun x => (look x).isSome) = true := by
        rw [all_eq_true]
        intro x hx
        have hx' := findIdx?_eq_none_iff.mp hfirst (look x) (mem_map_of_mem hx)
        rw [← Option.not_isNone, hx']
        rfl
      rw [hall, if_pos rfl, length_cons, ← ih, hitPrefix, Option.none_or]
      cases ((keys.flatMap page).map look).findIdx? Option.isNone with
      | none =>
        show ((page k).map look ++ (keys.flatMap page).map look).length / mult = _
        rw [length_append, length_map, hsize, Nat.add_div_left _ hmult]
      | some i =>
        exact Nat.add_div_right i hmult
    | some i =>
      obtain ⟨hi, hnone, -⟩ := findIdx?_eq_some_iff_getElem.mp hfirst
      have hmiss : (page k).all (fun x => (look x).isSome) = false := by
        rw [all_eq_false]
        rw [getElem_map] at hnone
        refine ⟨_, getElem_mem (by rwa [length_map] at hi), ?_⟩
        rw [Option.isNone_iff_eq_none.mp hnone]
        exact Bool.false_ne_true
      rw [hmiss]
      rw [length_map, hsize] at hi
      exact Nat.div_eq_of_lt hi

/-- **THE SLOTMAP LOOP** counts the same. -/
lemma countBlocks_pages (hmult : 0 < mult) {page : α → List β} (hsize : ∀ k, (page k).length = mult)
    (look : β → Bool) (keys : List α) :
    countBlocks mult keys.length ((keys.flatMap page).map look)
      = (keys.takeWhile (fun k => (page k).all look)).length := by
  induction keys with
  | nil => rfl
  | cons k keys ih =>
    have hlen : ((page k).map look).length = mult := by rw [length_map, hsize]
    have hne : (page k).map look ≠ [] := by
      intro h
      rw [h] at hlen
      exact hmult.ne hlen
    rw [length_cons, countBlocks, flatMap_cons, map_append,
      take_left' hlen, drop_left' hlen, ih, takeWhile_cons, all_map]
    by_cases hall : (page k).all look = true
    · have hblock : (page k).map look ≠ [] ∧ (page k).all (id ∘ look) = true := ⟨hne, hall⟩
      rw [if_pos hblock, hall, if_pos rfl, length_cons]
    · have hblock : ¬ ((page k).map look ≠ [] ∧ (page k).all (id ∘ look) = true) :=
        fun h => hall h.2
      rw [if_neg hblock, Bool.eq_false_iff.mpr hall]
      rfl

lemma exists_pages {pages : Nat} {l : List β} (hlen : l.length = pages * mult) :
    ∃ blocks : List {b : List β // b.length = mult},
      blocks.length = pages ∧ l = blocks.flatMap Subtype.val := by
  induction pages generalizing l with
  | zero =>
    rw [Nat.zero_mul] at hlen
    exact ⟨[], rfl, length_eq_zero_iff.mp hlen⟩
  | succ pages ih =>
    rw [Nat.succ_mul] at hlen
    obtain ⟨blocks, hblocks, hrest⟩ := @ih (l.drop mult) (by rw [length_drop]; omega)
    refine ⟨⟨l.take mult, by rw [length_take]; omega⟩ :: blocks, by rw [length_cons, hblocks], ?_⟩
    rw [flatMap_cons, ← hrest, take_append_drop]

/-- **`_page_results`** of pages of one size says of each whether it is there. -/
lemma pageResults_pages (hmult : 0 < mult) {page : α → List β} (hsize : ∀ k, (page k).length = mult)
    (look : β → Bool) (keys : List α) :
    pageResults ((keys.flatMap page).map look) mult = keys.map (fun k => (page k).all look) := by
  have hlen : ((keys.flatMap page).map look).length = keys.length * mult := by
    simp [length_flatMap, hsize]
  have hpages : (keys.length * mult + mult - 1) / mult = keys.length :=
    Nat.div_eq_of_lt_le (by omega) (by rw [Nat.succ_mul]; omega)
  refine ext_getElem? (fun i => ?_)
  rw [pageResults, hlen, hpages, getElem?_map, getElem?_map]
  cases hi : keys[i]? with
  | none =>
    rw [List.getElem?_eq_none (by simpa using List.getElem?_eq_none_iff.mp hi)]
    rfl
  | some k =>
    obtain ⟨hlt, -⟩ := List.getElem?_eq_some_iff.mp hi
    rw [List.getElem?_range hlt, Option.map_some, Option.map_some, ← List.map_drop, ← List.map_take,
      slice_flatMap hsize hi, all_map]
    rfl

lemma take_pages {page : α → List β} (hsize : ∀ k, (page k).length = mult) (keys : List α) {m : Nat}
    (hm : m ≤ keys.length) : (keys.flatMap page).take (m * mult) = (keys.take m).flatMap page := by
  have hlen : ((keys.take m).flatMap page).length = m * mult := by
    simp [length_flatMap, hsize, hm]
  have hsplit : keys.flatMap page = (keys.take m).flatMap page ++ (keys.drop m).flatMap page := by
    rw [← flatMap_append, take_append_drop]
  rw [hsplit, take_left' hlen]

lemma isGreatest_takeWhile (p : α → Bool) (keys : List α) :
    IsGreatest {m | m ≤ keys.length ∧ ∀ k ∈ keys.take m, p k = true} (keys.takeWhile p).length := by
  have hpre : keys.takeWhile p <+: keys := takeWhile_prefix p
  refine ⟨⟨hpre.length_le, ?_⟩, ?_⟩
  · intro k hk
    rw [← prefix_iff_eq_take.mp hpre] at hk
    exact mem_takeWhile_imp hk
  · rintro m ⟨hm, hall⟩
    have h : (keys.take m ++ keys.drop m).takeWhile p = _ := takeWhile_append_of_pos hall
    rw [take_append_drop] at h
    rw [h, length_append, length_take]
    omega

/-- **PREFIX COUNTING IS THE SAME EVERYWHERE**: for every number of components of a page, every number of
    pages and every pattern of what is there.  `_hit_prefix` over the locations, the loop of the
    slotmap branch and the leading `True` of `_page_results` give the same number, the greatest `n`
    such that every component of the first `n` pages is there. -/
theorem prefix_counts_agree {α : Type} {mult pages : Nat} (hmult : 1 ≤ mult) (locs : List (Option α))
    (hlen : locs.length = pages * mult) :
    ∃ n, hitPrefix locs mult = n ∧ countBlocks mult pages (locs.map Option.isSome) = n
      ∧ ((pageResults (locs.map Option.isSome) mult).takeWhile id).length = n
      ∧ IsGreatest {m | m ≤ pages ∧ ∀ loc ∈ locs.take (m * mult), loc.isSome = true} n := by
  obtain ⟨blocks, rfl, rfl⟩ := exists_pages hlen
  have hsize : ∀ b : {b : List (Option α) // b.length = mult}, b.val.length = mult := Subtype.property
  refine ⟨(blocks.takeWhile (fun b => b.val.all Option.isSome)).length, ?_,
    countBlocks_pages hmult hsize Option.isSome blocks, ?_, ?_⟩
  · have h := hitPrefix_pages hmult hsize id blocks
    rwa [map_id] at h
  · rw [pageResults_pages hmult hsize, takeWhile_map, length_map]
    rfl
  · convert isGreatest_takeWhile (fun b => b.val.all Option.isSome) blocks using 3 with m
    refine and_congr_right (fun hm => ?_)
    rw [take_pages hsize blocks hm]
    simp only [mem_flatMap, all_eq_true]
    constructor
    · intro h b hb loc hloc
      exact h loc ⟨b, hb, hloc⟩
    · rintro h loc ⟨b, hb, hloc⟩
      exact h b hb loc hloc

theorem prefix_counts_agree_half_page :
    1 ≤ 2 ∧ [some 1, some 2, some 3, none].length = 2 * 2
      ∧ ((pageResults [true, true, true, false] 2).takeWhile id).length = 1 := by
  have hlen : [some 1, some 2, some 3, none].length = 2 * 2 := rfl
  obtain ⟨n, hprefix, -, hresults, -⟩ := prefix_counts_agree (by decide) [some 1, some 2, some 3, none] hlen
  have hn : n = 1 := hprefix.symm.trans (by decide)
  exact ⟨by decide, hlen, hresults.trans hn⟩

lemma countBlocks_eq_hits {n : Node} {s : Place} (hmode : s.slotmap = true) (raw : Bool)
    (keys : List String) :
    countBlocks (lookupKeys n.layout.space raw keys).2 keys.length
        (existsSlotmap n s (lookupKeys n.layout.space raw keys).1)
      = hits n s raw keys := by
  have hfinds : finds n s = existsOne n s := by
    funext k
    rw [finds, if_pos hmode]
  rw [lookupKeys_eq, hits, hfinds]
  exact countBlocks_pages (pageSize_pos n raw) (length_pageKeys n raw) _ keys

lemma hitPrefix_eq_hits {n : Node} {s : Place} (hmode : s.slotmap = false) (raw : Bool)
    (keys : List String) :
    hitPrefix (dirGet n s (lookupKeys n.layout.space raw keys).1)
        (lookupKeys n.layout.space raw keys).2 = hits n s raw keys := by
  have hfinds : finds n s = fun k => (locate n s k).isSome := by
    funext k
    rw [finds, hmode]
    rfl
  rw [lookupKeys_eq, hits, hfinds]
  exact hitPrefix_pages (pageSize_pos n raw) (length_pageKeys n raw) _ keys

/-- **WHAT `batch_exists` ANSWERS**: the leading pages of its key space, or those of the other one
    if there are none, nothing was detected so far, and the directory is in use. -/
lemma batchExists_fst (n : Node) (s : Place) (f : Keyspace) (keys : List String) :
    (batchExists n s f keys).1
      = if s.slotmap = true ∨ f.detected = true ∨ hits n s f.rawKeys keys ≠ 0
        then hits n s f.rawKeys keys else hits n s (!f.rawKeys) keys := by
  rw [batchExists]
  by_cases hmode : s.slotmap = true
  · simp only [hmode, if_true, true_or]
    exact countBlocks_eq_hits hmode _ _
  · have hdir : s.slotmap = false := Bool.eq_false_iff.mpr hmode
    simp only [hdir, Bool.false_eq_true, if_false, false_or, probeKeys, hitPrefix_eq_hits hdir]
    by_cases hfound : hits n s f.rawKeys keys ≠ 0
    · simp only [if_pos hfound, if_pos (.inr hfound : f.detected = true ∨ _)]
    · simp only [if_neg hfound]
      by_cases hdet : f.detected = true
      · simp only [hdet, if_true, true_or]
      · simp only [if_neg hdet, if_neg (fun h => h.elim hdet hfound : ¬ (f.detected = true ∨ _))]
        by_cases halt : hits n s (!f.rawKeys) keys ≠ 0
        · rw [if_pos halt]
        · rw [if_neg halt]
          exact (not_not.mp hfound).trans (not_not.mp halt).symm

lemma batchExists_snd (n : Node) (s : Place) {f : Keyspace} (hdet : f.detected = true)
    (keys : List String) : (batchExists n s f keys).2 = f := by
  have hsame : f.detect = f := by
    obtain ⟨raw, detected, locked⟩ := f
    cases hdet
    rfl
  rw [batchExists]
  by_cases hmode : s.slotmap = true
  · simp only [hmode, if_true, hsame, ite_self]
  · simp only [if_neg hmode, probeKeys, hsame, hdet, if_true]
    split_ifs with hfound
    · rfl
    · rfl

lemma hits_eq_length {n : Node} {s : Place} {raw : Bool} {keys : List String} :
    hits n s raw keys = keys.length ↔ ∀ k ∈ keys, ∀ x ∈ pageKeys n raw k, finds n s x = true := by
  rw [hits]
  constructor
  · intro h k hk
    have hall := takeWhile_eq_self_iff.mp ((takeWhile_sublist _).eq_of_length h)
    exact all_eq_true.mp (hall k hk)
  · intro h
    rw [takeWhile_eq_self_iff.mpr (fun k hk => all_eq_true.mpr (h k hk))]

lemma hits_raw_eq_length {n : Node} {s : Place} {keys : List String} :
    hits n s true keys = keys.length ↔ ∀ k ∈ keys, finds n s k = true := by
  rw [hits_eq_length]
  refine forall₂_congr (fun k _ => ?_)
  exact forall_mem_singleton

/-! ## A set that succeeded, and nothing evicted since -/

/-- The pages of a list were written through an API, each reported `True`, and none was evicted
    by the call or since: what the call left in the directory, or in its slots, is there. -/
inductive SetHeld (n : Node) (s : Place) (api : Api) (keys : List String) : Prop where
  /-- `_publish_p2p` by some node, over what it had -/
  | directory (writer : String) (t : PageOwner) (pages : List (String × Bytes))
      (hmode : s.slotmap = false) (hkeys : pages.map Prod.fst = (storageKeys n.layout api keys).1)
      (hok : ∀ b ∈ pageResults (publishP2p writer n.owners t pages).results
        (storageKeys n.layout api keys).2, b = true)
      (hstay : ∀ k ∈ pages.map Prod.fst, k ∉ (publishP2p writer n.owners t pages).evicted)
      (hkept : ∀ k ∈ pages.map Prod.fst,
        (view n.owners (publishP2p writer n.owners t pages).owner.dir k).isSome = true →
          (view n.owners s.dir k).isSome = true)
  /-- `_publish_slotmap` by some node, over the slots there were -/
  | slots (writer : String) (before after : Cluster) (pages : List (String × Bytes))
      (order : List Nat) (results : List Bool) (hmode : s.slotmap = true)
      (hkeys : pages.map Prod.fst = (storageKeys n.layout api keys).1)
      (hpub : publishSlotmap n.hash n.geom n.dataOwner before writer pages order
        = some (results, after))
      (hok : ∀ b ∈ pageResults results (storageKeys n.layout api keys).2, b = true)
      (hstay : ∀ (i : Nat) (q : String × Bytes), pages[i]? = some q → results[i]? = some true →
        Present n.hash n.geom n.dataOwner after q.1 q.2.length)
      (hkept : ∀ q ∈ pages, Present n.hash n.geom n.dataOwner after q.1 q.2.length →
        Present n.hash n.geom n.dataOwner s.cluster q.1 q.2.length)

lemma results_of_pages {results : List Bool} (hmult : 0 < mult)
    (h : ∀ b ∈ pageResults results mult, b = true) : ∀ b ∈ results, b = true := by
  intro b hb
  obtain ⟨j, hj⟩ := List.mem_iff_getElem?.mp hb
  obtain ⟨hlt, -⟩ := List.getElem?_eq_some_iff.mp hj
  -- the component is one of those of page `j / mult`
  have hpage : j / mult < (results.length + mult - 1) / mult := by
    rw [Nat.lt_div_iff_mul_lt hmult]
    have := Nat.div_mul_le_self j mult
    omega
  have hall := h _ (mem_map_of_mem (mem_range.mpr hpage))
  rw [all_eq_true] at hall
  refine hall b (mem_iff_getElem?.mpr ⟨j % mult, ?_⟩)
  rw [getElem?_take, if_pos (Nat.mod_lt j hmult), getElem?_drop, Nat.mul_comm,
    Nat.div_add_mod]
  exact hj

lemma storageKeys_snd_pos (y : Layout) (api : Api) (keys : List String) :
    0 < (storageKeys y api keys).2 := by
  rw [storageKeys_eq]
  exact length_pos_iff.mpr (suffixesOf_ne_nil y api)

lemma onPoolEvict_view {owners : Owners} (hring : ∀ k, owners k ≠ []) (t : PageOwner)
    {evicted : List String} (hk : k ∉ evicted) :
    view owners (onPoolEvict me owners t evicted).dir k = view owners t.dir k := by
  rw [onPoolEvict]
  cases t.disk with
  | none => exact (view_delete t.dir evicted k).trans (if_neg hk)
  | some d =>
    refine (view_put t.dir _ (hring k)).trans ?_
    rw [spilled_get?, if_neg hk, Option.none_or]

lemma publishLoop_view {owners : Owners} (hring : ∀ k, owners k ≠ [])
    (pages : List ((String × Bytes) × Admission)) (t : PageOwner)
    (entries : Locations)
    (hk : k ∉ (publishLoop me owners pages t entries).evicted) :
    view owners (publishLoop me owners pages t entries).owner.dir k = view owners t.dir k := by
  fun_induction publishLoop me owners pages t entries with
  | case1 => rfl
  | case2 _ _ _ _ _ ih | case3 _ _ _ _ _ ih => exact ih hk
  | case4 _ _ _ _ _ _ _ _ ih | case5 _ _ _ _ _ _ _ _ _ _ ih =>
    obtain ⟨hnow, hlater⟩ := not_or.mp (fun h => hk (mem_append.mpr h))
    exact (ih hlater).trans (onPoolEvict_view hring _ hnow)

lemma publishPages_found {owners : Owners} (hring : ∀ k, owners k ≠ [])
    (t : PageOwner) (asked : List ((String × Bytes) × Admission))
    (hok : ∀ b ∈ (publishPages me owners t asked).results, b = true)
    {q : (String × Bytes) × Admission} (hq : q ∈ asked)
    (hknown : q.2 = .existing → (view owners t.dir q.1.1).isSome = true)
    (hstay : q.1.1 ∉ (publishPages me owners t asked).evicted) :
    (view owners (publishPages me owners t asked).owner.dir q.1.1).isSome = true := by
  rw [publishPages] at hok hstay ⊢
  have hloop := publishLoop_view hring asked t _ hstay
  have hlen : (publishLoop me owners asked t OrderedDict.empty).results.length = asked.length :=
    publishLoop_length asked t _
  have hreport : ∀ q ∈ asked.zip (publishLoop me owners asked t OrderedDict.empty).results,
      q.2 = true → q.1.2 = .existing
        ∨ q.1.1.1 ∈ (publishLoop me owners asked t OrderedDict.empty).entries.keys :=
    publishLoop_true asked t _
  generalize publishLoop me owners asked t OrderedDict.empty = r at hok hloop hlen hreport ⊢
  show (view owners (put owners (reconcile me r.entries.keys r.owner r.entries).2.dir _) q.1.1).isSome
    = true
  rw [view_put _ _ (hring _), reconcile_dir, hloop, Option.isSome_or]
  obtain ⟨i, hi⟩ := mem_iff_getElem?.mp hq
  have hlt : i < r.results.length := hlen ▸ (List.getElem?_eq_some_iff.mp hi).1
  have hmem : (q, r.results[i]) ∈ asked.zip r.results :=
    mem_of_getElem? (getElem?_zip_eq_some.mpr ⟨hi, getElem?_eq_getElem hlt⟩)
  rcases hreport _ hmem (hok _ (getElem_mem hlt)) with hexisting | hentry
  · rw [hknown hexisting, Bool.or_true]
  · obtain ⟨old, hold⟩ := OrderedDict.mem_keys.mp hentry
    rw [reconcile_get?, if_pos hentry, hold]
    rfl

/-- **A SUCCESSFUL PUBLISH** leaves an entry for each page it did not evict. -/
lemma publishP2p_found {owners : Owners} (hring : ∀ k, owners k ≠ []) (t : PageOwner)
    (pages : List (String × Bytes))
    (hok : ∀ b ∈ (publishP2p me owners t pages).results, b = true) (hk : k ∈ pages.map Prod.fst)
    (hstay : k ∉ (publishP2p me owners t pages).evicted) :
    (view owners (publishP2p me owners t pages).owner.dir k).isSome = true := by
  obtain ⟨q, hq, rfl⟩ := mem_map.mp hk
  have hasked : pages.zip ((existsKeys owners t.dir (pages.map Prod.fst)).map
      fun b => if b then Admission.existing else Admission.fresh)
      = pages.map (fun q => (q, if (view owners t.dir q.1).isSome then Admission.existing
        else Admission.fresh)) := by
    rw [existsKeys_eq_view, map_map, map_map]
    nth_rewrite 1 [← map_id pages]
    exact zip_map'
  rw [publishP2p, hasked] at hok hstay ⊢
  have hmem := mem_map_of_mem (f := fun q : String × Bytes =>
    (q, if (view owners t.dir q.1).isSome then Admission.existing else Admission.fresh)) hq
  refine publishPages_found hring t _ hok hmem ?_ hstay
  intro hexisting
  by_contra hnone
  simp only [if_neg hnone] at hexisting
  cases hexisting

lemma existsOne_of_present {n : Node} {s : Place} {key : String} {length : Nat}
    (h : Present n.hash n.geom n.dataOwner s.cluster key length) : existsOne n s key = true := by
  obtain ⟨o, howner, way, hway, hmatch⟩ := h
  rw [existsOne, howner]
  simp only
  split_ifs with hme
  · rw [existsLocal, findSome?_isSome_iff]
    refine ⟨way, mem_range.mpr hway, ?_⟩
    rw [← hme, slotPresent_iff.mpr hmatch]
    rfl
  · rw [any_eq_true]
    refine ⟨way, mem_range.mpr hway, ?_⟩
    rw [snapHeader_readBucket hway, slotPresent_iff.mpr hmatch]
    rfl

/-- **WHAT A SET LEFT IS FOUND**, under the keys it was written to. -/
lemma SetHeld.finds {n : Node} {s : Place} {api : Api} {keys : List String}
    (h : SetHeld n s api keys) : ∀ x ∈ (storageKeys n.layout api keys).1, finds n s x = true := by
  intro x hx
  rw [PeerCacheKeys.finds]
  cases h with
  | directory writer t pages hmode hkeys hok hstay hkept =>
    rw [← hkeys] at hx
    have hresults := results_of_pages (storageKeys_snd_pos n.layout api keys) hok
    have hfound := hkept x hx (publishP2p_found n.ring t pages hresults hx (hstay x hx))
    rw [hmode, if_neg Bool.false_ne_true, locate, Option.isSome_or, hfound, Bool.or_true]
  | slots writer before after pages order results hmode hkeys hpub hok hstay hkept =>
    rw [← hkeys] at hx
    obtain ⟨q, hq, rfl⟩ := mem_map.mp hx
    obtain ⟨i, hi⟩ := mem_iff_getElem?.mp hq
    have hlt : i < results.length := by
      rw [length_publishSlotmap hpub]
      exact (List.getElem?_eq_some_iff.mp hi).1
    have htrue : results[i]? = some true := by
      rw [getElem?_eq_getElem hlt, results_of_pages (storageKeys_snd_pos n.layout api keys) hok
        _ (getElem_mem hlt)]
    rw [if_pos hmode]
    exact existsOne_of_present (hkept q hq (hstay i q hi htrue))

/-! ## The calls of one node -/

/-- What a node that uses one API does: a set or a get of that API, or a probe. -/
inductive NodeCall where
  | data
  | probe (s : Place) (keys : List String)

/-- What a call makes of the key space. -/
def NodeCall.keyspace (n : Node) (api : Api) (f : Keyspace) : NodeCall → Keyspace
  | .data =>
      match api with
      | .generic => Keyspace.generic
      | _ => f
  | .probe s keys => (batchExists n s f keys).2

/-- The key space of a node after its calls. -/
def keyspaceAfter (n : Node) (api : Api) (calls : List NodeCall) : Keyspace :=
  calls.foldl (NodeCall.keyspace n api) Keyspace.start

lemma keyspaceAfter_generic (n : Node) (before later : List NodeCall) :
    keyspaceAfter n .generic (before ++ .data :: later) = Keyspace.generic := by
  rw [keyspaceAfter, foldl_append, foldl_cons]
  refine foldlRecOn (motive := fun f => f = Keyspace.generic) later _ rfl ?_
  rintro f rfl call -
  cases call with
  | data => rfl
  | probe s keys => exact batchExists_snd n s rfl keys

section

variable {n : Node} {s : Place} {f : Keyspace} {keys : List String}

lemma batchExists_raw (hraw : f.rawKeys = true) :
    (batchExists n s f keys).1 = keys.length ↔ ∀ k ∈ keys, finds n s k = true := by
  rw [batchExists_fst, if_pos (.inr (.inl (f.locked hraw))), hraw, hits_raw_eq_length]

lemma components_found_iff : (∀ k ∈ keys, ∀ x ∈ pageKeys n false k, finds n s x = true)
      ↔ ∀ x ∈ (componentKeys n.layout.space keys).1, finds n s x = true := by
  have hkeys : (componentKeys n.layout.space keys).1 = keys.flatMap (pageKeys n false) :=
    congrArg Prod.fst (lookupKeys_eq n false keys)
  rw [hkeys]
  exact forall_mem_flatMap.symm

lemma batchExists_components (hraw : f.rawKeys = false)
    (hall : ∀ x ∈ (componentKeys n.layout.space keys).1, finds n s x = true) :
    (batchExists n s f keys).1 = keys.length := by
  have hhits := hits_eq_length.mpr (components_found_iff.mpr hall)
  rw [batchExists_fst, hraw, hhits]
  by_cases hlook : s.slotmap = true ∨ f.detected = true ∨ keys.length ≠ 0
  · rw [if_pos hlook]
  · -- no pages at all
    rw [if_neg hlook]
    have hnil : keys = [] := by
      by_contra hne
      exact hlook (.inr (.inr (fun h => hne (length_eq_zero_iff.mp h))))
    rw [hnil]
    rfl

lemma batchExists_written
    (hall : ∀ x ∈ (componentKeys n.layout.space keys).1, finds n s x = true) :
    (batchExists n s f keys).1 = keys.length
      ↔ f.rawKeys = false ∨ ∀ k ∈ keys, finds n s k = true := by
  cases hraw : f.rawKeys with
  | false => exact iff_of_true (batchExists_components hraw hall) (.inl rfl)
  | true =>
    rw [batchExists_raw hraw]
    exact ⟨Or.inr, fun h => h.resolve_left Bool.noConfusion⟩

/-- The probe of the node itself looks where the set wrote. -/
def ProbesWritten (n : Node) (f : Keyspace) : Api → Prop
  | .generic => n.layout.space.keyTag = ""
  | _ => f.rawKeys = false

/-- The first probe of a read-only node looks where the set wrote: if the generic API wrote and the
    first page is there in components, then all pages must be; if it is not, there is no tag, or
    the keys are found without one. -/
def ReaderProbesWritten (n : Node) (s : Place) (keys : List String) : Api → Prop
  | .generic =>
      if ∀ x ∈ (componentKeys n.layout.space (keys.take 1)).1, finds n s x = true then
        ∀ x ∈ (componentKeys n.layout.space keys).1, finds n s x = true
      else n.layout.space.keyTag = "" ∨ ∀ k ∈ keys, finds n s k = true
  | _ => True

lemma finds_of_no_tag (htag : n.layout.space.keyTag = "")
    (hset : ∀ x ∈ (storageKeys n.layout .generic keys).1, finds n s x = true) :
    ∀ k ∈ keys, finds n s k = true := by
  intro k hk
  refine hset k ?_
  rw [storageKeys, tagKeys, if_pos htag]
  exact hk

lemma hits_ne_zero : hits n s false keys ≠ 0
    ↔ keys ≠ [] ∧ ∀ x ∈ (componentKeys n.layout.space (keys.take 1)).1, finds n s x = true := by
  rw [← components_found_iff, hits]
  cases keys with
  | nil => simp only [takeWhile_nil, length_nil, ne_eq, not_true, false_and]
  | cons k rest =>
    rw [takeWhile_cons, take_succ_cons, take_zero, forall_mem_singleton,
      ← all_eq_true]
    split_ifs with hall
    · exact iff_of_true (Nat.succ_ne_zero _) ⟨cons_ne_nil k rest, hall⟩
    · exact iff_of_false (fun h => h rfl) (fun h => hall h.2)

lemma reader_generic (hmode : s.slotmap = false)
    (hset : ∀ x ∈ (storageKeys n.layout .generic keys).1, finds n s x = true) :
    (batchExists n s Keyspace.start keys).1 = keys.length
      ↔ ReaderProbesWritten n s keys .generic := by
  have hanswer : (batchExists n s Keyspace.start keys).1
      = if hits n s false keys ≠ 0 then hits n s false keys else hits n s true keys := by
    rw [batchExists_fst, hmode]
    simp only [Keyspace.start, Bool.false_eq_true, false_or, Bool.not_false]
  rw [hanswer, ReaderProbesWritten]
  by_cases hfirst : ∀ x ∈ (componentKeys n.layout.space (keys.take 1)).1, finds n s x = true
  · rw [if_pos hfirst, ← components_found_iff]
    by_cases hnil : keys = []
    · subst hnil; exact iff_of_true rfl (forall_mem_nil _)
    · rw [if_pos (hits_ne_zero.mpr ⟨hnil, hfirst⟩)]; exact hits_eq_length
  · rw [if_neg hfirst, if_neg (fun h => hfirst (hits_ne_zero.mp h).2), hits_raw_eq_length]
    exact ⟨Or.inr, fun h => h.elim (fun htag => finds_of_no_tag htag hset) id⟩

/-- **SET, THEN EXISTS**: after a set of either API that succeeded, with nothing evicted since, a
    probe by a node that has used this API answers the whole list exactly when it looks where the
    set wrote, or the keys are found as they are; and so does the first probe of a read-only
    node in peer-to-peer mode. -/
theorem exists_after_set_iff (n : Node) (s : Place) {api : Api} (hapi : api = .v1 ∨ api = .generic)
    {keys : List String} (hset : SetHeld n s api keys) :
    (∀ before later : List NodeCall,
        (batchExists n s (keyspaceAfter n api (before ++ .data :: later)) keys).1 = keys.length
          ↔ ProbesWritten n (keyspaceAfter n api (before ++ .data :: later)) api
            ∨ ∀ k ∈ keys, finds n s k = true)
      ∧ (s.slotmap = false →
        ((batchExists n s Keyspace.start keys).1 = keys.length
          ↔ ReaderProbesWritten n s keys api)) := by
  have hfound := hset.finds
  rcases hapi with rfl | rfl
  · refine ⟨fun before later => batchExists_written hfound, fun _ => ?_⟩
    exact iff_of_true (batchExists_components rfl hfound) trivial
  · refine ⟨?_, fun hmode => reader_generic hmode hfound⟩
    intro before later
    rw [keyspaceAfter_generic, batchExists_raw rfl]
    exact ⟨Or.inr, fun h => h.elim (fun htag => finds_of_no_tag htag hfound) id⟩

end

/-- A node with an MLA model and a prefix, alone on the ring. -/
def loneNode (p : String) : Node where
  me := "n"
  layout := (Layout.ofRanks true 0 0 1).tenant p
  owners _ := ["n"]
  hash := lengthHash
  geom := twoWays
  dataOwner _ := some "n"
  ring _ := List.cons_ne_nil _ _

/-- A node with nothing in its pool of four bytes. -/
def freshOwner : PageOwner :=
  ⟨PeerCachePool.new 100 4 7 [7] (fun _ => 0), none, OrderedDict.empty, fun _ => OrderedDict.empty⟩

/-- The directory after these pages were published, in peer-to-peer mode. -/
def afterPublish (pages : List (String × Bytes)) : Place :=
  ⟨false, (publishP2p "n" (fun _ => ["n"]) freshOwner pages).owner.dir, fun _ => none,
    fun _ => SlotRegion.zero⟩

/-- Without a prefix two pages are found, by the node and by a reader. -/
theorem exists_after_set_iff_no_tag :
    SetHeld (loneNode "") (afterPublish [("x", [1]), ("y", [2])]) .generic ["x", "y"]
      ∧ (batchExists (loneNode "") (afterPublish [("x", [1]), ("y", [2])])
          (keyspaceAfter (loneNode "") .generic [.data]) ["x", "y"]).1 = 2
      ∧ (batchExists (loneNode "") (afterPublish [("x", [1]), ("y", [2])]) Keyspace.start
          ["x", "y"]).1 = 2 := by
  have hset : SetHeld (loneNode "") (afterPublish [("x", [1]), ("y", [2])]) .generic ["x", "y"] :=
    .directory "n" freshOwner [("x", [1]), ("y", [2])] rfl (by decide +kernel) (by decide +kernel)
      (by decide +kernel) (fun _ _ h => h)
  have hiff := exists_after_set_iff (loneNode "") (afterPublish [("x", [1]), ("y", [2])])
    (Or.inr rfl) hset
  refine ⟨hset, (hiff.1 [] []).mpr (Or.inl rfl), (hiff.2 rfl).mpr ?_⟩
  have hmiss : ¬ ∀ x ∈ (componentKeys (loneNode "").layout.space (["x", "y"].take 1)).1,
      finds (loneNode "") (afterPublish [("x", [1]), ("y", [2])]) x = true := by decide +kernel
  rw [ReaderProbesWritten, if_neg hmiss]
  exact Or.inl rfl

/-- With a prefix, neither finds it: the page is under `t_x`, and `x` is looked up. -/
theorem tagged_page_not_found :
    SetHeld (loneNode "t") (afterPublish [("t_x", [1])]) .generic ["x"]
      ∧ (batchExists (loneNode "t") (afterPublish [("t_x", [1])])
          (keyspaceAfter (loneNode "t") .generic [.data]) ["x"]).1 = 0
      ∧ (batchExists (loneNode "t") (afterPublish [("t_x", [1])]) Keyspace.start ["x"]).1 = 0 := by
  refine ⟨?_, by decide +kernel, by decide +kernel⟩
  exact .directory "n" freshOwner [("t_x", [1])] rfl (by decide +kernel) (by decide +kernel)
    (by decide +kernel) (fun _ _ h => h)

/-! ## `batch_exists_v2` -/

/-- `PoolHitPolicy` -/
inductive HitPolicy where
  | allPages
  | trailingPages
deriving DecidableEq

/-- What the probe reads of a `PoolTransfer`. -/
structure Transfer where
  name : String
  keys : List String
  hitPolicy : HitPolicy

section

variable (n : Node) (s : Place)

/-- How many of the KV pages a sidecar pool allows. -/
def boundary (kvPages : Nat) (t : Transfer) : Nat :=
  let (compKeys, mult) := v2ComponentKeys n.layout t.name t.keys
  let ex := (dirGet n s compKeys).map Option.isSome
  match t.hitPolicy with
  | .allPages =>
      ((List.range kvPages).find? (fun i => !((ex.drop (i * mult)).take mult).all id)).getD kvPages
  | .trailingPages =>
      let window := if t.keys = [] then 1 else t.keys.length
      if (ex.take window).all id = true ∧ 0 < window then kvPages else 0

/-- The loop over the sidecar pools: the pages usable and the hits of each pool. -/
def sidecarLoop (kvPages : Nat) :
    List Transfer → Nat → OrderedDict String Nat → Nat × OrderedDict String Nat
  | [], finalPages, hitCount => (finalPages, hitCount)
  | t :: transfers, finalPages, hitCount =>
      if finalPages = 0 then (finalPages, hitCount)
      else
        let b := boundary n s kvPages t
        sidecarLoop kvPages transfers (min finalPages b)
          (if b = 0 then hitCount else hitCount.set t.name b)

/-- `batch_exists_v2`: the usable pages, the hits of each pool, and the key space. -/
def batchExistsV2 (f : Keyspace) (keys : List String) (transfers : List Transfer) :
    (Nat × OrderedDict String Nat) × Keyspace :=
  let (kvPages, f) := batchExists n s f keys
  let hitCount := if kvPages = 0 then OrderedDict.empty
    else OrderedDict.empty.set n.layout.names.kv kvPages
  (sidecarLoop n s kvPages transfers kvPages hitCount, f)

end

section

variable {n : Node} {s : Place} {f : Keyspace} {keys : List String}

variable {kvPages m : Nat}

lemma sidecarLoop_le_iff (transfers : List Transfer) (finalPages : Nat)
    (hitCount : OrderedDict String Nat) :
    (sidecarLoop n s kvPages transfers finalPages hitCount).1 ≤ m
      ↔ finalPages ≤ m ∨ ∃ t ∈ transfers, boundary n s kvPages t ≤ m := by
  induction transfers generalizing finalPages hitCount with
  | nil =>
    rw [or_iff_left (fun h => not_mem_nil h.choose_spec.1)]
    exact Iff.rfl
  | cons t transfers ih =>
    rw [sidecarLoop]
    split_ifs with hzero
    · rw [hzero]; exact iff_of_true (Nat.zero_le m) (.inl (Nat.zero_le m))
    · simp only [ih, min_le_iff, exists_mem_cons_iff, or_assoc]

lemma sidecarLoop_le (transfers : List Transfer) (finalPages : Nat)
    (hitCount : OrderedDict String Nat) :
    (sidecarLoop n s kvPages transfers finalPages hitCount).1 ≤ finalPages :=
  (sidecarLoop_le_iff transfers finalPages hitCount).mpr (.inl (le_refl finalPages))

lemma sidecarLoop_eq (transfers : List Transfer) {finalPages : Nat} (hpos : 0 < finalPages)
    (hitCount : OrderedDict String Nat) :
    (sidecarLoop n s kvPages transfers finalPages hitCount).1 = finalPages
      ↔ ∀ t ∈ transfers, finalPages ≤ boundary n s kvPages t := by
  have hle : (sidecarLoop n s kvPages transfers finalPages hitCount).1 ≤ finalPages :=
    sidecarLoop_le transfers finalPages hitCount
  have hless : (sidecarLoop n s kvPages transfers finalPages hitCount).1 ≤ finalPages - 1 ↔ _ :=
    sidecarLoop_le_iff transfers finalPages hitCount
  rw [or_iff_right (by omega)] at hless
  constructor
  · intro heq t ht
    by_contra hb
    exact absurd (hless.mpr ⟨t, ht, by omega⟩) (by omega)
  · intro h
    by_contra hne
    obtain ⟨t, ht, hb⟩ := hless.mp (by omega)
    exact absurd (h t ht) (by omega)

lemma le_first_failing {pages : Nat} (hm : m ≤ pages) {fails : Nat → Bool} :
    m ≤ ((List.range pages).find? fails).getD pages ↔ ∀ i < m, fails i = false := by
  cases hfind : (range pages).find? fails with
  | none =>
    refine iff_of_true hm ?_
    intro i hi
    exact Bool.eq_false_iff.mpr
      (find?_eq_none.mp hfind i (mem_range.mpr (hi.trans_le hm)))
  | some first =>
    obtain ⟨hfails, -, hbefore⟩ := find?_range_eq_some.mp hfind
    constructor
    · intro hle i hi; exact Bool.not_eq_true' _ ▸ hbefore i (hi.trans_le hle)
    · intro h
      refine Nat.not_lt.mp ?_
      exact fun hlt => Bool.false_ne_true ((h first hlt).symm.trans hfails)

variable {t : Transfer}

lemma slice_found {i : Nat} :
    ((((dirGet n s (v2ComponentKeys n.layout t.name t.keys).1).map Option.isSome).drop
        (i * (v2ComponentKeys n.layout t.name t.keys).2)).take
          (v2ComponentKeys n.layout t.name t.keys).2).all id = true
      ↔ ∀ k, t.keys[i]? = some k → ∀ x ∈ suffixesOf n.layout (.v2 t.name),
          (locate n s (tagOf n.layout.space.keyTag ++ k ++ x)).isSome = true := by
  have hkeys := storageKeys_eq n.layout (.v2 t.name) t.keys
  rw [storageKeys] at hkeys
  simp only [dirGet, map_map, hkeys, map_flatMap]
  rw [slice_flatMap_elim (fun k => by rw [length_map])]
  cases t.keys[i]? with
  | none => exact iff_of_true rfl (by rintro _ ⟨⟩)
  | some k => simp only [Option.elim_some, all_map, all_eq_true, Option.some.injEq,
      forall_eq', Function.comp_apply, id_eq]

lemma le_boundary_allPages (hpolicy : t.hitPolicy = .allPages) (hm : m ≤ kvPages) :
    m ≤ boundary n s kvPages t
      ↔ ∀ x ∈ (v2ComponentKeys n.layout t.name (t.keys.take m)).1, (locate n s x).isSome = true := by
  have hkeys := storageKeys_eq n.layout (.v2 t.name) (t.keys.take m)
  rw [storageKeys] at hkeys
  rw [boundary, hpolicy]
  simp only [le_first_failing hm, Bool.not_eq_false', slice_found, hkeys, forall_mem_flatMap,
    forall_mem_map]
  constructor
  · intro h k hk x hx
    obtain ⟨i, hi⟩ := mem_iff_getElem?.mp hk
    rw [getElem?_take] at hi
    split_ifs at hi with hlt
    exact h i hlt k hi x hx
  · intro h i hi k hk
    refine h k (mem_iff_getElem?.mpr ⟨i, ?_⟩)
    rw [getElem?_take, if_pos hi, hk]

lemma batchExists_le (n : Node) (s : Place) (f : Keyspace) (keys : List String) :
    (batchExists n s f keys).1 ≤ keys.length := by
  rw [batchExists_fst]
  split_ifs with hlook
  · exact (takeWhile_sublist _).length_le
  · exact (takeWhile_sublist _).length_le

lemma batchExistsV2_eq_length {transfers : List Transfer} (hne : keys ≠ []) :
    (batchExistsV2 n s f keys transfers).1.1 = keys.length
      ↔ (batchExists n s f keys).1 = keys.length
        ∧ ∀ t ∈ transfers, keys.length ≤ boundary n s keys.length t := by
  have hpos : 0 < keys.length := length_pos_iff.mpr hne
  have hkv := batchExists_le n s f keys
  rw [batchExistsV2]
  constructor
  · intro h
    have hall : (batchExists n s f keys).1 = keys.length :=
      hkv.antisymm (h.symm.le.trans (sidecarLoop_le transfers _ _))
    simp only [hall] at h
    exact ⟨hall, (sidecarLoop_eq transfers hpos _).mp h⟩
  · rintro ⟨hall, hside⟩
    simp only [hall]
    exact (sidecarLoop_eq transfers hpos _).mpr hside

/-- **V2 SET, THEN V2 EXISTS**: after a set of the KV pool and of sidecar pools over the same keys
    that succeeded, with nothing evicted or overwritten since, all pages are usable exactly when
    the KV pages are looked up as components, or found as they are, and the sidecar pages are
    in the directory, which in peer-to-peer mode they are. -/
theorem v2_exists_iff (n : Node) (s : Place) (f : Keyspace) {keys : List String} {kv : String}
    (hkv : kv = n.layout.names.kv ∨ kv = "kv") {sidecars : List Transfer}
    (hall : ∀ t ∈ sidecars, t.hitPolicy = .allPages ∧ t.keys = keys)
    (hset : SetHeld n s (.v2 kv) keys) (hside : ∀ t ∈ sidecars, SetHeld n s (.v2 t.name) keys) :
    (batchExistsV2 n s f keys sidecars).1.1 = keys.length
      ↔ keys = [] ∨ ((f.rawKeys = false ∨ ∀ k ∈ keys, finds n s k = true)
        ∧ (s.slotmap = false
          ∨ ∀ t ∈ sidecars, ∀ x ∈ (v2ComponentKeys n.layout t.name keys).1,
            (locate n s x).isSome = true)) := by
  by_cases hnil : keys = []
  · subst hnil
    refine iff_of_true ?_ (Or.inl rfl)
    have hzero : (batchExists n s f []).1 = 0 := Nat.le_zero.mp (batchExists_le n s f [])
    exact Nat.le_zero.mp ((sidecarLoop_le sidecars _ _).trans hzero.le)
  · rw [batchExistsV2_eq_length hnil, or_iff_right hnil]
    have hcomponents : ∀ x ∈ (componentKeys n.layout.space keys).1, finds n s x = true := by
      have hfound := hset.finds
      rw [storageKeys, v2ComponentKeys, if_pos hkv] at hfound
      exact hfound
    have hpools : (∀ t ∈ sidecars, keys.length ≤ boundary n s keys.length t)
        ↔ ∀ t ∈ sidecars, ∀ x ∈ (v2ComponentKeys n.layout t.name keys).1,
          (locate n s x).isSome = true := by
      refine forall₂_congr (fun t ht => ?_)
      obtain ⟨hpolicy, rfl⟩ := hall t ht
      rw [le_boundary_allPages hpolicy le_rfl, take_length]
    rw [batchExists_written hcomponents, hpools]
    refine and_congr_right (fun _ => ⟨Or.inr, fun h => h.elim ?_ id⟩)
    -- in peer-to-peer mode what the set left is in the directory
    intro hmode t ht x hx
    have hfound := (hside t ht).finds x hx
    rw [PeerCacheKeys.finds, hmode] at hfound
    exact hfound

end

/-- The indexer pool, over these pages. -/
def indexer (keys : List String) : Transfer := ⟨"indexer", keys, .allPages⟩

/-- The directory after two KV pages and their indexer pages were published, in that order. -/
def afterBoth : Place :=
  let kv := (publishP2p "n" (fun _ => ["n"]) freshOwner [("x__k", [1]), ("y__k", [2])]).owner
  ⟨false, (publishP2p "n" (fun _ => ["n"]) kv [("x_0_indexer", [3]), ("y_0_indexer", [4])]).owner.dir,
    fun _ => none, fun _ => SlotRegion.zero⟩

/-- In peer-to-peer mode both pages are usable. -/
theorem v2_exists_iff_directory : SetHeld (loneNode "") afterBoth (.v2 "kv") ["x", "y"]
    ∧ SetHeld (loneNode "") afterBoth (.v2 "indexer") ["x", "y"]
    ∧ (batchExistsV2 (loneNode "") afterBoth Keyspace.start ["x", "y"]
        [indexer ["x", "y"]]).1.1 = 2 := by
  have hkv : SetHeld (loneNode "") afterBoth (.v2 "kv") ["x", "y"] :=
    .directory "n" freshOwner [("x__k", [1]), ("y__k", [2])] rfl (by decide +kernel)
      (by decide +kernel) (by decide +kernel) (by decide +kernel)
  have hside : SetHeld (loneNode "") afterBoth (.v2 "indexer") ["x", "y"] :=
    .directory "n"
      (publishP2p "n" (fun _ => ["n"]) freshOwner [("x__k", [1]), ("y__k", [2])]).owner
      [("x_0_indexer", [3]), ("y_0_indexer", [4])] rfl (by decide +kernel) (by decide +kernel)
      (by decide +kernel) (fun _ _ h => h)
  refine ⟨hkv, hside, ?_⟩
  refine (v2_exists_iff (loneNode "") afterBoth Keyspace.start (Or.inr rfl) ?_ hkv ?_).mpr
    (Or.inr ⟨Or.inl rfl, Or.inl rfl⟩)
  · exact forall_mem_singleton.mpr ⟨rfl, rfl⟩
  · exact forall_mem_singleton.mpr hside

/-- In slotmap mode both pages are in their slots, the KV probe finds its page, and no page is
    usable. -/
theorem sidecar_slot_not_found :
    ∃ s : Place, s.slotmap = true ∧ SetHeld (loneNode "") s (.v2 "kv") ["x"]
      ∧ SetHeld (loneNode "") s (.v2 "indexer") ["x"]
      ∧ (batchExists (loneNode "") s Keyspace.start ["x"]).1 = 1
      ∧ (batchExistsV2 (loneNode "") s Keyspace.start ["x"] [indexer ["x"]]).1.1 = 0 := by
  have hrun : ((publishSlotmap lengthHash twoWays (fun _ => some "n") (fun _ => SlotRegion.zero) "n"
        [("x__k", [1])] []).bind fun kv =>
      (publishSlotmap lengthHash twoWays (fun _ => some "n") kv.2 "n" [("x_0_indexer", [2])] []).map
        fun both =>
          (kv.1, both.1, [slotMatches lengthHash (headerAt twoWays (kv.2 "n").mem 0 0) "x__k" 1,
              slotMatches lengthHash (headerAt twoWays (both.2 "n").mem 0 0) "x__k" 1,
              slotMatches lengthHash (headerAt twoWays (both.2 "n").mem 0 1) "x_0_indexer" 1],
            (batchExists (loneNode "") ⟨true, fun _ => OrderedDict.empty, fun _ => none, both.2⟩
              Keyspace.start ["x"]).1,
            (batchExistsV2 (loneNode "") ⟨true, fun _ => OrderedDict.empty, fun _ => none, both.2⟩
              Keyspace.start ["x"] [indexer ["x"]]).1.1))
      = some ([true], [true], [true, true, true], 1, 0) := by decide +kernel
  obtain ⟨⟨kvOk, kv⟩, hkv, hrest⟩ := Option.bind_eq_some_iff.mp hrun
  obtain ⟨⟨sideOk, both⟩, hboth, hfacts⟩ := Option.map_eq_some_iff.mp hrest
  simp only [Prod.mk.injEq, cons.injEq, and_true] at hfacts
  obtain ⟨rfl, rfl, ⟨hkvSlot, hkvBoth, hsideSlot⟩, hone, hzero⟩ := hfacts
  have hfirst : ∀ {q : String × Bytes} {i : Nat} {p : String × Bytes},
      [q][i]? = some p → p = q := by
    intro q i p hp
    exact mem_singleton.mp (mem_of_getElem? hp)
  refine ⟨⟨true, fun _ => OrderedDict.empty, fun _ => none, both⟩, rfl, ?_, ?_, hone, hzero⟩
  · refine .slots "n" _ kv [("x__k", [1])] [] [true] rfl (by decide +kernel) hkv (by decide +kernel)
      ?_ ?_
    · rintro i q hq -
      rw [hfirst hq]
      exact ⟨"n", rfl, 0, by decide, hkvSlot⟩
    · exact forall_mem_singleton.mpr fun _ => ⟨"n", rfl, 0, by decide, hkvBoth⟩
  · refine .slots "n" kv both [("x_0_indexer", [2])] [] [true] rfl (by decide +kernel) hboth
      (by decide +kernel) ?_ (fun _ _ h => h)
    rintro i q hq -
    rw [hfirst hq]
    exact ⟨"n", rfl, 1, by decide, hsideSlot⟩

end PeerCacheKeys
