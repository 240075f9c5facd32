import PeerCache.PageOwnerProofs

/-! # Publishing a batch of pages

    `_publish_p2p` and the storage server's `_on_data_ingest` run the same loop: publish
    the pages that the directory does not know, reconcile the entries with the pool, put
    them.  The second step is there because a page published early in the batch may have
    been evicted by a later one. -/

namespace PeerCacheOwner

open PeerCachePool PeerCacheDirectory PeerCacheDisk OrderedDict Option Function

section

variable (me : String) (owners : Owners)

/-- What the loop does with a page. -/
inductive Admission where
  /-- malformed: reported `False` -/
  | refused
  /-- in the directory already: reported `True` -/
  | existing
  /-- to be published -/
  | fresh
deriving DecidableEq

/-- The publish loop: results, directory entries, the state. -/
structure Published where
  results : List Bool
  entries : Locations
  owner : PageOwner
  evicted : List String

/-- The page that was just stored goes to disk, and its length is noted. -/
def noteStored (s : PageOwner) (key : String) (data : Bytes) : PageOwner :=
  (s.diskPut key data).setLen key data.length

def publishLoop : List ((String × Bytes) × Admission) → PageOwner →
    Locations → Published
  | [], s, entries => ⟨[], entries, s, []⟩
  | (_, .refused) :: pages, s, entries =>
      let r := publishLoop pages s entries
      { r with results := false :: r.results }
  | (_, .existing) :: pages, s, entries =>
      let r := publishLoop pages s entries
      { r with results := true :: r.results }
  | ((key, data), .fresh) :: pages, s, entries =>
      let st := publishPage me owners s key data
      match st.addr with
      | none =>
          let r := publishLoop pages st.owner entries
          { r with results := false :: r.results, evicted := st.evicted ++ r.evicted }
      | some addr =>
          let s := noteStored st.owner key data
          let r := publishLoop pages s
            (entries.set key (residentLocation me s.pool addr data.length))
          { r with results := true :: r.results, evicted := st.evicted ++ r.evicted }

/-- A page published earlier in the batch may have been evicted by a later one: the entry
    becomes non-resident. -/
def reconcileOne (s : PageOwner) (entries : Locations) (key : String)
    (old : DataLocation) : Locations :=
  match (addressOf s.pool key).1 with
  | none => entries.set key (nonResident me ((s.keyLen.get? key).getD old.length))
  | some (addr, _) => entries.set key { old with remoteAddr := addr }

def reconcile : List String → PageOwner → Locations →
    Locations × PageOwner
  | [], s, entries => (entries, s)
  | key :: keys, s, entries =>
      let entries' := match entries.get? key with
        | none => entries
        | some old => reconcileOne me s entries key old
      reconcile keys (s.setPool (addressOf s.pool key).2) entries'

/-- Publish, reconcile, put: the body shared by `_publish_p2p` and `_on_data_ingest`. -/
def publishPages (s : PageOwner) (pages : List ((String × Bytes) × Admission)) : Published :=
  let r := publishLoop me owners pages s OrderedDict.empty
  let (entries, s) := reconcile me r.entries.keys r.owner r.entries
  { r with entries := entries, owner := s.setDir (put owners s.dir entries) }

end

section

variable {me : String} {owners : Owners} {content : String → Bytes}
  {safeName : String → String} {keysUsed : Set String}

variable {s : PageOwner} {k : String}

lemma publishLoop_lens (me : String) (owners : Owners)
    (pages : List ((String × Bytes) × Admission)) (hk : k ∈ s.keyLen.keys)
    (entries : Locations) :
    k ∈ (publishLoop me owners pages s entries).owner.keyLen.keys := by
  fun_induction publishLoop me owners pages s entries with
  | case1 => exact hk
  | case2 _ _ _ _ _ ih | case3 _ _ _ _ _ ih => exact ih hk
  | case4 key data _ s _ st _ _ ih =>
    exact ih ((onPoolEvict_keyLen _ _ : st.owner.keyLen = s.keyLen) ▸ hk)
  | case5 key data _ s _ st _ _ _ _ ih =>
    exact ih (mem_keys_set.mpr (.inr ((onPoolEvict_keyLen _ _ : st.owner.keyLen = s.keyLen) ▸ hk)))

variable {loc : DataLocation}

/-- **THE ENTRIES OF THE LOOP** are resident ones of fresh pages, of known length. -/
lemma publishLoop_entries (me : String) (owners : Owners)
    (pages : List ((String × Bytes) × Admission)) (s : PageOwner)
    (entries : Locations)
    (h : (publishLoop me owners pages s entries).entries.get? k = some loc) :
    entries.get? k = some loc ∨ (loc.nodeId = me ∧ loc.resident = true
        ∧ k ∈ (publishLoop me owners pages s entries).owner.keyLen.keys
        ∧ ∃ q ∈ pages, q.2 = .fresh ∧ q.1.1 = k ∧ loc.length = q.1.2.length) := by
  have hlater : ∀ {q : (String × Bytes) × Admission} {pages} {P Q R : Prop}, P ∧ Q ∧ R
      ∧ (∃ q ∈ pages, q.2 = .fresh ∧ q.1.1 = k ∧ loc.length = q.1.2.length) → P ∧ Q ∧ R
        ∧ ∃ r ∈ q :: pages, r.2 = .fresh ∧ r.1.1 = k ∧ loc.length = r.1.2.length :=
    fun ⟨h1, h2, h3, q, hq, h4⟩ => ⟨h1, h2, h3, q, .tail _ hq, h4⟩
  fun_induction publishLoop me owners pages s entries with
  | case1 => exact .inl h
  | case2 _ _ _ _ _ ih | case3 _ _ _ _ _ ih | case4 _ _ _ _ _ _ _ _ ih =>
    exact (ih h).imp_right hlater
  | case5 key data pages s entries st addr _ _ _ ih =>
    rcases ih h with hk | hk
    · rw [get?_set] at hk
      split_ifs at hk with hkk
      · cases hk
        subst hkk
        refine .inr ⟨rfl, rfl, publishLoop_lens me owners pages ?_ _, _, (.head _), rfl, rfl, rfl⟩
        exact mem_keys_set.mpr (.inl rfl)
      · exact .inl hk
    · exact .inr (hlater hk)

/-- **THE PUBLISH LOOP** is an effect. -/
lemma ownerEffect_publishLoop (pages : List ((String × Bytes) × Admission))
    (hpages : ∀ q ∈ pages, q.1.2 = content q.1.1) (hi : Inv s.pool)
    (entries : Locations) :
    OwnerEffect owners content s (publishLoop me owners pages s entries).owner
      (publishLoop me owners pages s entries).evicted [] := by
  fun_induction publishLoop me owners pages s entries with
  | case1 => exact OwnerEffect.refl hi
  | case2 _ _ _ _ _ ih | case3 _ _ _ _ _ ih => exact ih (List.forall_mem_cons.mp hpages).2 hi
  | case4 key data pages s entries st _ _ ih =>
    obtain ⟨hdata, htail⟩ := List.forall_mem_cons.mp hpages
    obtain rfl : data = content key := hdata
    have hpub : OwnerEffect owners content s st.owner st.evicted [] := ownerEffect_publishPage hi key
    exact hpub.trans (ih htail hpub.pool.inv)
  | case5 key data pages s entries st addr _ _ _ ih =>
    obtain ⟨hdata, htail⟩ := List.forall_mem_cons.mp hpages
    obtain rfl : data = content key := hdata
    have hpub : OwnerEffect owners content s st.owner st.evicted [] := ownerEffect_publishPage hi key
    have hnote : OwnerEffect owners content s (noteStored st.owner key (content key)) st.evicted [] :=
      hpub.note rfl rfl (fun _ hk => mem_keys_set.mpr (.inr hk))
    exact hnote.trans (ih htail hnote.pool.inv)

lemma diskSound_publishLoop (pages : List ((String × Bytes) × Admission))
    (hpages : ∀ q ∈ pages, q.1.1 ∈ keysUsed ∧ q.1.2 = content q.1.1)
    (hd : DiskSound safeName content keysUsed s) (entries : Locations) :
    DiskSound safeName content keysUsed (publishLoop me owners pages s entries).owner := by
  fun_induction publishLoop me owners pages s entries with
  | case1 => exact hd
  | case2 _ _ _ _ _ ih | case3 _ _ _ _ _ ih => exact ih (List.forall_mem_cons.mp hpages).2 hd
  | case4 key data pages s entries st _ _ ih =>
    exact ih (List.forall_mem_cons.mp hpages).2 (hd.congr (store_disk _ _))
  | case5 key data pages s entries st addr _ _ _ ih =>
    obtain ⟨⟨hkey, hdata⟩, htail⟩ := List.forall_mem_cons.mp hpages
    obtain rfl : data = content key := hdata
    have hpub : DiskSound safeName content keysUsed st.owner := hd.congr (store_disk _ _)
    exact ih htail ((diskSound_diskPut hpub hkey).congr rfl)

lemma publishLoop_refused (me : String) (owners : Owners)
    (pages : List ((String × Bytes) × Admission)) (s : PageOwner)
    (entries : Locations) :
    ∀ q ∈ pages.zip (publishLoop me owners pages s entries).results, q.1.2 = .refused → q.2 = false := by
  fun_induction publishLoop me owners pages s entries with
  | case1 => exact List.forall_mem_nil _
  | case2 _ _ _ _ _ ih | case4 _ _ _ _ _ _ _ _ ih =>
    exact List.forall_mem_cons.mpr ⟨fun _ => rfl, ih⟩
  | case3 _ _ _ _ _ ih | case5 _ _ _ _ _ _ _ _ _ _ ih => exact List.forall_mem_cons.mpr ⟨nofun, ih⟩

lemma publishLoop_mono (pages : List ((String × Bytes) × Admission)) (s : PageOwner)
    {entries : Locations} (hk : k ∈ entries.keys) :
    k ∈ (publishLoop me owners pages s entries).entries.keys := by
  fun_induction publishLoop me owners pages s entries with
  | case1 => exact hk
  | case2 _ _ _ _ _ ih | case3 _ _ _ _ _ ih | case4 _ _ _ _ _ _ _ _ ih => exact ih hk
  | case5 _ _ _ _ _ _ _ _ _ _ ih => exact ih (mem_keys_set.mpr (.inr hk))

lemma publishLoop_true (pages : List ((String × Bytes) × Admission)) (s : PageOwner)
    (entries : Locations) :
    ∀ q ∈ pages.zip (publishLoop me owners pages s entries).results, q.2 = true →
      q.1.2 = .existing ∨ q.1.1.1 ∈ (publishLoop me owners pages s entries).entries.keys := by
  fun_induction publishLoop me owners pages s entries with
  | case1 => exact List.forall_mem_nil _
  | case2 _ _ _ _ _ ih | case4 _ _ _ _ _ _ _ _ ih => exact List.forall_mem_cons.mpr ⟨nofun, ih⟩
  | case3 _ _ _ _ _ ih => exact List.forall_mem_cons.mpr ⟨fun _ => .inl rfl, ih⟩
  | case5 _ _ pages _ _ _ _ _ _ _ ih =>
    refine List.forall_mem_cons.mpr ⟨fun _ => Or.inr ?_, ih⟩
    exact publishLoop_mono pages _ (mem_keys_set.mpr (.inl rfl))

lemma publishLoop_length (pages : List ((String × Bytes) × Admission)) (s : PageOwner)
    (entries : Locations) :
    (publishLoop me owners pages s entries).results.length = pages.length := by
  fun_induction publishLoop me owners pages s entries with
  | case1 => rfl
  | case2 _ _ _ _ _ ih | case3 _ _ _ _ _ ih | case4 _ _ _ _ _ _ _ _ ih
  | case5 _ _ _ _ _ _ _ _ _ _ ih => exact congrArg (· + 1) ih

/-! ## Reconciling -/

/-- What becomes of an entry when the pool is looked at. -/
def settle (me : String) (s : PageOwner) (k : String) (old : DataLocation) : DataLocation :=
  match s.pool.entries.get? k with
  | none => nonResident me ((s.keyLen.get? k).getD old.length)
  | some x => { old with remoteAddr := s.pool.base + x.1 }

lemma settle_settle (s : PageOwner) (k : String) (old : DataLocation) :
    settle me s k (settle me s k old) = settle me s k old := by
  rw [settle, settle]
  cases s.pool.entries.get? k with
  | none =>
    cases s.keyLen.get? k with
    | none => rfl
    | some length => rfl
  | some x => rfl

lemma settle_touch (s : PageOwner) (key k : String) (old : DataLocation) :
    settle me (s.setPool (addressOf s.pool key).2) k old = settle me s k old := by
  rw [settle, settle]
  rw [show (s.setPool (addressOf s.pool key).2).pool.entries.get? k = s.pool.entries.get? k from
      addressOf_get? s.pool key k,
    show (s.setPool (addressOf s.pool key).2).pool.base = s.pool.base from
      (addressOf_region s.pool key).base]
  rfl

lemma reconcileOne_get? (s : PageOwner) (entries : Locations)
    (key k : String) (old : DataLocation) :
    (reconcileOne me s entries key old).get? k
      = if k = key then some (settle me s key old) else entries.get? k := by
  rw [reconcileOne, settle, addressOf_fst]
  cases hx : s.pool.entries.get? key with
  | none | some x => exact get?_set entries key k _

/-- **RECONCILE** settles the entries of the keys it is given. -/
lemma reconcile_get? (me : String) (keys : List String) (s : PageOwner)
    (entries : Locations) (k : String) :
    (reconcile me keys s entries).1.get? k
      = if k ∈ keys then (entries.get? k).map (settle me s k) else entries.get? k := by
  induction keys generalizing s entries with
  | nil => rfl
  | cons key keys ih =>
    rw [reconcile, ih]
    have hone : (match entries.get? key with
        | none => entries
        | some old => reconcileOne me s entries key old).get? k
        = if k = key then (entries.get? k).map (settle me s k) else entries.get? k := by
      cases he : entries.get? key with
      | none =>
        by_cases hkk : k = key
        · rw [if_pos hkk, hkk, he]; rfl
        · rw [if_neg hkk]
      | some old =>
        simp only [reconcileOne_get?]
        by_cases hkk : k = key
        · rw [if_pos hkk, if_pos hkk, hkk, he]; rfl
        · rw [if_neg hkk, if_neg hkk]
    rw [hone]
    by_cases hkk : k = key
    · -- a key listed twice is settled twice
      subst hkk
      have hself : k ∈ k :: keys := (.head _)
      rw [if_pos rfl, if_pos hself]
      by_cases hk : k ∈ keys
      · rw [if_pos hk, map_map]
        refine map_congr ?_
        intro old _
        exact (settle_touch s k k _).trans (settle_settle s k old)
      · rw [if_neg hk]
    · rw [if_neg hkk]
      have hmem : k ∈ key :: keys ↔ k ∈ keys := by simp [hkk]
      simp only [hmem]
      by_cases hk : k ∈ keys
      · rw [if_pos hk, if_pos hk]
        exact map_congr (fun old _ => settle_touch s key k old)
      · rw [if_neg hk, if_neg hk]

lemma reconcile_dir (me : String) (keys : List String) (s : PageOwner)
    (entries : Locations) : (reconcile me keys s entries).2.dir = s.dir := by
  induction keys generalizing s entries with
  | nil => rfl
  | cons key keys ih => exact ih _ _

lemma ownerEffect_reconcile (me : String) (owners : Owners)
    (content : String → Bytes) (keys : List String) (hi : Inv s.pool)
    (entries : Locations) :
    OwnerEffect owners content s (reconcile me keys s entries).2 [] []
      ∧ (reconcile me keys s entries).2.disk = s.disk := by
  induction keys generalizing s entries with
  | nil => exact ⟨OwnerEffect.refl hi, rfl⟩
  | cons key keys ih =>
    have htouch : OwnerEffect owners content s (s.setPool (addressOf s.pool key).2) [] [] :=
      ownerEffect_addressOf hi key
    obtain ⟨heff, hdisk⟩ := ih htouch.pool.inv (match entries.get? key with
      | none => entries
      | some old => reconcileOne me s entries key old)
    exact ⟨htouch.trans heff, hdisk⟩

variable (me owners) in
/-- The loop over two parts of a batch, one after the other. -/
lemma publishLoop_append (as bs : List ((String × Bytes) × Admission)) (s : PageOwner)
    (entries : Locations) :
    ∃ mid, (publishLoop me owners (as ++ bs) s entries).owner
      = (publishLoop me owners bs (publishLoop me owners as s entries).owner mid).owner := by
  fun_induction publishLoop me owners as s entries with
  | case1 => exact ⟨_, rfl⟩
  | case2 _ _ _ _ _ ih | case3 _ _ _ _ _ ih => exact ih
  | case4 _ _ _ _ _ _ hst _ ih | case5 _ _ _ _ _ _ _ hst _ _ ih =>
    obtain ⟨mid, hmid⟩ := ih
    refine ⟨mid, ?_⟩
    rw [List.cons_append, publishLoop, hst]
    exact hmid

/-- **A PAGE THAT LEAVES THE POOL** while a batch is published: what there is of it in the end was
    copied afterwards. -/
lemma publishPages_holds {as bs : List ((String × Bytes) × Admission)}
    (hpages : ∀ q ∈ as ++ bs, q.1.2 = content q.1.1) (hi : Inv s.pool)
    (hout : k ∉ (publishLoop me owners as s OrderedDict.empty).owner.pool.entries.keys) :
    HoldsFor content (publishPages me owners s (as ++ bs)).owner.pool k := by
  obtain ⟨has, hbs⟩ := List.forall_mem_append.mp hpages
  obtain ⟨mid, hmid⟩ := publishLoop_append me owners as bs s empty
  have hfirst : OwnerEffect owners content s
      (publishLoop me owners as s empty).owner _ [] := ownerEffect_publishLoop as has hi _
  have hrest : OwnerEffect owners content (publishLoop me owners as s empty).owner
      (publishLoop me owners (as ++ bs) s empty).owner _ [] :=
    hmid ▸ ownerEffect_publishLoop bs hbs hfirst.pool.inv mid
  have hrec := (ownerEffect_reconcile me owners content
    (publishLoop me owners (as ++ bs) s empty).entries.keys hrest.pool.inv
    (publishLoop me owners (as ++ bs) s empty).entries).1
  exact (hrest.trans hrec).pool.holds k (.inr List.not_mem_nil) (holdsFor_of_not_mem hout)

lemma reconcile_entries {me : String} {entries : Locations}
    (h : (reconcile me entries.keys s entries).1.get? k = some loc) :
    ∃ old, entries.get? k = some old ∧ loc = settle me s k old := by
  rw [reconcile_get?] at h
  split_ifs at h with hk
  · obtain ⟨old, hold, rfl⟩ := map_eq_some_iff.mp h
    exact ⟨old, hold, rfl⟩
  · exact absurd (mem_keys.mpr ⟨loc, h⟩) hk

/-- The entries of a batch are of its pages, and a resident one names the pool's entry. -/
structure BatchEntries (me : String) (content : String → Bytes) (keys : List String)
    (t : PageOwner) (entries : Locations) : Prop where
  batch : ∀ k loc, entries.get? k = some loc → k ∈ keys ∧ k ∈ t.keyLen.keys ∧ loc.nodeId = me
  address : ∀ k loc, entries.get? k = some loc → loc.resident = true →
    ∃ x, t.pool.entries.get? k = some x ∧ loc.remoteAddr = t.pool.base + x.1
      ∧ loc.length = (content k).length

/-- **A BATCH PUBLISHED** is an effect followed by one put of entries. -/
lemma publishPages_spec (me : String) (owners : Owners)
    (pages : List ((String × Bytes) × Admission)) (hpages : ∀ q ∈ pages, q.1.2 = content q.1.1)
    (hi : Inv s.pool) :
    ∃ t entries, (publishPages me owners s pages).owner = t.setDir (put owners t.dir entries)
      ∧ OwnerEffect owners content s t (publishPages me owners s pages).evicted []
      ∧ t.disk = (publishLoop me owners pages s OrderedDict.empty).owner.disk
      ∧ BatchEntries me content (pages.map (fun q => q.1.1)) t entries := by
  have hpub : OwnerEffect owners content s (publishLoop me owners pages s empty).owner
      (publishLoop me owners pages s empty).evicted [] :=
    ownerEffect_publishLoop pages hpages hi empty
  have hent : ∀ k loc, (publishLoop me owners pages s empty).entries.get? k = some loc → _ :=
    fun _ _ h => publishLoop_entries me owners pages s empty h
  generalize hr : publishLoop me owners pages s empty = r at hpub hent
  obtain ⟨hrec, hdisk⟩ := ownerEffect_reconcile me owners content r.entries.keys hpub.pool.inv r.entries
  have hpage : ∀ k old, r.entries.get? k = some old → old.nodeId = me
      ∧ old.length = (content k).length ∧ k ∈ r.owner.keyLen.keys ∧ k ∈ pages.map (fun q => q.1.1) := by
    intro k old hold
    obtain ⟨hme, -, hlen, q, hq, -, rfl, hlength⟩ := (hent k old hold).resolve_left nofun
    rw [hpages q hq] at hlength
    exact ⟨hme, hlength, hlen, List.mem_map_of_mem hq⟩
  refine ⟨(reconcile me r.entries.keys r.owner r.entries).2,
    (reconcile me r.entries.keys r.owner r.entries).1, ?_, ?_, hdisk, ?_, ?_⟩
  · rw [publishPages, hr]
  · have htrans := hpub.trans hrec
    rw [List.append_nil] at htrans
    rw [publishPages, hr]
    exact htrans
  · intro k loc hk
    obtain ⟨old, hold, rfl⟩ := reconcile_entries hk
    obtain ⟨hme, -, hlen, hmem⟩ := hpage k old hold
    refine ⟨hmem, hrec.lens k hlen, ?_⟩
    rw [settle]
    cases r.owner.pool.entries.get? k with
    | none => rfl
    | some x => exact hme
  · intro k loc hk hres
    obtain ⟨old, hold, rfl⟩ := reconcile_entries hk
    obtain ⟨-, hlength, -, -⟩ := hpage k old hold
    rw [settle] at hres ⊢
    cases hx : r.owner.pool.entries.get? k with
    | none => rw [hx] at hres; cases hres
    | some x =>
      refine ⟨x, hrec.pool.keeps k x hx List.not_mem_nil, ?_, hlength⟩
      exact congrArg (· + x.1) hrec.pool.region.base.symm

end

end PeerCacheOwner
