import PeerCache.OwnerStepsProofs

/-! # `_ensure_resident`, seen from the pool

    A request promotes its pages one after the other and puts the entries of the promoted ones
    at its end.  A later page may evict an earlier one again, so what is put is current only for
    the pages that are still there (`promotedOk_ensureLoop`).  What the request misses is not in
    the pool when it ends (`ensureLoop_misses`), and what it brings in it promotes
    (`ensureLoop_brings`). -/

namespace PeerCacheOwner

open PeerCachePool PeerCacheDirectory PeerCacheDisk PeerCacheStorage OrderedDict

section

variable {me : String} {owners : Owners} {promotes : String → Prop} {s t : PageOwner}

/-! ## What a promote leaves -/

lemma publishPage_current {key : String} {data : Bytes} {addr : Nat}
    (hout : key ∉ s.pool.entries.keys) (haddr : (publishPage me owners s key data).addr = some addr) :
    Current (publishPage me owners s key data).owner.pool key
      (residentLocation me (publishPage me owners s key data).owner.pool addr data.length) := by
  rw [publishPage_pool]
  obtain ⟨x, hx, hax, hold | ⟨-, hlen⟩⟩ := place_addr haddr
  · exact absurd (mem_keys.mpr ⟨x, hold⟩) hout
  · refine ⟨x, hx, ?_, hlen.symm⟩
    exact hax.trans (congrArg (· + x.1) (place_region s.pool key _ _).base.symm)

variable {k : String}

/-- **ONE KEY OF `_ensure_resident`**, seen from the pool: an entry found afterwards was there
    before, or is of the page just promoted, at the location returned. -/
lemma ensureOne_entry {j : String} {x : Tiling.Extent}
    (hx : (ensureOne me owners s k).owner.pool.entries.get? j = some x) :
    s.pool.entries.get? j = some x ∨ (j = k ∧ (ensureOne me owners s k).promoted = true ∧ ∃ loc,
        (ensureOne me owners s k).loc = some loc
          ∧ loc.remoteAddr = (ensureOne me owners s k).owner.pool.base + x.1 ∧ loc.length = x.2) := by
  rcases ensureOne_split me owners s k with
    ⟨y, -, heq⟩ | ⟨hout, ⟨-, heq⟩ | ⟨data, r, hdata, rfl, ⟨hnone, heq⟩ | ⟨addr, haddr, heq⟩⟩⟩
  · rw [heq] at hx; exact .inl ((addressOf_get? s.pool k j).symm.trans hx)
  · rw [heq] at hx
    exact .inl ((congrArg (fun p => p.entries.get? j) (diskGet_pool s k)).symm.trans hx)
  · rw [heq] at hx
    rw [publishPage_pool, diskGet_pool] at hx
    rcases place_get?_from hx with hold | ⟨rfl, -⟩
    · exact .inl hold
    · refine absurd (mem_keys.mpr ⟨x, hx⟩) (place_addr_none ?_)
      rw [← diskGet_pool s j]
      exact hnone
  · rw [heq] at hx ⊢
    by_cases hjk : j = k
    · subst hjk
      have hout' : j ∉ (s.diskGet j).2.pool.entries.keys := by rw [diskGet_pool]; exact hout
      obtain ⟨y, hy, hloc, hlen⟩ := publishPage_current hout' haddr
      obtain rfl := Option.some.inj (hy.symm.trans hx)
      exact .inr ⟨rfl, rfl, _, rfl, hloc, hlen⟩
    · have hx' : (publish (s.diskGet k).2.pool k data).pool.entries.get? j = some x := by
        rw [← publishPage_pool]; exact hx
      rcases place_get?_from hx' with hold | ⟨rfl, -⟩
      · exact .inl ((congrArg (fun p => p.entries.get? j) (diskGet_pool s k)).symm.trans hold)
      · exact absurd rfl hjk

lemma ensureOne_loc {loc : DataLocation} (hloc : (ensureOne me owners s k).loc = some loc) :
    loc.nodeId = me ∧ loc.resident = true
      ∧ ((ensureOne me owners s k).promoted = true → k ∈ (ensureOne me owners s k).owner.keyLen.keys)
      ∧ k ∈ (ensureOne me owners s k).owner.pool.entries.keys := by
  rcases ensureOne_split me owners s k with
    ⟨y, hy, heq⟩ | ⟨hout, ⟨-, heq⟩ | ⟨data, r, hdata, rfl, ⟨hnone, heq⟩ | ⟨addr, haddr, heq⟩⟩⟩
  · rw [heq] at hloc ⊢
    cases hloc
    refine ⟨rfl, rfl, nofun, mem_keys.mpr ⟨y, ?_⟩⟩
    exact (addressOf_get? s.pool k k).trans hy
  · rw [heq] at hloc; cases hloc
  · rw [heq] at hloc; cases hloc
  · rw [heq] at hloc ⊢
    cases hloc
    have hout' : k ∉ (s.diskGet k).2.pool.entries.keys := by rw [diskGet_pool]; exact hout
    obtain ⟨x, hx, -⟩ := publishPage_current hout' haddr
    exact ⟨rfl, rfl, fun _ => mem_keys_set.mpr (.inl rfl),
      mem_keys.mpr ⟨x, hx⟩⟩

/-- What the promotes so far have to say about the pool: a promoted page that is still there is at
    its location. -/
def PromotedOk (me : String) (s : PageOwner) (promoted : Locations) : Prop :=
  ∀ k loc, promoted.get? k = some loc → loc.nodeId = me ∧ loc.resident = true ∧ k ∈ s.keyLen.keys
    ∧ ∀ x, s.pool.entries.get? k = some x → loc.remoteAddr = s.pool.base + x.1 ∧ loc.length = x.2

lemma ensureOne_base (k : String) : (ensureOne me owners s k).owner.pool.base = s.pool.base := by
  have h : OwnerSteps me owners (fun _ _ => False) (fun _ => True) s (ensureOne me owners s k).owner :=
    ensureOne_steps s trivial
  refine OwnerSteps.keeps (P := fun t => t.pool.base = s.pool.base) ?_ h rfl
  exact fun a b hab ha => (region_ownerStep hab).base.trans ha

variable {promoted : Locations}

lemma promotedOk_ensureOne (h : PromotedOk me s promoted) (k : String) :
    PromotedOk me (ensureOne me owners s k).owner
      (addPromoted promoted k (ensureOne me owners s k)) := by
  have hlens : ∀ j ∈ s.keyLen.keys, j ∈ (ensureOne me owners s k).owner.keyLen.keys := by
    intro j hj
    have hsteps : OwnerSteps me owners (fun _ _ => False) (fun _ => True) s
        (ensureOne me owners s k).owner := ensureOne_steps s trivial
    exact OwnerSteps.keeps (P := fun t => j ∈ t.keyLen.keys) (fun _ _ hab => lens_ownerStep hab) hsteps hj
  intro j loc hj
  by_cases hjk : j = k ∧ (ensureOne me owners s k).promoted = true
  · -- the page just promoted
    obtain ⟨rfl, hp⟩ := hjk
    have hloc : (ensureOne me owners s j).loc = some loc := by
      rw [addPromoted] at hj
      cases hl : (ensureOne me owners s j).loc with
      | none =>
        rcases ensureOne_split me owners s j with
          ⟨y, -, heq⟩ | ⟨-, ⟨-, heq⟩ | ⟨data, r, -, rfl, ⟨-, heq⟩ | ⟨addr, -, heq⟩⟩⟩
        · rw [heq] at hp; cases hp
        · rw [heq] at hp; cases hp
        · rw [heq] at hp; cases hp
        · rw [heq] at hl; cases hl
      | some new =>
        simp only [hl, hp, if_true, get?_set] at hj
        exact hj
    obtain ⟨hme, hres, hlen, -⟩ := ensureOne_loc hloc
    refine ⟨hme, hres, hlen hp, ?_⟩
    intro x hx
    rcases ensureOne_entry hx with hold | ⟨-, -, loc', hloc', haddr, hlength⟩
    · -- it was not in the pool before
      rcases ensureOne_split me owners s j with
        ⟨y, -, heq⟩ | ⟨hout, -⟩
      · rw [heq] at hp; cases hp
      · exact absurd (mem_keys.mpr ⟨x, hold⟩) hout
    · obtain rfl := Option.some.inj (hloc.symm.trans hloc')
      exact ⟨haddr, hlength⟩
  · have hold : promoted.get? j = some loc := by
      rcases addPromoted_get? hj with hold | ⟨rfl, hp, -⟩
      · exact hold
      · exact absurd ⟨rfl, hp⟩ hjk
    obtain ⟨hme, hres, hlen, hcur⟩ := h j loc hold
    refine ⟨hme, hres, hlens j hlen, ?_⟩
    intro x hx
    rcases ensureOne_entry hx with hx' | ⟨rfl, hp, -⟩
    · rw [ensureOne_base]; exact hcur x hx'
    · exact absurd ⟨rfl, hp⟩ hjk

/-- **THE PROMOTED ENTRIES** of `_ensure_resident` that are still in the pool at its end are
    current. -/
lemma promotedOk_ensureLoop (keys : List String) (h : PromotedOk me s promoted) :
    PromotedOk me (ensureLoop me owners keys s promoted).owner
      (ensureLoop me owners keys s promoted).promoted := by
  induction keys generalizing s promoted with
  | nil => exact h
  | cons k keys ih => exact ih (promotedOk_ensureOne h k)

/-! ## What a promote misses -/

/-- The page is not in the pool, and cannot come back from disk. -/
def Out (s : PageOwner) (k : String) : Prop :=
  k ∉ s.pool.entries.keys ∧ ∀ data, (s.diskGet k).1 = some data → NoSlot data.length s.pool

/-- **A MISS STAYS A MISS** for as long as nothing is published. -/
lemma out_ownerStep (h : OwnerStep me owners (fun _ _ => False) promotes s t) (hk : Out s k) :
    Out t k := by
  have hplace : ∀ j data, (s.diskGet j).1 = some data →
      Out (publishPage me owners s j data).owner k := by
    intro j data hdata
    refine ⟨?_, ?_⟩
    · rw [publishPage_pool]
      intro hmem
      by_cases hjk : k = j
      · subst hjk
        exact place_addr_none (place_of_noSlot (hk.2 data hdata) hk.1 _) hmem
      · obtain ⟨x, hx⟩ := mem_keys.mp hmem
        rcases place_get?_from hx with hold | ⟨rfl, -⟩
        · exact hk.1 (mem_keys.mpr ⟨x, hold⟩)
        · exact hjk rfl
    · intro data' hdata'
      rw [publishPage_pool]
      refine noSlot_place (hk.2 data' ?_) j _ _
      rw [diskGet_fst, publishPage_disk, ← diskGet_fst] at hdata'
      exact hdata'
  cases h with
  | touch j =>
    refine ⟨?_, ?_⟩
    · intro hmem
      obtain ⟨x, hx⟩ := mem_keys.mp hmem
      exact hk.1 (mem_keys.mpr ⟨x, (addressOf_get? s.pool j k).symm.trans hx⟩)
    · intro data hdata
      rw [diskGet_fst] at hdata
      have hslot := hk.2 data ((diskGet_fst s k).trans hdata)
      show NoSlot data.length (addressOf s.pool j).2
      rw [NoSlot, (addressOf_region s.pool j).capacity, addressOf_nextOffset]
      refine hslot.imp_right (fun hboth => ⟨?_, hboth.2⟩)
      exact fun e he => hboth.1 e ((addressOf_extents s.pool j).mem_iff.mp he)
  | read j =>
    refine ⟨by rw [diskGet_pool]; exact hk.1, ?_⟩
    intro data hdata
    rw [diskGet_again s _ k j rfl] at hdata
    rw [diskGet_pool]
    exact hk.2 data hdata
  | store j data hst => exact hst.elim
  | note j data hst => exact hst.elim
  | restore j data _ hdata => exact hplace j data hdata
  | noteLength j data _ _ =>
    refine ⟨hk.1, ?_⟩
    intro data' hdata
    rw [diskGet_fst] at hdata
    exact hk.2 data' ((diskGet_fst s k).trans hdata)

lemma out_ensureOne (h : (ensureOne me owners s k).loc = none) :
    Out (ensureOne me owners s k).owner k := by
  rcases ensureOne_split me owners s k with
    ⟨y, -, heq⟩ | ⟨hout, ⟨hnone, heq⟩ | ⟨data, r, hdata, rfl, ⟨hnone, heq⟩ | ⟨addr, -, heq⟩⟩⟩
  · rw [heq] at h; cases h
  · rw [heq]
    refine ⟨by rw [diskGet_pool]; exact hout, ?_⟩
    intro data hdata
    rw [diskGet_again s _ k k rfl, hnone] at hdata
    cases hdata
  · rw [heq]
    have hnone' : (publish s.pool k data).addr = none := by
      rw [← diskGet_pool s k]; exact hnone
    refine ⟨?_, ?_⟩
    · rw [publishPage_pool, diskGet_pool]; exact place_addr_none hnone'
    · intro data' hdata'
      rw [diskGet_again s _ k k (publishPage_disk _ k data), hdata] at hdata'
      cases hdata'
      rw [publishPage_pool, diskGet_pool]
      rcases place_cases s.pool k data.length (fun off m => m.write off data) with
        ⟨e, he, -⟩ | ⟨-, hoff, -⟩ | ⟨-, off, -, heq'⟩
      · exact absurd (mem_keys.mpr ⟨e, he⟩) hout
      · exact noSlot_place (noSlot_of_allocate hoff) k _ _
      · rw [publish, heq'] at hnone'; cases hnone'
  · rw [heq] at h; cases h

/-- **WHAT A REQUEST MISSES** is not in the pool at its end. -/
lemma ensureLoop_misses (keys : List String) (s : PageOwner)
    (promoted : Locations) :
    ∀ q ∈ keys.zip (ensureLoop me owners keys s promoted).locs, q.2 = none →
      q.1 ∉ (ensureLoop me owners keys s promoted).owner.pool.entries.keys := by
  induction keys generalizing s promoted with
  | nil => exact List.forall_mem_nil _
  | cons k keys ih =>
    refine List.forall_mem_cons.mpr ⟨?_, ih _ _⟩
    intro hloc
    have hsteps : OwnerSteps me owners (fun _ _ => False) (fun _ => True) (ensureOne me owners s k).owner
        (ensureLoop me owners keys (ensureOne me owners s k).owner
          (addPromoted promoted k (ensureOne me owners s k))).owner :=
      ensureLoop_steps keys (fun _ _ => trivial) _ _
    exact (OwnerSteps.keeps (P := fun u => Out u k) (fun _ _ hab => out_ownerStep hab) hsteps
      (out_ensureOne hloc)).1

/-- **WHAT A REQUEST BRINGS IN** it promotes. -/
lemma ensureLoop_brings (keys : List String) (s : PageOwner)
    (promoted : Locations)
    (hk : k ∈ (ensureLoop me owners keys s promoted).owner.pool.entries.keys) :
    k ∈ s.pool.entries.keys ∨ k ∈ (ensureLoop me owners keys s promoted).promoted.keys := by
  have hmono : ∀ (keys : List String) (s : PageOwner) (promoted : Locations),
      k ∈ promoted.keys → k ∈ (ensureLoop me owners keys s promoted).promoted.keys := by
    intro keys
    induction keys with
    | nil => exact fun _ _ h => h
    | cons j keys ih =>
      intro s promoted h
      refine ih _ _ ?_
      rw [addPromoted]
      cases (ensureOne me owners s j).loc with
      | none => exact h
      | some loc =>
        by_cases hp : (ensureOne me owners s j).promoted = true
        · simp only [if_pos hp]; exact mem_keys_set.mpr (.inr h)
        · simp only [if_neg hp]; exact h
  induction keys generalizing s promoted with
  | nil => exact .inl hk
  | cons j keys ih =>
    rcases ih _ _ hk with hin | hin
    · obtain ⟨x, hx⟩ := mem_keys.mp hin
      rcases ensureOne_entry hx with hold | ⟨rfl, hp, loc, hloc, -⟩
      · exact .inl (mem_keys.mpr ⟨x, hold⟩)
      · refine .inr (hmono keys _ _ ?_)
        rw [addPromoted, hloc]
        simp only [hp, if_true]
        exact mem_keys_set.mpr (.inl rfl)
    · exact .inr hin

lemma promotedOk_empty : PromotedOk me s OrderedDict.empty := fun _ _ h => nomatch h

end

end PeerCacheOwner
