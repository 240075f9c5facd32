import Mathlib
import PeerCache.PoolProofs

/-! # What the pool holds

    The facts about pool contents that the layers above use: what an entry found after a
    `publish` or `reserve` was before it, what an address handed out names, and the
    invariant that every resident page holds its own key's bytes when every publish
    carries them (`HoldsAll`). -/

namespace PeerCachePool

open Tiling List OrderedDict Option Function

variable {K : Type} [DecidableEq K]

lemma place_get?_from {p : PublishedPool K} {key k : K} {length : Nat} {copy : Nat → Mem → Mem}
    {e : Extent} (hk : (place p key length copy).pool.entries.get? k = some e) :
    p.entries.get? k = some e ∨ (k = key ∧ key ∉ p.entries.keys ∧ e.2 = length
        ∧ (place p key length copy).pool.buf = copy e.1 p.buf) := by
  have hspec := allocate_spec p length
  -- what the allocation leaves was an item before
  have hkept : (allocate p length).pool.entries.get? k = some e → p.entries.get? k = some e := by
    intro h
    obtain ⟨dropped, hitems, -, -⟩ := hspec.oldest
    refine get?_eq_some.mpr ?_
    rw [hitems]
    exact mem_append_right _ (get?_eq_some.mp h)
  rcases place_cases p key length copy with ⟨_, -, heq⟩ | ⟨-, -, heq⟩ | ⟨hkey, off, -, heq⟩
  · rw [heq] at hk
    exact .inl ((get?_moveToEnd p.entries key k).symm.trans hk)
  · rw [heq] at hk; exact .inl (hkept hk)
  · rw [heq] at hk ⊢
    have hnew := insertPage_get? (allocate p length).pool key k off length copy
    split_ifs at hnew with hkk
    · obtain rfl := some.inj (hk.symm.trans hnew)
      refine .inr ⟨hkk, hkey, rfl, ?_⟩
      show copy off (allocate p length).pool.buf = copy off p.buf
      rw [hspec.buf]
    · exact .inl (hkept (hnew.symm.trans hk))

/-- **AN ENTRY AFTER A `place`** was there before with the same bytes, or is the new page. -/
lemma place_get?_cases {p : PublishedPool K} {key k : K} {length : Nat} {copy : Nat → Mem → Mem}
    {e : Extent} (hcopy : CopiesInside length copy) (hi : Inv p)
    (hk : (place p key length copy).pool.entries.get? k = some e) :
    (p.entries.get? k = some e
        ∧ (place p key length copy).pool.buf.read e.1 e.2 = p.buf.read e.1 e.2)
      ∨ (k = key ∧ key ∉ p.entries.keys ∧ e.2 = length
        ∧ (place p key length copy).pool.buf = copy e.1 p.buf) := by
  rcases place_get?_from hk with hold | hnew
  · exact .inl ⟨hold, place_buf_of_mem hcopy hi hold (mem_keys.mpr ⟨e, hk⟩)⟩
  · exact .inr hnew

variable {length : Nat} {copy : Nat → Mem → Mem}

lemma place_addr {p : PublishedPool K} {key : K} {addr : Nat}
    (h : (place p key length copy).addr = some addr) :
    ∃ e, (place p key length copy).pool.entries.get? key = some e ∧ addr = p.base + e.1
      ∧ (p.entries.get? key = some e ∨ (key ∉ p.entries.keys ∧ e.2 = length)) := by
  rcases place_cases p key length copy with ⟨e, he, heq⟩ | ⟨-, -, heq⟩ | ⟨hkey, off, -, heq⟩
  · rw [heq] at h ⊢
    exact ⟨e, (get?_moveToEnd p.entries key key).trans he, (some.inj h).symm,
      .inl he⟩
  · rw [heq] at h; cases h
  · rw [heq] at h ⊢
    refine ⟨(off, length), ?_, (some.inj h).symm, .inr ⟨hkey, rfl⟩⟩
    exact (insertPage_get? (allocate p length).pool key key off length copy).trans (if_pos rfl)

lemma place_addr_none {p : PublishedPool K} {key : K} (h : (place p key length copy).addr = none) :
    key ∉ (place p key length copy).pool.entries.keys := by
  rcases place_cases p key length copy with ⟨e, -, heq⟩ | ⟨hkey, -, heq⟩ | ⟨-, off, -, heq⟩
  · rw [heq] at h; cases h
  · rw [heq]
    exact fun hmem => hkey ((allocate_spec p length).keys_subset hmem)
  · rw [heq] at h; cases h

lemma place_get?_of_not_evicted {p : PublishedPool K} {key k : K} {length : Nat}
    {copy : Nat → Mem → Mem} {e : Extent} (hk : p.entries.get? k = some e)
    (hstay : k ∉ (place p key length copy).evicted) :
    (place p key length copy).pool.entries.get? k = some e := by
  refine place_get?_of_mem hk ?_
  by_contra hgone
  exact hstay ((place_evicted p key length copy).2 k |>.mpr
    ⟨mem_keys.mpr ⟨e, hk⟩, hgone⟩)

/-! ## Touching -/

lemma addressOf_get? (p : PublishedPool K) (key k : K) :
    (addressOf p key).2.entries.get? k = p.entries.get? k := by
  rw [addressOf]
  cases hg : p.entries.get? key with
  | none => rfl
  | some e => exact get?_moveToEnd p.entries key k

lemma addressOf_buf (p : PublishedPool K) (key : K) : (addressOf p key).2.buf = p.buf := by
  rw [addressOf]
  cases hg : p.entries.get? key with
  | none => rfl
  | some e => rfl

lemma addressOf_region (p : PublishedPool K) (key : K) : SameRegion p (addressOf p key).2 := by
  rw [addressOf]
  cases hg : p.entries.get? key with
  | none => exact SameRegion.refl p
  | some e => exact ⟨rfl, rfl, rfl, rfl⟩

lemma addressOf_nextOffset (p : PublishedPool K) (key : K) :
    (addressOf p key).2.nextOffset = p.nextOffset := by
  rw [addressOf]
  cases hg : p.entries.get? key with
  | none => rfl
  | some e => rfl

lemma addressOf_extents (p : PublishedPool K) (key : K) :
    (addressOf p key).2.extents.Perm p.extents := by
  rw [addressOf]
  cases hg : p.entries.get? key with
  | none => exact List.Perm.refl _
  | some e => exact ((moveToEnd_perm p.entries key).map Prod.snd).append_right _

lemma addressOf_fst (p : PublishedPool K) (key : K) :
    (addressOf p key).1 = (p.entries.get? key).map (fun e => (p.base + e.1, e.2)) := by
  rw [addressOf]
  cases hg : p.entries.get? key with
  | none => rfl
  | some e => rfl

/-! ## Pages that hold their own bytes -/

/-- The key's page, if resident, has the length of its content. -/
def SizedFor (content : K → Bytes) (p : PublishedPool K) (k : K) : Prop :=
  ∀ e, p.entries.get? k = some e → e.2 = (content k).length

/-- The key's page, if resident, is its content. -/
def HoldsFor (content : K → Bytes) (p : PublishedPool K) (k : K) : Prop :=
  ∀ e, p.entries.get? k = some e → e.2 = (content k).length ∧ p.buf.read e.1 e.2 = content k

/-- Every resident page is its key's content. -/
def HoldsAll (content : K → Bytes) (p : PublishedPool K) : Prop :=
  ∀ k, HoldsFor content p k

variable {content : K → Bytes}

lemma holdsFor_of_not_mem {p : PublishedPool K} {k : K} (h : k ∉ p.entries.keys) :
    HoldsFor content p k :=
  fun e he => absurd (mem_keys.mpr ⟨e, he⟩) h

lemma holdsAll_new (base capacity rkey : Nat) (rkeys : List Nat) (buf : Mem) :
    HoldsAll content (new base capacity rkey rkeys buf : PublishedPool K) :=
  fun _ _ h => nomatch h

/-! ## What a sequence of pool operations does -/

/-- What publishing contents, reserving `reserved` and touching pages, in any order, does to a
    pool when it evicts `evicted`.  A key that was reserved may have lost its page, and only if
    it was not resident all along. -/
structure Effect (content : K → Bytes) (p p' : PublishedPool K) (evicted reserved : List K) :
    Prop where
  inv : Inv p'
  region : SameRegion p p'
  keeps : ∀ k e, p.entries.get? k = some e → k ∉ evicted → p'.entries.get? k = some e
  sized : ∀ k, SizedFor content p k → SizedFor content p' k
  holds : ∀ k, (k ∈ p.entries.keys ∧ k ∉ evicted) ∨ k ∉ reserved →
    HoldsFor content p k → HoldsFor content p' k
  dropped : ∀ k ∈ evicted, k ∉ reserved → HoldsFor content p' k

namespace Effect

variable {p p' q : PublishedPool K} {evicted reserved evicted' reserved' : List K}

lemma refl (hi : Inv p) : Effect content p p [] [] where
  inv := hi
  region := SameRegion.refl p
  keeps := fun _ _ h _ => h
  sized := fun _ h => h
  holds := fun _ _ h => h
  dropped := forall_mem_nil _

lemma mem_keys (h : Effect content p p' evicted reserved) {k : K} (hk : k ∈ p.entries.keys)
    (hev : k ∉ evicted) : k ∈ p'.entries.keys := by
  obtain ⟨e, he⟩ := OrderedDict.mem_keys.mp hk
  exact OrderedDict.mem_keys.mpr ⟨e, h.keeps k e he hev⟩

lemma trans (h : Effect content p p' evicted reserved) (h' : Effect content p' q evicted' reserved') :
    Effect content p q (evicted ++ evicted') (reserved ++ reserved') where
  inv := h'.inv
  region := h.region.trans h'.region
  keeps := by
    intro k e hk hev
    rw [mem_append, not_or] at hev
    exact h'.keeps k e (h.keeps k e hk hev.1) hev.2
  sized := fun k hk => h'.sized k (h.sized k hk)
  holds := by
    intro k hk hold
    rcases hk with ⟨hmem, hev⟩ | hres
    · rw [mem_append, not_or] at hev
      exact h'.holds k (.inl ⟨h.mem_keys hmem hev.1, hev.2⟩) (h.holds k (.inl ⟨hmem, hev.1⟩) hold)
    · rw [mem_append, not_or] at hres
      exact h'.holds k (.inr hres.2) (h.holds k (.inr hres.1) hold)
  dropped := by
    intro k hk hres
    rw [mem_append, not_or] at hres
    rcases mem_append.mp hk with hk | hk
    · exact h'.holds k (.inr hres.2) (h.dropped k hk hres.1)
    · exact h'.dropped k hk hres.2

lemma mono (h : Effect content p p' evicted reserved) (hsub : reserved ⊆ reserved') :
    Effect content p p' evicted reserved' where
  inv := h.inv
  region := h.region
  keeps := h.keeps
  sized := h.sized
  holds := fun k hk => h.holds k (hk.imp_right (fun hnot hres => hnot (hsub hres)))
  dropped := fun k hk hnot => h.dropped k hk (fun hres => hnot (hsub hres))

lemma get?_before (h : Effect content p p' evicted reserved) {k : K} {e : Extent}
    (hk : p'.entries.get? k = some e) (hmem : k ∈ p.entries.keys) (hev : k ∉ evicted) :
    p.entries.get? k = some e := by
  obtain ⟨e', he'⟩ := OrderedDict.mem_keys.mp hmem
  have := h.keeps k e' he' hev
  rw [hk] at this
  rw [he', this]

lemma holdsAll (h : Effect content p p' evicted []) (hall : HoldsAll content p) :
    HoldsAll content p' :=
  fun k => h.holds k (.inr not_mem_nil) (hall k)

end Effect

lemma holdsFor_of_evicted {p : PublishedPool K} {key k : K} {length : Nat}
    {copy : Nat → Mem → Mem} (hk : k ∈ (place p key length copy).evicted) :
    HoldsFor content (place p key length copy).pool k :=
  holdsFor_of_not_mem ((place_evicted p key length copy).2 k |>.mp hk).2

/-- **PUBLISH** of a key's content. -/
lemma effect_publish {p : PublishedPool K} (hi : Inv p) (key : K) :
    Effect content p (publish p key (content key)).pool (publish p key (content key)).evicted [] where
  inv := inv_place hi key _ _
  region := place_region p key _ _
  keeps := fun _ _ hk hev => place_get?_of_not_evicted hk hev
  sized := by
    intro k hk e he
    rcases place_get?_cases (copiesInside_write (content key)) hi he with ⟨hold, -⟩ | ⟨rfl, -, hlen, -⟩
    · exact hk e hold
    · exact hlen
  holds := by
    intro k _ hk e he
    rcases place_get?_cases (copiesInside_write (content key)) hi he with
      ⟨hold, hbuf⟩ | ⟨rfl, -, hlen, hbuf⟩
    · exact ⟨(hk e hold).1, hbuf.trans (hk e hold).2⟩
    · -- the page was just copied in
      refine ⟨hlen, ?_⟩
      have hread : ((p.buf.write e.1 (content k)).read e.1 (content k).length) = content k :=
        Mem.read_write_same p.buf e.1 (content k)
      rw [hlen]
      exact (congrArg (fun m : Mem => m.read e.1 (content k).length) hbuf).trans hread
  dropped := fun _ hk _ => holdsFor_of_evicted hk

/-- **RESERVE** for a key's content. -/
lemma effect_reserve {p : PublishedPool K} (hi : Inv p) (key : K) :
    Effect content p (reserve p key (content key).length).pool
      (reserve p key (content key).length).evicted [key] where
  inv := inv_place hi key _ _
  region := place_region p key _ _
  keeps := fun _ _ hk hev => place_get?_of_not_evicted hk hev
  sized := by
    intro k hk e he
    rcases place_get?_cases (copiesInside_none _) hi he with ⟨hold, -⟩ | ⟨rfl, -, hlen, -⟩
    · exact hk e hold
    · exact hlen
  holds := by
    intro k hkey hk e he
    rcases place_get?_cases (copiesInside_none _) hi he with ⟨hold, hbuf⟩ | ⟨rfl, hnew, -, -⟩
    · exact ⟨(hk e hold).1, hbuf.trans (hk e hold).2⟩
    · rcases hkey with ⟨hmem, -⟩ | hne
      · exact absurd hmem hnew
      · exact absurd (.head _) hne
  dropped := fun _ hk _ => holdsFor_of_evicted hk

/-- **ADDRESS_OF** only touches. -/
lemma effect_addressOf {p : PublishedPool K} (hi : Inv p) (key : K) :
    Effect content p (addressOf p key).2 [] [] where
  inv := inv_addressOf hi key
  region := addressOf_region p key
  keeps := fun k _ hk _ => (addressOf_get? p key k).trans hk
  sized := fun k hk e he => hk e ((addressOf_get? p key k).symm.trans he)
  holds := by
    intro k _ hk e he
    rw [addressOf_get?] at he
    rw [addressOf_buf]
    exact hk e he
  dropped := forall_mem_nil _

/-! ## Writes from the network -/

lemma entries_apart {p : PublishedPool K} (hi : Inv p) {j k : K} {d e : Extent}
    (hj : p.entries.get? j = some d) (hk : p.entries.get? k = some e) (hne : j ≠ k) : Apart d e := by
  have hpair := pairwise_map.mp (pairwise_append.mp hi.tiles.apart).1
  have hsymm : Std.Symm (fun a b : K × Extent => Apart a.2 b.2) := ⟨fun _ _ h => h.symm⟩
  exact hpair.forall (get?_eq_some.mp hj) (get?_eq_some.mp hk)
    (fun h => hne (congrArg Prod.fst h))

/-- A one-sided WRITE at a remote address: the pool's bookkeeping does not notice. -/
def remoteWrite (p : PublishedPool K) (addr : Nat) (data : Bytes) : PublishedPool K :=
  { p with buf := p.buf.write (addr - p.base) data }

omit [DecidableEq K] in
lemma inv_remoteWrite {p : PublishedPool K} (hi : Inv p) (addr : Nat) (data : Bytes) :
    Inv (remoteWrite p addr data) := ⟨hi.tiles, hi.next_le, hi.used_eq⟩

variable {addr : Nat}

lemma holdsFor_remoteWrite {p : PublishedPool K} {k : K} {data : Bytes}
    (h : HoldsFor content p k)
    (hapart : ∀ e, p.entries.get? k = some e → Apart e (addr - p.base, data.length)) :
    HoldsFor content (remoteWrite p addr data) k :=
  fun e he => ⟨(h e he).1, (read_write_apart p.buf (hapart e he)).trans (h e he).2⟩

lemma holdsFor_remoteWrite_same {p : PublishedPool K} {k : K}
    (h : ∀ e, p.entries.get? k = some e → e = (addr - p.base, (content k).length)) :
    HoldsFor content (remoteWrite p addr (content k)) k := by
  intro e he
  rw [h e he]
  exact ⟨rfl, Mem.read_write_same p.buf (addr - p.base) (content k)⟩

end PeerCachePool
