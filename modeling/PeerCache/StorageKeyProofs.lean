import PeerCache.P2pDiskProofs

/-! # Storage keys, and whose they are

    A logical key becomes a storage key by a tag in front, for the tenant, and a suffix
    behind, for the component, the rank and the host pool.  The tag is `<prefix>_`, or
    nothing.  Whatever the API, the suffixes of one page have one length, so a storage key
    of one tenant is one of another exactly when tag and logical key read the same
    (`storageKeys_mem`): `a` with `b_c` and `a_b` with `c` do.  Two tenants are apart exactly
    when neither tag begins with the other. -/

namespace PeerCacheKeys

open PeerCacheP2pDisk List

/-! ## The APIs -/

/-- What the v2 path asks a host pool registered under a name. -/
structure HostPool where
  /-- `hasattr(pool, "v_buffer")` -/
  vBuffer : Bool

/-- The names `str` gives for `PoolName.KV` and `PoolName.DRAFT`. -/
structure PoolNames where
  kv : String
  draft : String

/-- What a store knows about key names: its host pools and the layout of its keys. -/
structure Layout where
  names : PoolNames
  registeredPools : String → Option HostPool
  space : KeySpace

/-- `is_mla_draft` -/
def isMlaDraft (y : Layout) (name : String) : Bool :=
  match (y.registeredPools name).or (y.registeredPools "draft") with
  | none => false
  | some pool => !pool.vBuffer

/-- `_v2_component_keys` -/
def v2ComponentKeys (y : Layout) (name : String) (keys : List String) : List String × Nat :=
  if name = y.names.kv ∨ name = "kv" then componentKeys y.space keys
  else
    let keys := tagKeys y.space keys
    if name = "draft" ∨ name = "draft_mla" ∨ name = y.names.draft then
      if isMlaDraft y name then
        (keys.map (fun k => k ++ ("_" ++ y.space.mlaSuffix ++ "_draft_k")), 1)
      else
        (keys.flatMap (fun k => [k ++ ("_" ++ y.space.mhaSuffix ++ "_draft_k"),
          k ++ ("_" ++ y.space.mhaSuffix ++ "_draft_v")]), 2)
    else (keys.map (fun k => k ++ ("_" ++ y.space.mhaSuffix ++ "_" ++ name)), 1)

/-- The three ways to name pages: `_component_keys`, `_v2_component_keys` of a transfer, and the
    tagged keys of the generic `batch_set` and `batch_get`. -/
inductive Api where
  | v1
  | v2 (name : String)
  | generic

/-- The storage keys of a call, and how many there are for a page. -/
def storageKeys (y : Layout) : Api → List String → List String × Nat
  | .v1, keys => componentKeys y.space keys
  | .v2 name, keys => v2ComponentKeys y name keys
  | .generic, keys => (tagKeys y.space keys, 1)

/-! ## Tag, key, suffix -/

/-- What a prefix puts in front of a key. -/
def tagOf (p : String) : String := if p = "" then "" else p ++ "_"

/-- What `_component_keys` puts behind it. -/
def componentSuffixes (c : KeySpace) : List String :=
  if c.isMla then ["_" ++ c.mlaSuffix ++ "_k"]
  else ["_" ++ c.mhaSuffix ++ "_k", "_" ++ c.mhaSuffix ++ "_v"]

/-- What an API puts behind it. -/
def suffixesOf (y : Layout) : Api → List String
  | .v1 => componentSuffixes y.space
  | .v2 name =>
      if name = y.names.kv ∨ name = "kv" then componentSuffixes y.space
      else if name = "draft" ∨ name = "draft_mla" ∨ name = y.names.draft then
        if isMlaDraft y name then ["_" ++ y.space.mlaSuffix ++ "_draft_k"]
        else ["_" ++ y.space.mhaSuffix ++ "_draft_k", "_" ++ y.space.mhaSuffix ++ "_draft_v"]
      else ["_" ++ y.space.mhaSuffix ++ "_" ++ name]
  | .generic => [""]

lemma tagKeys_eq (c : KeySpace) (keys : List String) :
    tagKeys c keys = keys.map (fun k => tagOf c.keyTag ++ k) := by
  rw [tagKeys, tagOf]
  by_cases h : c.keyTag = ""
  · simp only [if_pos h, String.empty_append, map_id']
  · simp only [if_neg h]

lemma componentsOf_eq (c : KeySpace) (k : String) :
    componentsOf c k = (componentSuffixes c).map (fun x => k ++ x) := by
  rw [componentsOf, componentSuffixes]
  by_cases h : c.isMla = true
  · simp only [if_pos h, map_cons, map_nil, String.append_assoc]
  · simp only [if_neg h, map_cons, map_nil, String.append_assoc]

lemma multiplier_eq (c : KeySpace) : multiplier c = (componentSuffixes c).length := by
  rw [multiplier, componentSuffixes]
  cases c.isMla with
  | true => rfl
  | false => rfl

/-- **EVERY STORAGE KEY** is tag, logical key and suffix, each page with each suffix. -/
lemma storageKeys_eq (y : Layout) (api : Api) (keys : List String) : storageKeys y api keys
      = (keys.flatMap (fun k => (suffixesOf y api).map (fun x => tagOf y.space.keyTag ++ k ++ x)),
        (suffixesOf y api).length) := by
  have hv1 : componentKeys y.space keys = (keys.flatMap (fun k => (componentSuffixes y.space).map
        (fun x => tagOf y.space.keyTag ++ k ++ x)), (componentSuffixes y.space).length) := by
    rw [componentKeys, tagKeys_eq, flatMap_map, multiplier_eq]
    simp only [componentsOf_eq]
  have hone : ∀ x, (keys.map (fun k => tagOf y.space.keyTag ++ k ++ x), 1)
      = (keys.flatMap (fun k => [x].map (fun x => tagOf y.space.keyTag ++ k ++ x)), [x].length) :=
    fun x => congrArg (·, 1) map_eq_flatMap
  cases api with
  | v1 => exact hv1
  | generic =>
    rw [storageKeys, suffixesOf, tagKeys_eq, ← hone]
    simp only [String.append_empty]
  | v2 name =>
    rw [storageKeys, v2ComponentKeys, suffixesOf, tagKeys_eq]
    by_cases hkv : name = y.names.kv ∨ name = "kv"
    · simp only [if_pos hkv]; exact hv1
    · simp only [if_neg hkv]
      by_cases hdraft : name = "draft" ∨ name = "draft_mla" ∨ name = y.names.draft
      · simp only [if_pos hdraft]
        by_cases hmla : isMlaDraft y name = true
        · simp only [if_pos hmla, map_map]; exact hone _
        · simp only [if_neg hmla, flatMap_map]; rfl
      · simp only [if_neg hdraft, map_map]; exact hone _

variable {y : Layout} {api : Api}

lemma storageKeys_mem {keys : List String} {a : String} :
    a ∈ (storageKeys y api keys).1
      ↔ ∃ k ∈ keys, ∃ x ∈ suffixesOf y api, tagOf y.space.keyTag ++ k ++ x = a := by
  rw [storageKeys_eq]
  simp only [mem_flatMap, mem_map]

/-- One suffix, or two of one length. -/
def OneOrTwo (suffixes : List String) : Prop :=
  (∃ x, suffixes = [x]) ∨ ∃ x z, x.length = z.length ∧ suffixes = [x, z]

lemma OneOrTwo.ends (front : String) {x z : String} (h : x.length = z.length) :
    OneOrTwo [front ++ x, front ++ z] := by
  refine .inr ⟨_, _, ?_, rfl⟩
  rw [String.length_append, String.length_append, h]

lemma oneOrTwo_componentSuffixes (c : KeySpace) : OneOrTwo (componentSuffixes c) := by
  rw [componentSuffixes]
  split_ifs with h
  · exact .inl ⟨_, rfl⟩
  · exact .ends _ (by decide)

lemma oneOrTwo_suffixesOf (y : Layout) (api : Api) : OneOrTwo (suffixesOf y api) := by
  cases api with
  | v1 => exact oneOrTwo_componentSuffixes y.space
  | generic => exact .inl ⟨_, rfl⟩
  | v2 name =>
    rw [suffixesOf]
    by_cases hkv : name = y.names.kv ∨ name = "kv"
    · rw [if_pos hkv]; exact oneOrTwo_componentSuffixes y.space
    · rw [if_neg hkv]
      by_cases hdraft : name = "draft" ∨ name = "draft_mla" ∨ name = y.names.draft
      · rw [if_pos hdraft]
        by_cases hmla : isMlaDraft y name = true
        · rw [if_pos hmla]; exact .inl ⟨_, rfl⟩
        · rw [if_neg hmla]; exact .ends _ (by decide)
      · rw [if_neg hdraft]; exact .inl ⟨_, rfl⟩

lemma suffixesOf_ne_nil (y : Layout) (api : Api) : suffixesOf y api ≠ [] := by
  rcases oneOrTwo_suffixesOf y api with ⟨x, h⟩ | ⟨x, z, -, h⟩
  · rw [h]; exact cons_ne_nil _ _
  · rw [h]; exact cons_ne_nil _ _

lemma suffixesOf_length (y : Layout) (api : Api) :
    ∀ x ∈ suffixesOf y api, ∀ z ∈ suffixesOf y api, x.length = z.length := by
  rcases oneOrTwo_suffixesOf y api with ⟨x, h⟩ | ⟨x, z, hxz, h⟩
  · rw [h]
    intro a ha b hb
    rw [mem_singleton.mp ha, mem_singleton.mp hb]
  · rw [h]
    have hall : ∀ a ∈ [x, z], a.length = z.length := by
      rw [forall_mem_cons, forall_mem_singleton]
      exact ⟨hxz, rfl⟩
    exact fun a ha b hb => (hall a ha).trans (hall b hb).symm

/-! ## Tenants -/

/-- The layout of the same store under another prefix. -/
def Layout.tenant (y : Layout) (p : String) : Layout := { y with space := { y.space with keyTag := p } }

lemma suffixesOf_tenant (y : Layout) (p : String) (api : Api) :
    suffixesOf (y.tenant p) api = suffixesOf y api := by
  cases api with
  | v1 => rfl
  | v2 name => rfl
  | generic => rfl

/-- No storage key of the one tenant is one of the other. -/
def TenantsApart (y : Layout) (api : Api) (p q : String) : Prop :=
  ∀ keys keys', ∀ a ∈ (storageKeys (y.tenant p) api keys).1,
    ∀ b ∈ (storageKeys (y.tenant q) api keys').1, a ≠ b

/-- Neither tag begins with the other. -/
def TagsApart (p q : String) : Prop :=
  ¬ (tagOf p).toList <+: (tagOf q).toList ∧ ¬ (tagOf q).toList <+: (tagOf p).toList

instance (p q : String) : Decidable (TagsApart p q) := inferInstanceAs (Decidable (_ ∧ _))

lemma collision_of_begins {p q : String} (h : (tagOf p).toList <+: (tagOf q).toList) :
    ∃ k, ∃ a, a ∈ (storageKeys (y.tenant p) api [k]).1 ∧ a ∈ (storageKeys (y.tenant q) api [""]).1 := by
  obtain ⟨rest, hrest⟩ := h
  obtain ⟨x, hx⟩ := exists_mem_of_ne_nil _ (suffixesOf_ne_nil y api)
  have htag : tagOf p ++ String.ofList rest = tagOf q := by
    apply String.toList_injective
    rw [String.toList_append, String.toList_ofList]
    exact hrest
  refine ⟨String.ofList rest, tagOf q ++ x, storageKeys_mem.mpr ?_, storageKeys_mem.mpr ?_⟩
  · refine ⟨_, (.head _), x, (suffixesOf_tenant y p api).symm ▸ hx, ?_⟩
    exact congrArg (· ++ x) htag
  · refine ⟨_, (.head _), x, (suffixesOf_tenant y q api).symm ▸ hx, ?_⟩
    exact congrArg (· ++ x) String.append_empty

/-- **TENANT ISOLATION**: whatever the API, the model layout, the rank and the pool name, two
    prefixes share no storage key exactly when neither tag begins with the other. -/
theorem tenants_apart_iff (y : Layout) (api : Api) (p q : String) :
    TenantsApart y api p q ↔ TagsApart p q := by
  constructor
  · intro h
    refine ⟨?_, ?_⟩
    · intro hbegins
      obtain ⟨k, a, hp, hq⟩ := collision_of_begins hbegins
      exact h [k] [""] a hp a hq rfl
    · intro hbegins
      obtain ⟨k, a, hq, hp⟩ := collision_of_begins hbegins
      exact h [""] [k] a hp a hq rfl
  · rintro ⟨hpq, hqp⟩ keys keys' a ha b hb rfl
    obtain ⟨k, -, x, hx, hkx⟩ := storageKeys_mem.mp ha
    obtain ⟨l, -, z, hz, hlz⟩ := storageKeys_mem.mp hb
    rw [suffixesOf_tenant] at hx hz
    -- the suffixes have one length, so what stands before them is the same
    have heq : ((tagOf p).toList ++ k.toList) ++ x.toList = ((tagOf q).toList ++ l.toList) ++ z.toList := by
      rw [← String.toList_append, ← String.toList_append, ← String.toList_append, ← String.toList_append]
      exact congrArg String.toList (hkx.trans hlz.symm)
    have hlen : x.toList.length = z.toList.length := suffixesOf_length y api x hx z hz
    have hfront := (List.append_inj' heq hlen).1
    rcases List.prefix_or_prefix_of_prefix ⟨_, rfl⟩ ⟨_, hfront.symm⟩ with hbegins | hbegins
    · exact hpq hbegins
    · exact hqp hbegins

/-- A store of rank `tpRank`, `ppRank` as `__init__` lays it out, with no pools but the KV one. -/
def Layout.ofRanks (isMla : Bool) (tpRank ppRank ppSize : Nat) : Layout where
  names := ⟨"kv", "draft"⟩
  registeredPools _ := none
  space :=
    if ppSize > 1 then ⟨"", isMla, toString ppRank, toString tpRank ++ "_" ++ toString ppRank⟩
    else ⟨"", isMla, "", toString tpRank⟩

/-- Tenants `a` and `a_b` share the K and V components of `b_c` and `c`. -/
theorem tenants_share_a_page :
    (storageKeys ((Layout.ofRanks false 0 0 1).tenant "a") .v1 ["b_c"]).1
        = (storageKeys ((Layout.ofRanks false 0 0 1).tenant "a_b") .v1 ["c"]).1
      ∧ (storageKeys ((Layout.ofRanks false 0 0 1).tenant "a") .v1 ["b_c"]).1
        = ["a_b_c_0_k", "a_b_c_0_v"]
      ∧ ¬ TenantsApart (Layout.ofRanks false 0 0 1) .v1 "a" "a_b" := by
  have hleft : (storageKeys ((Layout.ofRanks false 0 0 1).tenant "a") .v1 ["b_c"]).1
      = ["a_b_c_0_k", "a_b_c_0_v"] := by decide +kernel
  have hright : (storageKeys ((Layout.ofRanks false 0 0 1).tenant "a_b") .v1 ["c"]).1
      = ["a_b_c_0_k", "a_b_c_0_v"] := by decide +kernel
  refine ⟨hleft.trans hright.symm, hleft, ?_⟩
  intro h
  refine h ["b_c"] ["c"] "a_b_c_0_k" ?_ "a_b_c_0_k" ?_ rfl
  · rw [hleft]
    exact List.mem_cons_self
  · rw [hright]
    exact List.mem_cons_self

end PeerCacheKeys
