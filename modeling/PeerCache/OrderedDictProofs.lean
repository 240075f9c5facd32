import Mathlib

/-! # Insertion-ordered dictionaries

    A finite map that remembers the order in which its keys arrived, with the
    operations of an ordered hash map: lookup, assignment (in place for a known
    key, at the end for a new one), removal, `moveToEnd` and `popFirst`. -/

/-- A dictionary: its items from the oldest to the newest, one per key. -/
structure OrderedDict (K V : Type) where
  items : List (K × V)
  nodup : (items.map Prod.fst).Nodup
deriving DecidableEq

namespace OrderedDict

open List

variable {K V : Type}

/-- The keys, oldest first. -/
def keys (d : OrderedDict K V) : List K := d.items.map Prod.fst

/-- The dictionary with no items. -/
def empty : OrderedDict K V := ⟨[], List.nodup_nil⟩

lemma nodup_keys (d : OrderedDict K V) : d.keys.Nodup := d.nodup

lemma items_nodup (d : OrderedDict K V) : d.items.Nodup := List.Nodup.of_map _ d.nodup

lemma value_unique (d : OrderedDict K V) {k : K} {v w : V}
    (hv : (k, v) ∈ d.items) (hw : (k, w) ∈ d.items) : v = w :=
  congrArg Prod.snd (inj_on_of_nodup_map d.nodup hv hw rfl)

/-- The oldest item, and the dictionary without it. -/
def popFirst (d : OrderedDict K V) : Option ((K × V) × OrderedDict K V) :=
  match d with
  | ⟨[], _⟩ => none
  | ⟨p :: rest, h⟩ => some (p, ⟨rest, (List.nodup_cons.mp h).2⟩)

variable {d : OrderedDict K V} {p : K × V}

lemma popFirst_eq_none : d.popFirst = none ↔ d.items = [] := by
  obtain ⟨l, h⟩ := d
  cases l with
  | nil => simp [popFirst]
  | cons p rest => simp [popFirst]

lemma popFirst_items {rest : OrderedDict K V} (h : d.popFirst = some (p, rest)) :
    d.items = p :: rest.items := by
  obtain ⟨l, hl⟩ := d
  cases l with
  | nil => cases h
  | cons q l =>
    cases h
    rfl

variable [DecidableEq K]

/-- The value stored under a key. -/
def get? (d : OrderedDict K V) (k : K) : Option V := d.items.lookup k

/-- Drop a key, if it is there. -/
def erase (d : OrderedDict K V) (k : K) : OrderedDict K V :=
  ⟨d.items.filter (fun p => decide (p.1 ≠ k)),
    (List.filter_sublist.map Prod.fst).nodup d.nodup⟩

lemma mem_erase {k : K} : p ∈ (d.erase k).items ↔ p ∈ d.items ∧ p.1 ≠ k := by
  simp [erase]

/-- The items of the dictionary with `v` stored under `k`: the old place for a known
    key, the end for a new one. -/
def setItems (l : List (K × V)) (k : K) (v : V) : List (K × V) :=
  if k ∈ l.map Prod.fst then l.map (fun p => if p.1 = k then (k, v) else p)
  else l ++ [(k, v)]

lemma map_fst_replace (l : List (K × V)) (k : K) (v : V) :
    (l.map (fun p => if p.1 = k then (k, v) else p)).map Prod.fst = l.map Prod.fst := by
  rw [map_map]
  refine map_congr_left ?_
  intro p _
  by_cases hp : p.1 = k
  · simp [hp]
  · simp [hp]

variable {l : List (K × V)}

lemma setItems_nodup (h : (l.map Prod.fst).Nodup) (k : K) (v : V) :
    ((setItems l k v).map Prod.fst).Nodup := by
  unfold setItems
  split_ifs with hk
  · rw [map_fst_replace]; exact h
  · rw [map_append, nodup_append]
    refine ⟨h, by simp, ?_⟩
    intro a ha b hb
    rw [map_cons, map_nil, mem_singleton] at hb
    subst hb
    exact fun hab => hk (hab ▸ ha)

/-- Store `v` under `k`. -/
def set (d : OrderedDict K V) (k : K) (v : V) : OrderedDict K V :=
  ⟨setItems d.items k v, setItems_nodup d.nodup k v⟩

/-- Store `v` under `k` and make `k` the newest key. -/
def insertLast (d : OrderedDict K V) (k : K) (v : V) : OrderedDict K V :=
  ⟨(d.erase k).items ++ [(k, v)], by
    rw [List.map_append, List.nodup_append]
    refine ⟨(d.erase k).nodup, by simp, ?_⟩
    intro a ha b hb
    rw [List.map_cons, List.map_nil, List.mem_singleton] at hb
    obtain ⟨p, hp, rfl⟩ := List.mem_map.mp ha
    exact hb ▸ (mem_erase.mp hp).2⟩

/-- Make `k` the newest key, if it is there. -/
def moveToEnd (d : OrderedDict K V) (k : K) : OrderedDict K V :=
  match d.get? k with
  | none => d
  | some v => d.insertLast k v

/-- Assign every item of `e`, in its order (`dict.update`). -/
def update (d e : OrderedDict K V) : OrderedDict K V :=
  e.items.foldl (fun acc p => acc.set p.1 p.2) d

/-- The entries whose key passes a test. -/
def filterKeys (d : OrderedDict K V) (p : K → Bool) : OrderedDict K V where
  items := d.items.filter (fun e => p e.1)
  nodup := d.nodup.sublist (List.filter_sublist.map Prod.fst)

/-! ## Lookup -/

lemma get?_eq_some {d : OrderedDict K V} {k : K} {v : V} :
    d.get? k = some v ↔ (k, v) ∈ d.items := by
  obtain ⟨l, h⟩ := d
  show l.lookup k = some v ↔ (k, v) ∈ l
  induction l with
  | nil => simp
  | cons p rest ih =>
    obtain ⟨j, w⟩ := p
    have hnd := nodup_cons.mp h
    rw [lookup_cons]
    by_cases hkj : k = j
    · subst hkj
      have hne : (k, v) ∉ rest := fun hm => hnd.1 (mem_map.mpr ⟨_, hm, rfl⟩)
      simp [hne, eq_comm]
    · have hb : (k == j) = false := by simpa using hkj
      rw [hb]
      simp [hkj, ih hnd.2]

lemma get?_eq_none {d : OrderedDict K V} {k : K} : d.get? k = none ↔ k ∉ d.keys := by
  constructor
  · intro h hk
    obtain ⟨p, hp, rfl⟩ := mem_map.mp hk
    rw [get?_eq_some.mpr (show (p.1, p.2) ∈ d.items from hp)] at h
    cases h
  · intro h
    cases hg : d.get? k with
    | none => rfl
    | some v => exact absurd (mem_map.mpr ⟨_, get?_eq_some.mp hg, rfl⟩) h

lemma mem_keys {k : K} : k ∈ d.keys ↔ ∃ v, d.get? k = some v := by
  rw [← not_iff_not, ← get?_eq_none, Option.eq_none_iff_forall_ne_some, not_exists]

lemma get?_congr {d e : OrderedDict K V} {k : K}
    (h : ∀ v, (k, v) ∈ d.items ↔ (k, v) ∈ e.items) : d.get? k = e.get? k := by
  refine Option.ext ?_
  intro v
  rw [get?_eq_some, get?_eq_some]
  exact h v

@[simp] lemma get?_empty (k : K) : (empty : OrderedDict K V).get? k = none := rfl

lemma get?_erase (d : OrderedDict K V) (k j : K) :
    (d.erase k).get? j = if j = k then none else d.get? j := by
  split_ifs with hj
  · rw [get?_eq_none]
    intro hm
    obtain ⟨p, hp, hpj⟩ := mem_map.mp hm
    exact (mem_erase.mp hp).2 (hpj.trans hj)
  · refine get?_congr ?_
    intro v
    rw [mem_erase]
    exact and_iff_left hj

lemma mem_set {k : K} {v : V} : p ∈ (d.set k v).items ↔ p = (k, v) ∨ (p ∈ d.items ∧ p.1 ≠ k) := by
  show p ∈ setItems d.items k v ↔ _
  unfold setItems
  split_ifs with hk
  · rw [mem_map]
    constructor
    · rintro ⟨q, hq, rfl⟩
      by_cases hqk : q.1 = k
      · rw [if_pos hqk]; exact .inl rfl
      · rw [if_neg hqk]; exact .inr ⟨hq, hqk⟩
    · rintro (rfl | ⟨hp, hpk⟩)
      · obtain ⟨q, hq, hqk⟩ := mem_map.mp hk
        exact ⟨q, hq, if_pos hqk⟩
      · exact ⟨p, hp, if_neg hpk⟩
  · rw [mem_append, mem_singleton]
    constructor
    · rintro (hp | rfl)
      · exact .inr ⟨hp, fun hpk => hk (mem_map.mpr ⟨p, hp, hpk⟩)⟩
      · exact .inl rfl
    · rintro (rfl | ⟨hp, -⟩)
      · exact .inr rfl
      · exact .inl hp

lemma get?_set (d : OrderedDict K V) (k j : K) (v : V) :
    (d.set k v).get? j = if j = k then some v else d.get? j := by
  split_ifs with hj
  · rw [get?_eq_some, mem_set, hj]; exact .inl rfl
  · refine get?_congr ?_
    intro w
    rw [mem_set]
    constructor
    · rintro (h | ⟨h, -⟩)
      · exact absurd (congrArg Prod.fst h) hj
      · exact h
    · exact fun h => .inr ⟨h, hj⟩

lemma mem_keys_set {k j : K} {v : V} : j ∈ (d.set k v).keys ↔ j = k ∨ j ∈ d.keys := by
  rw [mem_keys, mem_keys, get?_set]
  by_cases hj : j = k
  · simp [hj]
  · simp [hj]

lemma mem_keys_erase {k j : K} : j ∈ (d.erase k).keys ↔ j ≠ k ∧ j ∈ d.keys := by
  rw [mem_keys, mem_keys, get?_erase]
  by_cases hj : j = k
  · simp [hj]
  · simp [hj]

lemma get?_insertLast (d : OrderedDict K V) (k j : K) (v : V) :
    (d.insertLast k v).get? j = if j = k then some v else d.get? j := by
  rw [← get?_set]
  refine get?_congr ?_
  intro w
  rw [mem_set]
  show (j, w) ∈ (d.erase k).items ++ [(k, v)] ↔ _
  rw [mem_append, mem_erase, mem_singleton, or_comm]

lemma get?_moveToEnd (d : OrderedDict K V) (k j : K) : (d.moveToEnd k).get? j = d.get? j := by
  unfold moveToEnd
  cases hk : d.get? k with
  | none => rfl
  | some v =>
    rw [get?_insertLast]
    by_cases hj : j = k
    · rw [if_pos hj, hj, hk]
    · rw [if_neg hj]

/-! ## Items, up to order -/

lemma items_perm_of_mem {k : K} {v : V} (h : (k, v) ∈ d.items) :
    d.items.Perm ((k, v) :: (d.erase k).items) := by
  refine (perm_ext_iff_of_nodup d.items_nodup ?_).mpr ?_
  · refine nodup_cons.mpr ⟨fun hm => (mem_erase.mp hm).2 rfl, (d.erase k).items_nodup⟩
  · intro p
    rw [mem_cons, mem_erase]
    constructor
    · intro hp
      by_cases hpk : p.1 = k
      · obtain ⟨j, w⟩ := p
        have hjk : j = k := hpk
        subst hjk
        rw [d.value_unique hp h]
        exact .inl rfl
      · exact .inr ⟨hp, hpk⟩
    · rintro (rfl | ⟨hp, -⟩)
      · exact h
      · exact hp

lemma set_perm (d : OrderedDict K V) (k : K) (v : V) :
    (d.set k v).items.Perm ((k, v) :: (d.erase k).items) := by
  refine (perm_ext_iff_of_nodup (d.set k v).items_nodup ?_).mpr ?_
  · refine nodup_cons.mpr ⟨fun hm => (mem_erase.mp hm).2 rfl, (d.erase k).items_nodup⟩
  · intro p
    rw [mem_cons, mem_erase, mem_set]

lemma erase_of_not_mem {k : K} (h : k ∉ d.keys) : d.erase k = d := by
  have hitems : (d.erase k).items = d.items := by
    refine filter_eq_self.mpr ?_
    intro p hp
    exact decide_eq_true (fun hpk => h (mem_map.mpr ⟨p, hp, hpk⟩))
  obtain ⟨l, hl⟩ := d
  exact OrderedDict.mk.injEq .. |>.mpr hitems

lemma insertLast_items_of_not_mem {k : K} {v : V} (h : k ∉ d.keys) :
    (d.insertLast k v).items = d.items ++ [(k, v)] := by
  show (d.erase k).items ++ [(k, v)] = _
  rw [erase_of_not_mem h]

lemma set_items_of_not_mem {k : K} {v : V} (h : k ∉ d.keys) :
    (d.set k v).items = d.items ++ [(k, v)] :=
  if_neg h

lemma moveToEnd_perm (d : OrderedDict K V) (k : K) : (d.moveToEnd k).items.Perm d.items := by
  unfold moveToEnd
  cases hk : d.get? k with
  | none => exact List.Perm.refl _
  | some v =>
    exact (perm_append_comm.trans (items_perm_of_mem (get?_eq_some.mp hk)).symm)

lemma moveToEnd_of_last {k : K} {v : V} (h : d.items = l ++ [(k, v)]) : d.moveToEnd k = d := by
  have hmem : (k, v) ∈ d.items := by rw [h]; simp
  have hk : d.get? k = some v := get?_eq_some.mpr hmem
  have hnot : ∀ p ∈ l, p.1 ≠ k := by
    have hnd := d.nodup
    rw [h, map_append, nodup_append] at hnd
    intro p hp hpk
    exact hnd.2.2 p.1 (mem_map.mpr ⟨p, hp, rfl⟩) k (by simp) hpk
  unfold moveToEnd
  rw [hk]
  obtain ⟨items, hd⟩ := d
  refine OrderedDict.mk.injEq .. |>.mpr ?_
  show items.filter (fun p => decide (p.1 ≠ k)) ++ [(k, v)] = items
  have hitems : items = l ++ [(k, v)] := h
  rw [hitems, filter_append]
  have hl : l.filter (fun p => decide (p.1 ≠ k)) = l := by
    refine filter_eq_self.mpr ?_
    intro p hp
    exact decide_eq_true (hnot p hp)
  rw [hl]
  simp

lemma moveToEnd_keys {k : K} (h : k ∈ d.keys) :
    (d.moveToEnd k).keys = d.keys.filter (fun j => decide (j ≠ k)) ++ [k] := by
  obtain ⟨v, hv⟩ := mem_keys.mp h
  unfold moveToEnd
  rw [hv]
  show ((d.items.filter (fun p => decide (p.1 ≠ k))) ++ [(k, v)]).map Prod.fst = _
  rw [map_append, keys, filter_map]
  rfl

/-! ## Updating with a whole dictionary -/

lemma get?_foldl_set (l : List (K × V)) (hl : (l.map Prod.fst).Nodup) (d : OrderedDict K V)
    (k : K) :
    (l.foldl (fun acc p => acc.set p.1 p.2) d).get? k = (l.lookup k).or (d.get? k) := by
  induction l generalizing d with
  | nil => rfl
  | cons p rest ih =>
    have hnd := nodup_cons.mp hl
    rw [foldl_cons, ih hnd.2, get?_set, lookup_cons]
    by_cases hk : k = p.1
    · have hnone : rest.lookup k = none := by
        have hnot : k ∉ (⟨rest, hnd.2⟩ : OrderedDict K V).keys := hk ▸ hnd.1
        exact get?_eq_none.mpr hnot
      rw [hnone, hk]
      simp
    · have hb : (k == p.1) = false := by simpa using hk
      rw [hb, if_neg hk]

lemma get?_update (d e : OrderedDict K V) (k : K) :
    (d.update e).get? k = (e.get? k).or (d.get? k) :=
  get?_foldl_set e.items e.nodup d k

lemma get?_filterKeys (d : OrderedDict K V) (p : K → Bool) (k : K) :
    (d.filterKeys p).get? k = if p k then d.get? k else none := by
  refine Option.ext ?_
  intro v
  rw [get?_eq_some]
  show (k, v) ∈ d.items.filter (fun e => p e.1) ↔ _
  rw [mem_filter]
  split_ifs with hp
  · rw [get?_eq_some]; exact and_iff_left hp
  · constructor
    · rintro ⟨-, h⟩; exact absurd h hp
    · intro h; cases h

lemma get?_foldl_set_map {W : Type} (e : OrderedDict K V) (f : V → W) (d : OrderedDict K W) (k : K) :
    (e.items.foldl (fun acc p => acc.set p.1 (f p.2)) d).get? k = ((e.get? k).map f).or (d.get? k) := by
  obtain ⟨l, hl⟩ := e
  show (l.foldl (fun acc p => acc.set p.1 (f p.2)) d).get? k = ((l.lookup k).map f).or (d.get? k)
  have hlookup : ((l.map (Prod.map id f)).lookup k) = (l.lookup k).map f := by
    clear hl
    induction l with
    | nil => rfl
    | cons p l ih =>
      rw [map_cons, lookup_cons, lookup_cons, ih]
      show (match k == p.1 with | true => some (f p.2) | false => (l.lookup k).map f) = _
      cases k == p.1 with
      | true => rfl
      | false => rfl
  have hnd : ((l.map (Prod.map id f)).map Prod.fst).Nodup := by
    rw [map_map]
    exact hl
  rw [← hlookup, ← get?_foldl_set _ hnd d k, foldl_map]
  rfl

lemma foldl_set_cases {A : Type} (f : A → K) (g : A → V) {l : List A} {k : K} {v : V}
    (h : (l.foldl (fun d a => d.set (f a) (g a)) d).get? k = some v) :
    (∃ a ∈ l, f a = k ∧ g a = v) ∨ d.get? k = some v := by
  induction l generalizing d with
  | nil => exact .inr h
  | cons a l ih =>
    rcases ih h with ⟨b, hb, hbk⟩ | h
    · exact .inl ⟨b, mem_cons_of_mem a hb, hbk⟩
    · rw [get?_set] at h
      split_ifs at h with hk
      · exact .inl ⟨a, (.head _), hk.symm, Option.some.inj h⟩
      · exact .inr h

lemma get?_foldl_erase (l : List K) (d : OrderedDict K V) (k : K) :
    (l.foldl erase d).get? k = if k ∈ l then none else d.get? k := by
  induction l generalizing d with
  | nil => simp
  | cons a l ih =>
    rw [foldl_cons, ih, get?_erase]
    by_cases hl : k ∈ l
    · rw [if_pos hl, if_pos (mem_cons_of_mem a hl)]
    · rw [if_neg hl]
      by_cases ha : k = a
      · rw [if_pos ha, if_pos (ha ▸ (.head _))]
      · rw [if_neg ha, if_neg (by rw [mem_cons]; exact not_or.mpr ⟨ha, hl⟩)]

/-! ## Chunks -/

omit [DecidableEq K] in
/-- The items `n` at a time: `{k: d[k] for k in keys[lo:lo + n]}` for `lo` in
    `range(0, len(keys), n)`. -/
def chunks (n : Nat) (d : OrderedDict K V) : List (OrderedDict K V) :=
  (List.range ((d.items.length + n - 1) / n)).map (fun i =>
    ⟨(d.items.drop (n * i)).take n,
      d.nodup.sublist (((List.take_sublist n _).trans (List.drop_sublist (n * i) _)).map Prod.fst)⟩)

omit [DecidableEq K] in
lemma mem_chunks {n : Nat} (hn : 0 < n) : (∃ c ∈ d.chunks n, p ∈ c.items) ↔ p ∈ d.items := by
  constructor
  · rintro ⟨c, hc, hp⟩
    obtain ⟨i, -, rfl⟩ := mem_map.mp hc
    exact mem_of_mem_drop (mem_of_mem_take hp)
  · intro hp
    obtain ⟨j, hj, rfl⟩ := mem_iff_getElem.mp hp
    -- the item at `j` is in chunk `j / n`
    have hdiv : n * (j / n) + j % n = j := Nat.div_add_mod j n
    have hmod : j % n < n := Nat.mod_lt j hn
    refine ⟨_, mem_map.mpr ⟨j / n, mem_range.mpr ?_, rfl⟩, ?_⟩
    · rw [Nat.lt_iff_add_one_le, Nat.le_div_iff_mul_le hn, Nat.add_mul, Nat.mul_comm (j / n) n]
      omega
    · refine mem_iff_getElem.mpr ⟨j % n, ?_, ?_⟩
      · rw [length_take, length_drop]; omega
      · rw [getElem_take, getElem_drop]; simp only [hdiv]

end OrderedDict
