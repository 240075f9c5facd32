import Mathlib
import PeerCache.OrderedDictProofs

/-! # Scatter and gather — a batch split over nodes and put together again

    A client that talks to many nodes groups its items by target (`deal`), visits the
    targets one by one (`visit`), and files their answers under the keys they belong to
    (`gather`).  The three lemmas say that the grouping cannot be seen from outside: a
    node takes the items sent to it in their order (`deal_get?`), each node is visited once
    with its own share (`visit_apply`), and the answers come back in the order of the
    question, repeated keys included (`gather_eq`). -/

namespace Scatter

open OrderedDict List

section

variable {A B N S : Type} [DecidableEq N]

/-- Send an item to each of its targets: `shares.setdefault(n, init)`, then add the item. -/
def dealOne (add : B → A → B) (init : B) (x : A) (targets : List N) (shares : OrderedDict N B) :
    OrderedDict N B :=
  targets.foldl (fun shares n => shares.set n (add ((shares.get? n).getD init) x)) shares

/-- The shares of all nodes. -/
def deal (targets : A → List N) (add : B → A → B) (init : B) (xs : List A) : OrderedDict N B :=
  xs.foldl (fun shares x => dealOne add init x (targets x) shares) OrderedDict.empty

/-- The items of a node, in order. -/
def share (targets : A → List N) (n : N) (xs : List A) : List A :=
  xs.filter (fun x => decide (n ∈ targets x))

variable {targets : A → List N} {add : B → A → B} {init : B}

lemma dealOne_get? {ts : List N} (hnd : ts.Nodup) (x : A) (shares : OrderedDict N B) (n : N) :
    (dealOne add init x ts shares).get? n
      = if n ∈ ts then some (add ((shares.get? n).getD init) x) else shares.get? n := by
  induction ts generalizing shares with
  | nil => rfl
  | cons m ts ih =>
    obtain ⟨hm, hnd'⟩ := nodup_cons.mp hnd
    have hrest := ih hnd' (shares.set m (add ((shares.get? m).getD init) x))
    rw [get?_set] at hrest
    rw [dealOne, foldl_cons]
    refine hrest.trans ?_
    by_cases hnm : n = m
    · subst hnm
      rw [if_neg hm, if_pos rfl, if_pos mem_cons_self]
    · rw [if_neg hnm]
      exact if_congr (by rw [mem_cons]; exact (or_iff_right hnm).symm) rfl rfl

lemma foldl_dealOne_get? (hnd : ∀ x, (targets x).Nodup) (xs : List A) (shares : OrderedDict N B)
    (n : N) :
    (xs.foldl (fun shares x => dealOne add init x (targets x) shares) shares).get? n
      = if share targets n xs = [] then shares.get? n
        else some ((share targets n xs).foldl add ((shares.get? n).getD init)) := by
  induction xs generalizing shares with
  | nil => rfl
  | cons x xs ih =>
    rw [foldl_cons, ih, dealOne_get? (hnd x)]
    by_cases hx : n ∈ targets x
    · have hshare : share targets n (x :: xs) = x :: share targets n xs :=
        filter_cons_of_pos (decide_eq_true hx)
      rw [if_pos hx, hshare, if_neg (cons_ne_nil _ _), foldl_cons, Option.getD_some]
      by_cases hrest : share targets n xs = []
      · rw [if_pos hrest, hrest]; rfl
      · rw [if_neg hrest]
    · have hshare : share targets n (x :: xs) = share targets n xs :=
        filter_cons_of_neg (by simpa using hx)
      rw [if_neg hx, hshare]

/-- **A SHARE** is made of the node's items in their order. -/
lemma deal_get? (hnd : ∀ x, (targets x).Nodup) (xs : List A) (n : N) :
    (deal targets add init xs).get? n
      = if share targets n xs = [] then none else some ((share targets n xs).foldl add init) := by
  rw [deal, foldl_dealOne_get? hnd]
  rfl

/-- Visit the nodes of the shares in turn; each acts on its own state. -/
def visit (act : N → B → S → S) (shares : OrderedDict N B) (states : N → S) : N → S :=
  shares.items.foldl (fun states p => Function.update states p.1 (act p.1 p.2 (states p.1))) states

lemma foldl_visit (act : N → B → S → S) (items : List (N × B)) (hnd : (items.map Prod.fst).Nodup)
    (states : N → S) (n : N) :
    items.foldl (fun states p => Function.update states p.1 (act p.1 p.2 (states p.1))) states n
      = (items.lookup n).elim (states n) (fun b => act n b (states n)) := by
  induction items generalizing states with
  | nil => rfl
  | cons p items ih =>
    obtain ⟨m, b⟩ := p
    obtain ⟨hm, hnd'⟩ := nodup_cons.mp hnd
    rw [foldl_cons, ih hnd', lookup_cons]
    by_cases hnm : n = m
    · subst hnm
      have hnone : items.lookup n = none := get?_eq_none (d := ⟨items, hnd'⟩) |>.mpr hm
      rw [hnone, Function.update_self, beq_self_eq_true]
      rfl
    · have hb : (n == m) = false := by simpa using hnm
      rw [Function.update_of_ne hnm, hb]

/-- **A VISIT** gives every node its own share, once. -/
lemma visit_apply (act : N → B → S → S) (shares : OrderedDict N B) (states : N → S) (n : N) :
    visit act shares states n = (shares.get? n).elim (states n) (fun b => act n b (states n)) :=
  foldl_visit act shares.items shares.nodup states n

end

section

variable {K N : Type} [DecidableEq N]

/-- Group keys by their home. -/
def groups (home : K → Option N) (keys : List K) : OrderedDict N (List K) :=
  deal (fun k => (home k).toList) (fun g k => g ++ [k]) [] keys

/-- The keys at a home, in order. -/
def groupOf (home : K → Option N) (keys : List K) (n : N) : List K :=
  keys.filter (fun k => decide (home k = some n))

variable {home : K → Option N}

lemma share_home (home : K → Option N) (n : N) (keys : List K) :
    share (fun k => (home k).toList) n keys = groupOf home keys n := by
  refine filter_congr ?_
  intro k _
  simp only [Option.mem_toList]

lemma groups_get? (home : K → Option N) (keys : List K) (n : N) : (groups home keys).get? n
      = if groupOf home keys n = [] then none else some (groupOf home keys n) := by
  have hnd : ∀ k, ((home k).toList).Nodup := by
    intro k
    cases home k with
    | none => exact nodup_nil
    | some n => exact nodup_singleton n
  rw [groups, deal_get? hnd, share_home]
  refine if_congr Iff.rfl rfl (congrArg some ?_)
  exact foldl_append_eq_append.trans (flatMap_singleton' _)

lemma mem_groups {keys : List K} {p : N × List K} (h : p ∈ (groups home keys).items) :
    p.2 = groupOf home keys p.1 ∧ p.2 ≠ [] := by
  have hget := get?_eq_some.mpr h
  rw [groups_get?] at hget
  by_cases hnil : groupOf home keys p.1 = []
  · rw [if_pos hnil] at hget; cases hget
  · rw [if_neg hnil] at hget
    have heq := (Option.some.inj hget).symm
    exact ⟨heq, heq ▸ hnil⟩

lemma mem_groupOf {keys : List K} {n : N} {k : K} :
    k ∈ groupOf home keys n ↔ k ∈ keys ∧ home k = some n := by
  rw [groupOf, mem_filter, decide_eq_true_eq]

end

section

variable {K N V : Type} [DecidableEq K] {home : K → Option N} {default : V}
  {answer : N → List K → List V}

/-- File the answers of one group under its keys. -/
def file (result : OrderedDict K V) (group : List K) (answers : List V) : OrderedDict K V :=
  (group.zip answers).foldl (fun result p => result.set p.1 p.2) result

/-- File the answers of all groups. -/
def fileAll (answer : N → List K → List V) (gs : List (N × List K)) (result : OrderedDict K V) :
    OrderedDict K V :=
  gs.foldl (fun result g => file result g.2 (answer g.1 g.2)) result

lemma file_map_get? (f : K → V) (group : List K) (result : OrderedDict K V) (k : K) :
    (file result group (group.map f)).get? k = if k ∈ group then some (f k) else result.get? k := by
  induction group generalizing result with
  | nil => rfl
  | cons j group ih =>
    have hrest := ih (result.set j (f j))
    rw [file, map_cons, zip_cons_cons, foldl_cons]
    refine hrest.trans ?_
    rw [get?_set]
    by_cases hmem : k ∈ group
    · rw [if_pos hmem, if_pos (mem_cons_of_mem j hmem)]
    · rw [if_neg hmem]
      by_cases hkj : k = j
      · rw [if_pos hkj, if_pos (hkj ▸ (.head _)), hkj]
      · rw [if_neg hkj, if_neg (by rw [mem_cons]; exact not_or.mpr ⟨hkj, hmem⟩)]

/-- A group is answered: a value for each key, or, where the default is right for all of them,
    nothing. -/
def Answered (default : V) (f : K → V) (g : List K) (answers : List V) : Prop :=
  answers = g.map f ∨ (answers = [] ∧ ∀ k ∈ g, f k = default)

lemma file_answer {f : K → V} {g : List K} {answers : List V} (hf : Answered default f g answers)
    (result : OrderedDict K V) (hnew : ∀ k ∈ g, (result.get? k).getD default = default) (k : K) :
    ((file result g answers).get? k).getD default
      = if k ∈ g then f k else (result.get? k).getD default := by
  rcases hf with heq | ⟨hnil, hdef⟩
  · rw [heq, file_map_get?]
    by_cases hk : k ∈ g
    · rw [if_pos hk, if_pos hk]; rfl
    · rw [if_neg hk, if_neg hk]
  · rw [hnil, file, zip_nil_right, foldl_nil]
    by_cases hk : k ∈ g
    · rw [if_pos hk, hdef k hk, hnew k hk]
    · rw [if_neg hk]

variable {f : N → K → V}

lemma fileAll_getD (gs : List (N × List K)) (hnd : (gs.map Prod.fst).Nodup)
    (hhome : ∀ p ∈ gs, ∀ k ∈ p.2, home k = some p.1)
    (hf : ∀ p ∈ gs, Answered default (f p.1) p.2 (answer p.1 p.2)) (result : OrderedDict K V)
    (hnew : ∀ p ∈ gs, ∀ k ∈ p.2, (result.get? k).getD default = default) :
    (∀ p ∈ gs, ∀ k ∈ p.2, ((fileAll answer gs result).get? k).getD default = f p.1 k)
      ∧ ∀ k, (∀ p ∈ gs, k ∉ p.2) →
        ((fileAll answer gs result).get? k).getD default = (result.get? k).getD default := by
  induction gs generalizing result with
  | nil => exact ⟨forall_mem_nil _, fun _ _ => rfl⟩
  | cons q gs ih =>
    obtain ⟨n, g⟩ := q
    obtain ⟨hn, hnd'⟩ := nodup_cons.mp hnd
    have hfile := file_answer (hf _ (.head _)) result (hnew _ (.head _))
    -- a key of a later group is not at home here
    have hlater : ∀ p ∈ gs, ∀ k ∈ p.2, k ∉ g := by
      intro p hp k hk hkg
      have hpn : p.1 = n := Option.some.inj
        ((hhome p (.tail _ hp) k hk).symm.trans (hhome _ (.head _) k hkg))
      exact hn (mem_map.mpr ⟨p, hp, hpn⟩)
    obtain ⟨hin, hout⟩ := ih hnd' (fun p hp => hhome p (.tail _ hp))
      (fun p hp => hf p (.tail _ hp)) (file result g (answer n g)) (by
        intro p hp k hk
        rw [hfile, if_neg (hlater p hp k hk)]
        exact hnew p (.tail _ hp) k hk)
    refine ⟨?_, ?_⟩
    · intro p hp k hk
      rcases mem_cons.mp hp with rfl | hp
      · refine (hout k (fun p hp hkp => hlater p hp k hkp hk)).trans ?_
        rw [hfile, if_pos hk]
      · exact hin p hp k hk
    · intro k hk
      refine (hout k (fun p hp => hk p (.tail _ hp))).trans ?_
      rw [hfile, if_neg (hk _ (.head _))]

lemma foldl_default_getD (keys : List K) (result : OrderedDict K V)
    (h : ∀ k, (result.get? k).getD default = default) (k : K) :
    ((keys.foldl (fun result k => result.set k default) result).get? k).getD default = default := by
  induction keys generalizing result with
  | nil => exact h k
  | cons j keys ih =>
    refine ih (result.set j default) ?_
    intro k
    rw [get?_set]
    split_ifs with hkj
    · rfl
    · exact h k

/-- Ask the home of every group and read the results back in the order of the keys. -/
def gather (gs : OrderedDict N (List K)) (default : V) (answer : N → List K → List V)
    (keys : List K) : List V :=
  let result := fileAll answer gs.items
    (keys.foldl (fun result k => result.set k default) OrderedDict.empty)
  keys.map (fun k => (result.get? k).getD default)

variable [DecidableEq N]

/-- **GATHER** answers every key by its own home, if each home answers its group. -/
lemma gather_eq {keys : List K} (hf : ∀ n, groupOf home keys n ≠ [] →
      Answered default (f n) (groupOf home keys n) (answer n (groupOf home keys n))) :
    gather (groups home keys) default answer keys
      = keys.map (fun k => (home k).elim default (fun n => f n k)) := by
  have hgroup : ∀ p ∈ (groups home keys).items, p.2 = groupOf home keys p.1 ∧ p.2 ≠ [] :=
    fun p hp => mem_groups hp
  obtain ⟨hin, hout⟩ := fileAll_getD (groups home keys).items (groups home keys).nodup (by
      intro p hp k hk
      rw [(hgroup p hp).1] at hk
      exact (mem_groupOf.mp hk).2)
    (by
      intro p hp
      obtain ⟨heq, hne⟩ := hgroup p hp
      rw [heq] at hne ⊢
      exact hf p.1 hne)
    (keys.foldl (fun result k => result.set k default) OrderedDict.empty)
    (fun p _ k _ => foldl_default_getD keys OrderedDict.empty (fun _ => rfl) k)
  refine map_congr_left ?_
  intro k hk
  cases hn : home k with
  | none =>
    refine (hout k ?_).trans (foldl_default_getD keys OrderedDict.empty (fun _ => rfl) k)
    intro p hp hkp
    rw [(hgroup p hp).1] at hkp
    cases hn.symm.trans (mem_groupOf.mp hkp).2
  | some n =>
    have hmem : k ∈ groupOf home keys n := mem_groupOf.mpr ⟨hk, hn⟩
    have hitem : (n, groupOf home keys n) ∈ (groups home keys).items := by
      refine get?_eq_some.mp ?_
      rw [groups_get?, if_neg (ne_nil_of_mem hmem)]
    exact hin (n, groupOf home keys n) hitem k hmem

end

end Scatter
