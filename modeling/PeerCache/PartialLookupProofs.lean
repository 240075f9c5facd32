import Mathlib

/-! # Lookups answered in two parts

    A list of keys is looked up in a first place, which may hold only some of them and may change
    as it is read; the keys it misses are looked up together in a second, and the second answers
    are put where the misses were.  The bookkeeping is a list of missed keys and a parallel list
    of their positions. -/

namespace PartialLookup

open List

variable {S K A : Type}

/-- What the first loop has built: the state of the first place, the answers by position, and the
    misses. -/
structure Scan (S K A : Type) where
  state : S
  out : List (Option A)
  missKeys : List K
  missIdx : List Nat

def scanStep (probe : S → K → Option A × S) (acc : Scan S K A) (ki : K × Nat) : Scan S K A :=
  match (probe acc.state ki.1).1 with
  | some a => ⟨(probe acc.state ki.1).2, acc.out.set ki.2 (some a), acc.missKeys, acc.missIdx⟩
  | none => ⟨(probe acc.state ki.1).2, acc.out, acc.missKeys ++ [ki.1], acc.missIdx ++ [ki.2]⟩

/-- The first loop, over the keys with their positions. -/
def scan (probe : S → K → Option A × S) (s : S) (keys : List K) : Scan S K A :=
  keys.zipIdx.foldl (scanStep probe) ⟨s, List.replicate keys.length none, [], []⟩

/-- The second loop: each answer goes to the position of its miss. -/
def fill (out : List (Option A)) (missIdx : List Nat) (fresh : List (Option A)) : List (Option A) :=
  (missIdx.zip fresh).foldl (fun out p => out.set p.1 p.2) out

/-- The answers, key by key: the first place's, or else `g`'s. -/
def resolve (probe : S → K → Option A × S) (g : K → Option A) : S → List K → List (Option A)
  | _, [] => []
  | s, k :: keys => (probe s k).1.or (g k) :: resolve probe g (probe s k).2 keys

variable {out vals : List (Option A)} {idx : List Nat}

lemma fill_concat (hlen : idx.length = vals.length) (i : Nat) (v : Option A) :
    fill out (idx ++ [i]) (vals ++ [v]) = (fill out idx vals).set i v := by
  unfold fill
  rw [zip_append hlen, foldl_append]
  rfl

lemma fill_set {i : Nat} (hi : i ∉ idx) (v : Option A) :
    fill (out.set i v) idx vals = (fill out idx vals).set i v := by
  induction idx generalizing out vals with
  | nil => rfl
  | cons j idx ih =>
    obtain ⟨hij, hrest⟩ := ne_and_not_mem_of_not_mem_cons hi
    cases vals with
    | nil => rfl
    | cons w vals =>
      show fill ((out.set i v).set j w) idx vals = (fill (out.set j w) idx vals).set i v
      rw [set_comm _ _ hij]
      exact ih hrest

variable (probe : S → K → Option A × S) (g : K → Option A)

lemma fill_scan_from (keys : List K) (acc : Scan S K A) (done : List (Option A))
    (hidx : ∀ i ∈ acc.missIdx, i < done.length) (hlen : acc.missIdx.length = acc.missKeys.length)
    (hfill : fill acc.out acc.missIdx (acc.missKeys.map g)
      = done ++ List.replicate keys.length none) :
    let last := (keys.zipIdx done.length).foldl (scanStep probe) acc
    fill last.out last.missIdx (last.missKeys.map g) = done ++ resolve probe g acc.state keys := by
  induction keys generalizing acc done with
  | nil => exact hfill
  | cons k keys ih =>
      have hput : ∀ v, (done ++ List.replicate (k :: keys).length none).set done.length v
          = (done ++ [v]) ++ List.replicate keys.length none := by
        intro v
        rw [length_cons, replicate_succ, set_append_right _ _ le_rfl, Nat.sub_self,
          set_cons_zero, append_assoc]
        rfl
      have hnext : (k :: keys).zipIdx done.length
          = (k, done.length) :: keys.zipIdx (done ++ [(probe acc.state k).1.or (g k)]).length := by
        rw [zipIdx_cons, length_append]
        rfl
      have hgoal : done ++ resolve probe g acc.state (k :: keys)
          = (done ++ [(probe acc.state k).1.or (g k)])
            ++ resolve probe g (probe acc.state k).2 keys := by
        rw [append_assoc]
        rfl
      rw [hgoal, hnext, foldl_cons]
      have hbound : ∀ i ∈ acc.missIdx, i < (done ++ [(probe acc.state k).1.or (g k)]).length := by
        intro i hi
        have := hidx i hi
        rw [length_append]
        omega
      -- a hit is written at once and no later miss is at its position; a miss is written by `fill`
      cases hp : (probe acc.state k).1 with
      | some a =>
          have hstep : scanStep probe acc (k, done.length)
              = ⟨(probe acc.state k).2, acc.out.set done.length (some a), acc.missKeys,
                acc.missIdx⟩ := by
            simp only [scanStep, hp]
          rw [hp] at hbound
          rw [hstep]
          refine ih _ _ hbound hlen ?_
          rw [fill_set (fun hi => (hidx _ hi).false), hfill, hput]
          rfl
      | none =>
          have hstep : scanStep probe acc (k, done.length)
              = ⟨(probe acc.state k).2, acc.out, acc.missKeys ++ [k],
                acc.missIdx ++ [done.length]⟩ := by
            simp only [scanStep, hp]
          rw [hp] at hbound
          rw [hstep]
          refine ih _ _ ?_ ?_ ?_
          · intro i hi
            rcases mem_append.mp hi with hi | hi
            · exact hbound i hi
            · rw [mem_singleton.mp hi, length_append]
              exact Nat.lt_succ_self _
          · rw [length_append, length_append, hlen]; rfl
          · rw [map_append, map_singleton, fill_concat (by rw [length_map, hlen]),
              hfill, hput]
            rfl

/-- **MERGE**: scanning, and filling the misses with the second answers, answers key by key. -/
lemma fill_scan (s : S) (keys : List K) :
    fill (scan probe s keys).out (scan probe s keys).missIdx ((scan probe s keys).missKeys.map g)
      = resolve probe g s keys :=
  fill_scan_from probe g keys ⟨s, List.replicate keys.length none, [], []⟩ []
    nofun rfl rfl

lemma scan_out_of_no_miss {s : S} {keys : List K} (h : (scan probe s keys).missKeys = []) :
    (scan probe s keys).out = resolve probe g s keys := by
  rw [← fill_scan probe g s keys, h]
  show _ = (((scan probe s keys).missIdx).zip []).foldl _ _
  rw [zip_nil_right]
  rfl

lemma scan_state (s : S) (keys : List K) :
    (scan probe s keys).state = keys.foldl (fun s k => (probe s k).2) s := by
  have hfrom : ∀ (keys : List K) (n : Nat) (acc : Scan S K A),
      ((keys.zipIdx n).foldl (scanStep probe) acc).state
        = keys.foldl (fun s k => (probe s k).2) acc.state := by
    intro keys
    induction keys with
    | nil => exact fun _ _ => rfl
    | cons k keys ih =>
      intro n acc
      have hstep : (scanStep probe acc (k, n)).state = (probe acc.state k).2 := by
        unfold scanStep
        cases (probe acc.state (k, n).1).1 with
        | none => rfl
        | some a => rfl
      rw [zipIdx_cons, foldl_cons, ih, hstep]
      rfl
  exact hfrom keys 0 _

variable {probe g}

/-- **TRANSPARENCY**: a first place that only gives the second's answers does not show. -/
lemma resolve_eq_map {P : S → Prop} (hkeep : ∀ s k, P s → P (probe s k).2)
    (hhit : ∀ s k a, P s → (probe s k).1 = some a → g k = some a) {s : S} (hs : P s)
    (keys : List K) : resolve probe g s keys = keys.map g := by
  induction keys generalizing s with
  | nil => rfl
  | cons k keys ih =>
    rw [resolve, map_cons, ih (hkeep s k hs)]
    cases hp : (probe s k).1 with
    | none => rfl
    | some a => rw [hhit s k a hs hp]; rfl

end PartialLookup
