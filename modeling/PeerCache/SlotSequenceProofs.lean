import PeerCache.SlotRunProofs

/-! # Which writes move a slot's sequence number forward

    A reader that sees a larger even number in a slot should be looking at a newer page.
    The two writers count differently.  The owner takes the next number of its private
    table, which remote writes never touch.  A remote writer takes the next even number
    over the MINIMUM of the bucket, whatever the slot it writes held. -/

namespace PeerCacheSlot

open Transition WayClaims Option

variable {H : SlotHash} {g : SlotGeometry}

/-! ## A run, write by write -/

/-- One write: an own page, or one page of a remote batch. -/
inductive SlotPut where
  | own (node key : String) (data : Bytes)
  | sent (page : RemotePage)

variable (H g) in
/-- One write, as the call that makes only this one. -/
def putStep (c : Cluster) : SlotPut → Option Cluster
  | .own node key data => clusterStep H g c (.writeLocal node key data)
  | .sent page => clusterStep H g c (.publish [page])

/-- The writes of a call, in order. -/
def ClusterOp.puts : ClusterOp → List SlotPut
  | .writeLocal node key data => [.own node key data]
  | .publish pages => pages.map .sent

lemma run_sent {pages : List RemotePage} (hfit : ∀ p ∈ pages, p.Fits g) :
    ∀ {c : Cluster} {ws : List SlotWrite}, planBatch H g c pages = some ws →
      run (putStep H g) c (pages.map .sent) = some (applyWrites g c ws) := by
  induction pages with
  | nil =>
    intro c ws hws
    cases hws
    rfl
  | cons p pages ih =>
    intro c ws hws
    obtain ⟨x, ws', rfl, rfl, hlive, hrest⟩ := planBatch_cons hfit hws
    obtain ⟨hp, hpages⟩ := List.forall_mem_cons.mp hfit
    obtain ⟨seq, hpick, henc⟩ := hlive.stamped
    -- the plan of the single page is its first write
    have hone : planBatch H g c [x.page] = some [x] := by
      have hself := pickWay_overlay (H := H) (overlaid_refl (g := g) c) x.page.owner
        (g.bucketIndex H x.page.key) x.page.key
      rw [← hlive.bucket, hpick] at hself
      rw [planBatch, List.map_singleton, planWrites, ← hlive.bucket, hself]
      show (encodeHeader H x.page.key x.page.data.length seq).bind _ = _
      rw [henc, bind_some, planWrites]
      rfl
    have hsingle : ∀ q ∈ [x.page], q.Fits g := by
      intro q hq
      rw [List.mem_singleton.mp hq]
      exact hp
    rw [List.map_cons, run, putStep, clusterStep, if_pos hsingle, publishRemote, hone]
    exact ih hpages hrest

variable {c c' : Cluster}

lemma run_puts {ops : List ClusterOp} (h : run (clusterStep H g) c ops = some c') :
    run (putStep H g) c (ops.flatMap ClusterOp.puts) = some c' := by
  induction ops generalizing c with
  | nil => exact h
  | cons op ops ih =>
    obtain ⟨u, hu, hrest⟩ := run_cons h
    have hop : run (putStep H g) c op.puts = some u := by
      cases op with
      | writeLocal node key data =>
        show (clusterStep H g c (.writeLocal node key data)).bind some = some u
        rw [hu]
        rfl
      | publish pages =>
        rw [clusterStep] at hu
        by_cases hfit : ∀ p ∈ pages, p.Fits g
        · rw [if_pos hfit] at hu
          obtain ⟨ws, hws, rfl⟩ := map_eq_some_iff.mp hu
          exact run_sent hfit hws
        · rw [if_neg hfit] at hu; cases hu
    rw [List.flatMap_cons, run_append, hop]
    exact ih hrest

/-! ## The slot a write goes to -/

variable (H g) in
/-- The node, bucket and way that the chooser of the write picks. -/
def SlotPut.slot (c : Cluster) : SlotPut → String × Nat × Nat
  | .own node key _ => (node, g.bucketIndex H key, (pickWay H g (c node) key).2)
  | .sent page => (page.owner, g.bucketIndex H page.key,
      (pickWayFromBucket H g (readBucket g (c page.owner).mem (g.bucketIndex H page.key)) page.key).1)

/-- `write_local` refuses a page that is too big, and then writes nothing. -/
def SlotPut.Writes (g : SlotGeometry) : SlotPut → Prop
  | .own _ _ data => data.length ≤ g.maxPayload
  | .sent _ => True

/-- **A STEP FORWARD**: if the slot holds a valid header, the number stamped on it is even and
    greater than the one it held. -/
def StampsForward (H : SlotHash) (g : SlotGeometry) (c : Cluster) (x : SlotPut) (c' : Cluster) :
    Prop :=
  let (node, b, w) := x.slot H g c
  x.Writes g → headerKey (headerAt g (c node).mem b w) ≠ none →
    headerSeq (headerAt g (c' node).mem b w) % 2 = 0
      ∧ headerSeq (headerAt g (c node).mem b w) < headerSeq (headerAt g (c' node).mem b w)

/-- **IN STEP**, of the state before the write.  An own page: where the key is held, or, in a
    bucket of other keys with no empty way, where the table is least and first, the header is
    not ahead of the table.  A sent page: where the key is held, the header is the least of
    the bucket. -/
def InStep (H : SlotHash) (g : SlotGeometry) (c : Cluster) : SlotPut → Prop
  | .own node key data =>
      data.length ≤ g.maxPayload → ∀ w < g.ways,
        headerKey (headerAt g (c node).mem (g.bucketIndex H key) w) = some (H.keyHash128 key)
          ∨ ((∀ v < g.ways,
                headerKey (headerAt g (c node).mem (g.bucketIndex H key) v) ≠ some (H.keyHash128 key)
                ∧ headerKey (headerAt g (c node).mem (g.bucketIndex H key) v) ≠ none)
              ∧ ∀ v < g.ways, (c node).seqOf (g.bucketIndex H key) w ≤ (c node).seqOf (g.bucketIndex H key) v
                ∧ (v < w → (c node).seqOf (g.bucketIndex H key) w < (c node).seqOf (g.bucketIndex H key) v)) →
        headerSeq (headerAt g (c node).mem (g.bucketIndex H key) w)
          ≤ (c node).seqOf (g.bucketIndex H key) w
  | .sent page =>
      ∀ w < g.ways,
        headerKey (headerAt g (c page.owner).mem (g.bucketIndex H page.key) w)
          = some (H.keyHash128 page.key) →
        ∀ v < g.ways, headerSeq (headerAt g (c page.owner).mem (g.bucketIndex H page.key) w)
          ≤ headerSeq (headerAt g (c page.owner).mem (g.bucketIndex H page.key) v)

/-- **AN OWN PAGE** moves its slot forward exactly when it is in step. -/
lemma own_forward_iff {node key : String} {data : Bytes} (h : ClusterOk g c)
    (hstep : putStep H g c (.own node key data) = some c') :
    StampsForward H g c (.own node key data) c' ↔ InStep H g c (.own node key data) := by
  obtain ⟨⟨off, r'⟩, hw, rfl⟩ := map_eq_some_iff.mp hstep
  have hok := h node
  have hchoice := pickWay_chooses (H := H) (g := g) (c node) key
  rw [StampsForward, InStep]
  simp only [SlotPut.slot, SlotPut.Writes, Function.update_self]
  refine forall_congr' fun hfit => ?_
  rcases writeLocal_cases hw with ⟨hbig, -, -⟩ | ⟨-, hdr, henc, hst, -⟩
  · omega
  · generalize (pickWay H g (c node) key).2 = way at hchoice henc hst ⊢
    generalize g.bucketIndex H key = b at hchoice henc hst ⊢
    have hbook := hok.book b way
    have heven := hok.even b way hchoice.lt
    have hnext : nextSeq ((c node).seqOf b way) = (c node).seqOf b way + 2 := if_pos hbook
    rw [hst.header, (headerKey_stamp henc).2, hnext]
    have hover := hchoice.overwrites_iff (fun u hu v hv => hok.own_unique b hu hv)
      (P := fun u => headerSeq (headerAt g (c node).mem b u) ≤ (c node).seqOf b u)
    simp only [ownWays_key, ownWays_seq] at hover
    refine Iff.trans (forall_congr' fun _ => ?_) hover
    -- all numbers are even, so at most two ahead is not ahead
    constructor
    · intro hfwd; omega
    · intro hle; omega

/-- **A SENT PAGE** moves its slot forward exactly when it is in step. -/
lemma sent_forward_iff {page : RemotePage} (h : ClusterOk g c)
    (hstep : putStep H g c (.sent page) = some c') :
    StampsForward H g c (.sent page) c' ↔ InStep H g c (.sent page) := by
  have hok := h page.owner
  rw [putStep, clusterStep] at hstep
  by_cases hfit : ∀ p ∈ [page], p.Fits g
  · rw [if_pos hfit] at hstep
    obtain ⟨ws, hws, rfl⟩ := map_eq_some_iff.mp hstep
    obtain ⟨x, ws', rfl, rfl, hlive, hrest⟩ := planBatch_cons hfit hws
    cases hrest
    have hp : x.page.Fits g := hfit x.page (List.mem_singleton.mpr rfl)
    obtain ⟨seq, hpick, henc⟩ := hlive.stamped
    have hclaim := pickWayFromBucket_live (H := H) (g := g) (c x.page.owner) x.bucket x.page.key
    have hst := hlive.lands hp
    have hmem : (applyWrites g c [x] x.page.owner).mem = x.apply g (c x.page.owner).mem := by
      show (Function.update c x.page.owner _ x.page.owner).mem = _
      rw [Function.update_self]
    rw [StampsForward, InStep]
    simp only [SlotPut.slot, SlotPut.Writes, ← hlive.bucket, hpick, true_imp_iff]
    rw [hpick] at hclaim
    rw [hmem, hst.header, (headerKey_stamp henc).2]
    have heven : ∀ v < g.ways, (bucketWays g (c x.page.owner) x.bucket).seq v % 2 = 0 := by
      intro v hv
      rw [bucketWays, waysOf_seq]
      exact hok.even x.bucket v hv
    have hforward := hclaim.forward_iff heven
      (fun u hu v hv => (hok.tidy x.bucket).unique u hu v hv _)
    simp only [bucketWays, waysOf_key, waysOf_seq] at hforward
    exact hforward
  · rw [if_neg hfit] at hstep; cases hstep

/-! ## The main result -/

lemma run_puts_ok {xs : List SlotPut} (hrun : run (putStep H g) Cluster.zero xs = some c) :
    ClusterOk g c := by
  have hstep : ∀ c x c', x ∈ xs → ClusterOk g c → True → putStep H g c x = some c' →
      ClusterOk g c' := by
    intro c x c' _ h _ hs
    cases x with
    | own node key data | sent page =>
      rw [putStep] at hs
      exact clusterStep_ok h hs
  exact run_invariant hstep (fun _ => slotsOk_zero) (guarded_trivial _ xs) hrun

/-- **SEQUENCE NUMBERS MOVE FORWARD EXACTLY AT THE WRITES THAT ARE IN STEP.**  In every run of
    local writes and remote batches, one at a time, take any write: in the state `s` that the
    writes before it leave, it stamps an even number greater than the one of the valid slot it
    goes to if and only if it is in step with that state.  So a run whose writes are all in
    step only moves forward. -/
theorem stamps_forward_iff (H : SlotHash) (g : SlotGeometry) {ops : List ClusterOp} {c : Cluster}
    (hrun : run (clusterStep H g) Cluster.zero ops = some c) (before after : List SlotPut)
    (x : SlotPut) (hsplit : ops.flatMap ClusterOp.puts = before ++ x :: after) :
    ∃ s t, run (putStep H g) Cluster.zero before = some s ∧ putStep H g s x = some t
      ∧ (StampsForward H g s x t ↔ InStep H g s x) := by
  have hputs := run_puts hrun
  rw [hsplit, run_append] at hputs
  obtain ⟨s, hs, hrest⟩ := Option.bind_eq_some_iff.mp hputs
  obtain ⟨t, ht, -⟩ := run_cons hrest
  refine ⟨s, t, hs, ht, ?_⟩
  cases x with
  | own node key data => exact own_forward_iff (run_puts_ok hs) ht
  | sent page => exact sent_forward_iff (run_puts_ok hs) ht

/-- A page written twice by its owner: the second write is in step, and moves the slot forward. -/
theorem stamps_forward_iff_own_twice :
    ∃ s t, run (putStep twoKeyHash oneSlot) Cluster.zero [.own "n" "a" [1]] = some s
      ∧ putStep twoKeyHash oneSlot s (.own "n" "a" [2]) = some t
      ∧ InStep twoKeyHash oneSlot s (.own "n" "a" [2])
      ∧ StampsForward twoKeyHash oneSlot s (.own "n" "a" [2]) t := by
  have hrun : (run (clusterStep twoKeyHash oneSlot) Cluster.zero
      [.writeLocal "n" "a" [1], .writeLocal "n" "a" [2]]).isSome = true := by decide +kernel
  obtain ⟨c, hc⟩ := Option.isSome_iff_exists.mp hrun
  obtain ⟨s, t, hs, ht, hiff⟩ :=
    stamps_forward_iff twoKeyHash oneSlot hc [.own "n" "a" [1]] [] (.own "n" "a" [2]) rfl
  have hobs : (run (putStep twoKeyHash oneSlot) Cluster.zero [.own "n" "a" [1]]).map (fun s =>
      (headerSeq (headerAt oneSlot (s "n").mem 0 0), (s "n").seqOf 0 0)) = some (2, 2) := by
    decide +kernel
  rw [hs] at hobs
  obtain ⟨hheader, htable⟩ := Prod.mk.inj (Option.some.inj hobs)
  have hin : InStep twoKeyHash oneSlot s (.own "n" "a" [2]) := by
    intro _ w hw _
    obtain rfl : w = 0 := Nat.lt_one_iff.mp hw
    exact (hheader.trans htable.symm).le
  exact ⟨s, t, hs, ht, hin, hiff.mpr hin⟩

/-- The owner has written the page twice, then another node sends it: the slot goes from 4
    back to 2, because the other way of the bucket is empty. -/
theorem stamps_backward :
    ∃ s t, run (putStep twoKeyHash twoWays) Cluster.zero
        [.own "n" "a" [1], .own "n" "a" [1]] = some s
      ∧ putStep twoKeyHash twoWays s (.sent ⟨0, "a", "n", [2]⟩) = some t
      ∧ headerSeq (headerAt twoWays (s "n").mem 0 0) = 4
      ∧ headerSeq (headerAt twoWays (t "n").mem 0 0) = 2
      ∧ ¬ StampsForward twoKeyHash twoWays s (.sent ⟨0, "a", "n", [2]⟩) t := by
  have hrun : ((run (putStep twoKeyHash twoWays) Cluster.zero
        [.own "n" "a" [1], .own "n" "a" [1]]).bind fun s =>
      (putStep twoKeyHash twoWays s (.sent ⟨0, "a", "n", [2]⟩)).map fun t =>
        (SlotPut.slot twoKeyHash twoWays s (.sent ⟨0, "a", "n", [2]⟩),
          headerKey (headerAt twoWays (s "n").mem 0 0),
          headerSeq (headerAt twoWays (s "n").mem 0 0),
          headerSeq (headerAt twoWays (t "n").mem 0 0)))
      = some (("n", 0, 0), some (1, 0), 4, 2) := by decide +kernel
  obtain ⟨s, hs, hrun⟩ := Option.bind_eq_some_iff.mp hrun
  obtain ⟨t, ht, hobs⟩ := Option.map_eq_some_iff.mp hrun
  obtain ⟨hslot, hobs⟩ := Prod.mk.inj hobs
  obtain ⟨hkey, hobs⟩ := Prod.mk.inj hobs
  obtain ⟨hold, hnew⟩ := Prod.mk.inj hobs
  refine ⟨s, t, hs, ht, hold, hnew, ?_⟩
  rw [StampsForward, hslot]
  intro h
  have hlt := (h trivial (by rw [hkey]; exact Option.some_ne_none _)).2
  rw [hold, hnew] at hlt
  omega

end PeerCacheSlot
