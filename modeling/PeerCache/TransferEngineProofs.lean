import PeerCache.OrderedDictProofs
import PeerCache.SortedMapProofs
import PeerCache.ChannelPoolProofs

/-! # The transfer engine — batches over leased channels

    `TransferEngine` (`transfer_engine.cpp`) runs a batch of reads or writes in groups, one per
    pool: it leases a channel, posts the work requests of the group, drains the completions and
    gives the channel back.  `batch_read_v` and `batch_write_v` do so group by group;
    `batch_read_multi` and `batch_write_multi` lease and post for all groups, in the order of
    their `std::map`, and only then drain. -/

namespace PeerCacheEngine

open PeerCacheChannel Transition Function List

/-! ## Batches -/

/-- `Group`: the ops of a batch that go to one pool.  A multi-rail group has one key for all its
    ops; in the other batches each op brings its own. -/
structure Group where
  rail : Nat
  endpoint : String
  rkey : Option Nat
  idxs : List Nat
deriving DecidableEq

def Group.key (g : Group) : PoolKey := toLex (g.rail, g.endpoint)

/-- The arguments of a batch. -/
inductive Request where
  | vector (write : Bool) (remoteNodes : List String)
      (localAddrs remoteAddrs rkeys lengths : List Nat)
  | multi (write : Bool) (nodeIds : List String) (localAddrs remoteAddrs lengths : List Nat)
      (railEndpoints : OrderedDict String (List String))
      (railRkeys : OrderedDict String (List Nat))

namespace Request

/-- `batch_read_v`; `batch_read` unpacks its requests and calls it. -/
def batchReadV := Request.vector false

def batchWriteV := Request.vector true

def batchReadMulti := Request.multi false

def batchWriteMulti := Request.multi true

def isMulti : Request → Bool
  | .vector .. => false
  | .multi .. => true

/-- `n`, the number of ops and the size of `ok`. -/
def size : Request → Nat
  | .vector _ _ _ _ _ lengths => lengths.length
  | .multi _ _ _ _ lengths _ _ => lengths.length

/-- The pool and the key of op `i` of a multi-rail batch. -/
def place (rails : Nat) (nodeIds : List String) (railEndpoints : OrderedDict String (List String))
    (railRkeys : OrderedDict String (List Nat)) (i : Nat) : Option (Nat × String × Option Nat) :=
  match (nodeIds[i]?).bind railEndpoints.get?, (nodeIds[i]?).bind railRkeys.get? with
  | some eps, some rks =>
      match eps[i % rails]?, rks[i % rails]? with
      | some endpoint, some rkey => some (i % rails, endpoint, some rkey)
      | _, _ =>
          -- fewer rails advertised than this node has: fall back to rail 0
          match eps[0]?, rks[0]? with
          | some endpoint, some rkey => some (0, endpoint, some rkey)
          | _, _ => none
  | _, _ => none

/-- `groups[key]`, with `g.idxs.push_back(i)`; a new group takes the key of its first op. -/
def addOp (place : Nat → Option (Nat × String × Option Nat)) (m : List (PoolKey × Group)) (i : Nat) :
    List (PoolKey × Group) :=
  match place i with
  | none => m
  | some (rail, endpoint, rkey) =>
      SortedMap.alter (toLex (rail, endpoint))
        (fun o => match o with
          | none => ⟨rail, endpoint, rkey, [i]⟩
          | some g => { g with idxs := g.idxs ++ [i] }) m

/-- The loop that sorts the ops into groups. -/
def groupOps (place : Nat → Option (Nat × String × Option Nat)) (n : Nat) : List (PoolKey × Group) :=
  (List.range n).foldl (addOp place) []

/-- The groups of a batch; none when the sizes of the arguments differ. -/
def groups (rails : Nat) : Request → List Group
  | .vector _ remoteNodes localAddrs remoteAddrs rkeys lengths =>
      if remoteNodes.length ≠ lengths.length ∨ localAddrs.length ≠ lengths.length
        ∨ remoteAddrs.length ≠ lengths.length ∨ rkeys.length ≠ lengths.length then []
      else (groupOps (fun i => (remoteNodes[i]?).map (fun node => (0, node, none)))
        lengths.length).map Prod.snd
  | .multi _ nodeIds localAddrs remoteAddrs lengths railEndpoints railRkeys =>
      if rails = 0 ∨ nodeIds.length ≠ lengths.length ∨ localAddrs.length ≠ lengths.length
        ∨ remoteAddrs.length ≠ lengths.length then []
      else (groupOps (place rails nodeIds railEndpoints railRkeys) lengths.length).map Prod.snd

end Request

/-! ## What the groups of a batch are -/

section Groups

variable {place : Nat → Option (Nat × String × Option Nat)}

variable {m : List (PoolKey × Group)}

lemma sorted_addOp (h : SortedMap.Sorted m) (i : Nat) :
    SortedMap.Sorted (Request.addOp place m i) := by
  rw [Request.addOp]
  cases place i with
  | none => exact h
  | some p => exact SortedMap.sorted_alter h _ _

lemma key_addOp (h : ∀ p ∈ m, p.2.key = p.1) (i : Nat) :
    ∀ p ∈ Request.addOp place m i, p.2.key = p.1 := by
  intro p hp
  rw [Request.addOp] at hp
  cases hplace : place i with
  | none => rw [hplace] at hp; exact h p hp
  | some r =>
    rw [hplace] at hp
    rcases SortedMap.mem_alter hp with hp | ⟨o, rfl, ho⟩
    · exact h p hp
    · cases o with
      | none => rfl
      | some g =>
        exact h (_, g) (ho g rfl)

variable (place) in
lemma bag_addOp (m : List (PoolKey × Group)) (i : Nat) :
    ((Request.addOp place m i).flatMap (fun p => p.2.idxs)).Perm (m.flatMap (fun p => p.2.idxs))
      ∨ ((Request.addOp place m i).flatMap (fun p => p.2.idxs)).Perm
        (i :: m.flatMap (fun p => p.2.idxs)) := by
  rw [Request.addOp]
  cases place i with
  | none => exact .inl (List.Perm.refl _)
  | some r =>
    refine .inr (SortedMap.alter_bag rfl ?_ m)
    exact fun g => perm_append_singleton _ _

lemma groupOps_sorted (n : Nat) : SortedMap.Sorted (Request.groupOps place n) :=
  List.foldlRecOn (motive := SortedMap.Sorted) _ _ List.Pairwise.nil
    (fun _ h i _ => sorted_addOp h i)

lemma groupOps_key (n : Nat) : ∀ p ∈ Request.groupOps place n, p.2.key = p.1 :=
  List.foldlRecOn (motive := fun m : List (PoolKey × Group) => ∀ p ∈ m, p.2.key = p.1) _ _
    (forall_mem_nil _) (fun _ h i _ => key_addOp h i)

lemma groupOps_nodup (n : Nat) : ((Request.groupOps place n).flatMap (fun p => p.2.idxs)).Nodup
      ∧ ∀ i ∈ (Request.groupOps place n).flatMap (fun p => p.2.idxs), i < n := by
  induction n with
  | zero => exact ⟨nodup_nil, forall_mem_nil _⟩
  | succ n ih =>
    have heq : Request.groupOps place (n + 1)
        = Request.addOp place (Request.groupOps place n) n := by
      rw [Request.groupOps, range_succ, foldl_append]
      rfl
    rw [heq]
    rcases bag_addOp place (Request.groupOps place n) n with hp | hp
    · refine ⟨hp.nodup_iff.mpr ih.1, ?_⟩
      exact fun i hi => Nat.lt_succ_of_lt (ih.2 i (hp.mem_iff.mp hi))
    · refine ⟨hp.nodup_iff.mpr (nodup_cons.mpr ⟨?_, ih.1⟩), ?_⟩
      · exact fun hn => Nat.lt_irrefl _ (ih.2 n hn)
      · intro i hi
        rcases mem_cons.mp (hp.mem_iff.mp hi) with rfl | hi
        · exact Nat.lt_succ_self _
        · exact Nat.lt_succ_of_lt (ih.2 i hi)

lemma groups_eq (rails : Nat) (r : Request) :
    r.groups rails = [] ∨ ∃ place n, r.groups rails = (Request.groupOps place n).map Prod.snd := by
  cases r with
  | vector write remoteNodes localAddrs remoteAddrs rkeys lengths =>
    rw [Request.groups]
    split_ifs
    · exact .inl rfl
    · exact .inr ⟨_, _, rfl⟩
  | multi write nodeIds localAddrs remoteAddrs lengths railEndpoints railRkeys =>
    rw [Request.groups]
    split_ifs
    · exact .inl rfl
    · exact .inr ⟨_, _, rfl⟩

lemma groups_nodup (rails : Nat) (r : Request) : ((r.groups rails).flatMap Group.idxs).Nodup := by
  rcases groups_eq rails r with h | ⟨place, n, h⟩
  · rw [h]; exact nodup_nil
  · rw [h, flatMap_map]; exact (groupOps_nodup n).1

lemma groups_sorted (rails : Nat) (r : Request) :
    ((r.groups rails).map Group.key).Pairwise (· < ·) := by
  rcases groups_eq rails r with h | ⟨place, n, h⟩
  · rw [h]; exact List.Pairwise.nil
  · have hkeys : (Request.groupOps place n).map (Group.key ∘ Prod.snd)
        = (Request.groupOps place n).map Prod.fst := map_congr_left (groupOps_key n)
    rw [h, map_map, hkeys]
    exact groupOps_sorted n

end Groups

/-- `ibv_send_wr`, with the call that posts it. -/
structure WorkRequest where
  call : Nat
  wrId : Nat
  write : Bool
  localAddr : Nat
  lkey : Nat
  remoteAddr : Nat
  rkey : Nat
  length : Nat
deriving DecidableEq

/-- The work request of op `idx`, as `post_read` and `post_write` fill it in. -/
def Request.workRequest (r : Request) (call : Nat) (g : Group) (idx lkey : Nat) : WorkRequest :=
  match r with
  | .vector write _ localAddrs remoteAddrs rkeys lengths =>
      ⟨call, idx, write, localAddrs.getD idx 0, lkey, remoteAddrs.getD idx 0, rkeys.getD idx 0,
        lengths.getD idx 0⟩
  | .multi write _ localAddrs remoteAddrs lengths _ _ =>
      ⟨call, idx, write, localAddrs.getD idx 0, lkey, remoteAddrs.getD idx 0, g.rkey.getD 0,
        lengths.getD idx 0⟩

lemma workRequest_call (r : Request) (call : Nat) (g : Group) (idx lkey : Nat) :
    (r.workRequest call g idx lkey).call = call := by
  cases r with
  | vector => rfl
  | multi => rfl

lemma workRequest_wrId (r : Request) (call : Nat) (g : Group) (idx lkey : Nat) :
    (r.workRequest call g idx lkey).wrId = idx := by
  cases r with
  | vector => rfl
  | multi => rfl

/-! ## The state -/

/-- `RdmaEndpoint`: the work requests posted and not complete, the completions not yet polled with
    whether their status is `IBV_WC_SUCCESS`, whether the queue pair is in the error state, and
    `wc_errors_`. -/
structure Endpoint where
  outstanding : List WorkRequest
  cq : List (WorkRequest × Bool)
  error : Bool
  wcErrors : Nat

/-- `create` and `connect` -/
def Endpoint.new : Endpoint := ⟨[], [], false, 0⟩

/-- `Leased` -/
structure Leased where
  rail : Nat
  endpoint : String
  ep : Nat
  posted : Nat

def Leased.key (l : Leased) : PoolKey := toLex (l.rail, l.endpoint)

/-- Where a call stands. -/
inductive Pc where
  /-- in `lease`, for the first group to do -/
  | lease
  /-- in `connect_new`, with a slot reserved -/
  | connect (g : Group)
  /-- posting the ops of a group -/
  | post (g : Group) (ep : Nat) (idxs : List Nat) (posted : Nat)
  /-- in `drain` of the first channel leased: completions seen, and among them errors -/
  | drain (seen errs : Nat)
  /-- `drain` has returned -/
  | settle (drained : Bool) (errs : Nat)
  | done

/-- A call in progress: the groups to do, the channels leased, the result so far. -/
structure Call where
  id : Nat
  request : Request
  todo : List Group
  leased : List Leased
  ok : List Bool
  pc : Pc

/-- Where a call goes on when it has dealt with a group.  A multi-rail batch leases for all groups
    before it drains; the other batches drain what they have leased first. -/
def Call.resume (c : Call) : Call :=
  { c with pc := match c.todo, c.leased with
    | [], [] => .done
    | [], _ :: _ => .drain 0 0
    | _ :: _, [] => .lease
    | _ :: _, _ :: _ => if c.request.isMulti then .lease else .drain 0 0 }

/-- **WHERE A CALL GOES ON**: it leases, if it may hold what it has meanwhile; it drains what it has;
    or it is done. -/
lemma Call.resume_cases (c : Call) :
    (c.resume = { c with pc := .lease } ∧ (c.request.isMulti = true ∨ c.leased = []))
      ∨ (c.resume = { c with pc := .drain 0 0 } ∧ c.leased ≠ [])
      ∨ (c.resume = { c with pc := .done } ∧ c.leased = []) := by
  obtain ⟨id, request, todo, leased, ok, pc⟩ := c
  cases todo with
  | nil =>
      cases leased with
      | nil => exact .inr (.inr ⟨rfl, rfl⟩)
      | cons l leased => exact .inr (.inl ⟨rfl, cons_ne_nil l leased⟩)
  | cons g todo =>
      cases leased with
      | nil => exact .inl ⟨rfl, .inr rfl⟩
      | cons l leased =>
          cases h : request.isMulti with
          | true => exact .inl ⟨by simp only [Call.resume, h, if_true], .inl rfl⟩
          | false =>
              refine .inr (.inl ⟨?_, cons_ne_nil l leased⟩)
              simp only [Call.resume, h, Bool.false_eq_true, if_false]

/-- A batch that begins, with its groups in the order in which they are visited. -/
def Call.start (id : Nat) (r : Request) (order : List Group) : Call :=
  Call.resume ⟨id, r, order, [], List.replicate r.size false, .done⟩

/-- A thread: the batches it still has to run, and the one it is running. -/
structure Thread where
  program : List Request
  call : Option Call

structure Engine where
  rails : Nat
  mgr : Manager
  endpoints : PoolKey → Nat → Endpoint
  threads : Nat → Thread
  /-- how many calls have begun -/
  calls : Nat
  posts : List WorkRequest
  /-- the work requests that completed successfully -/
  completed : List WorkRequest
  returned : List (Nat × List Bool)

namespace Engine

/-- An engine with its threads about to run their programs. -/
def new (rails maxChannelsPerPeer : Nat) (programs : Nat → List Request) : Engine where
  rails := rails
  mgr := Manager.new maxChannelsPerPeer
  endpoints := fun _ _ => Endpoint.new
  threads := fun i => ⟨programs i, none⟩
  calls := 0
  posts := []
  completed := []
  returned := []

def setCall (e : Engine) (i : Nat) (call : Option Call) : Engine :=
  { e with threads := Function.update e.threads i { e.threads i with call := call } }

def setEndpoint (e : Engine) (key : PoolKey) (ep : Nat) (q : Endpoint) : Engine :=
  { e with endpoints := Function.update e.endpoints key (Function.update (e.endpoints key) ep q) }

@[simp] lemma setCall_self (e : Engine) (i : Nat) (call : Option Call) :
    ((e.setCall i call).threads i).call = call := by
  simp only [setCall, update_self]

lemma setCall_of_ne (e : Engine) {i j : Nat} (hne : j ≠ i) (call : Option Call) :
    (e.setCall i call).threads j = e.threads j := update_of_ne hne _ _

lemma setEndpoint_self (e : Engine) (key : PoolKey) (ep : Nat) (q : Endpoint) :
    (e.setEndpoint key ep q).endpoints key ep = q := by
  simp only [setEndpoint, update_self]

lemma setEndpoint_of_ne (e : Engine) {key key' : PoolKey} {ep ep' : Nat}
    (hne : (key', ep') ≠ (key, ep)) (q : Endpoint) :
    (e.setEndpoint key ep q).endpoints key' ep' = e.endpoints key' ep' := by
  by_cases hkey : key' = key
  · subst hkey
    have hep : ep' ≠ ep := fun hep => hne (by rw [hep])
    simp only [setEndpoint, update_self, update_of_ne hep]
  · simp only [setEndpoint, update_of_ne hkey]

end Engine

/-! ## The steps -/

/-- The work completions of one poll entered into `ok`. -/
def mark (ok : List Bool) (batch : List (WorkRequest × Bool)) : List Bool :=
  batch.foldl (fun ok wc => if wc.2 then ok.set wc.1.wrId true else ok) ok

/-- How many completions have an error status. -/
def errors (batch : List (WorkRequest × Bool)) : Nat := (batch.filter (fun wc => !wc.2)).length

/-- What a thread does next. -/
inductive Move where
  /-- the next batch of the program; `order` is the order in which the groups are visited -/
  | start (order : List Group)
  | lease
  | connected
  | refused
  | threw
  /-- the next op of the group: `lkey_for`, `lkey_for_ensure` give `lkey`, and `ibv_post_send`
      accepts the request or not -/
  | post (lkey : Nat) (accepted : Bool)
  | posted
  | poll (n : Nat)
  /-- `ibv_poll_cq` fails, or finds nothing past the deadline -/
  | giveUp
  | drained
  | settle
  | finish

inductive Act where
  | thread (i : Nat) (mv : Move)
  /-- the fabric completes the `w`-th outstanding work request of a channel -/
  | complete (key : PoolKey) (ep w : Nat) (success : Bool)

/-- A move of a thread inside a call. -/
def advance (e : Engine) (i : Nat) (c : Call) : Move → Option Engine
  | .start _ => none
  | .lease =>
      match c.pc, c.todo with
      | .lease, g :: todo =>
          match (e.mgr.pools g.key).leaseTurn e.mgr.maxChannels, step e.mgr (.lease i g.key) with
          | (.channel ep, _), some m => some (Engine.setCall { e with mgr := m } i
              (some { c with todo := todo, pc := .post g ep g.idxs 0 }))
          | (.connect, _), some m => some (Engine.setCall { e with mgr := m } i
              (some { c with todo := todo, pc := .connect g }))
          | _, _ => none
      | _, _ => none
  | .connected =>
      match c.pc with
      | .connect g => (step e.mgr (.connected i g.key)).map fun m =>
          (Engine.setEndpoint { e with mgr := m } g.key (e.mgr.pools g.key).next Endpoint.new).setCall i
            (some { c with pc := .post g (e.mgr.pools g.key).next g.idxs 0 })
      | _ => none
  | .refused =>
      match c.pc with
      | .connect g => (step e.mgr (.refused i g.key)).map fun m =>
          Engine.setCall { e with mgr := m } i (some c.resume)
      | _ => none
  | .threw =>
      match c.pc with
      | .connect g => (step e.mgr (.threw i g.key)).map fun m =>
          -- the exception leaves the batch; what it has leased is given back by nobody
          Engine.setCall { e with mgr := m } i none
      | _ => none
  | .post lkey accepted =>
      match c.pc with
      | .post g ep (idx :: idxs) posted =>
          if lkey = 0 ∨ accepted = false then
            some (e.setCall i (some { c with pc := .post g ep idxs posted }))
          else
            let wr := c.request.workRequest c.id g idx lkey
            let q := e.endpoints g.key ep
            some ((Engine.setEndpoint { e with posts := wr :: e.posts } g.key ep
                { q with outstanding := q.outstanding ++ [wr] }).setCall i
              (some { c with pc := .post g ep idxs (posted + 1) }))
      | _ => none
  | .posted =>
      match c.pc with
      | .post g ep [] posted => some (e.setCall i
          (some (Call.resume { c with leased := c.leased ++ [⟨g.rail, g.endpoint, ep, posted⟩] })))
      | _ => none
  | .poll n =>
      match c.pc, c.leased with
      | .drain seen errs, l :: _ =>
          let q := e.endpoints l.key l.ep
          if seen < l.posted ∧ 0 < n ∧ n ≤ 16 ∧ n ≤ q.cq.length then
            let batch := q.cq.take n
            some ((e.setEndpoint l.key l.ep
                { q with cq := q.cq.drop n, wcErrors := q.wcErrors + errors batch }).setCall i
              (some { c with ok := mark c.ok batch, pc := .drain (seen + n) (errs + errors batch) }))
          else none
      | _, _ => none
  | .giveUp =>
      match c.pc, c.leased with
      | .drain seen errs, l :: _ =>
          if seen < l.posted then some (e.setCall i (some { c with pc := .settle false errs }))
          else none
      | _, _ => none
  | .drained =>
      match c.pc, c.leased with
      | .drain seen errs, l :: _ =>
          if l.posted ≤ seen then some (e.setCall i (some { c with pc := .settle true errs }))
          else none
      | _, _ => none
  | .settle =>
      match c.pc, c.leased with
      | .settle drained _, l :: leased =>
          (step e.mgr (if drained then .release ⟨i, l.key, l.ep⟩ else .discard ⟨i, l.key, l.ep⟩)).map
            fun m => Engine.setCall { e with mgr := m } i (some (Call.resume { c with leased := leased }))
      | _, _ => none
  | .finish =>
      match c.pc with
      | .done => some (Engine.setCall { e with returned := (c.id, c.ok) :: e.returned } i none)
      | _ => none

/-- The next batch of a thread begins.  `std::map` is visited in the order of its keys, and
    `std::unordered_map` in any order. -/
def begin (e : Engine) (i : Nat) (order : List Group) : Option Engine :=
  match (e.threads i).call, (e.threads i).program with
  | none, r :: program =>
      if order.Perm (r.groups e.rails) ∧ (r.isMulti = true → order = r.groups e.rails) then
        some { e with
          threads := Function.update e.threads i ⟨program, some (Call.start e.calls r order)⟩
          calls := e.calls + 1 }
      else none
  | _, _ => none

/-- The fabric completes a work request of a queue pair that exists.  An error status takes the
    queue pair to the error state, in which nothing succeeds. -/
def complete (e : Engine) (key : PoolKey) (ep w : Nat) (success : Bool) : Option Engine :=
  let q := e.endpoints key ep
  match q.outstanding[w]? with
  | none => none
  | some wr =>
      if ep ∈ (e.mgr.pools key).owned ∧ (success = true → q.error = false) then
        some (Engine.setEndpoint
          { e with completed := if success then wr :: e.completed else e.completed } key ep
          { q with
            outstanding := q.outstanding.eraseIdx w
            cq := q.cq ++ [(wr, success)]
            error := q.error || !success })
      else none

def engineStep (e : Engine) : Act → Option Engine
  | .thread i mv =>
      match mv, (e.threads i).call with
      | .start order, none => begin e i order
      | mv, some c => advance e i c mv
      | _, none => none
  | .complete key ep w success => complete e key ep w success

/-! ## What a move comes to -/

/-- **ONE MOVE** of a thread inside the call `c`: every way it can go, with the section under a
    mutex that it contains. -/
inductive Moved (e : Engine) (i : Nat) (c : Call) : Move → Engine → Prop where
  | channel {g : Group} {todo : List Group} {ep : Nat} {rest : List Nat} {m : Manager}
      (hpc : c.pc = .lease) (htodo : c.todo = g :: todo)
      (hfree : (e.mgr.pools g.key).free = rest ++ [ep])
      (hstep : step e.mgr (.lease i g.key) = some m)
      (hm : m = { e.mgr with
        pools := Function.update e.mgr.pools g.key { e.mgr.pools g.key with free := rest }
        held := ⟨i, g.key, ep⟩ :: e.mgr.held }) :
      Moved e i c .lease (Engine.setCall { e with mgr := m } i
        (some { c with todo := todo, pc := .post g ep g.idxs 0 }))
  | connect {g : Group} {todo : List Group} {m : Manager}
      (hpc : c.pc = .lease) (htodo : c.todo = g :: todo)
      (hstep : step e.mgr (.lease i g.key) = some m)
      (hm : m = { e.mgr with
        pools := Function.update e.mgr.pools g.key
          { e.mgr.pools g.key with created := (e.mgr.pools g.key).created + 1 }
        attempts := (i, g.key) :: e.mgr.attempts }) :
      Moved e i c .lease (Engine.setCall { e with mgr := m } i
        (some { c with todo := todo, pc := .connect g }))
  | connected {g : Group} {m : Manager} (hpc : c.pc = .connect g)
      (hstep : step e.mgr (.connected i g.key) = some m)
      (hm : m = { e.mgr with
        pools := Function.update e.mgr.pools g.key (e.mgr.pools g.key).connected
        held := ⟨i, g.key, (e.mgr.pools g.key).next⟩ :: e.mgr.held
        attempts := e.mgr.attempts.erase (i, g.key) }) :
      Moved e i c .connected
        ((Engine.setEndpoint { e with mgr := m } g.key (e.mgr.pools g.key).next Endpoint.new).setCall i
          (some { c with pc := .post g (e.mgr.pools g.key).next g.idxs 0 }))
  | refused {g : Group} {m : Manager} (hpc : c.pc = .connect g)
      (hstep : step e.mgr (.refused i g.key) = some m)
      (hm : m = { e.mgr with
        pools := Function.update e.mgr.pools g.key (e.mgr.pools g.key).refused
        attempts := e.mgr.attempts.erase (i, g.key) }) :
      Moved e i c .refused (Engine.setCall { e with mgr := m } i (some c.resume))
  | threw {g : Group} {m : Manager} (hpc : c.pc = .connect g)
      (hstep : step e.mgr (.threw i g.key) = some m)
      (hm : m = { e.mgr with
        attempts := e.mgr.attempts.erase (i, g.key)
        thrown := g.key :: e.mgr.thrown }) :
      Moved e i c .threw (Engine.setCall { e with mgr := m } i none)
  | skipped {g : Group} {ep idx posted lkey : Nat} {idxs : List Nat} {accepted : Bool}
      (hpc : c.pc = .post g ep (idx :: idxs) posted) :
      Moved e i c (.post lkey accepted) (e.setCall i (some { c with pc := .post g ep idxs posted }))
  | post {g : Group} {ep idx posted lkey : Nat} {idxs : List Nat} {accepted : Bool}
      (hpc : c.pc = .post g ep (idx :: idxs) posted) :
      Moved e i c (.post lkey accepted)
        ((Engine.setEndpoint { e with posts := c.request.workRequest c.id g idx lkey :: e.posts }
            g.key ep { e.endpoints g.key ep with
              outstanding := (e.endpoints g.key ep).outstanding
                ++ [c.request.workRequest c.id g idx lkey] }).setCall i
          (some { c with pc := .post g ep idxs (posted + 1) }))
  | posted {g : Group} {ep posted : Nat} (hpc : c.pc = .post g ep [] posted) :
      Moved e i c .posted (e.setCall i
        (some (Call.resume { c with leased := c.leased ++ [⟨g.rail, g.endpoint, ep, posted⟩] })))
  | poll {seen errs n : Nat} {l : Leased} {leased : List Leased} (hpc : c.pc = .drain seen errs)
      (hleased : c.leased = l :: leased) (hn : n ≤ (e.endpoints l.key l.ep).cq.length) :
      Moved e i c (.poll n)
        ((e.setEndpoint l.key l.ep { e.endpoints l.key l.ep with
            cq := (e.endpoints l.key l.ep).cq.drop n
            wcErrors := (e.endpoints l.key l.ep).wcErrors
              + errors ((e.endpoints l.key l.ep).cq.take n) }).setCall i
          (some { c with
            ok := mark c.ok ((e.endpoints l.key l.ep).cq.take n)
            pc := .drain (seen + n) (errs + errors ((e.endpoints l.key l.ep).cq.take n)) }))
  | giveUp {seen errs : Nat} {l : Leased} {leased : List Leased} (hpc : c.pc = .drain seen errs)
      (hleased : c.leased = l :: leased) :
      Moved e i c .giveUp (e.setCall i (some { c with pc := .settle false errs }))
  | drained {seen errs : Nat} {l : Leased} {leased : List Leased} (hpc : c.pc = .drain seen errs)
      (hleased : c.leased = l :: leased) (hall : l.posted ≤ seen) :
      Moved e i c .drained (e.setCall i (some { c with pc := .settle true errs }))
  | release {errs : Nat} {l : Leased} {leased : List Leased} {m : Manager}
      (hpc : c.pc = .settle true errs) (hleased : c.leased = l :: leased)
      (hstep : step e.mgr (.release ⟨i, l.key, l.ep⟩) = some m)
      (hm : m = { e.mgr with
        pools := Function.update e.mgr.pools l.key ((e.mgr.pools l.key).release l.ep)
        held := e.mgr.held.erase ⟨i, l.key, l.ep⟩ }) :
      Moved e i c .settle
        (Engine.setCall { e with mgr := m } i (some (Call.resume { c with leased := leased })))
  | discard {errs : Nat} {l : Leased} {leased : List Leased} {m : Manager}
      (hpc : c.pc = .settle false errs) (hleased : c.leased = l :: leased)
      (hstep : step e.mgr (.discard ⟨i, l.key, l.ep⟩) = some m)
      (hm : m = { e.mgr with
        pools := Function.update e.mgr.pools l.key ((e.mgr.pools l.key).discard l.ep)
        held := e.mgr.held.erase ⟨i, l.key, l.ep⟩ }) :
      Moved e i c .settle
        (Engine.setCall { e with mgr := m } i (some (Call.resume { c with leased := leased })))
  | finish (hpc : c.pc = .done) :
      Moved e i c .finish (Engine.setCall { e with returned := (c.id, c.ok) :: e.returned } i none)

lemma some_of_guard {P : Prop} [Decidable P] {m m' : Manager}
    (h : (if P then some m' else none) = some m) : m = m' := by
  by_cases hp : P
  · rw [if_pos hp] at h; exact (Option.some.inj h).symm
  · rw [if_neg hp] at h; cases h

variable {e e' : Engine}

variable {i : Nat} {c : Call}

lemma moved_lease (h : advance e i c .lease = some e') : Moved e i c .lease e' := by
  cases hpc : c.pc with
  | lease =>
    cases htodo : c.todo with
    | nil => rw [advance, hpc, htodo] at h; cases h
    | cons g todo =>
      simp only [advance, hpc, htodo] at h
      rcases leaseTurn_cases (e.mgr.pools g.key) e.mgr.maxChannels with
        ⟨ep, rest, hfree, heq⟩ | ⟨-, -, heq⟩ | ⟨-, -, heq⟩
      · have hstep : step e.mgr (.lease i g.key) = some { e.mgr with
            pools := update e.mgr.pools g.key { e.mgr.pools g.key with free := rest }
            held := ⟨i, g.key, ep⟩ :: e.mgr.held } := by
          rw [step, heq]
        rw [heq, hstep] at h
        cases h
        exact .channel hpc htodo hfree hstep rfl
      · have hstep : step e.mgr (.lease i g.key) = some { e.mgr with
            pools := update e.mgr.pools g.key
              { e.mgr.pools g.key with created := (e.mgr.pools g.key).created + 1 }
            attempts := (i, g.key) :: e.mgr.attempts } := by
          rw [step, heq]
        rw [heq, hstep] at h
        cases h
        exact .connect hpc htodo hstep rfl
      · rw [heq] at h; cases h
  | connect g | post g ep idxs posted | drain seen errs | done => rw [advance, hpc] at h; cases h
  | settle drained errs => rw [advance, hpc] at h; cases h

lemma moved_of_advance {mv : Move} (h : advance e i c mv = some e') : Moved e i c mv e' := by
  cases mv with
  | start order => cases h
  | lease => exact moved_lease h
  | connected | refused | threw =>
    rw [advance] at h
    split at h
    · obtain ⟨m, hstep, rfl⟩ := Option.map_eq_some_iff.mp h
      constructor
      · assumption
      · exact hstep
      · exact some_of_guard hstep
    · cases h
  | post lkey accepted =>
    rw [advance] at h
    split at h
    · rename_i g ep idx idxs posted hpc
      split_ifs at h
      · cases h; exact .skipped hpc
      · cases h; exact .post hpc
    · cases h
  | posted | finish =>
    rw [advance] at h
    split at h
    · cases h
      constructor
      assumption
    · cases h
  | poll n =>
    rw [advance] at h
    split at h
    · rename_i seen errs l leased hpc hleased
      simp only at h
      split_ifs at h with hguard
      cases h
      exact .poll hpc hleased hguard.2.2.2
    · cases h
  | giveUp | drained =>
    rw [advance] at h
    split at h
    · split_ifs at h
      cases h
      constructor <;> assumption
    · cases h
  | settle =>
    rw [advance] at h
    split at h
    · rename_i drained errs l leased hpc hleased
      obtain ⟨m, hstep, rfl⟩ := Option.map_eq_some_iff.mp h
      cases drained with
      | true => exact .release hpc hleased hstep (some_of_guard hstep)
      | false => exact .discard hpc hleased hstep (some_of_guard hstep)
    · cases h

/-- **EVERY STEP** is a batch that begins, a move inside a call, or a completion. -/
lemma engineStep_cases {a : Act} (h : engineStep e a = some e') :
    (∃ i order r program, a = .thread i (.start order)
        ∧ (e.threads i).call = none ∧ order.Perm (r.groups e.rails)
        ∧ (r.isMulti = true → order = r.groups e.rails)
        ∧ e' = { e with
            threads := update e.threads i ⟨program, some (Call.start e.calls r order)⟩
            calls := e.calls + 1 })
      ∨ (∃ i mv c, a = .thread i mv ∧ (e.threads i).call = some c ∧ Moved e i c mv e')
      ∨ (∃ key ep w success wr, a = .complete key ep w success
        ∧ (e.endpoints key ep).outstanding[w]? = some wr ∧ ep ∈ (e.mgr.pools key).owned
        ∧ e' = Engine.setEndpoint
            { e with completed := if success then wr :: e.completed else e.completed } key ep
            { e.endpoints key ep with
              outstanding := (e.endpoints key ep).outstanding.eraseIdx w
              cq := (e.endpoints key ep).cq ++ [(wr, success)]
              error := (e.endpoints key ep).error || !success }) := by
  cases a with
  | thread i mv =>
      cases hc : (e.threads i).call with
      | some c =>
          simp only [engineStep, hc] at h
          exact .inr (.inl ⟨i, mv, c, rfl, hc, moved_of_advance h⟩)
      | none =>
          cases mv with
          | start order =>
              simp only [engineStep, hc, begin] at h
              split at h
              · rename_i r program hnone hprogram
                split_ifs at h with hguard
                cases h
                exact .inl ⟨i, order, r, program, rfl, hc, hguard.1, hguard.2, rfl⟩
              · cases h
          | lease | connected | refused | threw | post | posted | poll | giveUp | drained | settle
          | finish =>
              simp only [engineStep, hc] at h
              cases h
  | complete key ep w success =>
      rw [engineStep, complete] at h
      cases hw : (e.endpoints key ep).outstanding[w]? with
      | none => simp only [hw] at h; cases h
      | some wr =>
          simp only [hw] at h
          by_cases hguard : ep ∈ (e.mgr.pools key).owned
              ∧ (success = true → (e.endpoints key ep).error = false)
          · rw [if_pos hguard] at h
            cases h
            exact .inr (.inr ⟨key, ep, w, success, wr, rfl, hw, hguard.1, rfl⟩)
          · rw [if_neg hguard] at h; cases h

end PeerCacheEngine
