import PeerCache.ByteStreamProofs

/-! # Exchanges over pooled connections

    Threads ask servers over connections that are kept for later: a thread takes an idle connection
    to the endpoint or opens one, sends one request, reads one answer, and puts the connection back
    or throws it away.  Requests and answers carry no numbers, so an answer is taken for the answer
    to whatever was asked last. -/

namespace PooledExchange

open ByteStream

/-! ## The machine -/

/-- What clients and servers agree on. -/
structure Protocol (B Q : Type) where
  /-- the message of a request, when it has one -/
  encode : Q → Option (List B)
  /-- how much more of a request the server wants -/
  wanted : List B → Nat
  /-- how much more of the answer to a request the client wants -/
  replyWanted : Q → List B → Nat
  /-- the requests whose message the server takes for one -/
  Whole : Q → Prop
  message : ∀ q m, Whole q → encode q = some m → IsMessage wanted m
  starts : 0 < wanted []

/-- A request that was sent, or begun: for whom, on which connection. -/
structure Request (Q I : Type) where
  owner : I
  conn : Nat
  query : Q

/-- A message the server has read, with the numbers on its bytes, and its answer, if it has one. -/
structure Served (B S : Type) where
  conn : Nat
  tags : List Nat
  message : List B
  reply : Option (List B)
  note : S

inductive Pc (B Q : Type) where
  | ready
  /-- the request is sent, and `got` has come back -/
  | waiting (r : Nat) (q : Q) (got : List (B × Nat))

/-- One exchange of a thread. -/
structure Exchange (B Q E I : Type) where
  owner : I
  endpoint : E
  sock : Option Nat
  pc : Pc B Q

structure Net (B Q S E I : Type) where
  maxIdle : E → Nat
  conns : Nat → Conn B
  peer : Nat → Option E
  nextConn : Nat
  /-- the idle connections to each endpoint -/
  idle : E → List Nat
  /-- what each thread is doing -/
  exchanges : Nat → Option (Exchange B Q E I)
  requests : List (Request Q I)
  served : List (Served B S)

inductive Act (B Q S E I : Type) where
  /-- take the idle connection put back last, if there is one -/
  | acquire (i : Nat) (owner : I) (ep : E)
  | connect (i : Nat)
  | send (i : Nat) (q : Q)
  /-- the connection breaks after `k` bytes of the request, and is closed -/
  | sendCut (i : Nat) (q : Q) (k : Nat)
  | recv (i k : Nat)
  /-- close the connection, to begin again on another -/
  | reset (i : Nat)
  /-- the answer is read: keep the connection, if there is room -/
  | release (i : Nat)
  | drop (i : Nat)
  | event (n : Nat) (ev : Conn.Event)
  /-- the server has read a message, and answers it or closes -/
  | serve (n : Nat) (reply : Option (List B)) (note : S)
  /-- close the idle connections to some endpoints -/
  | clear (which : E → Bool)

variable {B Q S E I : Type}

def Net.new (maxIdle : E → Nat) : Net B Q S E I :=
  ⟨maxIdle, fun _ => Conn.new, fun _ => none, 0, fun _ => [], fun _ => none, [], []⟩

/-- The bytes `m` of request `q` are sent on `n`. -/
def Net.sent (net : Net B Q S E I) (owner : I) (n : Nat) (q : Q) (m : List B) : Net B Q S E I :=
  { net with
    conns := Function.update net.conns n ((net.conns n).send (tag m net.requests.length))
    requests := net.requests ++ [⟨owner, n, q⟩] }

def Net.setExchange (net : Net B Q S E I) (i : Nat) (x : Option (Exchange B Q E I)) :
    Net B Q S E I :=
  { net with exchanges := Function.update net.exchanges i x }

lemma of_update {X : Type} {f : Nat → Option X} {i j : Nat} {v : Option X} {y : X}
    (h : Function.update f i v j = some y) : (j = i ∧ v = some y) ∨ (j ≠ i ∧ f j = some y) := by
  by_cases hj : j = i
  · subst hj
    exact .inl ⟨rfl, (Function.update_self j v f).symm.trans h⟩
  · exact .inr ⟨hj, (Function.update_of_ne hj v f).symm.trans h⟩

section Machine

variable [DecidableEq E]

/-- The idle connections after `n` was put back. -/
def Net.kept (net : Net B Q S E I) (ep : E) (n : Nat) : E → List Nat :=
  if (net.idle ep).length < net.maxIdle ep then Function.update net.idle ep (net.idle ep ++ [n])
  else net.idle

def step (P : Protocol B Q) (net : Net B Q S E I) : Act B Q S E I → Option (Net B Q S E I)
  | .acquire i owner ep =>
      match net.exchanges i with
      | none =>
          some { net with
            idle := Function.update net.idle ep (net.idle ep).dropLast
            exchanges := Function.update net.exchanges i
              (some ⟨owner, ep, (net.idle ep).getLast?, .ready⟩) }
      | some _ => none
  | .connect i =>
      match net.exchanges i with
      | some ⟨owner, ep, none, .ready⟩ =>
          some { net with
            peer := Function.update net.peer net.nextConn (some ep)
            nextConn := net.nextConn + 1
            exchanges := Function.update net.exchanges i
              (some ⟨owner, ep, some net.nextConn, .ready⟩) }
      | _ => none
  | .send i q =>
      match net.exchanges i with
      | some ⟨owner, ep, some n, .ready⟩ =>
          (P.encode q).map (fun m => (net.sent owner n q m).setExchange i
            (some ⟨owner, ep, some n, .waiting net.requests.length q []⟩))
      | _ => none
  | .sendCut i q k =>
      match net.exchanges i with
      | some ⟨owner, ep, some n, .ready⟩ =>
          (P.encode q).map (fun m => (net.sent owner n q (m.take k)).setExchange i
            (some ⟨owner, ep, none, .ready⟩))
      | _ => none
  | .recv i k =>
      match net.exchanges i with
      | some ⟨owner, ep, some n, .waiting r q got⟩ =>
          ((net.conns n).recv (P.replyWanted q) got k).map (fun p =>
            { net with
              conns := Function.update net.conns n p.2
              exchanges := Function.update net.exchanges i
                (some ⟨owner, ep, some n, .waiting r q p.1⟩) })
      | _ => none
  | .release i =>
      match net.exchanges i with
      | some ⟨_, ep, some n, .waiting _ q got⟩ =>
          if P.replyWanted q (bytes got) = 0 then
            some { net with
              idle := net.kept ep n
              exchanges := Function.update net.exchanges i none }
          else none
      | _ => none
  | .reset i =>
      (net.exchanges i).map (fun x => net.setExchange i (some ⟨x.owner, x.endpoint, none, .ready⟩))
  | .drop i => (net.exchanges i).map (fun _ => net.setExchange i none)
  | .event n ev =>
      if n < net.nextConn then
        ((net.conns n).event P.wanted ev).map (fun c =>
          { net with conns := Function.update net.conns n c })
      else none
  | .serve n reply note =>
      match (net.conns n).serving with
      | .reading got =>
          if P.wanted (bytes got) = 0 then
            some { net with
              conns := Function.update net.conns n
                ((net.conns n).reply (reply.map (fun t => tag t net.served.length)))
              served := net.served ++ [⟨n, got.map Prod.snd, bytes got, reply, note⟩] }
          else none
      | _ => none
  | .clear which => some { net with idle := fun ep => if which ep then [] else net.idle ep }

/-- The inversion of a step. -/
inductive Stepped (P : Protocol B Q) (net : Net B Q S E I) : Act B Q S E I → Net B Q S E I → Prop
  | acquire {i owner ep} (hx : net.exchanges i = none) :
      Stepped P net (.acquire i owner ep)
        { net with
          idle := Function.update net.idle ep (net.idle ep).dropLast
          exchanges := Function.update net.exchanges i
            (some ⟨owner, ep, (net.idle ep).getLast?, .ready⟩) }
  | connect {i owner ep} (hx : net.exchanges i = some ⟨owner, ep, none, .ready⟩) :
      Stepped P net (.connect i)
        { net with
          peer := Function.update net.peer net.nextConn (some ep)
          nextConn := net.nextConn + 1
          exchanges := Function.update net.exchanges i
            (some ⟨owner, ep, some net.nextConn, .ready⟩) }
  | send {i q owner ep n m} (hx : net.exchanges i = some ⟨owner, ep, some n, .ready⟩)
      (hm : P.encode q = some m) :
      Stepped P net (.send i q) ((net.sent owner n q m).setExchange i
        (some ⟨owner, ep, some n, .waiting net.requests.length q []⟩))
  | sendCut {i q k owner ep n m} (hx : net.exchanges i = some ⟨owner, ep, some n, .ready⟩)
      (hm : P.encode q = some m) :
      Stepped P net (.sendCut i q k) ((net.sent owner n q (m.take k)).setExchange i
        (some ⟨owner, ep, none, .ready⟩))
  | recv {i k owner ep n r q got got' c}
      (hx : net.exchanges i = some ⟨owner, ep, some n, .waiting r q got⟩)
      (hc : (net.conns n).recv (P.replyWanted q) got k = some (got', c)) :
      Stepped P net (.recv i k)
        { net with
          conns := Function.update net.conns n c
          exchanges := Function.update net.exchanges i
            (some ⟨owner, ep, some n, .waiting r q got'⟩) }
  | release {i owner ep n r q got}
      (hx : net.exchanges i = some ⟨owner, ep, some n, .waiting r q got⟩)
      (hdone : P.replyWanted q (bytes got) = 0) :
      Stepped P net (.release i)
        { net with idle := net.kept ep n, exchanges := Function.update net.exchanges i none }
  | reset {i x} (hx : net.exchanges i = some x) :
      Stepped P net (.reset i) (net.setExchange i (some ⟨x.owner, x.endpoint, none, .ready⟩))
  | drop {i x} (hx : net.exchanges i = some x) : Stepped P net (.drop i) (net.setExchange i none)
  | event {n ev c} (hn : n < net.nextConn) (hc : (net.conns n).event P.wanted ev = some c) :
      Stepped P net (.event n ev) { net with conns := Function.update net.conns n c }
  | serve {n reply note got} (hs : (net.conns n).serving = .reading got)
      (hw : P.wanted (bytes got) = 0) :
      Stepped P net (.serve n reply note)
        { net with
          conns := Function.update net.conns n
            ((net.conns n).reply (reply.map (fun t => tag t net.served.length)))
          served := net.served ++ [⟨n, got.map Prod.snd, bytes got, reply, note⟩] }
  | clear {which} : Stepped P net (.clear which)
      { net with idle := fun ep => if which ep then [] else net.idle ep }

lemma stepped_of_step {P : Protocol B Q} {net net' : Net B Q S E I} {a : Act B Q S E I}
    (h : step P net a = some net') : Stepped P net a net' := by
  cases a with
  | acquire i owner ep =>
    rw [step] at h
    split at h
    · next hx =>
        cases h
        exact .acquire hx
    · cases h
  | connect i =>
    rw [step] at h
    split at h
    · next hx =>
        cases h
        exact .connect hx
    · cases h
  | send i q =>
    rw [step] at h
    split at h
    · next hx =>
        obtain ⟨m, hm, rfl⟩ := Option.map_eq_some_iff.mp h
        exact .send hx hm
    · cases h
  | sendCut i q k =>
    rw [step] at h
    split at h
    · next hx =>
        obtain ⟨m, hm, rfl⟩ := Option.map_eq_some_iff.mp h
        exact .sendCut hx hm
    · cases h
  | recv i k =>
    rw [step] at h
    split at h
    · next hx =>
        obtain ⟨p, hp, rfl⟩ := Option.map_eq_some_iff.mp h
        exact .recv hx hp
    · cases h
  | release i =>
    rw [step] at h
    split at h
    · next hx =>
        split_ifs at h with hw
        cases h
        exact .release hx hw
    · cases h
  | reset i =>
    obtain ⟨x, hx, rfl⟩ := Option.map_eq_some_iff.mp h
    exact .reset hx
  | drop i =>
    obtain ⟨x, hx, rfl⟩ := Option.map_eq_some_iff.mp h
    exact .drop hx
  | event n ev =>
    rw [step] at h
    split_ifs at h with hn
    obtain ⟨c, hc, rfl⟩ := Option.map_eq_some_iff.mp h
    exact .event hn hc
  | serve n reply note =>
    rw [step] at h
    split at h
    · next hs =>
        split_ifs at h with hw
        cases h
        exact .serve hs hw
    · cases h
  | clear which =>
    cases h
    exact .clear

variable {P : Protocol B Q} {net net' : Net B Q S E I} {a : Act B Q S E I}

/-- `y` goes on with exchange `x`: its request is that of `x`, or is sent now. -/
structure GoesOn (a : Act B Q S E I) (j : Nat) (x y : Exchange B Q E I) : Prop where
  owner : y.owner = x.owner
  endpoint : y.endpoint = x.endpoint
  request : ∀ r q got, y.pc = .waiting r q got → (∃ got', x.pc = .waiting r q got') ∨ a = .send j q

/-- An exchange was there before the step, or begins with it. -/
lemma step_exchange (h : step P net a = some net') {j : Nat} {y : Exchange B Q E I}
    (hy : net'.exchanges j = some y) :
    (∃ x, net.exchanges j = some x ∧ GoesOn a j x y)
      ∨ (a = .acquire j y.owner y.endpoint ∧ y.pc = .ready) := by
  have hsame (hx : net.exchanges j = some y) : ∃ x, net.exchanges j = some x ∧ GoesOn a j x y :=
    ⟨y, hx, rfl, rfl, fun r q got hw => .inl ⟨got, hw⟩⟩
  cases stepped_of_step h with
  | event | serve | clear => exact .inl (hsame hy)
  | acquire hx =>
    rcases of_update hy with ⟨rfl, ⟨⟩⟩ | ⟨-, hy⟩
    · exact .inr ⟨rfl, rfl⟩
    · exact .inl (hsame hy)
  | release hx | drop hx =>
    rcases of_update hy with ⟨-, ⟨⟩⟩ | ⟨-, hy⟩
    exact .inl (hsame hy)
  | connect hx | sendCut hx | reset hx =>
    rcases of_update hy with ⟨rfl, ⟨⟩⟩ | ⟨-, hy⟩
    · exact .inl ⟨_, hx, rfl, rfl, fun r q got hw => by cases hw⟩
    · exact .inl (hsame hy)
  | send hx =>
    rcases of_update hy with ⟨rfl, ⟨⟩⟩ | ⟨-, hy⟩
    · refine .inl ⟨_, hx, rfl, rfl, fun r q got hw => ?_⟩
      cases hw
      exact .inr rfl
    · exact .inl (hsame hy)
  | recv hx =>
    rcases of_update hy with ⟨rfl, ⟨⟩⟩ | ⟨-, hy⟩
    · refine .inl ⟨_, hx, rfl, rfl, fun r q got hw => ?_⟩
      cases hw
      exact .inl ⟨_, rfl⟩
    · exact .inl (hsame hy)

/-- A message is served by the server's step only. -/
lemma step_served (h : step P net a = some net') {s : Served B S} (hs : s ∈ net'.served) :
    s ∈ net.served ∨ (a = .serve s.conn s.reply s.note
      ∧ ∃ got, (net.conns s.conn).serving = .reading got ∧ s.message = bytes got) := by
  cases stepped_of_step h with
  | serve hgot =>
    rcases List.mem_append.mp hs with hs | hs
    · exact .inl hs
    · obtain rfl := List.mem_singleton.mp hs
      exact .inr ⟨rfl, _, hgot, rfl⟩
  | _ => exact .inl hs

end Machine

end PooledExchange
