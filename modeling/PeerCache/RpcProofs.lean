import PeerCache.StructCodecProofs
import PeerCache.TransitionProofs
import PeerCache.ExchangeInvariantProofs

/-! # The control-plane RPC

    `rpc.py`: length-prefixed frames, one thread per connection at the server, and at the client a
    pool of connections per endpoint without request ids.  `RpcClient.call` sends the request and
    reads one frame; when the connection fails it tries once more on a new one. -/

namespace PeerCacheRpc

open ByteStream StructCodec PooledExchange Transition Function List Option

/-! ## Frames -/

/-- `_send_frame`: `struct.pack(">I", len(payload)) + payload`; `pack` raises for a longer payload. -/
def frame (payload : List UInt8) : Option (List UInt8) :=
  if payload.length < 256 ^ 4 then some (toBE 4 payload.length ++ payload) else none

/-- `_recv_frame`: four bytes, then as many as they say. -/
def frameWanted : List UInt8 → Nat := headedWanted 4 ofBE

def framePayload (f : List UInt8) : List UInt8 := f.drop 4

variable {payload f : List UInt8}

lemma frame_eq (h : frame payload = some f) :
    payload.length < 256 ^ 4 ∧ f = toBE 4 payload.length ++ payload := by
  rw [frame] at h
  split_ifs at h with hlen
  exact ⟨hlen, (some.inj h).symm⟩

lemma isMessage_frame (h : frame payload = some f) : IsMessage frameWanted f := by
  obtain ⟨hlen, rfl⟩ := frame_eq h
  have hm : IsMessage (headedWanted (toBE 4 payload.length).length ofBE)
      (toBE 4 payload.length ++ payload) := isMessage_headed (ofBE_toBE hlen).symm
  rw [length_toBE] at hm
  exact hm

lemma framePayload_frame (h : frame payload = some f) : framePayload f = payload := by
  obtain ⟨-, rfl⟩ := frame_eq h
  exact drop_left' (length_toBE 4 _)

/-- Both directions carry frames. -/
def protocol : Protocol UInt8 (List UInt8) where
  encode := frame
  wanted := frameWanted
  replyWanted := fun _ => frameWanted
  Whole := fun _ => True
  message := fun _ _ _ h => isMessage_frame h
  starts := by decide

/-! ## Calls -/

/-- A response: `[True, result]` or `[False, text]`. -/
inductive Reply (Val : Type) where
  | result (v : Val)
  | error (text : String)
deriving DecidableEq

/-- `_dumps` and `_loads`, each of which may raise.  Nothing is asked of them: the JSON fallback does
    not load everything as it was dumped (`JsonCodecProofs`). -/
structure Codec (Args Val : Type) where
  noArgs : Args
  dumpsRequest : String × Args → Option (List UInt8)
  loadsRequest : List UInt8 → Option (String × Args)
  dumpsReply : Reply Val → Option (List UInt8)
  loadsReply : List UInt8 → Option (Reply Val)

/-- No error is loaded as a result: the `False` of a response stays. -/
def Codec.KeepsFlag {Args Val : Type} (codec : Codec Args Val) : Prop :=
  ∀ text v b, codec.dumpsReply (.error text) = some b → codec.loadsReply b ≠ some (.result v)

/-- What a server did with a frame: `ran` when it found a handler. -/
structure Note (Args Val : Type) where
  method : String
  args : Args
  ran : Bool
  reply : Reply Val

/-- A thread in `RpcClientPool.call`. -/
structure Call (Args : Type) where
  id : Nat
  endpoint : String
  method : String
  args : Args
  payload : List UInt8
  attempt : Nat

/-- A call that has returned a value, with the numbers on the bytes of the frame it was read from. -/
structure Returned (Args Val : Type) where
  call : Nat
  endpoint : String
  method : String
  args : Args
  value : Val
  tags : List Nat

structure World (Args Val : Type) where
  net : Net UInt8 (List UInt8) (Note Args Val) String Nat
  calls : Nat → Option (Call Args)
  nextCall : Nat
  returned : List (Returned Args Val)

inductive RpcAct (Args Val : Type) where
  | start (i : Nat) (endpoint method : String) (args : Option Args)
  | connect (i : Nat)
  | send (i : Nat)
  /-- the connection fails after `k` bytes of the request -/
  | sendCut (i k : Nat)
  | recv (i k : Nat)
  /-- connecting or receiving fails: refused, reset, closed by the peer, timed out -/
  | fail (i : Nat)
  | finish (i : Nat)
  | server (n : Nat) (ev : Conn.Event)
  /-- the server of connection `n` has read a frame; `outcome` is what the handler does -/
  | serve (n : Nat) (outcome : Reply Val)
  | close

section Step

variable {Args Val : Type} (codec : Codec Args Val) (handlers : String → String → Bool)

/-- `RpcClientPool.__init__`: at least one idle client is kept. -/
def World.new (maxIdlePerEndpoint : Nat) : World Args Val :=
  ⟨Net.new (fun _ => max 1 maxIdlePerEndpoint), fun _ => none, 0, []⟩

def World.act (w : World Args Val) (a : Act UInt8 (List UInt8) (Note Args Val) String Nat) :
    Option (World Args Val) :=
  (PooledExchange.step protocol w.net a).map (fun net => { w with net := net })

/-- The exception leaves `RpcClient.call`: the pool closes the client. -/
def World.raised (w : World Args Val) (i : Nat) : Option (World Args Val) :=
  (w.act (.drop i)).map (fun w => { w with calls := Function.update w.calls i none })

/-- `except (OSError, ConnectionError)`: reset, and raise in the second attempt. -/
def World.failed (w : World Args Val) (i : Nat) (c : Call Args) : Option (World Args Val) :=
  if c.attempt = 0 then
    (w.act (.reset i)).map (fun w =>
      { w with calls := Function.update w.calls i (some { c with attempt := 1 }) })
  else w.raised i

/-- `_serve_conn` with a decoded frame. -/
def handle (endpoint : Option String) (method : String) (args : Args) (outcome : Reply Val) :
    Note Args Val :=
  if endpoint.any (fun ep => handlers ep method) then ⟨method, args, true, outcome⟩
  else ⟨method, args, false, .error ("unknown method: " ++ method)⟩

def rpcStep (w : World Args Val) : RpcAct Args Val → Option (World Args Val)
  | .start i endpoint method args =>
      match w.calls i with
      | some _ => none
      | none =>
          (w.act (.acquire i w.nextCall endpoint)).bind (fun w =>
            match codec.dumpsRequest (method, args.getD codec.noArgs) with
            | some payload =>
                some { w with
                  calls := Function.update w.calls i
                    (some ⟨w.nextCall, endpoint, method, args.getD codec.noArgs, payload, 0⟩)
                  nextCall := w.nextCall + 1 }
            | none => (w.raised i).map (fun w => { w with nextCall := w.nextCall + 1 }))
  | .connect i => (w.calls i).bind (fun _ => w.act (.connect i))
  | .send i =>
      (w.calls i).bind (fun c =>
        if (frame c.payload).isSome then w.act (.send i c.payload)
        -- struct.error
        else if ((w.net.exchanges i).bind (fun x => x.sock)).isSome then w.raised i
        else none)
  | .sendCut i k =>
      (w.calls i).bind (fun c => (w.act (.sendCut i c.payload k)).bind (fun w => w.failed i c))
  | .recv i k => (w.calls i).bind (fun _ => w.act (.recv i k))
  | .fail i => (w.calls i).bind (fun c => w.failed i c)
  | .finish i =>
      match w.calls i, w.net.exchanges i with
      | some c, some ⟨_, _, _, .waiting _ _ got⟩ =>
          if frameWanted (bytes got) = 0 then
            match codec.loadsReply (framePayload (bytes got)) with
            | some (.result v) =>
                (w.act (.release i)).map (fun w =>
                  { w with
                    calls := Function.update w.calls i none
                    returned := w.returned
                      ++ [⟨c.id, c.endpoint, c.method, c.args, v, got.map Prod.snd⟩] })
            | _ => w.raised i
          else none
      | _, _ => none
  | .server n ev => w.act (.event n ev)
  | .serve n outcome =>
      match (w.net.conns n).serving with
      | .reading got =>
          if frameWanted (bytes got) = 0 then
            match codec.loadsRequest (framePayload (bytes got)) with
            | none => w.act (.event n .shut)
            | some (method, args) =>
                let note := handle handlers (w.net.peer n) method args outcome
                w.act (.serve n ((codec.dumpsReply note.reply).bind frame) note)
          else none
      | _ => none
  | .close => w.act (.clear (fun _ => true))

end Step

/-! ## The invariant -/

section Invariant

variable {Args Val : Type} {codec : Codec Args Val} {handlers : String → String → Bool}

/-- So many requests of the call are sent at most. -/
def sentAtMost (attempt : Nat) : Pc UInt8 (List UInt8) → Nat
  | .ready => attempt
  | .waiting _ _ _ => attempt + 1

/-- The exchange of a thread is for its call, of which `sent` requests are sent. -/
structure Serves (c : Call Args) (sent : Nat) (x : Exchange UInt8 (List UInt8) String Nat) : Prop where
  owner : x.owner = c.id
  endpoint : x.endpoint = c.endpoint
  sent : sent ≤ sentAtMost c.attempt x.pc
  payload : ∀ r q got, x.pc = .waiting r q got → q = c.payload

/-- What a server noted is what was in the frame, and what it answered. -/
structure NoteOk (codec : Codec Args Val) (s : Served UInt8 (Note Args Val)) : Prop where
  request : codec.loadsRequest (framePayload s.message) = some (s.note.method, s.note.args)
  reply : s.reply = (codec.dumpsReply s.note.reply).bind frame
  ran : s.note.ran = false → ∃ text, s.note.reply = .error text

/-- A server at the endpoint of the call has handled what it loads of what this very call dumped, and
    the value is what the call loads of what that server dumped; where errors stay errors, a handler
    ran and this is its result.  All bytes of the frame returned come from that answer, and all bytes
    of the frame handled were sent by the call. -/
def ReturnedOk (codec : Codec Args Val) (w : World Args Val) (ret : Returned Args Val) : Prop :=
  ∃ k s asked answer, w.net.served[k]? = some s ∧ w.net.peer s.conn = some ret.endpoint
    ∧ (codec.dumpsRequest (ret.method, ret.args) = some asked
      ∧ codec.loadsRequest asked = some (s.note.method, s.note.args))
    ∧ (codec.dumpsReply s.note.reply = some answer
      ∧ codec.loadsReply answer = some (.result ret.value))
    ∧ (codec.KeepsFlag → s.note.ran = true ∧ ∃ v, s.note.reply = .result v)
    ∧ ret.tags ≠ [] ∧ (∀ t ∈ ret.tags, t = k)
    ∧ s.tags ≠ [] ∧ ∀ t ∈ s.tags, ∃ q, w.net.requests[t]? = some q ∧ q.owner = ret.call

/-- `doomed` is a thread whose call is about to raise. -/
structure Ok (codec : Codec Args Val) (doomed : Option Nat) (w : World Args Val) : Prop where
  sound : Sound protocol w.net
  threads : ∀ i x, w.net.exchanges i = some x →
    ∃ c, w.calls i = some c ∧ Serves c (w.net.requestsOf c.id) x
  known : ∀ i c, w.calls i = some c → c.id < w.nextCall
  live : ∀ i c, w.calls i = some c → doomed ≠ some i →
    codec.dumpsRequest (c.method, c.args) = some c.payload ∧ c.attempt ≤ 1
  distinct : ∀ i j c c', w.calls i = some c → w.calls j = some c' → c.id = c'.id → i = j
  owners : ∀ q ∈ w.net.requests, q.owner < w.nextCall
  twice : ∀ call, w.net.requestsOf call ≤ 2
  notes : ∀ s ∈ w.net.served, NoteOk codec s
  returned : ∀ ret ∈ w.returned, ReturnedOk codec w ret

lemma ok_new (maxIdlePerEndpoint : Nat) :
    Ok codec none (World.new maxIdlePerEndpoint : World Args Val) where
  sound := sound_new protocol _
  threads := by rintro _ _ ⟨⟩
  known := by rintro _ _ ⟨⟩
  live := by rintro _ _ ⟨⟩
  distinct := by rintro _ _ _ _ ⟨⟩
  owners := forall_mem_nil _
  twice _ := Nat.zero_le 2
  notes := forall_mem_nil _
  returned := forall_mem_nil _

variable {w w' : World Args Val} {i j n : Nat} {c c' : Call Args} {doomed : Option Nat}
  {net : Net UInt8 (List UInt8) (Note Args Val) String Nat}
  {a : Act UInt8 (List UInt8) (Note Args Val) String Nat}

/-! ### The network takes a step -/

/-- What the network is asked to do for the calls. -/
def Asked (codec : Codec Args Val) (w : World Args Val) :
    Act UInt8 (List UInt8) (Note Args Val) String Nat → Prop
  | .acquire i owner ep => ∃ c, w.calls i = some c ∧ owner = c.id ∧ ep = c.endpoint
      ∧ w.net.requestsOf c.id = 0
  | .send i q => ∃ c, w.calls i = some c ∧ q = c.payload ∧ c.attempt ≤ 1
  | .sendCut i q _ => ∃ c, w.calls i = some c ∧ q = c.payload ∧ c.attempt ≤ 2
      ∧ w.net.requestsOf c.id < c.attempt
  | .reset i => ∀ c, w.calls i = some c → w.net.requestsOf c.id ≤ c.attempt
  | .serve n reply note => ∀ got, (w.net.conns n).serving = .reading got →
      NoteOk codec ⟨n, got.map Prod.snd, bytes got, reply, note⟩
  | _ => True

lemma proper_of_asked (ha : Asked codec w a) : Proper protocol w.net a := by
  cases a with
  | serve n reply note =>
    rintro got t q hgot rfl - -
    obtain ⟨b, -, hb⟩ := bind_eq_some_iff.mp (ha got hgot).reply.symm
    exact isMessage_frame hb
  | _ => trivial

lemma requestsOf_concat {r : Request (List UInt8) Nat} (h : net.requests = w.net.requests ++ [r])
    (call : Nat) : net.requestsOf call = w.net.requestsOf call + if r.owner = call then 1 else 0 := by
  rw [Net.requestsOf, h, countP_append, ← Net.requestsOf, countP_singleton]
  simp

lemma Ok.sent_step (h : Ok codec doomed w) (ha : Asked codec w a)
    (hs : PooledExchange.step protocol w.net a = some net)
    {y : Exchange UInt8 (List UInt8) String Nat} (hy : net.exchanges j = some y)
    (hc : w.calls j = some c) : net.requestsOf c.id ≤ sentAtMost c.attempt y.pc := by
  have hold {i : Nat} {c : Call Args} {x : Exchange UInt8 (List UInt8) String Nat}
      (hx : w.net.exchanges i = some x) (hc : w.calls i = some c) :
      x.owner = c.id ∧ w.net.requestsOf c.id ≤ sentAtMost c.attempt x.pc := by
    obtain ⟨c', hc', hserves⟩ := h.threads i x hx
    cases hc.symm.trans hc'
    exact ⟨hserves.owner, hserves.sent⟩
  -- a request of another thread is of another call
  have hother {i : Nat} {r : Request (List UInt8) Nat} {c' : Call Args} (hj : j ≠ i)
      (hreq : net.requests = w.net.requests ++ [r]) (hc' : w.calls i = some c')
      (howner : r.owner = c'.id) (hy : w.net.exchanges j = some y) :
      net.requestsOf c.id ≤ sentAtMost c.attempt y.pc := by
    rw [requestsOf_concat hreq, if_neg]
    · exact (hold hy hc).2
    · intro heq
      exact hj (h.distinct j i c c' hc hc' (heq.symm.trans howner))
  cases stepped_of_step hs with
  | event | serve | clear => exact (hold hy hc).2
  | release hx | drop hx =>
    rcases of_update hy with ⟨-, ⟨⟩⟩ | ⟨-, hy⟩
    exact (hold hy hc).2
  | connect hx | recv hx =>
    rcases of_update hy with ⟨rfl, ⟨⟩⟩ | ⟨-, hy⟩
    · exact (hold hx hc).2
    · exact (hold hy hc).2
  | acquire hx =>
    rcases of_update hy with ⟨rfl, ⟨⟩⟩ | ⟨-, hy⟩
    · obtain ⟨c', hc', -, -, hzero⟩ := ha
      cases hc.symm.trans hc'
      exact hzero.trans_le (Nat.zero_le _)
    · exact (hold hy hc).2
  | reset hx =>
    rcases of_update hy with ⟨rfl, ⟨⟩⟩ | ⟨-, hy⟩
    · exact ha c hc
    · exact (hold hy hc).2
  | send hx =>
    obtain ⟨c', hc', -⟩ := ha
    obtain ⟨howner, hsent⟩ := hold hx hc'
    rcases of_update hy with ⟨rfl, ⟨⟩⟩ | ⟨hj, hy⟩
    · cases hc.symm.trans hc'
      refine (requestsOf_concat rfl _).trans_le ?_
      rw [if_pos howner]
      exact Nat.succ_le_succ hsent
    · exact hother hj rfl hc' howner hy
  | sendCut hx =>
    obtain ⟨c', hc', -, -, hlt⟩ := ha
    obtain ⟨howner, -⟩ := hold hx hc'
    rcases of_update hy with ⟨rfl, ⟨⟩⟩ | ⟨hj, hy⟩
    · cases hc.symm.trans hc'
      refine (requestsOf_concat rfl _).trans_le ?_
      rw [if_pos howner]
      exact hlt
    · exact hother hj rfl hc' howner hy

/-- What the requests are after a step. -/
lemma Ok.requests_step (h : Ok codec doomed w) (ha : Asked codec w a)
    (hs : PooledExchange.step protocol w.net a = some net) :
    (∀ q ∈ net.requests, q.owner < w.nextCall) ∧ ∀ call, net.requestsOf call ≤ 2 := by
  have hsent {i owner n : Nat} {ep : String} {sock : Option Nat} {q : List UInt8} {c : Call Args}
      (hreq : net.requests = w.net.requests ++ [⟨owner, n, q⟩])
      (hx : w.net.exchanges i = some ⟨owner, ep, sock, .ready⟩) (hc : w.calls i = some c)
      (hone : w.net.requestsOf c.id ≤ c.attempt → w.net.requestsOf c.id ≤ 1) :
      (∀ q ∈ net.requests, q.owner < w.nextCall) ∧ ∀ call, net.requestsOf call ≤ 2 := by
    obtain ⟨c', hc', hserves⟩ := h.threads i _ hx
    cases hc.symm.trans hc'
    obtain rfl : owner = c.id := hserves.owner
    rw [hreq]
    refine ⟨forall_mem_append.mpr ⟨h.owners, forall_mem_singleton.mpr (h.known i c hc)⟩, ?_⟩
    intro call
    rw [requestsOf_concat hreq]
    split_ifs with hcall
    · obtain rfl : c.id = call := hcall
      exact Nat.succ_le_succ (hone hserves.sent)
    · exact h.twice call
  cases stepped_of_step hs with
  | send hx =>
    obtain ⟨c, hc, -, hatt⟩ := ha
    exact hsent rfl hx hc (fun hle => hle.trans hatt)
  | sendCut hx =>
    obtain ⟨c, hc, -, hatt, hlt⟩ := ha
    exact hsent rfl hx hc (fun _ => Nat.le_of_lt_succ (hlt.trans_le hatt))
  | _ => exact ⟨h.owners, h.twice⟩

lemma ReturnedOk.step {ret : Returned Args Val} (h : ReturnedOk codec w ret)
    (hsound : Sound protocol w.net) (hs : PooledExchange.step protocol w.net a = some net) :
    ReturnedOk codec { w with net := net } ret := by
  obtain ⟨k, s, asked, answer, hk, hpeer, hask, hans, hran, hne, htags, hne', hall⟩ := h
  have hgrows := step_grows hs
  refine ⟨k, s, asked, answer, getElem?_of_prefix hgrows.served hk, hsound.peer_step hpeer hs, hask,
    hans, hran, hne, htags, hne', ?_⟩
  intro t ht
  obtain ⟨q, hq, howner⟩ := hall t ht
  exact ⟨q, getElem?_of_prefix hgrows.requests hq, howner⟩

/-- **A STEP OF THE NETWORK** for the calls. -/
lemma Ok.net_step (h : Ok codec doomed w) (hs : PooledExchange.step protocol w.net a = some net)
    (ha : Asked codec w a) : Ok codec doomed { w with net := net } where
  sound := sound_step h.sound (proper_of_asked ha) hs
  threads := by
    intro j y hy
    rcases step_exchange hs hy with ⟨x, hx, howner, hep, hpc⟩ | ⟨rfl, hpc⟩
    · obtain ⟨c, hc, hserves⟩ := h.threads j x hx
      refine ⟨c, hc, howner.trans hserves.owner, hep.trans hserves.endpoint,
        h.sent_step ha hs hy hc, ?_⟩
      intro r q got hw
      rcases hpc r q got hw with ⟨got', hgot'⟩ | rfl
      · exact hserves.payload r q got' hgot'
      · obtain ⟨c', hc', hq, -⟩ := ha
        cases hc.symm.trans hc'
        exact hq
    · obtain ⟨c, hc, howner, hep, -⟩ := id ha
      refine ⟨c, hc, howner, hep, h.sent_step ha hs hy hc, ?_⟩
      intro r q got hw
      cases hpc.symm.trans hw
  known := h.known
  live := h.live
  distinct := h.distinct
  owners := (h.requests_step ha hs).1
  twice := (h.requests_step ha hs).2
  notes := by
    intro s hmem
    rcases step_served hs hmem with hmem | ⟨rfl, got, hgot, hmessage⟩
    · exact h.notes s hmem
    · obtain ⟨hrequest, hreply, hran⟩ := ha got hgot
      exact ⟨hmessage ▸ hrequest, hreply, hran⟩
  returned ret hr := (h.returned ret hr).step h.sound hs

/-! ### A thread's call changes -/

/-- The call of thread `i` becomes `v`: another attempt, a new call, or none when its exchange is
    over. -/
lemma Ok.setCall (h : Ok codec doomed w) {v : Option (Call Args)} {nextCall : Nat}
    (hnext : w.nextCall ≤ nextCall) (doomed' : Option Nat)
    (hnew : ∀ c ∈ v, c.id < nextCall
      ∧ ((∃ c', w.calls i = some c' ∧ c.id = c'.id) ∨ c.id = w.nextCall))
    (hx : ∀ x, w.net.exchanges i = some x → ∃ c ∈ v, Serves c (w.net.requestsOf c.id) x)
    (hlive : ∀ c ∈ v, doomed' ≠ some i →
      codec.dumpsRequest (c.method, c.args) = some c.payload ∧ c.attempt ≤ 1)
    (hdoomed : ∀ j, j ≠ i → doomed' ≠ some j → doomed ≠ some j) :
    Ok codec doomed' { w with calls := update w.calls i v, nextCall := nextCall } := by
  have hother : ∀ j c c', j ≠ i → w.calls j = some c → c' ∈ v → c.id ≠ c'.id := by
    intro j c c' hj hc hc' heq
    rcases (hnew c' hc').2 with ⟨c'', hc'', hid⟩ | hid
    · exact hj (h.distinct j i c c'' hc hc'' (heq.trans hid))
    · exact absurd (h.known j c hc) (by omega)
  refine ⟨h.sound, ?_, ?_, ?_, ?_, fun q hq => (h.owners q hq).trans_le hnext, h.twice, h.notes,
    h.returned⟩
  · intro j x hj
    by_cases hji : j = i
    · subst hji
      obtain ⟨c, hc, hserves⟩ := hx x hj
      exact ⟨c, (update_self j v w.calls).trans hc, hserves⟩
    · obtain ⟨c, hc, hserves⟩ := h.threads j x hj
      exact ⟨c, (update_of_ne hji v w.calls).trans hc, hserves⟩
  · intro j c hc
    rcases of_update hc with ⟨rfl, hv⟩ | ⟨-, hold⟩
    · exact (hnew c hv).1
    · exact (h.known j c hold).trans_le hnext
  · intro j c hc hd
    rcases of_update hc with ⟨rfl, hv⟩ | ⟨hj, hold⟩
    · exact hlive c hv hd
    · exact h.live j c hold (hdoomed j hj hd)
  · intro j k c c' hc hc' heq
    rcases of_update hc with ⟨rfl, hv⟩ | ⟨hj, hold⟩
    · rcases of_update hc' with ⟨rfl, -⟩ | ⟨hk, hold'⟩
      · rfl
      · exact absurd heq.symm (hother k c' c hk hold' hv)
    · rcases of_update hc' with ⟨rfl, hv'⟩ | ⟨-, hold'⟩
      · exact absurd heq (hother j c c' hj hold hv')
      · exact h.distinct j k c c' hold hold' heq

/-- The next attempt. -/
lemma Ok.bump (h : Ok codec none w) (hc : w.calls i = some c) (doomed : Option Nat)
    (hd : doomed ≠ some i → c.attempt = 0) :
    Ok codec doomed
      { w with calls := update w.calls i (some { c with attempt := c.attempt + 1 }) } := by
  refine h.setCall (Nat.le_refl _) doomed ?_ ?_ ?_ (fun _ _ _ => by simp)
  · rintro _ ⟨⟩
    exact ⟨h.known i c hc, .inl ⟨c, hc, rfl⟩⟩
  · intro x hx
    obtain ⟨c', hc', howner, hep, hsent, hq⟩ := h.threads i x hx
    cases hc.symm.trans hc'
    refine ⟨_, rfl, howner, hep, hsent.trans ?_, hq⟩
    cases x.pc with
    | ready | waiting => exact Nat.le_succ _
  · rintro _ ⟨⟩ hne
    exact ⟨(h.live i c hc (by simp)).1, (congrArg (· + 1) (hd hne)).le⟩

/-- The call is over. -/
lemma Ok.over (h : Ok codec doomed w) (hd : ∀ j, j ≠ i → doomed ≠ some j)
    (hx : w.net.exchanges i = none) : Ok codec none { w with calls := update w.calls i none } :=
  h.setCall (Nat.le_refl _) none (by rintro _ ⟨⟩) (fun x hx' => by cases hx.symm.trans hx')
    (by rintro _ ⟨⟩) (fun j hj _ => hd j hj)

end Invariant

/-! ## The steps -/

section Steps

variable {Args Val : Type} {codec : Codec Args Val} {handlers : String → String → Bool}
  {w w' : World Args Val} {i n owner : Nat} {c : Call Args} {ep : String} {sock : Option Nat}
  {a : Act UInt8 (List UInt8) (Note Args Val) String Nat}

lemma act_eq (h : w.act a = some w') :
    ∃ net, PooledExchange.step protocol w.net a = some net ∧ w' = { w with net := net } := by
  obtain ⟨net, hnet, rfl⟩ := map_eq_some_iff.mp h
  exact ⟨net, hnet, rfl⟩

lemma Ok.act (h : Ok codec none w) (hs : w.act a = some w') (ha : Asked codec w a) :
    Ok codec none w' := by
  obtain ⟨net, hnet, rfl⟩ := act_eq hs
  exact h.net_step hnet ha

/-- The client of a doomed call is dropped. -/
lemma Ok.dropped {net : Net UInt8 (List UInt8) (Note Args Val) String Nat}
    (h : Ok codec (some i) w) (hs : PooledExchange.step protocol w.net (.drop i) = some net)
    {calls : Nat → Option (Call Args)} (hcalls : update w.calls i none = calls) :
    Ok codec none { w with net := net, calls := calls } := by
  subst hcalls
  refine (h.net_step hs trivial).over (fun j hj heq => hj (some.inj heq).symm) ?_
  cases stepped_of_step hs with
  | drop => exact update_self _ _ _

lemma Ok.raised (h : Ok codec none w) (hs : w.raised i = some w') : Ok codec none w' := by
  obtain ⟨w₁, hw₁, rfl⟩ := map_eq_some_iff.mp hs
  obtain ⟨net, hnet, rfl⟩ := act_eq hw₁
  have hdoomed : Ok codec (some i) w := { h with live := fun j c hc _ => h.live j c hc (by simp) }
  exact hdoomed.dropped hnet rfl

/-- **A REPLY ANSWERS ITS OWN REQUEST**: the frame that a thread has read whole. -/
lemma Ok.returnedOk (h : Ok codec none w) (hc : w.calls i = some c) {r : Nat} {q : List UInt8}
    {got : List (UInt8 × Nat)} {v : Val}
    (hx : w.net.exchanges i = some ⟨owner, ep, sock, .waiting r q got⟩)
    (hdone : frameWanted (bytes got) = 0)
    (hv : codec.loadsReply (framePayload (bytes got)) = some (.result v)) :
    ReturnedOk codec w ⟨c.id, c.endpoint, c.method, c.args, v, got.map Prod.snd⟩ := by
  obtain ⟨c', hc', howner, hep, -, hq⟩ := h.threads i _ hx
  cases hc.symm.trans hc'
  obtain rfl := hq r q got rfl
  obtain ⟨n, -, hpeer, hr, hans⟩ := h.sound.answered hx rfl hdone
  rcases hans with ⟨-, hwant⟩ | ⟨k, s, t, hk, hconn, htags, henc, ht, rfl⟩
  · have hstart : frameWanted [] ≠ 0 := by decide
    exact absurd hwant hstart
  · have hnote := h.notes s (mem_of_getElem? hk)
    -- the server read the request of this call
    have hreq := hnote.request
    rw [framePayload_frame henc] at hreq
    -- and the call read the reply of the server
    have hrep := hnote.reply
    rw [ht] at hrep
    obtain ⟨b, hb, hframe⟩ := bind_eq_some_iff.mp hrep.symm
    rw [bytes_tag, framePayload_frame hframe] at hv
    have hflag : codec.KeepsFlag → ∃ v, s.note.reply = .result v := by
      intro hkeeps
      cases hr : s.note.reply with
      | result v => exact ⟨v, rfl⟩
      | error text =>
        rw [hr] at hb
        exact absurd hv (hkeeps text v b hb)
    have htne : t ≠ [] := by
      rintro rfl
      rw [bytes_tag] at hdone
      exact absurd hdone (by decide)
    have hmne : s.message ≠ [] := by
      intro hnil
      rw [hnil] at henc
      have hwhole := (isMessage_frame henc).whole
      exact absurd hwhole (by decide)
    refine ⟨k, s, _, b, hk, ?_, ⟨(h.live i c hc (by simp)).1, hreq⟩, ⟨hb, hv⟩, ?_, ?_, ?_, ?_, ?_⟩
    · rw [hconn, hpeer]; exact congrArg some hep
    · intro hkeeps
      refine ⟨?_, hflag hkeeps⟩
      by_contra hran
      obtain ⟨text, htext⟩ := hnote.ran (Bool.eq_false_iff.mpr hran)
      obtain ⟨v, hv⟩ := hflag hkeeps
      cases htext.symm.trans hv
    · intro hnil; exact htne (map_eq_nil_iff.mp (map_eq_nil_iff.mp hnil))
    · intro t' ht'
      obtain ⟨y, hy, rfl⟩ := mem_map.mp ht'
      exact mem_tag hy
    · rw [htags]
      intro hnil
      exact hmne (length_eq_zero_iff.mp (replicate_eq_nil_iff _ |>.mp hnil))
    · intro t' ht'
      rw [htags] at ht'
      rw [eq_of_mem_replicate ht']
      exact ⟨_, hr, howner⟩

lemma Ok.failed (h : Ok codec none w) (hc : w.calls i = some c) (hs : w.failed i c = some w') :
    Ok codec none w' := by
  rw [World.failed] at hs
  split_ifs at hs with hatt
  · obtain ⟨w₁, hw₁, rfl⟩ := map_eq_some_iff.mp hs
    obtain ⟨net, hnet, rfl⟩ := act_eq hw₁
    have hbump := h.bump hc none (fun _ => hatt)
    rw [hatt] at hbump
    refine hbump.net_step hnet ?_
    intro c' hc'
    cases (update_self i _ w.calls).symm.trans hc'
    -- one request at most, in the attempt that has failed
    cases stepped_of_step hnet with
    | @reset _ x hx =>
      obtain ⟨c', hc', hserves⟩ := h.threads i x hx
      cases hc.symm.trans hc'
      have hsent := hserves.sent
      rw [hatt] at hsent
      refine hsent.trans ?_
      cases x.pc with
      | ready => exact Nat.zero_le 1
      | waiting => exact Nat.le_refl 1
  · exact h.raised hs

lemma Ok.sendCut {w₁ : World Args Val} {k : Nat} (h : Ok codec none w) (hc : w.calls i = some c)
    (hs : w.act (.sendCut i c.payload k) = some w₁) (hf : w₁.failed i c = some w') :
    Ok codec none w' := by
  obtain ⟨net, hnet, rfl⟩ := act_eq hs
  have hatt := (h.live i c hc (by simp)).2
  -- the request that was begun counts for the next attempt
  have hlt : w.net.requestsOf c.id < c.attempt + 1 := by
    cases stepped_of_step hnet with
    | sendCut hx =>
      obtain ⟨c', hc', hserves⟩ := h.threads i _ hx
      cases hc.symm.trans hc'
      exact Nat.lt_succ_of_le hserves.sent
  have hcut (doomed : Option Nat) (hd : doomed ≠ some i → c.attempt = 0) :=
    (h.bump hc doomed hd).net_step hnet
      ⟨{ c with attempt := c.attempt + 1 }, update_self _ _ _, rfl, Nat.succ_le_succ hatt, hlt⟩
  have hmine : ∀ c', update w.calls i (some { c with attempt := c.attempt + 1 }) i = some c' →
      net.requestsOf c'.id ≤ c'.attempt := by
    intro c' hc'
    cases (update_self i _ w.calls).symm.trans hc'
    cases stepped_of_step hnet with
    | sendCut hx =>
      refine (requestsOf_concat rfl _).trans_le ?_
      split_ifs
      · exact hlt
      · exact Nat.le_of_lt hlt
  rw [World.failed] at hf
  split_ifs at hf with hzero
  · obtain ⟨w₂, hw₂, rfl⟩ := map_eq_some_iff.mp hf
    obtain ⟨net₂, hnet₂, rfl⟩ := act_eq hw₂
    have hreset := (hcut none (fun _ => hzero)).net_step hnet₂ hmine
    rw [hzero] at hreset
    exact hreset
  · obtain ⟨w₂, hw₂, rfl⟩ := map_eq_some_iff.mp hf
    obtain ⟨net₂, hnet₂, rfl⟩ := act_eq hw₂
    have hend := (hcut (some i) (absurd rfl)).dropped hnet₂ (update_idem _ _ _)
    exact hend

lemma Ok.finish (h : Ok codec none w) (hs : rpcStep codec handlers w (.finish i) = some w') :
    Ok codec none w' := by
  simp only [rpcStep] at hs
  split at hs
  · next c owner ep sock r q got hc hx =>
      split_ifs at hs with hdone
      split at hs
      · next v hv =>
          have hreturned := h.returnedOk hc hx hdone hv
          obtain ⟨w₁, hw₁, rfl⟩ := map_eq_some_iff.mp hs
          obtain ⟨net, hnet, rfl⟩ := act_eq hw₁
          have hend := (h.net_step hnet trivial).over (i := i) (fun _ _ => by simp) (by
            cases stepped_of_step hnet with
            | release => exact update_self _ _ _)
          refine { hend with returned := ?_ }
          exact forall_mem_append.mpr
            ⟨hend.returned, forall_mem_singleton.mpr (hreturned.step h.sound hnet)⟩
      · exact h.raised hs
  · cases hs

lemma Ok.serve {outcome : Reply Val} (h : Ok codec none w)
    (hs : rpcStep codec handlers w (.serve n outcome) = some w') : Ok codec none w' := by
  simp only [rpcStep] at hs
  split at hs
  · next got hserving =>
      split_ifs at hs with hdone
      split at hs
      · exact h.act hs trivial
      · next method args hload =>
          refine h.act hs ?_
          intro got' hgot'
          cases hserving.symm.trans hgot'
          refine ⟨?_, rfl, ?_⟩
          · rw [hload, handle]
            split_ifs
            · rfl
            · rfl
          · rw [handle]
            split_ifs
            · rintro ⟨⟩
            · exact fun _ => ⟨_, rfl⟩
  · cases hs

lemma Ok.start {endpoint method : String} {args : Option Args} (h : Ok codec none w)
    (hs : rpcStep codec handlers w (.start i endpoint method args) = some w') :
    Ok codec none w' := by
  simp only [rpcStep] at hs
  split at hs
  · cases hs
  · next hfree =>
      obtain ⟨w₁, hw₁, hs⟩ := bind_eq_some_iff.mp hs
      obtain ⟨net, hnet, rfl⟩ := act_eq hw₁
      have hx : w.net.exchanges i = none := by
        cases stepped_of_step hnet with
        | acquire hx => exact hx
      have hzero : w.net.requestsOf w.nextCall = 0 := by
        rw [Net.requestsOf, countP_eq_zero]
        intro q hq hd
        exact absurd (of_decide_eq_true hd) (Nat.ne_of_lt (h.owners q hq))
      -- the call is there before the client is taken
      have hnew (doomed : Option Nat) (payload : List UInt8) (hlive : doomed ≠ some i →
          codec.dumpsRequest (method, args.getD codec.noArgs) = some payload) :=
        (h.setCall (i := i)
          (v := some ⟨w.nextCall, endpoint, method, args.getD codec.noArgs, payload, 0⟩)
          (Nat.le_succ w.nextCall) doomed (by rintro _ ⟨⟩; exact ⟨Nat.lt_succ_self _, .inr rfl⟩)
          (fun x hx' => by cases hx.symm.trans hx')
          (by rintro _ ⟨⟩ hd; exact ⟨hlive hd, Nat.zero_le 1⟩) (fun _ _ _ => by simp)).net_step hnet
          ⟨_, update_self _ _ _, rfl, rfl, hzero⟩
      split at hs
      · next payload hdump =>
          cases hs
          exact hnew none payload (fun _ => hdump)
      · -- `_dumps` raises: the client goes as it came
        obtain ⟨w₂, hw₂, rfl⟩ := map_eq_some_iff.mp hs
        obtain ⟨w₃, hw₃, rfl⟩ := map_eq_some_iff.mp hw₂
        obtain ⟨net₂, hnet₂, rfl⟩ := act_eq hw₃
        have hend := (hnew (some i) [] (absurd rfl)).dropped hnet₂
          (update_idem _ _ _)
        exact hend

lemma ok_step {a : RpcAct Args Val} (h : Ok codec none w)
    (hs : rpcStep codec handlers w a = some w') : Ok codec none w' := by
  cases a with
  | start i endpoint method args => exact h.start hs
  | connect i | recv i k =>
    obtain ⟨c, hc, hs⟩ := bind_eq_some_iff.mp hs
    exact h.act hs trivial
  | send i =>
    obtain ⟨c, hc, hs⟩ := bind_eq_some_iff.mp hs
    split_ifs at hs
    · exact h.act hs ⟨c, hc, rfl, (h.live i c hc (by simp)).2⟩
    · exact h.raised hs
  | sendCut i k =>
    obtain ⟨c, hc, hs⟩ := bind_eq_some_iff.mp hs
    obtain ⟨w₁, hw₁, hf⟩ := bind_eq_some_iff.mp hs
    exact h.sendCut hc hw₁ hf
  | fail i =>
    obtain ⟨c, hc, hs⟩ := bind_eq_some_iff.mp hs
    exact h.failed hc hs
  | finish i => exact h.finish hs
  | server n ev | close => exact h.act hs trivial
  | serve n outcome => exact h.serve hs

end Steps

/-! ## What holds of every call -/

/-- The runs of a handler on a frame that the call has sent. -/
def World.runsFor {Args Val : Type} (w : World Args Val) (call : Nat) :
    List (Served UInt8 (Note Args Val)) :=
  (w.net.servedFor call).filter (fun s => s.note.ran)

/-- **REPLIES ANSWER THEIR OWN REQUESTS** (`ReturnedOk`), and the handler runs at most twice for a
    call: over every run of any threads and servers, with connections failing at any byte, late
    answers, handler errors and frames that cannot be decoded. -/
theorem replies_own_requests {Args Val : Type} (codec : Codec Args Val)
    (handlers : String → String → Bool) (maxIdlePerEndpoint : Nat) (acts : List (RpcAct Args Val))
    (w : World Args Val)
    (hrun : run (rpcStep codec handlers) (World.new maxIdlePerEndpoint) acts = some w) :
    (∀ ret ∈ w.returned, ReturnedOk codec w ret) ∧ ∀ call, (w.runsFor call).length ≤ 2 := by
  have hok : Ok codec none w := by
    refine run_invariant (fun s a t _ hi _ hst => ok_step hi hst) (ok_new maxIdlePerEndpoint)
      (guarded_trivial _ acts) hrun
  refine ⟨hok.returned, ?_⟩
  intro call
  calc (w.runsFor call).length ≤ (w.net.servedFor call).length := List.length_filter_le _ _
    _ ≤ w.net.requestsOf call := hok.sound.servedFor_le call
    _ ≤ 2 := hok.twice call

/-- A codec for the one request `get(7)` and for one-byte results. -/
def byteCodec : Codec UInt8 UInt8 where
  noArgs := 0
  dumpsRequest := fun r => if r = ("get", 7) then some [7] else none
  loadsRequest := fun b => if b = [7] then some ("get", 7) else none
  dumpsReply := fun r =>
    match r with
    | .result v => some [1, v]
    | .error _ => some [0]
  loadsReply := fun b =>
    match b with
    | [1, v] => some (.result v)
    | _ => none

/-- The first attempt times out; both requests are served, the first one late. -/
def lateReply : List (RpcAct UInt8 UInt8) :=
  [.start 0 "b:1" "get" (some 7), .connect 0, .send 0, .server 0 (.take 4), .fail 0,
    .connect 0, .send 0, .server 0 (.take 1), .serve 0 (.result 5), .server 0 (.push 6),
    .server 1 (.take 4), .server 1 (.take 1), .serve 1 (.result 9), .server 1 (.push 6),
    .recv 0 4, .recv 0 2, .finish 0]

theorem replies_own_requests_late_reply :
    ∃ w, run (rpcStep byteCodec (fun _ _ => true)) (World.new 8) lateReply = some w
      ∧ w.returned.map (fun ret => (ret.call, ret.value)) = [(0, 9)] ∧ (w.runsFor 0).length = 2
      ∧ (∀ ret ∈ w.returned, ReturnedOk byteCodec w ret) ∧ ∀ call, (w.runsFor call).length ≤ 2 := by
  have hall : (run (rpcStep byteCodec (fun _ _ => true)) (World.new 8) lateReply).map
      (fun w => (w.returned.map (fun ret => (ret.call, ret.value)), (w.runsFor 0).length))
      = some ([(0, 9)], 2) := by decide +kernel
  obtain ⟨w, hrun, hw⟩ := Option.map_eq_some_iff.mp hall
  obtain ⟨hvalue, hruns⟩ := Prod.mk.inj hw
  exact ⟨w, hrun, hvalue, hruns, replies_own_requests byteCodec _ 8 lateReply w hrun⟩

end PeerCacheRpc
