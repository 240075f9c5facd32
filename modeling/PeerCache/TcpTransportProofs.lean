import PeerCache.ByteMemoryProofs
import PeerCache.StructCodecProofs
import PeerCache.TransitionProofs
import PeerCache.ExchangeInvariantProofs

/-! # The TCP data plane

    `TcpTransport` of `transport.py`: a READ request is a header of 17 bytes and is answered by the
    raw bytes of the server's memory, a WRITE request is a header and a payload and is answered by
    one byte.  Sockets are pooled per endpoint.  Replies have no header, so which bytes belong to
    which request rests on which sockets go back to the pool. -/

namespace Mem

/-- The bytes from `off` on, up to the first NUL among the next `n`. -/
def untilNul (m : Mem) (off : Nat) : Nat → Bytes
  | 0 => []
  | n + 1 => if m off = 0 then [] else m off :: untilNul m (off + 1) n

lemma untilNul_eq (m : Mem) (off n : Nat) :
    m.untilNul off n = m.read off (m.untilNul off n).length := by
  induction n generalizing off with
  | zero => rfl
  | succ n ih =>
    rw [untilNul]
    split
    · rfl
    · rw [List.length_cons, Nat.add_comm (m.untilNul (off + 1) n).length 1, read_add, ← ih (off + 1)]
      rfl

lemma length_untilNul_le (m : Mem) (off n : Nat) : (m.untilNul off n).length ≤ n := by
  induction n generalizing off with
  | zero => exact Nat.le_refl 0
  | succ n ih =>
    rw [untilNul]
    split
    · exact Nat.zero_le _
    · exact Nat.succ_le_succ (ih _)

/-- It stops at a NUL, or after all `n` bytes. -/
lemma untilNul_stops (m : Mem) (off n : Nat) :
    (m.untilNul off n).length = n ∨ m (off + (m.untilNul off n).length) = 0 := by
  induction n generalizing off with
  | zero => exact .inl rfl
  | succ n ih =>
    rw [untilNul]
    split_ifs with hnul
    · exact .inr hnul
    · rw [List.length_cons, ← Nat.add_assoc, Nat.add_right_comm]
      exact (ih (off + 1)).imp_left (congrArg (· + 1))

lemma untilNul_ne_zero (m : Mem) {off n i : Nat} (h : i < (m.untilNul off n).length) :
    m (off + i) ≠ 0 := by
  induction n generalizing off i with
  | zero => cases h
  | succ n ih =>
    rw [untilNul] at h
    split_ifs at h with hnul
    · cases h
    · cases i with
      | zero => exact hnul
      | succ i =>
        rw [Nat.add_comm i, ← Nat.add_assoc]
        exact ih (Nat.lt_of_succ_lt_succ h)

lemma le_length_untilNul (m : Mem) {off k n : Nat} (hk : k ≤ n) (h : ∀ i < k, m (off + i) ≠ 0) :
    k ≤ (m.untilNul off n).length := by
  induction k generalizing off n with
  | zero => exact Nat.zero_le _
  | succ k ih =>
    obtain ⟨n, rfl⟩ := Nat.exists_eq_add_of_lt hk
    have hne : m off ≠ 0 := h 0 (Nat.succ_pos k)
    rw [untilNul, if_neg hne, List.length_cons]
    refine Nat.succ_le_succ (ih (Nat.le_add_right k n) ?_)
    intro i hi
    rw [Nat.add_right_comm]
    exact h (i + 1) (Nat.succ_lt_succ hi)

lemma take_read (m : Mem) (off k n : Nat) : (m.read off n).take k = m.read off (min k n) := by
  rw [read, ← List.map_take, List.take_range]
  rfl

end Mem

namespace PeerCacheTcp

open ByteStream StructCodec PooledExchange Transition Function List Option

/-! ## `string_at` -/

/-- `ctypes.string_at(addr, size)`: the size goes through a C `int`.  `-1` reads up to the NUL that
    ends a string; for any other negative size `SystemError` is raised. -/
def stringAt (m : Mem) (addr size : Nat) : Option Bytes :=
  if size % 2 ^ 32 < 2 ^ 31 then some (m.read addr (size % 2 ^ 32))
  else if size % 2 ^ 32 = 2 ^ 32 - 1 then some (m.untilNul addr (2 ^ 64 - addr))
  else none

/-- Below `2^32 - 1` it is all of the bytes asked for, or an exception. -/
lemma stringAt_short {m : Mem} {addr size : Nat} {data : Bytes} (hsize : size < 2 ^ 32 - 1)
    (hdata : stringAt m addr size = some data) : data = m.read addr size := by
  have hmod : size % 2 ^ 32 = size := Nat.mod_eq_of_lt (by omega)
  rw [stringAt, hmod] at hdata
  split_ifs at hdata with hshort hnul
  · exact (some.inj hdata).symm
  · omega

/-! ## Requests -/

inductive Query where
  | read (addr length : Nat)
  | write (addr length : Nat) (payload : Bytes)
deriving DecidableEq

/-- `struct.pack(">BQQ", op, addr, length)`. -/
def header (op : UInt8) (addr length : Nat) : Option Bytes :=
  if addr < 256 ^ 8 ∧ length < 256 ^ 8 then some (op :: (toBE 8 addr ++ toBE 8 length)) else none

def encode : Query → Option Bytes
  | .read addr length => header 1 addr length
  | .write addr length payload => (header 2 addr length).map (fun hdr => hdr ++ payload)

/-- The length in the header is that of the bytes to come, and `string_at` gives no string for it. -/
def Query.Whole : Query → Prop
  | .read _ length => length < 2 ^ 32 - 1
  | .write _ length payload => payload.length = length

/-- `hdr[0]` and `struct.unpack(">QQ", hdr[1:17])`. -/
def opOf (hdr : Bytes) : UInt8 := hdr.headD 0

def addrOf (hdr : Bytes) : Nat := ofBE ((hdr.drop 1).take 8)

def lengthOf (hdr : Bytes) : Nat := ofBE ((hdr.drop 9).take 8)

/-- What `_serve_conn` reads after the header. -/
def payloadLength (hdr : Bytes) : Nat := if opOf hdr = 2 then lengthOf hdr else 0

def requestWanted : Bytes → Nat := headedWanted 17 payloadLength

/-- What the client reads: `length` bytes, or the status byte. -/
def replyWanted : Query → Bytes → Nat
  | .read _ length => fun got => length - got.length
  | .write _ _ _ => fun got => 1 - got.length

lemma header_fields {op : UInt8} {addr length : Nat} {hdr : Bytes}
    (h : header op addr length = some hdr) (tail : Bytes) :
    hdr.length = 17 ∧ opOf (hdr ++ tail) = op ∧ addrOf (hdr ++ tail) = addr
      ∧ lengthOf (hdr ++ tail) = length := by
  rw [header] at h
  split_ifs at h with hfit
  cases h
  refine ⟨by simp, rfl, ?_, ?_⟩
  · show ofBE ((toBE 8 addr ++ toBE 8 length ++ tail).take 8) = addr
    rw [append_assoc, take_left' (length_toBE 8 addr), ofBE_toBE hfit.1]
  · show ofBE (((toBE 8 addr ++ toBE 8 length ++ tail).drop 8).take 8) = length
    rw [append_assoc, drop_left' (length_toBE 8 addr), take_left' (length_toBE 8 length),
      ofBE_toBE hfit.2]

lemma isMessage_encode {q : Query} {m : Bytes} (hwhole : q.Whole) (h : encode q = some m) :
    IsMessage requestWanted m := by
  cases q with
  | read addr length =>
    obtain ⟨hlen, hop, -, -⟩ := header_fields h []
    rw [append_nil] at hop
    have hbody : ([] : Bytes).length = payloadLength m := by
      rw [payloadLength, hop]
      rfl
    have hm := isMessage_headed hbody
    rw [hlen, append_nil] at hm
    exact hm
  | write addr length payload =>
    obtain ⟨hdr, hhdr, rfl⟩ := map_eq_some_iff.mp h
    obtain ⟨hlen, hop, -, hl⟩ := header_fields hhdr []
    rw [append_nil] at hop hl
    have hbody : payload.length = payloadLength hdr := by
      rw [payloadLength, if_pos hop, hl]
      exact hwhole
    have hm := isMessage_headed hbody
    rw [hlen] at hm
    exact hm

def protocol : Protocol UInt8 Query where
  encode := encode
  wanted := requestWanted
  replyWanted := replyWanted
  Whole := Query.Whole
  message := fun _ _ hwhole h => isMessage_encode hwhole h
  starts := by decide

/-! ## The world -/

/-- One op of a batch; a list argument of `batch_write_v` that is too short has no element. -/
inductive Op where
  | read (endpoint : String) (localAddr remoteAddr length : Nat)
  | write (endpoint : Option String) (localAddr remoteAddr : Option Nat) (length : Nat)
deriving DecidableEq

structure ReadOp where
  remoteEndpoint : String
  localAddr : Nat
  remoteAddr : Nat
  length : Nat

/-- The ops of `batch_read`. -/
def batchRead (ops : List ReadOp) : List Op :=
  ops.map (fun op => .read op.remoteEndpoint op.localAddr op.remoteAddr op.length)

/-- The ops of `batch_write_v`: as many as there are lengths. -/
def batchWriteV (remoteNodes : List String) (localAddrs remoteAddrs lengths : List Nat) : List Op :=
  lengths.mapIdx (fun i length => .write remoteNodes[i]? localAddrs[i]? remoteAddrs[i]? length)

/-- A call of either. -/
inductive Batch where
  | read (ops : List ReadOp)
  | writeV (remoteNodes : List String) (localAddrs remoteAddrs lengths : List Nat)

def Batch.ops : Batch → List Op
  | .read ops => batchRead ops
  | .writeV remoteNodes localAddrs remoteAddrs lengths =>
      batchWriteV remoteNodes localAddrs remoteAddrs lengths

def Op.endpoint : Op → Option String
  | .read endpoint _ _ _ => some endpoint
  | .write endpoint _ _ _ => endpoint

def Op.length : Op → Nat
  | .read _ _ _ length => length
  | .write _ _ _ length => length

/-- The request of an op; a WRITE takes its payload out of the memory of its process. -/
def Op.query (m : Mem) : Op → Option Query
  | .read _ _ remoteAddr length => some (.read remoteAddr length)
  | .write _ localAddr remoteAddr length =>
      localAddr.bind (fun a => (stringAt m a length).bind (fun payload =>
        remoteAddr.map (fun r => .write r length payload)))

/-- A thread in `batch_read` or `batch_write_v`. -/
structure Call where
  id : Nat
  ops : List Op
  results : List Bool

/-- An op that is over, with its result. -/
structure Outcome where
  call : Nat
  index : Nat
  thread : Nat
  op : Op
  ok : Bool

/-- The pools are those of all processes: an endpoint is named with the process that asks.  A server
    notes the memory it has when it serves a request. -/
structure World where
  net : Net UInt8 Query Mem (Nat × String) (Nat × Nat)
  memory : Nat → Mem
  regions : Nat → List (Nat × Nat)
  calls : Nat → Option Call
  nextCall : Nat
  outcomes : List Outcome

/-- What happens next. -/
inductive TcpAct where
  | start (i : Nat) (batch : Batch)
  | acquire (i : Nat)
  | connect (i : Nat)
  | send (i : Nat)
  | sendCut (i k : Nat)
  | recv (i k : Nat)
  /-- the connection fails, or connecting does -/
  | fail (i : Nat)
  | finish (i : Nat)
  | ret (i : Nat)
  | server (n : Nat) (ev : Conn.Event)
  | serve (n : Nat)
  | register (process addr length : Nat)
  | deregister (process addr : Nat)
  | close (process : Nat)

/-- The ops of a call are for fewer than `2^32 - 1` bytes each. -/
def TcpAct.Short : TcpAct → Prop
  | .start _ batch => ∀ op ∈ batch.ops, op.length < 2 ^ 32 - 1
  | _ => True

instance (a : TcpAct) : Decidable a.Short :=
  match a with
  | .start _ batch => inferInstanceAs (Decidable (∀ op ∈ batch.ops, op.length < 2 ^ 32 - 1))
  | .acquire _ | .connect _ | .send _ | .sendCut _ _ | .recv _ _ | .fail _ | .finish _ | .ret _
  | .server _ _ | .serve _ | .register _ _ _ | .deregister _ _ | .close _ => isTrue trivial

section Step

variable (process : Nat → Nat) (host : String → Nat)

/-- `max(1, max_channels_per_peer)` idle sockets are kept. -/
def World.new (maxChannelsPerPeer : Nat → Nat) (memory : Nat → Mem) : World :=
  ⟨Net.new (fun ep => max 1 (maxChannelsPerPeer ep.1)), memory, fun _ => [], fun _ => none, 0, []⟩

/-- A step of the network. -/
def World.act (w : World) (a : Act UInt8 Query Mem (Nat × String) (Nat × Nat)) : Option World :=
  (PooledExchange.step protocol w.net a).map (fun net => { w with net := net })

/-- The op of call `c` that thread `i` is at. -/
def Call.current (c : Call) : Option Op := c.ops[c.results.length]?

/-- `results.append(ok)`. -/
def World.record (w : World) (i : Nat) (c : Call) (op : Op) (ok : Bool) : World :=
  { w with
    calls := Function.update w.calls i (some { c with results := c.results ++ [ok] })
    outcomes := w.outcomes ++ [⟨c.id, c.results.length, i, op, ok⟩] }

/-- The thread has a socket. -/
def World.connected (w : World) (i : Nat) : Bool :=
  ((w.net.exchanges i).bind (fun x => x.sock)).isSome

/-- The socket is closed, and the op is reported False. -/
def World.failed (w : World) (i : Nat) (c : Call) (op : Op) : Option World :=
  (w.act (.drop i)).map (fun w => w.record i c op false)

/-- `ctypes.memmove` in the memory of process `p`. -/
def World.memmove (w : World) (p addr : Nat) (data : Bytes) : World :=
  { w with memory := Function.update w.memory p ((w.memory p).write addr data) }

/-- `_covered`. -/
def covered (regions : List (Nat × Nat)) (addr length : Nat) : Bool :=
  regions.any (fun r => r.1 ≤ addr && addr + length ≤ r.1 + r.2)

/-- `_serve_conn` with a whole request. -/
def World.serve (w : World) (n : Nat) (message : Bytes) : Option World :=
  match w.net.peer n with
  | none => none
  | some ep =>
      let p := host ep.2
      let addr := addrOf message
      let length := lengthOf message
      if opOf message = 1 then
        if covered (w.regions p) addr length then
          match stringAt (w.memory p) addr length with
          | some data => w.act (.serve n (some data) (w.memory p))
          -- SystemError
          | none => w.act (.event n .shut)
        else w.act (.event n .shut)
      else if opOf message = 2 then
        if covered (w.regions p) addr length then
          (w.memmove p addr (message.drop 17)).act (.serve n (some [1]) (w.memory p))
        else w.act (.serve n (some [0]) (w.memory p))
      else w.act (.event n .shut)

/-- One step; `none` when it is not enabled. -/
def tcpStep (w : World) : TcpAct → Option World
  | .start i batch =>
      match w.calls i with
      | some _ => none
      | none =>
          some { w with
            calls := Function.update w.calls i (some ⟨w.nextCall, batch.ops, []⟩)
            nextCall := w.nextCall + 1 }
  | .acquire i =>
      (w.calls i).bind (fun c => c.current.bind (fun op =>
        match op.endpoint with
        | some ep => w.act (.acquire i (c.id, c.results.length) (process i, ep))
        -- IndexError
        | none => if (w.net.exchanges i).isNone then some (w.record i c op false) else none))
  | .connect i => w.act (.connect i)
  | .send i =>
      (w.calls i).bind (fun c => c.current.bind (fun op =>
        match (op.query (w.memory (process i))).filter (fun q => (encode q).isSome) with
        | some q => w.act (.send i q)
        -- IndexError, SystemError or struct.error
        | none => if w.connected i then w.failed i c op else none))
  | .sendCut i k =>
      (w.calls i).bind (fun c => c.current.bind (fun op =>
        (op.query (w.memory (process i))).bind (fun q =>
          (w.act (.sendCut i q k)).bind (fun w => w.failed i c op))))
  | .recv i k => w.act (.recv i k)
  | .fail i => (w.calls i).bind (fun c => c.current.bind (fun op => w.failed i c op))
  | .finish i =>
      (w.calls i).bind (fun c => c.current.bind (fun op =>
        match w.net.exchanges i with
        | some ⟨_, _, _, .waiting _ q got⟩ =>
            if replyWanted q (bytes got) = 0 then
              match op with
              | .read _ localAddr _ _ =>
                  ((w.memmove (process i) localAddr (bytes got)).act (.release i)).map
                    (fun w => w.record i c op true)
              | .write _ _ _ _ =>
                  if bytes got = [1] then (w.act (.release i)).map (fun w => w.record i c op true)
                  else w.failed i c op
            else none
        | _ => none))
  | .ret i =>
      (w.calls i).bind (fun c =>
        if c.current.isNone then some { w with calls := Function.update w.calls i none } else none)
  | .server n ev => w.act (.event n ev)
  | .serve n =>
      match (w.net.conns n).serving with
      | .reading got => if requestWanted (bytes got) = 0 then w.serve host n (bytes got) else none
      | _ => none
  | .register p addr length =>
      some { w with regions := Function.update w.regions p (w.regions p ++ [(addr, length)]) }
  | .deregister p addr =>
      some { w with
        regions := Function.update w.regions p ((w.regions p).filter (fun r => r.1 ≠ addr)) }
  | .close p => w.act (.clear (fun ep => ep.1 = p))

end Step

/-! ## What a step may do -/

/-- `data` is what a server of the op's endpoint had at `addr` when it served a request that this op,
    and no other, has sent; or the op was for no bytes. -/
def Taken (w : World) (o : Outcome) (endpoint : String) (addr length : Nat) (data : Bytes) :
    Prop :=
  (length = 0 ∧ data = []) ∨ ∃ s ∈ w.net.served, s.reply = some data ∧ data = s.note.read addr length
    ∧ (∃ ep, w.net.peer s.conn = some ep ∧ ep.2 = endpoint) ∧ s.tags ≠ []
    ∧ ∀ t ∈ s.tags, ∃ q, w.net.requests[t]? = some q ∧ q.owner = (o.call, o.index)

/-- A READ op that is reported True has what was taken for it copied to its destination; otherwise no
    memory changes. -/
def Reported (process : Nat → Nat) (w w' : World) (o : Outcome) : Prop :=
  match o.op, o.ok with
  | .read endpoint localAddr remoteAddr length, true =>
      ∃ data, data.length = length ∧ Taken w o endpoint remoteAddr length data
        ∧ w'.memory = (w.memmove (process o.thread) localAddr data).memory
  | _, _ => w'.memory = w.memory

/-- Only a server, and a step that reports a READ op, change a memory.  What is noted with a request
    is the memory of the process that serves it. -/
structure StepOk (process : Nat → Nat) (host : String → Nat) (w : World) (a : TcpAct) (w' : World) :
    Prop where
  memory : (∃ n, a = .serve n) ∨ (w'.outcomes = w.outcomes ∧ w'.memory = w.memory)
    ∨ ∃ o, w'.outcomes = w.outcomes ++ [o] ∧ Reported process w w' o
  noted : ∀ s ∈ w'.net.served, s ∈ w.net.served
    ∨ ∃ ep, w.net.peer s.conn = some ep ∧ s.note = w.memory (host ep.2)

/-! ## The invariant -/

section Invariant

variable {process : Nat → Nat} {host : String → Nat} {w w' : World} {i n : Nat} {c : Call} {op : Op}
  {ok : Bool} {x : Exchange UInt8 Query (Nat × String) (Nat × Nat)} {q : Query} {t : Bytes}
  {got : List (UInt8 × Nat)} {a : Act UInt8 Query Mem (Nat × String) (Nat × Nat)}

/-- The exchange of a thread is for the op it is at. -/
def Serves (c : Call) (x : Exchange UInt8 Query (Nat × String) (Nat × Nat)) : Prop :=
  ∃ op, c.current = some op ∧ x.owner = (c.id, c.results.length) ∧ op.endpoint = some x.endpoint.2
    ∧ ∀ r q got, x.pc = .waiting r q got → ∃ m, op.query m = some q

/-- Exchanges are those of calls, for short ops, and an answer is what the server had. -/
structure Ok (w : World) : Prop where
  sound : Sound protocol w.net
  threads : ∀ i x, w.net.exchanges i = some x → ∃ c, w.calls i = some c ∧ Serves c x
  short : ∀ i c, w.calls i = some c → ∀ op ∈ c.ops, op.length < 2 ^ 32 - 1
  notes : ∀ s ∈ w.net.served, opOf s.message = 1 →
    s.reply = stringAt s.note (addrOf s.message) (lengthOf s.message)

lemma ok_new (maxChannelsPerPeer : Nat → Nat) (memory : Nat → Mem) :
    Ok (World.new maxChannelsPerPeer memory) :=
  ⟨sound_new protocol _, by rintro _ _ ⟨⟩, by rintro _ _ ⟨⟩, forall_mem_nil _⟩

/-- What the network is asked to do for the calls. -/
def Asked (w : World) : Act UInt8 Query Mem (Nat × String) (Nat × Nat) → Prop
  | .acquire i owner ep => ∃ c op, w.calls i = some c ∧ c.current = some op
      ∧ owner = (c.id, c.results.length) ∧ op.endpoint = some ep.2
  | .send i q | .sendCut i q _ => ∃ c op m, w.calls i = some c ∧ c.current = some op
      ∧ op.query m = some q
  | .serve n reply m => ∀ got, (w.net.conns n).serving = .reading got →
      (opOf (bytes got) = 1 ∧ reply = stringAt m (addrOf (bytes got)) (lengthOf (bytes got)))
        ∨ opOf (bytes got) = 2 ∧ ∃ b, reply = some [b]
  | _ => True

lemma whole_query {m : Mem} (hshort : op.length < 2 ^ 32 - 1) (hq : op.query m = some q) :
    q.Whole := by
  cases op with
  | read endpoint localAddr remoteAddr length =>
    cases hq
    exact hshort
  | write endpoint localAddr remoteAddr length =>
    obtain ⟨a, -, hq⟩ := bind_eq_some_iff.mp hq
    obtain ⟨payload, hpayload, hq⟩ := bind_eq_some_iff.mp hq
    obtain ⟨r, -, rfl⟩ := map_eq_some_iff.mp hq
    show payload.length = length
    rw [stringAt_short hshort hpayload, Mem.length_read]
    rfl

lemma isMessage_reply {m : Bytes} {mem : Mem} (hwhole : q.Whole) (h : encode q = some m)
    (ht : (opOf m = 1 ∧ some t = stringAt mem (addrOf m) (lengthOf m))
      ∨ opOf m = 2 ∧ ∃ b, some t = some [b]) : IsMessage (replyWanted q) t := by
  cases q with
  | read addr length =>
    obtain ⟨-, hop, -, hlen⟩ := header_fields h []
    rw [append_nil] at hop hlen
    rw [hop, hlen] at ht
    rcases ht with ⟨-, ht⟩ | ⟨hne, -⟩
    · refine isMessage_exact ?_
      rw [stringAt_short hwhole ht.symm, Mem.length_read]
    · exact absurd hne (by decide)
  | write addr length payload =>
    obtain ⟨hdr, hhdr, rfl⟩ := map_eq_some_iff.mp h
    obtain ⟨-, hop, -, -⟩ := header_fields hhdr payload
    rw [hop] at ht
    rcases ht with ⟨hne, -⟩ | ⟨-, b, ⟨⟩⟩
    · exact absurd hne (by decide)
    · exact isMessage_exact rfl

lemma Ok.proper (h : Ok w) (ha : Asked w a) : Proper protocol w.net a := by
  cases a with
  | send i q | sendCut i q k =>
    obtain ⟨c, op, m, hc, hop, hq⟩ := ha
    exact whole_query (h.short i c hc op (mem_of_getElem? hop)) hq
  | serve n reply m =>
    rintro got t q hgot rfl hwhole henc
    exact isMessage_reply hwhole henc (ha got hgot)
  | _ => trivial

lemma act_eq (h : w.act a = some w') :
    ∃ net, PooledExchange.step protocol w.net a = some net ∧ w' = { w with net := net } := by
  obtain ⟨net, hnet, rfl⟩ := map_eq_some_iff.mp h
  exact ⟨net, hnet, rfl⟩

/-- **A STEP OF THE NETWORK** for the calls. -/
lemma Ok.act (h : Ok w) (hs : w.act a = some w') (ha : Asked w a) : Ok w' := by
  obtain ⟨net, hnet, rfl⟩ := act_eq hs
  refine ⟨sound_step h.sound (h.proper ha) hnet, ?_, h.short, ?_⟩
  · intro j y hy
    rcases step_exchange hnet hy with ⟨x, hx, howner, hep, hpc⟩ | ⟨rfl, hpc⟩
    · obtain ⟨c, hc, op, hop, ho, he, hq⟩ := h.threads j x hx
      refine ⟨c, hc, op, hop, howner.trans ho, by rw [hep]; exact he, ?_⟩
      intro r q got hw
      rcases hpc r q got hw with ⟨got', hgot'⟩ | rfl
      · exact hq r q got' hgot'
      · obtain ⟨c', op', m, hc', hop', hquery⟩ := ha
        obtain rfl := some.inj (hc.symm.trans hc')
        obtain rfl := some.inj (hop.symm.trans hop')
        exact ⟨m, hquery⟩
    · obtain ⟨c, op, hc, hop, ho, he⟩ := ha
      exact ⟨c, hc, op, hop, ho, he, fun r q got hw => by cases hpc.symm.trans hw⟩
  · intro s hmem
    rcases step_served hnet hmem with hmem | ⟨rfl, got, hgot, hmessage⟩
    · exact h.notes s hmem
    · intro hread
      rw [hmessage] at hread ⊢
      rcases ha got hgot with ⟨-, hreply⟩ | ⟨hop, -⟩
      · exact hreply
      · exact absurd (hread.symm.trans hop) (by decide)

/-- An op is over, and the thread has no socket. -/
lemma Ok.record (h : Ok w) (hc : w.calls i = some c) (hnone : w.net.exchanges i = none) (op : Op)
    (ok : Bool) : Ok (w.record i c op ok) := by
  refine ⟨h.sound, ?_, ?_, h.notes⟩
  · intro j x hx
    have hj : j ≠ i := by
      rintro rfl
      cases hnone.symm.trans hx
    rw [show (w.record i c op ok).calls j = w.calls j from update_of_ne hj _ _]
    exact h.threads j x hx
  · intro j c' hc'
    by_cases hj : j = i
    · subst hj
      obtain rfl := some.inj ((update_self j _ w.calls).symm.trans hc')
      exact h.short j c hc
    · exact h.short j c' ((update_of_ne hj _ _).symm.trans hc')

/-! ## The steps -/

/-- **THE BYTES READ ARE THE SERVER'S**: what a READ op has when its reply is whole. -/
lemma Ok.taken (h : Ok w) (hc : w.calls i = some c) {endpoint : String}
    {localAddr remoteAddr length r : Nat}
    (hop : c.current = some (.read endpoint localAddr remoteAddr length)) {owner : Nat × Nat}
    {sock : Option Nat} {ep : Nat × String}
    (hx : w.net.exchanges i = some ⟨owner, ep, sock, .waiting r q got⟩)
    (hdone : replyWanted q (bytes got) = 0) (o : Outcome)
    (ho : (o.call, o.index) = (c.id, c.results.length)) :
    (bytes got).length = length ∧ Taken w o endpoint remoteAddr length (bytes got) := by
  obtain ⟨c', hc', op, hop', howner, hep, hq⟩ := h.threads i _ hx
  obtain rfl := some.inj (hc.symm.trans hc')
  obtain rfl := some.inj (hop.symm.trans hop')
  obtain ⟨m, hm⟩ := hq r q got rfl
  cases hm
  obtain ⟨n, -, hpeer, hr, hans⟩ := h.sound.answered hx rfl hdone
  rcases hans with ⟨rfl, hzero⟩ | ⟨k, s, t, hk, rfl, htags, henc, ht, rfl⟩
  · have hlen : length = 0 := Nat.eq_zero_of_le_zero (Nat.sub_eq_zero_iff_le.mp hzero)
    exact ⟨hlen.symm, .inl ⟨hlen, rfl⟩⟩
  · have hs := mem_of_getElem? hk
    obtain ⟨hlen, hopof, haddr, hlength⟩ := header_fields henc []
    rw [append_nil] at hopof haddr hlength
    have hreply := h.notes s hs hopof
    rw [ht, haddr, hlength] at hreply
    have hdata := stringAt_short (h.short i c hc _ (mem_of_getElem? hop)) hreply.symm
    rw [bytes_tag]
    refine ⟨by rw [hdata, Mem.length_read]; rfl,
      .inr ⟨s, hs, ht, hdata, ⟨ep, hpeer, (some.inj hep).symm⟩, ?_, ?_⟩⟩
    · rw [htags]
      intro hnil
      rw [(replicate_eq_nil_iff _).mp hnil] at hlen
      cases hlen
    · intro t' ht'
      rw [htags] at ht'
      rw [eq_of_mem_replicate ht', ho]
      exact ⟨_, hr, howner⟩

/-- A step of the network that is not a server's answer. -/
lemma Ok.quiet (h : Ok w) (hs : w.act a = some w') (ha : Asked w a)
    (hne : ∀ n reply m, a ≠ .serve n reply m) (b : TcpAct) : Ok w' ∧ StepOk process host w b w' := by
  refine ⟨h.act hs ha, ?_⟩
  obtain ⟨net, hnet, rfl⟩ := act_eq hs
  refine ⟨.inr (.inl ⟨rfl, rfl⟩), fun s hmem => ?_⟩
  rcases step_served hnet hmem with hmem | ⟨heq, -⟩
  · exact .inl hmem
  · exact absurd heq (hne _ _ _)

/-- A step that ends with the report of an op: the exchange is over. -/
lemma Ok.reports {w₁ w₂ : World} (h : Ok w₁) (ha : a = .drop i ∨ a = .release i)
    (hcalls : w₁.calls = w.calls) (hout : w₁.outcomes = w.outcomes)
    (hserved : w₁.net.served = w.net.served) (hc : w.calls i = some c) (hs : w₁.act a = some w₂)
    (hrep : Reported process w (w₂.record i c op ok) ⟨c.id, c.results.length, i, op, ok⟩)
    (b : TcpAct) :
    Ok (w₂.record i c op ok) ∧ StepOk process host w b (w₂.record i c op ok) := by
  have hok : Ok w₂ := by
    refine h.act hs ?_
    rcases ha with rfl | rfl
    · trivial
    · trivial
  obtain ⟨net, hnet, rfl⟩ := act_eq hs
  have hnone : net.exchanges i = none ∧ net.served = w₁.net.served := by
    rcases ha with rfl | rfl
    · cases stepped_of_step hnet with
      | drop hx => exact ⟨update_self _ _ _, rfl⟩
    · cases stepped_of_step hnet with
      | release hx hdone => exact ⟨update_self _ _ _, rfl⟩
  refine ⟨hok.record (hcalls ▸ hc) hnone.1 op ok, .inr (.inr ⟨_, ?_, hrep⟩), fun s hmem => .inl ?_⟩
  · show w₁.outcomes ++ _ = _
    rw [hout]
  · have hmem : s ∈ net.served := hmem
    rwa [hnone.2, hserved] at hmem

lemma Ok.failed (h : Ok w) (hc : w.calls i = some c) (hs : w.failed i c op = some w') (b : TcpAct) :
    Ok w' ∧ StepOk process host w b w' := by
  obtain ⟨w₂, hw₂, rfl⟩ := map_eq_some_iff.mp hs
  refine h.reports (.inl rfl) rfl rfl rfl hc hw₂ ?_ b
  obtain ⟨net, -, rfl⟩ := act_eq hw₂
  cases op with
  | read | write => rfl

lemma Ok.finish (h : Ok w) (hs : tcpStep process host w (.finish i) = some w') :
    Ok w' ∧ StepOk process host w (.finish i) w' := by
  obtain ⟨c, hc, hs⟩ := bind_eq_some_iff.mp hs
  obtain ⟨op, hop, hs⟩ := bind_eq_some_iff.mp hs
  split at hs
  · next owner ep sock r q got hx =>
      by_cases hdone : replyWanted q (bytes got) = 0
      · rw [if_pos hdone] at hs
        cases op with
        | read endpoint localAddr remoteAddr length =>
          obtain ⟨w₂, hw₂, rfl⟩ := map_eq_some_iff.mp hs
          obtain ⟨hlen, htaken⟩ := h.taken hc hop hx hdone
            ⟨c.id, c.results.length, i, .read endpoint localAddr remoteAddr length, true⟩ rfl
          have hmoved : Ok (w.memmove (process i) localAddr (bytes got)) :=
            ⟨h.sound, h.threads, h.short, h.notes⟩
          refine hmoved.reports (w := w) (.inr rfl) rfl rfl rfl hc hw₂ ?_ _
          obtain ⟨net, -, rfl⟩ := act_eq hw₂
          exact ⟨bytes got, hlen, htaken, rfl⟩
        | write =>
          split_ifs at hs
          · obtain ⟨w₂, hw₂, rfl⟩ := map_eq_some_iff.mp hs
            refine h.reports (.inr rfl) rfl rfl rfl hc hw₂ ?_ _
            obtain ⟨net, -, rfl⟩ := act_eq hw₂
            rfl
          · exact h.failed hc hs _
      · rw [if_neg hdone] at hs
        cases hs
  · cases hs

/-- The server answers out of the memory it notes. -/
lemma Ok.answer {w₁ : World} {ep : Nat × String} {reply : Option Bytes} (h : Ok w₁)
    (hnet : w₁.net = w.net) (hpeer : w.net.peer n = some ep)
    (ha : Asked w₁ (.serve n reply (w.memory (host ep.2))))
    (hs : w₁.act (.serve n reply (w.memory (host ep.2))) = some w') :
    Ok w' ∧ StepOk process host w (.serve n) w' := by
  refine ⟨h.act hs ha, .inl ⟨n, rfl⟩, ?_⟩
  obtain ⟨net, hstep, rfl⟩ := act_eq hs
  intro s hmem
  rcases step_served hstep hmem with hmem | ⟨heq, -⟩
  · exact .inl (hnet ▸ hmem)
  · injection heq with hn _ hnote
    exact .inr ⟨ep, hn ▸ hpeer, hnote.symm⟩

lemma Ok.serve (h : Ok w) (hserving : (w.net.conns n).serving = .reading got)
    (hs : w.serve host n (bytes got) = some w') : Ok w' ∧ StepOk process host w (.serve n) w' := by
  have hshut (hs : w.act (.event n .shut) = some w') : Ok w' ∧ StepOk process host w (.serve n) w' :=
    h.quiet hs trivial (by simp) _
  have hask {w₁ : World} {reply : Option Bytes} {m : Mem} (hnet : w₁.net = w.net)
      (hr : (opOf (bytes got) = 1
          ∧ reply = stringAt m (addrOf (bytes got)) (lengthOf (bytes got)))
        ∨ opOf (bytes got) = 2 ∧ ∃ b, reply = some [b]) : Asked w₁ (.serve n reply m) := by
    intro got' hgot'
    rw [hnet, hserving] at hgot'
    cases hgot'
    exact hr
  rw [World.serve] at hs
  split at hs
  · cases hs
  · next ep hpeer =>
      dsimp only at hs
      split_ifs at hs with hread hcov hwrite hcov
      · split at hs
        · next data hdata => exact h.answer rfl hpeer (hask rfl (.inl ⟨hread, hdata.symm⟩)) hs
        · exact hshut hs
      · exact hshut hs
      · have hmoved : Ok (w.memmove (host ep.2) (addrOf (bytes got)) ((bytes got).drop 17)) :=
          ⟨h.sound, h.threads, h.short, h.notes⟩
        exact hmoved.answer rfl hpeer (hask rfl (.inr ⟨hwrite, 1, rfl⟩)) hs
      · exact h.answer rfl hpeer (hask rfl (.inr ⟨hwrite, 0, rfl⟩)) hs
      · exact hshut hs

/-- A step that changes neither the network nor a memory. -/
lemma StepOk.of_eq {a : TcpAct} (hnet : w'.net = w.net) (hmem : w'.memory = w.memory)
    (hout : w'.outcomes = w.outcomes) : StepOk process host w a w' :=
  ⟨.inr (.inl ⟨hout, hmem⟩), fun _ hs => .inl (hnet ▸ hs)⟩

/-- **EVERY STEP** is as it may be, and keeps the invariant when its ops are short. -/
lemma ok_step {a : TcpAct} (h : Ok w) (hs : tcpStep process host w a = some w') :
    (a.Short → Ok w') ∧ StepOk process host w a w' := by
  have hboth (hb : Ok w' ∧ StepOk process host w a w') :
      (a.Short → Ok w') ∧ StepOk process host w a w' := ⟨fun _ => hb.1, hb.2⟩
  -- a thread without a call has no exchange, nor has one that is at no op
  have hidle (i : Nat) (hi : ∀ c op, w.calls i = some c → c.current = some op → op.endpoint = none) :
      w.net.exchanges i = none := by
    by_contra hne
    obtain ⟨x, hx⟩ := ne_none_iff_exists'.mp hne
    obtain ⟨c, hc, op, hop, -, hep, -⟩ := h.threads i x hx
    cases (hi c op hc hop).symm.trans hep
  cases a with
  | start i batch =>
    rw [tcpStep] at hs
    split at hs
    · cases hs
    · next hfree =>
        cases hs
        refine ⟨fun hshort => ⟨h.sound, ?_, ?_, h.notes⟩, .of_eq rfl rfl rfl⟩
        · intro j x hx
          obtain ⟨c, hc, hserves⟩ := h.threads j x hx
          have hj : j ≠ i := by
            rintro rfl
            cases hfree.symm.trans hc
          exact ⟨c, (update_of_ne hj _ _).trans hc, hserves⟩
        · intro j c hc
          by_cases hj : j = i
          · subst hj
            cases (update_self j _ w.calls).symm.trans hc
            exact hshort
          · exact h.short j c ((update_of_ne hj _ _).symm.trans hc)
  | acquire i =>
    obtain ⟨c, hc, hs⟩ := bind_eq_some_iff.mp hs
    obtain ⟨op, hop, hs⟩ := bind_eq_some_iff.mp hs
    split at hs
    · next ep hep => exact hboth (h.quiet hs ⟨c, op, hc, hop, rfl, hep⟩ (by simp) _)
    · split_ifs at hs with hnone
      cases hs
      refine hboth ⟨h.record hc (isNone_iff_eq_none.mp hnone) op false,
        .inr (.inr ⟨_, rfl, ?_⟩), fun s hs => .inl hs⟩
      cases op with
      | read | write => rfl
  | connect i | recv i k | server n ev | close p => exact hboth (h.quiet hs trivial (by simp) _)
  | send i =>
    obtain ⟨c, hc, hs⟩ := bind_eq_some_iff.mp hs
    obtain ⟨op, hop, hs⟩ := bind_eq_some_iff.mp hs
    split at hs
    · next q hq =>
        exact hboth (h.quiet hs ⟨c, op, _, hc, hop, (filter_eq_some_iff.mp hq).1⟩ (by simp) _)
    · split_ifs at hs
      exact hboth (h.failed hc hs _)
  | sendCut i k =>
    obtain ⟨c, hc, hs⟩ := bind_eq_some_iff.mp hs
    obtain ⟨op, hop, hs⟩ := bind_eq_some_iff.mp hs
    obtain ⟨q, hq, hs⟩ := bind_eq_some_iff.mp hs
    obtain ⟨w₁, hw₁, hs⟩ := bind_eq_some_iff.mp hs
    obtain ⟨w₂, hw₂, rfl⟩ := map_eq_some_iff.mp hs
    have hcut := h.act hw₁ ⟨c, op, _, hc, hop, hq⟩
    obtain ⟨net, hnet, rfl⟩ := act_eq hw₁
    refine hboth (hcut.reports (w := w) (.inl rfl) rfl rfl ?_ hc hw₂ ?_ _)
    · cases stepped_of_step hnet with
      | sendCut => rfl
    · obtain ⟨net', -, rfl⟩ := act_eq hw₂
      cases op with
      | read | write => rfl
  | fail i =>
    obtain ⟨c, hc, hs⟩ := bind_eq_some_iff.mp hs
    obtain ⟨op, hop, hs⟩ := bind_eq_some_iff.mp hs
    exact hboth (h.failed hc hs _)
  | finish i => exact hboth (h.finish hs)
  | ret i =>
    obtain ⟨c, hc, hs⟩ := bind_eq_some_iff.mp hs
    split_ifs at hs with hlast
    cases hs
    refine ⟨fun _ => ⟨h.sound, ?_, ?_, h.notes⟩, .of_eq rfl rfl rfl⟩
    · intro j x hx
      obtain ⟨c', hc', hserves⟩ := h.threads j x hx
      have hj : j ≠ i := by
        rintro rfl
        obtain ⟨op, hop, -⟩ := hserves
        cases hc.symm.trans hc'
        rw [hop] at hlast
        cases hlast
      exact ⟨c', (update_of_ne hj _ _).trans hc', hserves⟩
    · intro j c' hc'
      by_cases hj : j = i
      · subst hj
        cases (update_self j _ w.calls).symm.trans hc'
      · exact h.short j c' ((update_of_ne hj _ _).symm.trans hc')
  | serve n =>
    rw [tcpStep] at hs
    split at hs
    · next got hserving =>
        split_ifs at hs
        exact hboth (h.serve hserving hs)
    · cases hs
  | register p addr length | deregister p addr =>
    cases hs
    exact hboth ⟨⟨h.sound, h.threads, h.short, h.notes⟩, .of_eq rfl rfl rfl⟩

end Invariant

/-! ## What holds of every op -/

/-- **READS DELIVER THE RIGHT BYTES OR NOTHING**: over every run of any processes, threads and batches,
    with connections failing at any byte.  A step of a client changes a memory only when it reports a
    READ op True, and then it copies to the op's destination what the server had at `remote_addr` when
    it served this op's own request.  On an idle socket nothing is to be read or still to be sent: what
    the server has not served yet there are READs of no bytes. -/
theorem reads_right_or_nothing (process : Nat → Nat) (host : String → Nat) (memory : Nat → Mem)
    (maxChannelsPerPeer : Nat → Nat) (acts : List TcpAct) (hshort : ∀ a ∈ acts, a.Short) (w : World)
    (hrun : run (tcpStep process host) (World.new maxChannelsPerPeer memory) acts = some w) :
    (∀ a w', tcpStep process host w a = some w' → StepOk process host w a w')
      ∧ ∀ ep, ∀ n ∈ w.net.idle ep, (w.net.conns n).down = []
        ∧ (∀ rest, (w.net.conns n).serving = .replying rest → rest = [])
        ∧ ∃ pending, OnWire (w.net.conns n) pending []
          ∧ ∀ p ∈ pending, ∃ addr, encode (.read addr 0) = some p.1 := by
  have hok : Ok w :=
    run_invariant (fun s a t ha hi _ hst => (ok_step hi hst).1 (hshort a ha))
      (ok_new maxChannelsPerPeer memory) (guarded_trivial _ acts) hrun
  refine ⟨fun a w' hs => (ok_step hok hs).2, ?_⟩
  intro ep n hn
  obtain ⟨hdown, hrest, pending, hwire, hsilent⟩ := hok.sound.idle_quiet hn
  refine ⟨hdown, hrest, pending, hwire, ?_⟩
  intro p hp
  obtain ⟨q, hq, hzero⟩ := hsilent p hp
  cases q with
  | read addr length =>
      have hlen : length = 0 := Nat.eq_zero_of_le_zero (Nat.sub_eq_zero_iff_le.mp hzero)
      rw [hlen] at hq
      exact ⟨addr, hq⟩
  | write addr length payload => cases hzero

/-- Process 1 has the bytes 1, 2, 3, … and process 0 none. -/
def counting (p a : Nat) : UInt8 := if p = 1 then UInt8.ofNat (a + 1) else 0

/-- Thread 0 reads two ops over one socket, of the second one byte, while thread 1 reads one. -/
def brokenRead : List TcpAct :=
  [.register 1 0 100, .start 0 (.read [⟨"b:1", 50, 3, 2⟩, ⟨"b:1", 60, 5, 2⟩]),
    .start 1 (.read [⟨"b:1", 70, 8, 1⟩]), .acquire 0, .connect 0, .send 0, .acquire 1, .connect 1,
    .server 0 (.take 17), .send 1, .serve 0, .server 1 (.take 17), .serve 1, .server 0 (.push 2),
    .server 1 (.push 1), .recv 1 1, .finish 1, .server 0 .next, .recv 0 1, .recv 0 1, .finish 0,
    .acquire 0, .send 0, .server 0 (.take 17), .serve 0, .server 0 (.push 1), .recv 0 1]

/-- The socket breaks. -/
theorem reads_right_or_nothing_broken_read :
    ∃ w w', run (tcpStep (fun _ => 0) (fun _ => 1)) (World.new (fun _ => 16) counting) brokenRead
        = some w
      ∧ tcpStep (fun _ => 0) (fun _ => 1) w (.fail 0) = some w'
      ∧ w'.outcomes.map (fun o => o.ok) = [true, true, false]
      ∧ (w'.memory 0).read 50 2 = [4, 5] ∧ (w'.memory 0).read 60 2 = [0, 0]
      ∧ StepOk (fun _ => 0) (fun _ => 1) w (.fail 0) w' := by
  have hall : ((run (tcpStep (fun _ => 0) (fun _ => 1)) (World.new (fun _ => 16) counting)
      brokenRead).bind (fun w => tcpStep (fun _ => 0) (fun _ => 1) w (.fail 0))).map
        (fun w => (w.outcomes.map (fun o => o.ok), (w.memory 0).read 50 2, (w.memory 0).read 60 2))
      = some ([true, true, false], [4, 5], [0, 0]) := by decide +kernel
  obtain ⟨w', hs, hw'⟩ := map_eq_some_iff.mp hall
  obtain ⟨w, hrun, hs⟩ := bind_eq_some_iff.mp hs
  obtain ⟨hok, hbytes⟩ := Prod.mk.inj hw'
  obtain ⟨hfirst, hsecond⟩ := Prod.mk.inj hbytes
  have hall := reads_right_or_nothing (fun _ => 0) (fun _ => 1) counting (fun _ => 16) brokenRead
    (by decide) w hrun
  exact ⟨w, w', hrun, hs, hok, hfirst, hsecond, hall.1 _ w' hs⟩

/-- Thread 0 waits for the answer to a READ over connection 0, and has `got` of it. -/
structure AtRead (w : World) (size : Nat) (c : Conn UInt8) (got : List (UInt8 × Nat)) : Prop where
  conn : w.net.conns 0 = c
  call : w.calls 0 = some ⟨0, [.read "b:1" 0 0 size], []⟩
  exchange : w.net.exchanges 0
    = some ⟨(0, 0), (0, "b:1"), some 0, .waiting 0 (.read 0 size) got⟩
  pool : w.net.idle (0, "b:1") = [] ∧ w.net.maxIdle (0, "b:1") = 16
  peer : w.net.peer 0 = some (0, "b:1") ∧ 0 < w.net.nextConn
  outcomes : w.outcomes = []

section AtRead

variable {w : World} {size : Nat} {up down rest got : List (UInt8 × Nat)} {data : Bytes}

lemma AtRead.serve (h : AtRead w size ⟨up, down, .reading rest⟩ got)
    (hop : opOf (bytes rest) = 1) (hlen : lengthOf (bytes rest) = size)
    (hwhole : requestWanted (bytes rest) = 0)
    (hcov : covered (w.regions 1) (addrOf (bytes rest)) size = true)
    (hdata : stringAt (w.memory 1) (addrOf (bytes rest)) size = some data) :
    ∃ k w', tcpStep (fun _ => 0) (fun _ => 1) w (.serve 0) = some w'
      ∧ AtRead w' size ⟨up, down, .replying (tag data k)⟩ got := by
  refine ⟨w.net.served.length, ?_⟩
  apply Exists.intro
  apply And.intro
  · simp only [tcpStep, h.conn, hwhole, if_true, World.serve, h.peer, hop, hlen, hcov, hdata,
      World.act, PooledExchange.step, protocol]
    rfl
  · exact ⟨rfl, h.call, h.exchange, h.pool, h.peer, h.outcomes⟩

lemma AtRead.push (h : AtRead w size ⟨up, down, .replying rest⟩ got) (hpos : 0 < size)
    (hlong : size ≤ rest.length) :
    ∃ w', tcpStep (fun _ => 0) (fun _ => 1) w (.server 0 (.push size)) = some w'
      ∧ AtRead w' size ⟨up, down ++ rest.take size, .replying (rest.drop size)⟩ got := by
  apply Exists.intro
  apply And.intro
  · simp only [tcpStep, World.act, PooledExchange.step, h.peer, if_true, h.conn, Conn.event, hpos,
      hlong, and_self]
    rfl
  · exact ⟨rfl, h.call, h.exchange, h.pool, h.peer, h.outcomes⟩

lemma AtRead.recv (h : AtRead w size ⟨up, down, .replying rest⟩ []) (hpos : 0 < size)
    (hlong : size ≤ down.length) :
    ∃ w', tcpStep (fun _ => 0) (fun _ => 1) w (.recv 0 size) = some w'
      ∧ AtRead w' size ⟨up, down.drop size, .replying rest⟩ (down.take size) := by
  have hwanted : size ≤ replyWanted (.read 0 size) (bytes []) := Nat.le_refl size
  apply Exists.intro
  apply And.intro
  · simp only [tcpStep, World.act, PooledExchange.step, h.exchange, h.conn, Conn.recv, hpos,
      hlong, protocol, hwanted, and_self, if_true]
    rfl
  · exact ⟨rfl, h.call, rfl, h.pool, h.peer, h.outcomes⟩

lemma AtRead.finish {c : Conn UInt8} (h : AtRead w size c got) (hlen : got.length = size) :
    ∃ w', tcpStep (fun _ => 0) (fun _ => 1) w (.finish 0) = some w'
      ∧ w'.outcomes.map (fun o => o.ok) = [true] ∧ w'.net.idle (0, "b:1") = [0]
      ∧ w'.net.conns 0 = c := by
  have hwanted : replyWanted (.read 0 size) (bytes got) = 0 := by
    show size - (bytes got).length = 0
    rw [bytes, length_map, hlen, Nat.sub_self]
  apply Exists.intro
  refine And.intro ?_ (And.intro ?_ (And.intro ?_ ?_))
  · simp only [tcpStep, h.call, Call.current, h.exchange, hwanted, if_true, World.memmove, World.act,
      PooledExchange.step, protocol]
    rfl
  · show (w.outcomes ++ [_]).map _ = _
    rw [h.outcomes]
    rfl
  · show Net.kept w.net (0, "b:1") 0 (0, "b:1") = [0]
    simp [Net.kept, h.pool]
  · exact h.conn

/-- **A LONGER STRING STAYS**: the READ is reported True, and the socket goes back to the pool with the
    rest of the string on it. -/
lemma AtRead.rest_stays (h : AtRead w size ⟨up, [], .reading rest⟩ [])
    (hop : opOf (bytes rest) = 1) (hlen : lengthOf (bytes rest) = size)
    (hwhole : requestWanted (bytes rest) = 0)
    (hcov : covered (w.regions 1) (addrOf (bytes rest)) size = true)
    (hdata : stringAt (w.memory 1) (addrOf (bytes rest)) size = some data) (hpos : 0 < size)
    (hlong : size < data.length) :
    ∃ w', run (tcpStep (fun _ => 0) (fun _ => 1)) w
        [.serve 0, .server 0 (.push size), .recv 0 size, .finish 0] = some w'
      ∧ w'.outcomes.map (fun o => o.ok) = [true] ∧ w'.net.idle (0, "b:1") = [0]
      ∧ ∃ rest, (w'.net.conns 0).serving = .replying rest ∧ rest ≠ [] := by
  obtain ⟨k, w₁, h₁, hw₁⟩ := h.serve hop hlen hwhole hcov hdata
  have htag : (tag data k).length = data.length := length_map _
  obtain ⟨w₂, h₂, hw₂⟩ := hw₁.push hpos (htag ▸ hlong.le)
  have hdown : ([] ++ (tag data k).take size).length = size := by
    rw [nil_append, length_take, htag, Nat.min_eq_left hlong.le]
  obtain ⟨w₃, h₃, hw₃⟩ := hw₂.recv hpos hdown.ge
  obtain ⟨w₄, h₄, hout, hidle, hconn⟩ := hw₃.finish (by rw [length_take, hdown, Nat.min_self])
  refine ⟨w₄, ?_, hout, hidle, (tag data k).drop size, by rw [hconn], ?_⟩
  · simp only [run, h₁, h₂, h₃, h₄, bind_some]
  · intro hnil
    have hle := drop_eq_nil_iff.mp hnil
    omega

end AtRead

/-- Process 1 has no NUL byte in its segment of 4 GiB, nor right behind it. -/
def fullSegment (p : Nat) : Mem := fun a => if p = 1 ∧ a ≤ 2 ^ 32 then 1 else 0

lemma fullSegment_string : ∃ data, stringAt (fullSegment 1) 0 (2 ^ 32 - 1) = some data
    ∧ 2 ^ 32 < data.length := by
  refine ⟨(fullSegment 1).untilNul 0 (2 ^ 64 - 0), rfl, ?_⟩
  refine Mem.le_length_untilNul _ (by omega) ?_
  intro i hi
  rw [Nat.zero_add, fullSegment, if_pos ⟨rfl, Nat.lt_succ_iff.mp hi⟩]
  decide

/-- A READ of the segment but for its last byte is sent, and the server has it. -/
def askSegment : List TcpAct :=
  [.register 1 0 (2 ^ 32), .start 0 (.read [⟨"b:1", 0, 0, 2 ^ 32 - 1⟩]), .acquire 0, .connect 0,
    .send 0, .server 0 (.take 17)]

/-- The READ is reported True, and its socket is idle with the rest of a string on it. -/
theorem read_leaves_string : ∃ w, run (tcpStep (fun _ => 0) (fun _ => 1))
      (World.new (fun _ => 16) fullSegment) (askSegment ++ [.serve 0, .server 0 (.push (2 ^ 32 - 1)),
        .recv 0 (2 ^ 32 - 1), .finish 0]) = some w
    ∧ w.outcomes.map (fun o => o.ok) = [true] ∧ w.net.idle (0, "b:1") = [0]
    ∧ ∃ rest, (w.net.conns 0).serving = .replying rest ∧ rest ≠ [] := by
  obtain ⟨data, hdata, hlong⟩ := fullSegment_string
  obtain ⟨w, hw, hread, hregions, hmemory⟩ : ∃ w, run (tcpStep (fun _ => 0) (fun _ => 1))
        (World.new (fun _ => 16) fullSegment) askSegment = some w
      ∧ AtRead w (2 ^ 32 - 1)
        ⟨[], [], .reading (tag (1 :: (replicate 12 0 ++ replicate 4 255)) 0)⟩ []
      ∧ w.regions 1 = [(0, 2 ^ 32)] ∧ w.memory 1 = fullSegment 1 :=
    ⟨_, rfl, ⟨rfl, rfl, rfl, ⟨rfl, rfl⟩, ⟨rfl, Nat.one_pos⟩, rfl⟩, rfl, rfl⟩
  obtain ⟨w', hw', hleft⟩ := hread.rest_stays (by decide) (by decide) (by decide)
    (by rw [hregions]; decide) (hmemory ▸ hdata) (by omega) (by omega)
  refine ⟨w', ?_, hleft⟩
  rw [run_append, hw]
  exact hw'

end PeerCacheTcp
