import Mathlib

/-! # Messages on byte streams

    A connection is a pair of byte streams between a client and a server that answers one message
    after the other.  A reader knows, from what it has read, how many bytes it still wants; a
    message is what such a reader stops at (`IsMessage`).  Bytes arrive in pieces of any size. -/

namespace ByteStream

open List

variable {B : Type}

/-! ## Messages -/

/-- The bytes of message `r`. -/
def tag (m : List B) (r : Nat) : List (B × Nat) := m.map (fun b => (b, r))

def bytes (t : List (B × Nat)) : List B := t.map Prod.fst

@[simp] lemma bytes_tag (m : List B) (r : Nat) : bytes (tag m r) = m := by
  rw [bytes, tag, map_map]
  exact map_id _

@[simp] lemma length_tag (m : List B) (r : Nat) : (tag m r).length = m.length := length_map _

lemma tag_append (m m' : List B) (r : Nat) : tag (m ++ m') r = tag m r ++ tag m' r :=
  map_append

lemma bytes_append (t t' : List (B × Nat)) : bytes (t ++ t') = bytes t ++ bytes t' :=
  map_append

variable {m : List B}

lemma mem_tag {r : Nat} {x : B × Nat} (h : x ∈ tag m r) : x.2 = r := by
  obtain ⟨b, -, rfl⟩ := mem_map.mp h
  rfl

/-- What a reader that wants `wanted p` more bytes after `p` stops at. -/
structure IsMessage (wanted : List B → Nat) (m : List B) : Prop where
  whole : wanted m = 0
  more : ∀ p s, p ++ s = m → s ≠ [] → 0 < wanted p ∧ wanted p ≤ s.length

variable {p s : List B}

lemma IsMessage.eq_of_wanted {wanted : List B → Nat} (h : IsMessage wanted m) (heq : p ++ s = m)
    (hp : wanted p = 0) : p = m ∧ s = [] := by
  cases hs : s with
  | nil =>
    rw [hs, append_nil] at heq
    exact ⟨heq, rfl⟩
  | cons b s' =>
    have hpos := (h.more p s heq (by rw [hs]; exact cons_ne_nil b s')).1
    omega

lemma IsMessage.within {wanted : List B → Nat} (h : IsMessage wanted m) (heq : p ++ s = m) {k : Nat}
    (hk : k ≤ wanted p) : p.length + k ≤ m.length := by
  rw [← heq, length_append]
  cases hs : s with
  | nil =>
    rw [hs, append_nil] at heq
    rw [heq, h.whole] at hk
    omega
  | cons b s' =>
    have hle := (h.more p s heq (by rw [hs]; exact cons_ne_nil b s')).2
    rw [hs] at hle
    omega

lemma isMessage_exact {n : Nat} (h : m.length = n) : IsMessage (fun p => n - p.length) m := by
  refine ⟨by omega, ?_⟩
  intro p s heq hs
  have hlen : p.length + s.length = n := by rw [← length_append, heq, h]
  have hpos := length_pos_of_ne_nil hs
  omega

/-- How much is wanted of a message with a header of `h` bytes that tells the length of the rest. -/
def headedWanted (h : Nat) (rest : List B → Nat) (p : List B) : Nat :=
  if p.length < h then h - p.length else h + rest (p.take h) - p.length

lemma isMessage_headed {rest : List B → Nat} {hdr body : List B} (hbody : body.length = rest hdr) :
    IsMessage (headedWanted hdr.length rest) (hdr ++ body) := by
  refine ⟨?_, ?_⟩
  · rw [headedWanted, if_neg (by rw [length_append]; omega), take_left, ← hbody,
      length_append]
    exact Nat.sub_self _
  · intro p s heq hs
    have hpos := length_pos_of_ne_nil hs
    have hlen : p.length + s.length = hdr.length + rest hdr := by
      rw [← length_append, heq, length_append, hbody]
    rw [headedWanted]
    split_ifs with hp
    · omega
    · -- the header has been read
      have htake : p.take hdr.length = hdr := by
        have h1 : (p ++ s).take hdr.length = hdr := by rw [heq, take_left]
        rw [take_append_of_le_length (by omega)] at h1
        exact h1
      rw [htake]
      omega

/-! ## Connections -/

/-- What the server does with a connection: it has read part of a message, it has part of an answer
    still to send, or it has closed. -/
inductive Serving (B : Type) where
  | reading (got : List (B × Nat))
  | replying (rest : List (B × Nat))
  | closed

/-- The bytes under way to the server and to the client. -/
structure Conn (B : Type) where
  up : List (B × Nat)
  down : List (B × Nat)
  serving : Serving B

namespace Conn

def new : Conn B := ⟨[], [], .reading []⟩

/-- The client sends. -/
def send (c : Conn B) (t : List (B × Nat)) : Conn B := { c with up := c.up ++ t }

/-- The server has an answer, or gives up. -/
def reply (c : Conn B) : Option (List (B × Nat)) → Conn B
  | some t => { c with serving := .replying t }
  | none => { c with serving := .closed }

/-- The client, having `got`, receives `k` bytes. -/
def recv (wanted : List B → Nat) (got : List (B × Nat)) (k : Nat) (c : Conn B) :
    Option (List (B × Nat) × Conn B) :=
  if 0 < k ∧ k ≤ wanted (bytes got) ∧ k ≤ c.down.length then
    some (got ++ c.down.take k, { c with down := c.down.drop k })
  else none

/-- What happens on the server's side between answers. -/
inductive Event where
  /-- it receives `k` bytes -/
  | take (k : Nat)
  /-- it sends `k` bytes of the answer -/
  | push (k : Nat)
  /-- the answer is sent, and it goes on to read -/
  | next
  /-- it closes, or the connection breaks -/
  | shut

def event (wanted : List B → Nat) (c : Conn B) : Event → Option (Conn B)
  | .take k =>
      match c.serving with
      | .reading got =>
          if 0 < k ∧ k ≤ wanted (bytes got) ∧ k ≤ c.up.length then
            some { c with up := c.up.drop k, serving := .reading (got ++ c.up.take k) }
          else none
      | _ => none
  | .push k =>
      match c.serving with
      | .replying rest =>
          if 0 < k ∧ k ≤ rest.length then
            some { c with down := c.down ++ rest.take k, serving := .replying (rest.drop k) }
          else none
      | _ => none
  | .next =>
      match c.serving with
      | .replying [] => some { c with serving := .reading [] }
      | _ => none
  | .shut => some { c with serving := .closed }

end Conn

lemma event_cases {wanted : List B → Nat} {c c' : Conn B} {ev : Conn.Event}
    (h : c.event wanted ev = some c') :
    (∃ k got, c.serving = .reading got ∧ k ≤ wanted (bytes got) ∧ k ≤ c.up.length
        ∧ c' = { c with up := c.up.drop k, serving := .reading (got ++ c.up.take k) })
      ∨ (∃ k rest, c.serving = .replying rest
        ∧ c' = { c with down := c.down ++ rest.take k, serving := .replying (rest.drop k) })
      ∨ (c.serving = .replying [] ∧ c' = { c with serving := .reading [] })
      ∨ c' = { c with serving := .closed } := by
  cases ev with
  | take k =>
      cases hs : c.serving with
      | reading got =>
          simp only [Conn.event, hs] at h
          split_ifs at h with hk
          exact .inl ⟨k, got, rfl, hk.2.1, hk.2.2, (Option.some.inj h).symm⟩
      | replying rest | closed => simp only [Conn.event, hs] at h; cases h
  | push k =>
      cases hs : c.serving with
      | replying rest =>
          simp only [Conn.event, hs] at h
          split_ifs at h with hk
          exact .inr (.inl ⟨k, rest, rfl, (Option.some.inj h).symm⟩)
      | reading got | closed => simp only [Conn.event, hs] at h; cases h
  | next =>
      cases hs : c.serving with
      | replying rest =>
          cases rest with
          | nil =>
              simp only [Conn.event, hs] at h
              exact .inr (.inr (.inl ⟨rfl, (Option.some.inj h).symm⟩))
          | cons x rest => simp only [Conn.event, hs] at h; cases h
      | reading got | closed => simp only [Conn.event, hs] at h; cases h
  | shut => exact .inr (.inr (.inr (Option.some.inj h).symm))

/-! ## What is sent -/

/-- The bytes of the messages, one after the other. -/
def stream (pending : List (List B × Nat)) : List (B × Nat) := pending.flatMap (fun p => tag p.1 p.2)

/-- What the server has of the messages not answered yet, and what is under way; `cut` is what a
    client that broke off has not sent. -/
def OnWire (c : Conn B) (pending : List (List B × Nat)) (cut : List (B × Nat)) : Prop :=
  match c.serving with
  | .reading got => got ++ c.up ++ cut = stream pending ∧ ∀ p ∈ pending.head?, got.length ≤ p.1.length
  | .replying _ => c.up ++ cut = stream pending
  | .closed => True

/-- **THE UPSTREAM INVARIANT**: `pending` are the messages sent and not answered. -/
structure Sending (wanted : List B → Nat) (c : Conn B) (pending : List (List B × Nat))
    (cut : List (B × Nat)) : Prop where
  messages : ∀ p ∈ pending, IsMessage wanted p.1
  wire : OnWire c pending cut

section Sending

variable {wanted : List B → Nat} {c c' : Conn B} {pending : List (List B × Nat)} {cut : List (B × Nat)}

lemma sending_new : Sending wanted Conn.new ([] : List (List B × Nat)) [] :=
  ⟨forall_mem_nil _, rfl, fun _ h => by cases h⟩

lemma head_of_stream {p : List B × Nat} {rest : List (List B × Nat)} {got later : List (B × Nat)}
    (heq : got ++ later = stream (p :: rest)) (hlen : got.length ≤ p.1.length) :
    ∃ s, bytes got ++ s = p.1 ∧ tag p.1 p.2 = got ++ tag s p.2 ∧ later = tag s p.2 ++ stream rest := by
  have hstream : stream (p :: rest) = tag p.1 p.2 ++ stream rest := flatMap_cons
  rw [hstream] at heq
  obtain ⟨mid, hm, hl⟩ : ∃ mid, tag p.1 p.2 = got ++ mid ∧ later = mid ++ stream rest := by
    rcases append_eq_append_iff.mp heq with ⟨a, ha, hb⟩ | ⟨a, ha, hb⟩
    · exact ⟨a, ha, hb⟩
    · have ha0 : a = [] := by
        have hl := congrArg List.length ha
        rw [length_append, length_tag] at hl
        exact length_eq_zero_iff.mp (by omega)
      subst ha0
      rw [append_nil] at ha
      rw [nil_append] at hb
      exact ⟨[], by rw [ha, append_nil], by rw [nil_append, hb]⟩
  have hmid : mid = tag (bytes mid) p.2 := by
    refine ext_getElem (by rw [length_tag, bytes, length_map]) ?_
    intro k h1 h2
    have hin : mid[k] ∈ tag p.1 p.2 := by
      rw [hm]
      exact mem_append_right _ (getElem_mem h1)
    simp only [tag, bytes, getElem_map]
    exact Prod.ext rfl (mem_tag hin)
  refine ⟨bytes mid, ?_, ?_, ?_⟩
  · rw [← bytes_append, ← hm, bytes_tag]
  · rw [← hmid, hm]
  · rw [← hmid, hl]

lemma Sending.send (h : Sending wanted c pending []) {m : List B} (hm : IsMessage wanted m)
    (k r : Nat) :
    Sending wanted (c.send (tag (m.take k) r)) (pending ++ [(m, r)]) (tag (m.drop k) r) := by
  have htag : tag (m.take k) r ++ tag (m.drop k) r = tag m r := by
    rw [← tag_append, take_append_drop]
  have hstream : stream (pending ++ [(m, r)]) = stream pending ++ tag m r := by
    rw [stream, flatMap_append, flatMap_singleton]
    rfl
  have hwire := h.wire
  refine ⟨?_, ?_⟩
  · intro p hp
    rcases mem_append.mp hp with hp | hp
    · exact h.messages p hp
    · rw [mem_singleton.mp hp]; exact hm
  · cases hs : c.serving with
    | reading got =>
      rw [OnWire, hs] at hwire
      obtain ⟨heq, hlen⟩ := hwire
      rw [append_nil] at heq
      rw [OnWire, Conn.send]
      simp only [hs]
      refine ⟨?_, ?_⟩
      · rw [hstream, ← heq, ← htag]; simp only [append_assoc]
      · intro p hp
        cases pending with
        | nil =>
          have hgot : got = [] := (append_eq_nil_iff.mp heq).1
          rw [hgot]
          exact Nat.zero_le _
        | cons q pending => exact hlen p hp
    | replying rest =>
      rw [OnWire, hs, append_nil] at hwire
      rw [OnWire, Conn.send]
      simp only [hs]
      rw [hstream, ← hwire, ← htag, append_assoc]
    | closed =>
      rw [OnWire, Conn.send]
      simp only [hs]

lemma Sending.event {ev : Conn.Event} (h : Sending wanted c pending cut)
    (hev : c.event wanted ev = some c') : Sending wanted c' pending cut := by
  have hwire := h.wire
  refine ⟨h.messages, ?_⟩
  rcases event_cases hev with ⟨k, got, hs, hk, hup, rfl⟩ | ⟨k, rest, hs, rfl⟩ | ⟨hs, rfl⟩ | rfl
  · rw [OnWire, hs] at hwire
    obtain ⟨heq, hlen⟩ := hwire
    refine ⟨?_, ?_⟩
    · rw [append_assoc got, take_append_drop, heq]
    · intro p hp
      cases pending with
      | nil => cases hp
      | cons q pending =>
        obtain rfl : q = p := Option.some.inj hp
        rw [append_assoc] at heq
        obtain ⟨s, hgot, -, -⟩ := head_of_stream heq (hlen q rfl)
        have hin := (h.messages q (.head _)).within hgot hk
        rw [bytes, length_map] at hin
        rw [length_append, length_take, Nat.min_eq_left hup]
        exact hin
  · rw [OnWire, hs] at hwire; exact hwire
  · rw [OnWire, hs] at hwire
    refine ⟨?_, fun _ _ => Nat.zero_le _⟩
    rw [nil_append]
    exact hwire
  · trivial

/-- **THE SERVER READS WHAT WAS SENT**: when it has a whole message, it is the first one pending. -/
lemma Sending.serve {got : List (B × Nat)} (h : Sending wanted c pending cut)
    (hs : c.serving = .reading got) (hwhole : wanted (bytes got) = 0) (hstart : 0 < wanted [])
    (t : Option (List (B × Nat))) :
    ∃ p rest, pending = p :: rest ∧ got = tag p.1 p.2 ∧ Sending wanted (c.reply t) rest cut := by
  have hwire := h.wire
  rw [OnWire, hs] at hwire
  obtain ⟨heq, hlen⟩ := hwire
  cases pending with
  | nil =>
    have hgot : got = [] := (append_eq_nil_iff.mp (append_eq_nil_iff.mp heq).1).1
    rw [hgot] at hwhole
    exact absurd hwhole (Nat.ne_of_gt hstart)
  | cons p rest =>
    rw [append_assoc] at heq
    obtain ⟨s, hgot, htag, hlater⟩ := head_of_stream heq (hlen p rfl)
    obtain ⟨-, rfl⟩ := (h.messages p (.head _)).eq_of_wanted hgot hwhole
    refine ⟨p, rest, rfl, ?_, ?_, ?_⟩
    · rw [htag]; exact (append_nil got).symm
    · exact fun q hq => h.messages q (.tail _ hq)
    · cases t with
      | some t => exact hlater
      | none => trivial

lemma Sending.of_up (h : Sending wanted c pending cut) (hup : c'.up = c.up)
    (hserving : c'.serving = c.serving) : Sending wanted c' pending cut := by
  refine ⟨h.messages, ?_⟩
  have hwire := h.wire
  rw [OnWire] at hwire ⊢
  rw [hup, hserving]
  exact hwire

end Sending

/-! ## What is answered -/

/-- **THE DOWNSTREAM INVARIANT**: of the answer `whole` the client has `got`; the rest is under way,
    or still with the server, or lost with the connection. -/
def Answering (c : Conn B) (got whole : List (B × Nat)) : Prop :=
  ∃ rest, got ++ c.down ++ rest = whole ∧
    match c.serving with
    | .reading _ => rest = []
    | .replying r => r = rest
    | .closed => True

/-- Nothing is to be read from the connection, now or when the server has sent what it has. -/
def Quiet (c : Conn B) : Prop := Answering c [] []

section Answering

variable {wanted : List B → Nat} {c c' : Conn B} {got whole t : List (B × Nat)}

lemma quiet_new : Quiet (Conn.new : Conn B) := ⟨[], rfl, rfl⟩

lemma Quiet.down (h : Quiet c) : c.down = [] := by
  obtain ⟨rest, heq, -⟩ := h
  rw [nil_append] at heq
  exact (append_eq_nil_iff.mp heq).1

lemma Quiet.rest (h : Quiet c) {rest : List (B × Nat)} (hs : c.serving = .replying rest) :
    rest = [] := by
  obtain ⟨r, heq, hr⟩ := h
  rw [hs] at hr
  rw [nil_append] at heq
  rw [hr]
  exact (append_eq_nil_iff.mp heq).2

lemma Quiet.reply (h : Quiet c) (t : List (B × Nat)) : Answering (c.reply (some t)) [] t := by
  refine ⟨t, ?_, rfl⟩
  show [] ++ c.down ++ t = t
  rw [h.down, nil_append, nil_append]

lemma Quiet.give_up (h : Quiet c) : Quiet (c.reply none) := by
  refine ⟨[], ?_, trivial⟩
  show [] ++ c.down ++ [] = []
  rw [h.down]
  rfl

lemma Answering.send (h : Answering c got whole) (t : List (B × Nat)) :
    Answering (c.send t) got whole := h

lemma Answering.event {ev : Conn.Event} (h : Answering c got whole)
    (hev : c.event wanted ev = some c') : Answering c' got whole := by
  obtain ⟨rest, heq, hrest⟩ := h
  rcases event_cases hev with ⟨k, g, hs, -, -, rfl⟩ | ⟨k, r, hs, rfl⟩ | ⟨hs, rfl⟩ | rfl
  · rw [hs] at hrest; exact ⟨rest, heq, hrest⟩
  · rw [hs] at hrest
    obtain rfl : r = rest := hrest
    refine ⟨r.drop k, ?_, rfl⟩
    rw [← heq]
    simp only [append_assoc, take_append_drop]
  · rw [hs] at hrest; exact ⟨rest, heq, hrest.symm⟩
  · exact ⟨rest, heq, trivial⟩

variable {k : Nat} {got' : List (B × Nat)}

lemma Answering.recv (h : Answering c got whole) (hr : c.recv wanted got k = some (got', c')) :
    Answering c' got' whole := by
  obtain ⟨rest, heq, hrest⟩ := h
  rw [Conn.recv] at hr
  split_ifs at hr
  cases hr
  refine ⟨rest, ?_, hrest⟩
  rw [append_assoc got, take_append_drop]
  exact heq

lemma Quiet.no_recv (h : Quiet c) : c.recv wanted got k ≠ some (got', c') := by
  intro hr
  rw [Conn.recv, h.down] at hr
  split_ifs at hr with hk
  exact absurd hk.2.2 (Nat.not_le.mpr hk.1)

/-- **A WHOLE ANSWER LEAVES NOTHING BEHIND**. -/
lemma Answering.done (h : Answering c got whole) (hm : IsMessage wanted (bytes whole))
    (hwhole : wanted (bytes got) = 0) : got = whole ∧ Quiet c := by
  obtain ⟨rest, heq, hrest⟩ := h
  rw [append_assoc] at heq
  have hbytes : bytes got ++ bytes (c.down ++ rest) = bytes whole := by rw [← bytes_append, heq]
  have hnil := (hm.eq_of_wanted hbytes hwhole).2
  have hempty : c.down ++ rest = [] := map_eq_nil_iff.mp hnil
  rw [hempty, append_nil] at heq
  refine ⟨heq, rest, ?_, hrest⟩
  rw [nil_append]
  exact hempty

lemma eq_nil_of_silent {m : List B} (hm : IsMessage wanted m) (h : wanted [] = 0) : m = [] :=
  (hm.eq_of_wanted (nil_append m) h).1.symm

end Answering

/-! ## Reading a socket -/

/-- A socket: what is still to come on it before the stream ends, and how often it was read. -/
structure Sock (B : Type) where
  rest : List B
  reads : Nat

namespace Sock

variable (sizes : Nat → Nat) (n : Nat)

/-- `recv(n)`: a piece of at most `n` bytes, empty at the end of the stream only.  `sizes` says how
    many bytes the reads bring, as far as that is possible. -/
def recv (s : Sock B) : List B × Sock B :=
  let k := min n (max 1 (sizes s.reads))
  (s.rest.take k, ⟨s.rest.drop k, s.reads + 1⟩)

/-- The loop of `_recv_exact(n)`, with the bytes it has. -/
def recvLoop (got : List B) (s : Sock B) : Option (List B) × Sock B :=
  if got.length < n then
    let r := s.recv sizes (n - got.length)
    if r.1.length = 0 then (none, r.2) else recvLoop (got ++ r.1) r.2
  else (some got, s)
termination_by n - got.length
decreasing_by
  show n - (got ++ r.1).length < n - got.length
  rw [List.length_append]
  omega

/-- `_recv_exact(n)` -/
def recvExact (s : Sock B) : Option (List B) × Sock B := recvLoop sizes n [] s

/-- **FRAGMENTATION DOES NOT SHOW**: the loop ends with `n` bytes, or at the end of the stream. -/
lemma recvLoop_eq (got : List B) (s : Sock B) (hgot : got.length ≤ n) :
    (recvLoop sizes n got s).1 = (if n ≤ got.length + s.rest.length
        then some (got ++ s.rest.take (n - got.length)) else none)
      ∧ (recvLoop sizes n got s).2.rest = s.rest.drop (n - got.length) := by
  fun_induction recvLoop sizes n got s with
  | case1 got s hlt r hend =>
    -- a piece of a positive size is empty only when nothing is left
    have hnil : s.rest = [] := by
      have hlen : (s.rest.take (min (n - got.length) (max 1 (sizes s.reads)))).length = 0 := hend
      rw [length_take] at hlen
      exact length_eq_zero_iff.mp (by omega)
    have hr : r.2.rest = [] := by
      show s.rest.drop _ = []
      rw [hnil, drop_nil]
    rw [hnil, length_nil, if_neg (by omega), drop_nil]
    exact ⟨rfl, hr⟩
  | case2 got s hlt r hmore ih =>
    obtain ⟨k, hk, h1, h2⟩ : ∃ k ≤ n - got.length, r.1 = s.rest.take k ∧ r.2.rest = s.rest.drop k :=
      ⟨_, Nat.min_le_left _ _, rfl, rfl⟩
    have hlen : r.1.length = min k s.rest.length := by rw [h1, length_take]
    obtain ⟨ih1, ih2⟩ := ih (by rw [length_append]; omega)
    rw [length_append] at ih1 ih2
    refine ⟨ih1.trans ?_, ih2.trans ?_⟩
    · by_cases hall : n ≤ got.length + s.rest.length
      · have hk' : r.1.length = k := by omega
        have hsum : n - got.length = k + (n - (got.length + k)) := by omega
        rw [if_pos hall, if_pos (by rw [h2, length_drop]; omega), h2, hk', append_assoc, h1,
          hsum, take_add]
      · rw [if_neg hall, if_neg (by rw [h2, length_drop]; omega)]
    · rw [h2, drop_drop]
      by_cases hall : k ≤ s.rest.length
      · congr 1
        omega
      · rw [drop_of_length_le (by omega), drop_of_length_le (by omega)]
  | case3 got s hlt =>
    have hn : n - got.length = 0 := by omega
    rw [hn, if_pos (by omega), take_zero, append_nil, drop_zero]
    exact ⟨rfl, rfl⟩

lemma recvExact_fst (s : Sock B) :
    (s.recvExact sizes n).1 = if n ≤ s.rest.length then some (s.rest.take n) else none := by
  have h := (recvLoop_eq sizes n [] s (Nat.zero_le n)).1
  rwa [length_nil, Nat.zero_add, Nat.sub_zero] at h

lemma recvExact_rest (s : Sock B) : (s.recvExact sizes n).2.rest = s.rest.drop n :=
  (recvLoop_eq sizes n [] s (Nat.zero_le n)).2

end Sock

end ByteStream
