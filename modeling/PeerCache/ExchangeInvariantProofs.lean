import PeerCache.ExchangeProofs

/-! # Answers are for their own requests

    The invariant of the machine of pooled connections.  In every reachable state
    * the bytes of a whole answer are those the server made out of the request of the same exchange
      (`Sound.answered`),
    * nothing is left to read on an idle connection (`Sound.idle_quiet`),
    * no request is served twice (`Sound.once`). -/

namespace PooledExchange

open ByteStream Function List

variable {B Q S E I : Type}

/-! ## Who holds a connection -/

inductive Holder (E : Type) where
  | nobody
  | idle (ep : E)
  | thread (i : Nat)

/-- What the invariant knows besides the state: who holds each connection, which of its requests are
    not answered yet, and what was not sent of the last one. -/
structure Ghost (B E : Type) where
  holder : Nat → Holder E
  pending : Nat → List (List B × Nat)
  cut : Nat → List (B × Nat)

/-- The client does not wait for an answer to this request. -/
def Silent (P : Protocol B Q) (net : Net B Q S E I) (p : List B × Nat) : Prop :=
  ∃ q, net.requests[p.2]? = some q ∧ P.replyWanted q.query [] = 0

/-- A connection that can be used for the next request. -/
structure Calm (P : Protocol B Q) (net : Net B Q S E I) (g : Ghost B E) (n : Nat) : Prop where
  uncut : g.cut n = []
  quiet : Quiet (net.conns n)
  silent : ∀ p ∈ g.pending n, Silent P net p

/-- A connection on which request `r` was sent last, and `got` of its answer has come back: the
    server has not come to it, or is answering it, or has given up on it. -/
structure Waiting (P : Protocol B Q) (net : Net B Q S E I) (g : Ghost B E) (n r : Nat)
    (got : List (B × Nat)) : Prop where
  uncut : g.cut n = []
  answer : (got = [] ∧ Quiet (net.conns n)
      ∧ ∃ zs m, g.pending n = zs ++ [(m, r)] ∧ ∀ p ∈ zs, Silent P net p)
    ∨ (g.pending n = [] ∧ ∃ k s t, net.served[k]? = some s ∧ r ∈ s.tags ∧ s.reply = some t
      ∧ Answering (net.conns n) got (tag t k))
    ∨ (got = [] ∧ Quiet (net.conns n) ∧ g.pending n = [])

structure Owned (net : Net B Q S E I) (g : Ghost B E) (n : Nat) (h : Holder E) (ep : E) : Prop where
  holder : g.holder n = h
  peer : net.peer n = some ep
  opened : n < net.nextConn

/-- The connection of an exchange. -/
def ExchangeOk (P : Protocol B Q) (net : Net B Q S E I) (g : Ghost B E) (i : Nat)
    (x : Exchange B Q E I) : Prop :=
  match x.pc with
  | .ready => ∀ n, x.sock = some n → Owned net g n (.thread i) x.endpoint ∧ Calm P net g n
  | .waiting r q got => ∃ n, x.sock = some n ∧ Owned net g n (.thread i) x.endpoint
      ∧ net.requests[r]? = some ⟨x.owner, n, q⟩ ∧ Waiting P net g n r got

/-- What is sent on a connection, whoever holds it. -/
structure Wired (P : Protocol B Q) (net : Net B Q S E I) (g : Ghost B E) (n : Nat) : Prop where
  stream : Sending P.wanted (net.conns n) (g.pending n) (g.cut n)
  asked : ∀ p ∈ g.pending n, ∃ q, net.requests[p.2]? = some q ∧ q.conn = n
    ∧ P.encode q.query = some p.1 ∧ P.Whole q.query
  unserved : ∀ p ∈ g.pending n, ∀ s ∈ net.served, p.2 ∉ s.tags
  nodup : ((g.pending n).map Prod.snd).Nodup
  fresh : net.nextConn ≤ n →
    net.conns n = Conn.new ∧ net.peer n = none ∧ g.pending n = [] ∧ g.cut n = []
      ∧ g.holder n = .nobody

/-- A message the server has read is one request that was sent. -/
def ServedOk (P : Protocol B Q) (net : Net B Q S E I) (s : Served B S) : Prop :=
  ∃ r q, s.tags = List.replicate s.message.length r ∧ net.requests[r]? = some q ∧ q.conn = s.conn
    ∧ P.encode q.query = some s.message
    ∧ ∀ t, s.reply = some t → IsMessage (P.replyWanted q.query) t

structure SoundWith (P : Protocol B Q) (net : Net B Q S E I) (g : Ghost B E) : Prop where
  wired : ∀ n, Wired P net g n
  served : ∀ s ∈ net.served, ServedOk P net s
  once : net.served.Pairwise (fun s s' => ∀ t ∈ s.tags, t ∉ s'.tags)
  idleNodup : ∀ ep, (net.idle ep).Nodup
  idle : ∀ ep, ∀ n ∈ net.idle ep, Owned net g n (.idle ep) ep ∧ Calm P net g n
  exchanges : ∀ i x, net.exchanges i = some x → ExchangeOk P net g i x

/-- **THE INVARIANT** of the machine. -/
def Sound (P : Protocol B Q) (net : Net B Q S E I) : Prop := ∃ g, SoundWith P net g

lemma sound_new (P : Protocol B Q) (maxIdle : E → Nat) :
    Sound P (Net.new maxIdle : Net B Q S E I) := by
  refine ⟨⟨fun _ => .nobody, fun _ => [], fun _ => []⟩, ?_, ?_, List.Pairwise.nil, ?_, ?_, ?_⟩
  · intro n
    refine ⟨sending_new, ?_, ?_, nodup_nil, fun _ => ⟨rfl, rfl, rfl, rfl, rfl⟩⟩
    · exact forall_mem_nil _
    · exact forall_mem_nil _
  · exact forall_mem_nil _
  · exact fun ep => nodup_nil
  · exact fun ep n hn => absurd hn not_mem_nil
  · intro i x hx; cases hx

/-! ## What a step leaves alone -/

section Frame

variable {P : Protocol B Q} {net net' : Net B Q S E I} {g g' : Ghost B E} {n r i : Nat}

lemma getElem?_of_prefix {α : Type} {l l' : List α} (h : l <+: l') {k : Nat} {a : α}
    (hk : l[k]? = some a) : l'[k]? = some a := by
  obtain ⟨t, rfl⟩ := h
  rw [List.getElem?_append_left (List.getElem?_eq_some_iff.mp hk).1]
  exact hk

/-- The logs only grow. -/
structure Grows (net net' : Net B Q S E I) : Prop where
  requests : net.requests <+: net'.requests
  served : net.served <+: net'.served
  nextConn : net.nextConn ≤ net'.nextConn

/-- The connection is as it was. -/
structure Same (net net' : Net B Q S E I) (g g' : Ghost B E) (n : Nat) : Prop where
  conn : net'.conns n = net.conns n
  peer : net'.peer n = net.peer n
  holder : g'.holder n = g.holder n
  pending : g'.pending n = g.pending n
  cut : g'.cut n = g.cut n

lemma Silent.mono {p : List B × Nat} (h : Silent P net p) (hg : Grows net net') :
    Silent P net' p := by
  obtain ⟨q, hq, hs⟩ := h
  exact ⟨q, getElem?_of_prefix hg.requests hq, hs⟩

lemma Owned.mono {ho : Holder E} {ep : E} (h : Owned net g n ho ep) (hg : Grows net net')
    (hs : Same net net' g g' n) : Owned net' g' n ho ep :=
  ⟨by rw [hs.holder, h.holder], by rw [hs.peer, h.peer], Nat.lt_of_lt_of_le h.opened hg.nextConn⟩

lemma Calm.mono (h : Calm P net g n) (hg : Grows net net') (hs : Same net net' g g' n) :
    Calm P net' g' n := by
  refine ⟨by rw [hs.cut, h.uncut], by rw [hs.conn]; exact h.quiet, ?_⟩
  rw [hs.pending]
  exact fun p hp => (h.silent p hp).mono hg

lemma Waiting.mono {got : List (B × Nat)} (h : Waiting P net g n r got) (hg : Grows net net')
    (hs : Same net net' g g' n) : Waiting P net' g' n r got := by
  refine ⟨by rw [hs.cut, h.uncut], ?_⟩
  rw [hs.conn, hs.pending]
  rcases h.answer with ⟨hgot, hq, zs, m, hp, hz⟩ | ⟨hp, k, s, t, hk, ha⟩ | hgone
  · exact .inl ⟨hgot, hq, zs, m, hp, fun p hm => (hz p hm).mono hg⟩
  · exact .inr (.inl ⟨hp, k, s, t, getElem?_of_prefix hg.served hk, ha⟩)
  · exact .inr (.inr hgone)

variable {x : Exchange B Q E I}

lemma ExchangeOk.mono (h : ExchangeOk P net g i x) (hg : Grows net net')
    (hs : ∀ n, x.sock = some n → Same net net' g g' n) : ExchangeOk P net' g' i x := by
  rw [ExchangeOk] at h ⊢
  split
  · next hpc =>
      rw [hpc] at h
      intro n hn
      obtain ⟨ho, hc⟩ := h n hn
      exact ⟨ho.mono hg (hs n hn), hc.mono hg (hs n hn)⟩
  · next hpc =>
      rw [hpc] at h
      obtain ⟨n, hn, ho, hr, hw⟩ := h
      exact ⟨n, hn, ho.mono hg (hs n hn), getElem?_of_prefix hg.requests hr, hw.mono hg (hs n hn)⟩

lemma ExchangeOk.holder (h : ExchangeOk P net g i x) (hn : x.sock = some n) :
    g.holder n = .thread i := by
  rw [ExchangeOk] at h
  split at h
  · exact (h n hn).1.holder
  · obtain ⟨n', hn', ho, -⟩ := h
    rw [hn] at hn'
    cases hn'
    exact ho.holder

lemma Wired.mono (h : Wired P net g n) (hr : net.requests <+: net'.requests)
    (hserved : net'.served = net.served) (hnext : net.nextConn ≤ net'.nextConn)
    (hs : Same net net' g g' n) : Wired P net' g' n := by
  refine ⟨?_, ?_, ?_, ?_, ?_⟩
  · rw [hs.conn, hs.pending, hs.cut]; exact h.stream
  · rw [hs.pending]
    intro p hp
    obtain ⟨q, hq, hrest⟩ := h.asked p hp
    exact ⟨q, getElem?_of_prefix hr hq, hrest⟩
  · rw [hs.pending, hserved]; exact h.unserved
  · rw [hs.pending]; exact h.nodup
  · intro hn
    rw [hs.conn, hs.peer, hs.pending, hs.cut, hs.holder]
    exact h.fresh (Nat.le_trans hnext hn)

lemma ServedOk.mono {s : Served B S} (h : ServedOk P net s)
    (hr : net.requests <+: net'.requests) : ServedOk P net' s := by
  obtain ⟨r, q, htags, hq, hrest⟩ := h
  exact ⟨r, q, htags, getElem?_of_prefix hr hq, hrest⟩

lemma SoundWith.of_touched (h : SoundWith P net g) (T : Nat → Prop) (i : Nat)
    (hgrow : Grows net net') (hserved : net'.served = net.served)
    (hsame : ∀ n, ¬ T n → Same net net' g g' n)
    (hT : ∀ n j, T n → g.holder n = .thread j → j = i) (hwired : ∀ n, T n → Wired P net' g' n)
    (hnodup : ∀ ep, (net'.idle ep).Nodup)
    (hidle : ∀ ep, ∀ n ∈ net'.idle ep, (n ∈ net.idle ep ∧ ¬ T n)
      ∨ (Owned net' g' n (.idle ep) ep ∧ Calm P net' g' n))
    {x' : Option (Exchange B Q E I)} (hexch : net'.exchanges = Function.update net.exchanges i x')
    (hmine : ∀ x, x' = some x → ExchangeOk P net' g' i x) : SoundWith P net' g' := by
  refine ⟨?_, ?_, ?_, hnodup, ?_, ?_⟩
  · intro n
    by_cases ht : T n
    · exact hwired n ht
    · exact (h.wired n).mono hgrow.requests hserved hgrow.nextConn (hsame n ht)
  · rw [hserved]; exact fun s hs => (h.served s hs).mono hgrow.requests
  · rw [hserved]; exact h.once
  · intro ep n hn
    rcases hidle ep n hn with ⟨hn, ht⟩ | hnew
    · obtain ⟨ho, hc⟩ := h.idle ep n hn
      exact ⟨ho.mono hgrow (hsame n ht), hc.mono hgrow (hsame n ht)⟩
    · exact hnew
  · intro j x hx
    rw [hexch] at hx
    by_cases hj : j = i
    · rw [hj, update_self] at hx
      rw [hj]
      exact hmine x hx
    · rw [update_of_ne hj] at hx
      have hok := h.exchanges j x hx
      exact hok.mono hgrow (fun n hn => hsame n (fun ht => hj (hT n j ht (hok.holder hn))))

end Frame

/-! ## The steps of a thread -/

section Forget

variable {P : Protocol B Q} {net : Net B Q S E I} {g : Ghost B E} {i : Nat}

lemma SoundWith.forget (h : SoundWith P net g) (idle : E → List Nat)
    (hsub : ∀ ep, (idle ep).Sublist (net.idle ep)) (exchanges : Nat → Option (Exchange B Q E I))
    (hx : ∀ j x, exchanges j = some x → net.exchanges j = some x) :
    SoundWith P { net with idle := idle, exchanges := exchanges } g := by
  have hgrow : Grows net { net with idle := idle, exchanges := exchanges } :=
    ⟨prefix_refl _, prefix_refl _, Nat.le_refl _⟩
  have hsame : ∀ n, Same net { net with idle := idle, exchanges := exchanges } g g n :=
    fun n => ⟨rfl, rfl, rfl, rfl, rfl⟩
  refine ⟨?_, ?_, h.once, ?_, ?_, ?_⟩
  · exact fun n => (h.wired n).mono hgrow.requests rfl hgrow.nextConn (hsame n)
  · exact fun s hs => (h.served s hs).mono hgrow.requests
  · exact fun ep => (h.idleNodup ep).sublist (hsub ep)
  · intro ep n hn
    obtain ⟨ho, hc⟩ := h.idle ep n ((hsub ep).subset hn)
    exact ⟨ho.mono hgrow (hsame n), hc.mono hgrow (hsame n)⟩
  · exact fun j x hj => (h.exchanges j x (hx j x hj)).mono hgrow (fun n _ => hsame n)

end Forget

section Thread

variable {P : Protocol B Q} {net : Net B Q S E I} {g : Ghost B E} {i : Nat}

lemma sound_connect (h : SoundWith P net g) (owner : I) (ep : E) :
    Sound P { net with
      peer := update net.peer net.nextConn (some ep)
      nextConn := net.nextConn + 1
      exchanges := update net.exchanges i
        (some ⟨owner, ep, some net.nextConn, .ready⟩) } := by
  obtain ⟨hnew, -, hpend, hcut, hnobody⟩ := (h.wired net.nextConn).fresh (Nat.le_refl _)
  refine ⟨⟨update g.holder net.nextConn (.thread i), g.pending, g.cut⟩, ?_⟩
  refine h.of_touched (fun n => n = net.nextConn) i
    ⟨prefix_refl _, prefix_refl _, Nat.le_succ _⟩ rfl ?_ ?_ ?_ h.idleNodup ?_ rfl ?_
  · exact fun n hn => ⟨rfl, update_of_ne hn _ _, update_of_ne hn _ _, rfl, rfl⟩
  · rintro n j rfl hj
    rw [hnobody] at hj
    cases hj
  · rintro n rfl
    have hw := h.wired net.nextConn
    refine ⟨hw.stream, hw.asked, hw.unserved, hw.nodup, ?_⟩
    intro hle
    exact absurd hle (Nat.not_succ_le_self _)
  · intro ep' n hn; exact .inl ⟨hn, Nat.ne_of_lt (h.idle ep' n hn).1.opened⟩
  · intro x hx
    cases hx
    intro n hn
    cases hn
    refine ⟨⟨update_self _ _ _, update_self _ _ _, Nat.lt_succ_self _⟩, hcut, ?_, ?_⟩
    · rw [hnew]; exact quiet_new
    · rw [hpend]; exact forall_mem_nil _

variable {owner : I} {m : List B}

lemma Wired.sent {n : Nat} (h : Wired P net g n) (hc : Calm P net g n) (hlt : n < net.nextConn)
    {q : Q} (hwhole : P.Whole q) (hm : P.encode q = some m) (k : Nat) {net' : Net B Q S E I}
    {g' : Ghost B E}
    (hconns : net'.conns n = (net.conns n).send (tag (m.take k) net.requests.length))
    (hreq : net'.requests = net.requests ++ [⟨owner, n, q⟩]) (hserved : net'.served = net.served)
    (hserv : ∀ s ∈ net.served, ServedOk P net s) (hnext : net'.nextConn = net.nextConn)
    (hpend : g'.pending n = g.pending n ++ [(m, net.requests.length)])
    (hcut : g'.cut n = tag (m.drop k) net.requests.length) : Wired P net' g' n := by
  have hstream := h.stream
  rw [hc.uncut] at hstream
  refine ⟨?_, ?_, ?_, ?_, ?_⟩
  · rw [hconns, hpend, hcut]; exact hstream.send (P.message q m hwhole hm) k _
  · rw [hpend, hreq]
    intro p hp
    rcases mem_append.mp hp with hp | hp
    · obtain ⟨q', hq', hrest⟩ := h.asked p hp
      exact ⟨q', getElem?_of_prefix (prefix_append _ _) hq', hrest⟩
    · rw [mem_singleton.mp hp]
      exact ⟨_, getElem?_concat_length, rfl, hm, hwhole⟩
  · rw [hpend, hserved]
    intro p hp s hs ht
    rcases mem_append.mp hp with hp | hp
    · exact h.unserved p hp s hs ht
    · -- a new number is on no message read before
      rw [mem_singleton.mp hp] at ht
      obtain ⟨r, q', htags, hq', -⟩ := hserv s hs
      rw [htags] at ht
      have hr := eq_of_mem_replicate ht
      have hlen := (List.getElem?_eq_some_iff.mp hq').1
      exact absurd hr (Nat.ne_of_gt hlen)
  · rw [hpend, map_append, nodup_append]
    refine ⟨h.nodup, nodup_singleton _, ?_⟩
    intro a ha b hb
    obtain ⟨p, hp, rfl⟩ := mem_map.mp ha
    obtain ⟨q', hq', -⟩ := h.asked p hp
    rw [map_singleton, mem_singleton] at hb
    rw [hb]
    exact Nat.ne_of_lt (List.getElem?_eq_some_iff.mp hq').1
  · rw [hnext]
    intro hle
    exact absurd hlt (Nat.not_lt.mpr hle)

lemma SoundWith.not_idle (h : SoundWith P net g) {n : Nat} (hn : g.holder n = .thread i) {ep : E} :
    n ∉ net.idle ep := by
  intro hidle
  have hh := (h.idle ep n hidle).1.holder
  rw [hn] at hh
  cases hh

lemma sound_send (h : SoundWith P net g) {ep : E} {n : Nat} {q : Q}
    (hx : net.exchanges i = some ⟨owner, ep, some n, .ready⟩) (hwhole : P.Whole q)
    (hm : P.encode q = some m) :
    Sound P ((net.sent owner n q m).setExchange i
      (some ⟨owner, ep, some n, .waiting net.requests.length q []⟩)) := by
  obtain ⟨ho, hc⟩ := (h.exchanges i _ hx) n rfl
  refine ⟨⟨g.holder, update g.pending n (g.pending n ++ [(m, net.requests.length)]), g.cut⟩, ?_⟩
  refine h.of_touched (fun n' => n' = n) i
    ⟨prefix_append _ _, prefix_refl _, Nat.le_refl _⟩ rfl ?_ ?_ ?_ h.idleNodup ?_ rfl ?_
  · exact fun n' hn => ⟨update_of_ne hn _ _, rfl, rfl, update_of_ne hn _ _, rfl⟩
  · rintro n' j rfl hj
    rw [ho.holder] at hj
    injection hj with hj
    exact hj.symm
  · rintro n' rfl
    refine (h.wired n').sent hc ho.opened hwhole hm m.length ?_ rfl rfl h.served rfl ?_ ?_
    · rw [take_length]; exact update_self _ _ _
    · exact update_self _ _ _
    · rw [drop_length]; exact hc.uncut
  · intro ep' n' hn
    refine .inl ⟨hn, ?_⟩
    rintro rfl
    exact h.not_idle ho.holder hn
  · intro x hx'
    cases hx'
    refine ⟨n, rfl, ⟨ho.holder, ho.peer, ho.opened⟩, getElem?_concat_length, hc.uncut, ?_⟩
    refine .inl ⟨rfl, ?_, g.pending n, m, update_self _ _ _, ?_⟩
    · show Quiet (update net.conns n _ n)
      rw [update_self]
      exact Answering.send hc.quiet _
    · intro p hp
      exact (hc.silent p hp).mono ⟨prefix_append _ _, prefix_refl _, Nat.le_refl _⟩

lemma sound_sendCut (h : SoundWith P net g) {ep : E} {n : Nat} {q : Q}
    (hx : net.exchanges i = some ⟨owner, ep, some n, .ready⟩) (hwhole : P.Whole q)
    (hm : P.encode q = some m) (k : Nat) :
    Sound P ((net.sent owner n q (m.take k)).setExchange i (some ⟨owner, ep, none, .ready⟩)) := by
  obtain ⟨ho, hc⟩ := (h.exchanges i _ hx) n rfl
  refine ⟨⟨g.holder, update g.pending n (g.pending n ++ [(m, net.requests.length)]),
      update g.cut n (tag (m.drop k) net.requests.length)⟩, ?_⟩
  refine h.of_touched (fun n' => n' = n) i
    ⟨prefix_append _ _, prefix_refl _, Nat.le_refl _⟩ rfl ?_ ?_ ?_ h.idleNodup ?_ rfl ?_
  · exact fun n' hn => ⟨update_of_ne hn _ _, rfl, rfl, update_of_ne hn _ _,
      update_of_ne hn _ _⟩
  · rintro n' j rfl hj
    rw [ho.holder] at hj
    injection hj with hj
    exact hj.symm
  · rintro n' rfl
    exact (h.wired n').sent hc ho.opened hwhole hm k (update_self _ _ _) rfl rfl h.served rfl
      (update_self _ _ _) (update_self _ _ _)
  · intro ep' n' hn
    refine .inl ⟨hn, ?_⟩
    rintro rfl
    exact h.not_idle ho.holder hn
  · intro x hx'
    cases hx'
    intro n' hn
    cases hn

lemma sound_reset (h : SoundWith P net g) {x : Exchange B Q E I} :
    Sound P (net.setExchange i (some ⟨x.owner, x.endpoint, none, .ready⟩)) := by
  refine ⟨g, h.of_touched (fun _ => False) i
    ⟨prefix_refl _, prefix_refl _, Nat.le_refl _⟩ rfl ?_ ?_ ?_ h.idleNodup ?_ rfl ?_⟩
  · exact fun n _ => ⟨rfl, rfl, rfl, rfl, rfl⟩
  · exact fun n j hf => False.elim hf
  · exact fun n hf => False.elim hf
  · exact fun ep n hn => .inl ⟨hn, id⟩
  · intro x' hx'
    cases hx'
    intro n hn
    cases hn

lemma sound_recv (h : SoundWith P net g) {ep : E} {n r k : Nat} {q : Q} {got got' : List (B × Nat)}
    {c : Conn B} (hx : net.exchanges i = some ⟨owner, ep, some n, .waiting r q got⟩)
    (hc : (net.conns n).recv (P.replyWanted q) got k = some (got', c)) :
    Sound P { net with
      conns := update net.conns n c
      exchanges := update net.exchanges i (some ⟨owner, ep, some n, .waiting r q got'⟩) } := by
  obtain ⟨n', hn', ho, hr, hw⟩ := h.exchanges i _ hx
  obtain rfl : n = n' := Option.some.inj hn'
  have hdown : c.up = (net.conns n).up ∧ c.serving = (net.conns n).serving := by
    rw [Conn.recv] at hc
    split_ifs at hc
    obtain ⟨-, rfl⟩ := Prod.mk.inj (Option.some.inj hc)
    exact ⟨rfl, rfl⟩
  refine ⟨g, h.of_touched (fun n' => n' = n) i
    ⟨prefix_refl _, prefix_refl _, Nat.le_refl _⟩ rfl ?_ ?_ ?_ h.idleNodup ?_ rfl ?_⟩
  · exact fun n' hn => ⟨update_of_ne hn _ _, rfl, rfl, rfl, rfl⟩
  · rintro n' j rfl hj
    rw [ho.holder] at hj
    injection hj with hj
    exact hj.symm
  · rintro n' rfl
    have hwire := h.wired n'
    refine ⟨?_, hwire.asked, hwire.unserved, hwire.nodup, ?_⟩
    · show Sending P.wanted (update net.conns n' c n') _ _
      rw [update_self]
      exact hwire.stream.of_up hdown.1 hdown.2
    · exact fun hle => absurd ho.opened (Nat.not_lt.mpr hle)
  · intro ep' n' hn
    refine .inl ⟨hn, ?_⟩
    rintro rfl
    exact h.not_idle ho.holder hn
  · intro x hx'
    cases hx'
    refine ⟨n, rfl, ⟨ho.holder, ho.peer, ho.opened⟩, hr, hw.uncut, ?_⟩
    -- bytes came, so the server is answering
    rcases hw.answer with ⟨-, hq, -⟩ | ⟨hp, k', s, t, hk, hs, ht, ha⟩ | ⟨-, hq, -⟩
    · exact absurd hc hq.no_recv
    · refine .inr (.inl ⟨hp, k', s, t, hk, hs, ht, ?_⟩)
      show Answering (update net.conns n c n) _ _
      rw [update_self]
      exact ha.recv hc
    · exact absurd hc hq.no_recv

lemma Waiting.calm {n r : Nat} {got : List (B × Nat)} {q : Q} (h : Waiting P net g n r got)
    (hr : net.requests[r]? = some ⟨owner, n, q⟩) (hserved : ∀ s ∈ net.served, ServedOk P net s)
    (hdone : P.replyWanted q (bytes got) = 0) : Calm P net g n := by
  rcases h.answer with ⟨rfl, hq, zs, m, hp, hz⟩ | ⟨hp, k, s, t, hk, hs, ht, ha⟩ | ⟨-, hq, hp⟩
  · refine ⟨h.uncut, hq, ?_⟩
    rw [hp]
    intro p hmem
    rcases mem_append.mp hmem with hmem | hmem
    · exact hz p hmem
    · rw [mem_singleton.mp hmem]; exact ⟨_, hr, hdone⟩
  · obtain ⟨r', q', htags, hq', -, -, hreply⟩ := hserved s (mem_of_getElem? hk)
    rw [htags] at hs
    obtain rfl := eq_of_mem_replicate hs
    rw [hr] at hq'
    cases hq'
    refine ⟨h.uncut, (ha.done (by rw [bytes_tag]; exact hreply t ht) hdone).2, ?_⟩
    rw [hp]
    exact forall_mem_nil _
  · refine ⟨h.uncut, hq, ?_⟩
    rw [hp]
    exact forall_mem_nil _

section Pooling

variable [DecidableEq E]

lemma sound_acquire (h : SoundWith P net g) (owner : I) (ep : E) :
    Sound P { net with
      idle := update net.idle ep (net.idle ep).dropLast
      exchanges := update net.exchanges i
        (some ⟨owner, ep, (net.idle ep).getLast?, .ready⟩) } := by
  have hlast : ∀ n, (net.idle ep).getLast? = some n →
      Owned net g n (.idle ep) ep ∧ Calm P net g n := fun n hn =>
    h.idle ep n (mem_of_getLast? hn)
  refine ⟨⟨fun n => if (net.idle ep).getLast? = some n then .thread i else g.holder n,
      g.pending, g.cut⟩, ?_⟩
  refine h.of_touched (fun n => (net.idle ep).getLast? = some n) i
    ⟨prefix_refl _, prefix_refl _, Nat.le_refl _⟩ rfl ?_ ?_ ?_ ?_ ?_ rfl ?_
  · exact fun n hn => ⟨rfl, rfl, if_neg hn, rfl, rfl⟩
  · intro n j hn hj
    rw [(hlast n hn).1.holder] at hj
    cases hj
  · intro n hn
    have hw := h.wired n
    refine ⟨hw.stream, hw.asked, hw.unserved, hw.nodup, ?_⟩
    intro hle
    exact absurd (hlast n hn).1.opened (Nat.not_lt.mpr hle)
  · intro ep'
    show (update net.idle ep (net.idle ep).dropLast ep').Nodup
    by_cases hep : ep' = ep
    · rw [hep, update_self]
      exact (h.idleNodup ep).sublist (dropLast_sublist _)
    · rw [update_of_ne hep]; exact h.idleNodup ep'
  · intro ep' n hn
    refine Or.inl ?_
    have hn : n ∈ update net.idle ep (net.idle ep).dropLast ep' := hn
    by_cases hep : ep' = ep
    · rw [hep, update_self] at hn
      rw [hep]
      refine ⟨dropLast_subset _ hn, ?_⟩
      -- the connection taken is not among the others
      intro hl
      have hnodup := h.idleNodup ep
      rw [← dropLast_append_getLast? n hl] at hnodup
      exact (nodup_append.mp hnodup).2.2 n hn n (mem_singleton_self n) rfl
    · rw [update_of_ne hep] at hn
      refine ⟨hn, ?_⟩
      intro hl
      have h1 := (h.idle ep' n hn).1.holder
      rw [(hlast n hl).1.holder] at h1
      injection h1 with h1
      exact hep h1.symm
  · intro x hx
    cases hx
    intro n hn
    obtain ⟨ho, hc⟩ := hlast n hn
    exact ⟨⟨if_pos hn, ho.peer, ho.opened⟩, ⟨hc.uncut, hc.quiet, hc.silent⟩⟩

lemma sound_release (h : SoundWith P net g) {owner : I} {ep : E} {n r : Nat} {q : Q}
    {got : List (B × Nat)} (hx : net.exchanges i = some ⟨owner, ep, some n, .waiting r q got⟩)
    (hdone : P.replyWanted q (bytes got) = 0) :
    Sound P { net with idle := net.kept ep n, exchanges := update net.exchanges i none } := by
  obtain ⟨n', hn', ho, hr, hw⟩ := h.exchanges i _ hx
  obtain rfl : n = n' := Option.some.inj hn'
  have hcalm := hw.calm hr h.served hdone
  rw [Net.kept]
  split_ifs
  · refine ⟨⟨update g.holder n (.idle ep), g.pending, g.cut⟩, ?_⟩
    refine h.of_touched (fun n' => n' = n) i
      ⟨prefix_refl _, prefix_refl _, Nat.le_refl _⟩ rfl ?_ ?_ ?_ ?_ ?_ rfl ?_
    · exact fun n' hn => ⟨rfl, rfl, update_of_ne hn _ _, rfl, rfl⟩
    · rintro n' j rfl hj
      rw [ho.holder] at hj
      injection hj with hj
      exact hj.symm
    · rintro n' rfl
      have hwire := h.wired n'
      refine ⟨hwire.stream, hwire.asked, hwire.unserved, hwire.nodup, ?_⟩
      exact fun hle => absurd ho.opened (Nat.not_lt.mpr hle)
    · intro ep'
      show (update net.idle ep (net.idle ep ++ [n]) ep').Nodup
      by_cases hep : ep' = ep
      · rw [hep, update_self, nodup_append]
        refine ⟨h.idleNodup ep, nodup_singleton n, ?_⟩
        rintro a ha b hb rfl
        rw [mem_singleton.mp hb] at ha
        exact h.not_idle ho.holder ha
      · rw [update_of_ne hep]; exact h.idleNodup ep'
    · intro ep' n' hn
      have hn : n' ∈ update net.idle ep (net.idle ep ++ [n]) ep' := hn
      by_cases hn' : n' = n
      · refine Or.inr ?_
        rw [hn'] at hn ⊢
        have hep : ep' = ep := by
          by_contra hep
          rw [update_of_ne hep] at hn
          exact h.not_idle ho.holder hn
        rw [hep]
        exact ⟨⟨update_self _ _ _, ho.peer, ho.opened⟩,
          ⟨hcalm.uncut, hcalm.quiet, hcalm.silent⟩⟩
      · refine .inl ⟨?_, hn'⟩
        by_cases hep : ep' = ep
        · rw [hep, update_self] at hn
          rw [hep]
          rcases mem_append.mp hn with hn | hn
          · exact hn
          · exact absurd (mem_singleton.mp hn) hn'
        · rw [update_of_ne hep] at hn; exact hn
    · intro x hx'; cases hx'
  · exact ⟨g, h.forget net.idle (fun _ => List.Sublist.refl _) _ (fun j x hj => ((of_update hj).resolve_left (by simp)).2)⟩

end Pooling

end Thread

/-! ## The steps of a server -/

section Server

variable {P : Protocol B Q} {net net' : Net B Q S E I} {g g' : Ghost B E} {n : Nat}

lemma SoundWith.of_kept (h : SoundWith P net g) (hwired : ∀ n, Wired P net' g' n)
    (hserved : ∀ s ∈ net'.served, ServedOk P net' s)
    (honce : net'.served.Pairwise (fun s s' => ∀ t ∈ s.tags, t ∉ s'.tags))
    (hidle : net'.idle = net.idle) (hexch : net'.exchanges = net.exchanges)
    (hreq : net'.requests = net.requests)
    (howned : ∀ n ho ep, Owned net g n ho ep → Owned net' g' n ho ep)
    (hcalm : ∀ n, Calm P net g n → Calm P net' g' n)
    (hwait : ∀ n r got, Waiting P net g n r got → Waiting P net' g' n r got) :
    SoundWith P net' g' := by
  refine ⟨hwired, hserved, honce, ?_, ?_, ?_⟩
  · rw [hidle]; exact h.idleNodup
  · rw [hidle]
    intro ep n hn
    obtain ⟨ho, hc⟩ := h.idle ep n hn
    exact ⟨howned n _ ep ho, hcalm n hc⟩
  · rw [hexch]
    intro i x hx
    have hok := h.exchanges i x hx
    rw [ExchangeOk] at hok ⊢
    rw [hreq]
    split
    · next hpc =>
        rw [hpc] at hok
        intro n hn
        obtain ⟨ho, hc⟩ := hok n hn
        exact ⟨howned n _ _ ho, hcalm n hc⟩
    · next hpc =>
        rw [hpc] at hok
        obtain ⟨n, hn, ho, hr, hw⟩ := hok
        exact ⟨n, hn, howned n _ _ ho, hr, hwait n _ _ hw⟩

lemma sound_event (h : SoundWith P net g) {ev : Conn.Event} {c : Conn B} (hn : n < net.nextConn)
    (hc : (net.conns n).event P.wanted ev = some c) :
    Sound P { net with conns := update net.conns n c } := by
  refine ⟨g, h.of_kept ?_ h.served h.once rfl rfl rfl ?_ ?_ ?_⟩
  · intro n'
    have hwire := h.wired n'
    refine ⟨?_, hwire.asked, hwire.unserved, hwire.nodup, ?_⟩
    · show Sending P.wanted (update net.conns n c n') _ _
      by_cases hn' : n' = n
      · subst hn'
        rw [update_self]
        exact hwire.stream.event hc
      · rw [update_of_ne hn']; exact hwire.stream
    · intro hle
      show update net.conns n c n' = _ ∧ _
      rw [update_of_ne (Nat.ne_of_gt (Nat.lt_of_lt_of_le hn hle))]
      exact hwire.fresh hle
  · exact fun n' ho ep howned => ⟨howned.holder, howned.peer, howned.opened⟩
  · intro n' hcalm
    refine ⟨hcalm.uncut, ?_, hcalm.silent⟩
    show Quiet (update net.conns n c n')
    by_cases hn' : n' = n
    · rw [hn', update_self]
      rw [hn'] at hcalm
      exact Answering.event hcalm.quiet hc
    · rw [update_of_ne hn']; exact hcalm.quiet
  · intro n' r got hw
    refine ⟨hw.uncut, ?_⟩
    by_cases hn' : n' = n
    · subst hn'
      simp only [update_self]
      rcases hw.answer with ⟨hgot, hq, hrest⟩ | ⟨hp, k, s, t, hk, hr, ht, ha⟩ | ⟨hgot, hq, hp⟩
      · exact .inl ⟨hgot, Answering.event hq hc, hrest⟩
      · exact .inr (.inl ⟨hp, k, s, t, hk, hr, ht, ha.event hc⟩)
      · exact .inr (.inr ⟨hgot, Answering.event hq hc, hp⟩)
    · simp only [update_of_ne hn']; exact hw.answer

variable {s : Served B S}

lemma Wired.served_here (h : Wired P net g n) {p : List B × Nat} {rest : List (List B × Nat)}
    (hpend : g.pending n = p :: rest) (htags : ∀ t ∈ s.tags, t = p.2)
    (hstream : Sending P.wanted (net'.conns n) rest (g'.cut n)) (hrest : g'.pending n = rest)
    (hreq : net'.requests = net.requests) (hserved : net'.served = net.served ++ [s])
    (hnext : net'.nextConn = net.nextConn) : Wired P net' g' n := by
  have hsub : ∀ p' ∈ rest, p' ∈ g.pending n := fun p' hp' => by
    rw [hpend]
    exact .tail _ hp'
  have hnodup := h.nodup
  rw [hpend, map_cons, nodup_cons] at hnodup
  refine ⟨?_, ?_, ?_, ?_, ?_⟩
  · rw [hrest]; exact hstream
  · rw [hrest, hreq]; exact fun p' hp' => h.asked p' (hsub p' hp')
  · rw [hrest, hserved]
    intro p' hp' s' hs' ht
    rcases mem_append.mp hs' with hs' | hs'
    · exact h.unserved p' (hsub p' hp') s' hs' ht
    · rw [mem_singleton.mp hs'] at ht
      refine hnodup.1 ?_
      rw [← htags _ ht]
      exact mem_map_of_mem hp'
  · rw [hrest]; exact hnodup.2
  · rw [hnext]
    intro hle
    have hnil := (h.fresh hle).2.2.1
    rw [hpend] at hnil
    cases hnil

lemma Wired.served_elsewhere (h : Wired P net g n) {r : Nat} {q : Request Q I}
    (hq : net.requests[r]? = some q) (hconn : q.conn ≠ n) (htags : ∀ t ∈ s.tags, t = r)
    (hsame : Same net net' g g' n) (hreq : net'.requests = net.requests)
    (hserved : net'.served = net.served ++ [s]) (hnext : net'.nextConn = net.nextConn) :
    Wired P net' g' n := by
  refine ⟨?_, ?_, ?_, ?_, ?_⟩
  · rw [hsame.conn, hsame.pending, hsame.cut]; exact h.stream
  · rw [hsame.pending, hreq]; exact h.asked
  · rw [hsame.pending, hserved]
    intro p hp s' hs' ht
    rcases mem_append.mp hs' with hs' | hs'
    · exact h.unserved p hp s' hs' ht
    · rw [mem_singleton.mp hs'] at ht
      obtain ⟨q', hq', hconn', -⟩ := h.asked p hp
      rw [htags _ ht, hq] at hq'
      cases hq'
      exact hconn hconn'
  · rw [hsame.pending]; exact h.nodup
  · rw [hnext, hsame.conn, hsame.peer, hsame.pending, hsame.cut, hsame.holder]
    exact h.fresh

lemma sound_serve (h : SoundWith P net g) {got : List (B × Nat)} {reply : Option (List B)} {note : S}
    (hs : (net.conns n).serving = .reading got) (hw : P.wanted (bytes got) = 0)
    (hreply : ∀ t q, reply = some t → P.Whole q → P.encode q = some (bytes got) →
      IsMessage (P.replyWanted q) t) :
    Sound P { net with
      conns := update net.conns n
        ((net.conns n).reply (reply.map (fun t => tag t net.served.length)))
      served := net.served ++ [⟨n, got.map Prod.snd, bytes got, reply, note⟩] } := by
  have hwire := h.wired n
  obtain ⟨p, rest, hpend, hgot, hrest⟩ :=
    hwire.stream.serve hs hw P.starts (reply.map (fun t => tag t net.served.length))
  have hmem : p ∈ g.pending n := by rw [hpend]; exact (.head _)
  obtain ⟨q, hq, hconn, henc, hwhole⟩ := hwire.asked p hmem
  have hbytes : bytes got = p.1 := by rw [hgot, bytes_tag]
  have htags : got.map Prod.snd = replicate p.1.length p.2 := by
    rw [hgot, tag, map_map]
    exact map_const'
  have hmessage : ∀ t, reply = some t → IsMessage (P.replyWanted q.query) t :=
    fun t ht => hreply t q.query ht hwhole (by rw [hbytes]; exact henc)
  have hnew : ∀ t ∈ got.map Prod.snd, t = p.2 := by
    rw [htags]
    exact fun t ht => eq_of_mem_replicate ht
  refine ⟨⟨g.holder, update g.pending n rest, g.cut⟩, ?_⟩
  have hsilent : Silent P net p → Quiet (net.conns n) →
      Quiet ((net.conns n).reply (reply.map (fun t => tag t net.served.length))) := by
    rintro ⟨q', hq', hzero⟩ hquiet
    rw [hq] at hq'
    cases hq'
    cases reply with
    | none => exact hquiet.give_up
    | some t =>
        rw [eq_nil_of_silent (hmessage t rfl) hzero]
        exact hquiet.reply []
  refine h.of_kept ?_ ?_ ?_ rfl rfl rfl ?_ ?_ ?_
  · intro n'
    by_cases hn' : n' = n
    · subst hn'
      refine hwire.served_here hpend hnew ?_ (update_self _ _ _) rfl rfl rfl
      simp only [update_self]
      exact hrest
    · refine (h.wired n').served_elsewhere hq ?_ hnew ?_ rfl rfl rfl
      · rw [hconn]; exact fun heq => hn' heq.symm
      · exact ⟨update_of_ne hn' _ _, rfl, rfl, update_of_ne hn' _ _, rfl⟩
  · intro s hmem'
    rcases mem_append.mp hmem' with hmem' | hmem'
    · exact h.served s hmem'
    · rw [mem_singleton.mp hmem']
      refine ⟨p.2, q, ?_, hq, hconn, ?_, hmessage⟩
      · rw [hbytes]; exact htags
      · rw [hbytes]; exact henc
  · rw [pairwise_append]
    refine ⟨h.once, pairwise_singleton _ _, ?_⟩
    intro s hs' s' hs'' t ht ht'
    rw [mem_singleton.mp hs''] at ht'
    rw [hnew t ht'] at ht
    exact hwire.unserved p hmem s hs' ht
  · exact fun n' ho ep howned => ⟨howned.holder, howned.peer, howned.opened⟩
  · intro n' hcalm
    by_cases hn' : n' = n
    · subst hn'
      refine ⟨hcalm.uncut, ?_, ?_⟩
      · simp only [update_self]
        exact hsilent (hcalm.silent p hmem) hcalm.quiet
      · simp only [update_self]
        exact fun p' hp' => hcalm.silent p' (by rw [hpend]; exact .tail _ hp')
    · refine ⟨hcalm.uncut, ?_, ?_⟩
      · simp only [update_of_ne hn']; exact hcalm.quiet
      · simp only [update_of_ne hn']; exact hcalm.silent
  · intro n' r got' hwait
    refine ⟨hwait.uncut, ?_⟩
    by_cases hn' : n' = n
    · subst hn'
      simp only [update_self]
      rcases hwait.answer with ⟨hgot', hquiet, zs, m, hzs, hz⟩ | ⟨hnil, -⟩ | ⟨-, -, hnil⟩
      · rw [hpend] at hzs
        cases zs with
        | nil =>
            -- the server has come to the request of the exchange
            obtain ⟨rfl, rfl⟩ := cons.inj hzs
            cases reply with
            | none => exact .inr (.inr ⟨hgot', hquiet.give_up, rfl⟩)
            | some t =>
                have hlen : 0 < m.length := by
                  refine length_pos_of_ne_nil ?_
                  rintro rfl
                  rw [hbytes] at hw
                  exact absurd hw (Nat.ne_of_gt P.starts)
                refine .inr (.inl ⟨rfl, net.served.length, _, t, getElem?_concat_length, ?_,
                  rfl, ?_⟩)
                · rw [htags]
                  exact mem_replicate.mpr ⟨Nat.ne_of_gt hlen, rfl⟩
                · rw [hgot']; exact hquiet.reply _
        | cons z zs =>
            obtain ⟨rfl, rfl⟩ := cons.inj hzs
            refine .inl ⟨hgot', hsilent (hz p (.head _)) hquiet, zs, m, rfl, ?_⟩
            exact fun p' hp' => hz p' (.tail _ hp')
      · rw [hpend] at hnil; cases hnil
      · rw [hpend] at hnil; cases hnil
    · simp only [update_of_ne hn']
      rcases hwait.answer with hleft | ⟨hnil, k, s, t, hk, hrest'⟩ | hgone
      · exact .inl hleft
      · refine .inr (.inl ⟨hnil, k, s, t, ?_, hrest'⟩)
        exact getElem?_of_prefix (prefix_append _ _) hk
      · exact .inr (.inr hgone)

end Server

/-! ## What holds in every reachable state -/

section Reachable

variable {P : Protocol B Q} {net net' : Net B Q S E I}

/-- The clients send whole requests, and the servers answer with messages that the clients can
    read. -/
def Proper (P : Protocol B Q) (net : Net B Q S E I) : Act B Q S E I → Prop
  | .send _ q => P.Whole q
  | .sendCut _ q _ => P.Whole q
  | .serve n reply _ => ∀ got t q, (net.conns n).serving = .reading got → reply = some t →
      P.Whole q → P.encode q = some (bytes got) → IsMessage (P.replyWanted q) t
  | _ => True

variable {a : Act B Q S E I}

lemma sound_step [DecidableEq E] (h : Sound P net) (hp : Proper P net a)
    (hs : step P net a = some net') : Sound P net' := by
  obtain ⟨g, hg⟩ := h
  cases stepped_of_step hs with
  | acquire hx => exact sound_acquire hg _ _
  | connect hx => exact sound_connect hg _ _
  | send hx hm => exact sound_send hg hx hp hm
  | sendCut hx hm => exact sound_sendCut hg hx hp hm _
  | recv hx hc => exact sound_recv hg hx hc
  | release hx hdone => exact sound_release hg hx hdone
  | reset hx => exact sound_reset hg
  | drop hx =>
    exact ⟨g, hg.forget net.idle (fun _ => List.Sublist.refl _) _ (fun j x hj => ((of_update hj).resolve_left (by simp)).2)⟩
  | event hn hc => exact sound_event hg hn hc
  | serve hserving hw => exact sound_serve hg hserving hw (fun t q ht hwhole hq => hp _ t q hserving ht hwhole hq)
  | clear =>
    refine ⟨g, hg.forget _ ?_ _ (fun _ _ hj => hj)⟩
    intro ep
    split_ifs
    · exact nil_sublist _
    · exact List.Sublist.refl _

lemma step_grows [DecidableEq E] (hs : step P net a = some net') : Grows net net' := by
  cases stepped_of_step hs with
  | connect => exact ⟨prefix_refl _, prefix_refl _, Nat.le_succ _⟩
  | send | sendCut => exact ⟨prefix_append _ _, prefix_refl _, Nat.le_refl _⟩
  | serve => exact ⟨prefix_refl _, prefix_append _ _, Nat.le_refl _⟩
  | _ => exact ⟨prefix_refl _, prefix_refl _, Nat.le_refl _⟩

lemma Sound.peer_step [DecidableEq E] (h : Sound P net) {n : Nat} {ep : E}
    (hn : net.peer n = some ep) (hs : step P net a = some net') : net'.peer n = some ep := by
  obtain ⟨g, hg⟩ := h
  cases stepped_of_step hs with
  | connect =>
    have hne : n ≠ net.nextConn := by
      rintro rfl
      rw [((hg.wired net.nextConn).fresh (Nat.le_refl _)).2.1] at hn
      cases hn
    show update net.peer net.nextConn _ n = some ep
    rw [update_of_ne hne]
    exact hn
  | _ => exact hn

/-- **AN ANSWER IS FOR ITS OWN REQUEST**: a thread that has read a whole answer has the bytes that the
    server it asked made out of the message that this exchange sent; or no bytes were asked for. -/
lemma Sound.answered (h : Sound P net) {i r : Nat} {x : Exchange B Q E I} {q : Q}
    {got : List (B × Nat)} (hx : net.exchanges i = some x) (hpc : x.pc = .waiting r q got)
    (hdone : P.replyWanted q (bytes got) = 0) :
    ∃ n, x.sock = some n ∧ net.peer n = some x.endpoint ∧ net.requests[r]? = some ⟨x.owner, n, q⟩
      ∧ ((got = [] ∧ P.replyWanted q [] = 0) ∨ ∃ k s t, net.served[k]? = some s ∧ s.conn = n
        ∧ s.tags = List.replicate s.message.length r ∧ P.encode q = some s.message
        ∧ s.reply = some t ∧ got = tag t k) := by
  obtain ⟨g, hg⟩ := h
  have hok := hg.exchanges i x hx
  rw [ExchangeOk, hpc] at hok
  obtain ⟨n, hn, ho, hr, hw⟩ := hok
  refine ⟨n, hn, ho.peer, hr, ?_⟩
  rcases hw.answer with ⟨rfl, -⟩ | ⟨-, k, s, t, hk, hs, ht, ha⟩ | ⟨rfl, -⟩
  · exact .inl ⟨rfl, hdone⟩
  · obtain ⟨r', q', htags, hq', hconn, henc, hreply⟩ := hg.served s (mem_of_getElem? hk)
    have htags' := htags
    rw [htags] at hs
    obtain rfl := eq_of_mem_replicate hs
    rw [hr] at hq'
    cases hq'
    have hwhole := (ha.done (by rw [bytes_tag]; exact hreply t ht) hdone).1
    exact .inr ⟨k, s, t, hk, hconn.symm, htags', henc, ht, hwhole⟩
  · exact .inl ⟨rfl, hdone⟩

/-- **NOTHING IS LEFT ON AN IDLE CONNECTION**: no bytes to be read or still to be sent to the client,
    and the requests the server has not answered are such that their answers are empty. -/
lemma Sound.idle_quiet (h : Sound P net) {ep : E} {n : Nat} (hn : n ∈ net.idle ep) :
    (net.conns n).down = [] ∧ (∀ rest, (net.conns n).serving = .replying rest → rest = [])
      ∧ ∃ pending, OnWire (net.conns n) pending []
        ∧ ∀ p ∈ pending, ∃ q, P.encode q = some p.1 ∧ P.replyWanted q [] = 0 := by
  obtain ⟨g, hg⟩ := h
  obtain ⟨-, hcalm⟩ := hg.idle ep n hn
  have hwire := hg.wired n
  refine ⟨hcalm.quiet.down, fun rest hrest => hcalm.quiet.rest hrest, g.pending n, ?_, ?_⟩
  · have hw := hwire.stream.wire
    rw [hcalm.uncut] at hw
    exact hw
  · intro p hp
    obtain ⟨q, hq, -, henc, -⟩ := hwire.asked p hp
    obtain ⟨q', hq', hzero⟩ := hcalm.silent p hp
    rw [hq] at hq'
    cases hq'
    exact ⟨q.query, henc, hzero⟩

lemma Sound.served (h : Sound P net) {s : Served B S} (hs : s ∈ net.served) : ServedOk P net s := by
  obtain ⟨g, hg⟩ := h
  exact hg.served s hs

/-- **NO REQUEST IS SERVED TWICE**. -/
lemma Sound.once (h : Sound P net) :
    net.served.Pairwise (fun s s' => ∀ t ∈ s.tags, t ∉ s'.tags) := by
  obtain ⟨g, hg⟩ := h
  exact hg.once

/-- The messages read that come from requests of `owner`. -/
def Net.servedFor [DecidableEq I] (net : Net B Q S E I) (owner : I) : List (Served B S) :=
  net.served.filter (fun s => s.tags.any (fun t => (net.requests[t]?).any (fun q => q.owner = owner)))

def Net.requestsOf [DecidableEq I] (net : Net B Q S E I) (owner : I) : Nat :=
  net.requests.countP (fun q => q.owner = owner)

lemma Sound.servedFor_le [DecidableEq I] (h : Sound P net) (owner : I) :
    (net.servedFor owner).length ≤ net.requestsOf owner := by
  -- each message read goes to the number of its request
  have hfirst : ∀ s ∈ net.servedFor owner, s.tags.headD 0 ∈ s.tags
      ∧ ∃ q, net.requests[s.tags.headD 0]? = some q ∧ q.owner = owner := by
    intro s hs
    obtain ⟨hs, hany⟩ := mem_filter.mp hs
    obtain ⟨t, ht, hq⟩ := any_eq_true.mp hany
    obtain ⟨r, -, htags, -⟩ := h.served hs
    have hhead : s.tags.headD 0 ∈ s.tags := by
      cases htags' : s.tags with
      | nil => rw [htags'] at ht; cases ht
      | cons t' ts => exact (.head _)
    have heq : s.tags.headD 0 = t := by
      rw [htags] at ht hhead
      rw [eq_of_mem_replicate ht, ← eq_of_mem_replicate hhead, htags]
    refine ⟨hhead, ?_⟩
    rw [heq]
    cases hr : net.requests[t]? with
    | none => rw [hr] at hq; cases hq
    | some q =>
      rw [hr] at hq
      exact ⟨q, rfl, of_decide_eq_true hq⟩
  have hnodup : ((net.servedFor owner).map (fun s => s.tags.headD 0)).Nodup := by
    refine pairwise_map.mpr ((h.once.filter _).imp_of_mem ?_)
    intro s s' hs hs' hdisjoint heq
    have hmem := (hfirst s' hs').1
    rw [← heq] at hmem
    exact hdisjoint _ (hfirst s hs).1 hmem
  have hsub : (net.servedFor owner).map (fun s => s.tags.headD 0)
      ⊆ (net.requests.zipIdx.filter (fun q => q.1.owner = owner)).map Prod.snd := by
    intro t ht
    obtain ⟨s, hs, rfl⟩ := mem_map.mp ht
    obtain ⟨-, q, hq, howner⟩ := hfirst s hs
    refine mem_map.mpr ⟨(q, _), mem_filter.mpr ⟨?_, decide_eq_true howner⟩, rfl⟩
    exact mem_zipIdx_iff_getElem?.mpr hq
  have hle := (subperm_of_subset hnodup hsub).length_le
  rw [length_map, length_map, ← countP_eq_length_filter] at hle
  rw [Net.requestsOf]
  rw [← zipIdx_map_fst 0 net.requests, countP_map]
  exact hle

end Reachable

end PooledExchange
