import PeerCache.TcpTransportProofs

/-! # The data server and the registered memory

    `TcpTransport._serve_conn` answers whatever a client sends.  A request is a header of 17 bytes
    and, for a WRITE, as many bytes as the header says; the next header starts behind them.  Memory
    is touched only after `_covered` has found a region that holds the whole range. -/

namespace PeerCacheTcp

open ByteStream StructCodec List

/-- `sendall`, which may fail after so many bytes. -/
def sendall (cut : Option Nat) (data : Bytes) : Bytes :=
  match cut with
  | none => data
  | some k => data.take k

/-- What the surroundings do: the sizes of the reads, and, at the `k`-th request, the registered
    regions, what other threads have done to the memory, and whether the connection fails. -/
structure Around where
  sizes : Nat → Nat
  regions : Nat → List (Nat × Nat)
  others : Nat → Mem → Mem
  cut : Nat → Option Nat

/-- A request that was answered: its bytes, the regions `_covered` found, the memory before and after
    it, and the bytes sent. -/
structure Handled where
  message : Bytes
  regions : List (Nat × Nat)
  before : Mem
  after : Mem
  cut : Option Nat
  sent : Bytes

section Serve

variable (env : Around)

/-- One turn of the loop of `_serve_conn`; `none` when it returns without having done anything.  An
    exception ends the thread and closes the connection as a return does. -/
def serveRequest (k : Nat) (s : Sock UInt8) (m : Mem) : Option (Handled × Sock UInt8) :=
  match s.recvExact env.sizes 17 with
  | (none, _) => none
  | (some hdr, s) =>
      let addr := addrOf hdr
      let length := lengthOf hdr
      let regions := env.regions k
      let m := env.others k m
      if opOf hdr = 1 then
        if covered regions addr length then
          (stringAt m addr length).map (fun data =>
            (⟨hdr, regions, m, m, env.cut k, sendall (env.cut k) data⟩, s))
        else none
      else if opOf hdr = 2 then
        match s.recvExact env.sizes length with
        | (none, _) => none
        | (some data, s) =>
            if covered regions addr length then
              some (⟨hdr ++ data, regions, m, m.write addr data, env.cut k, sendall (env.cut k) [1]⟩, s)
            else some (⟨hdr ++ data, regions, m, m, env.cut k, sendall (env.cut k) [0]⟩, s)
      else none

/-- `_serve_conn`, while `_running` is found True, that is for so many rounds. -/
def serveConn : Nat → Nat → Sock UInt8 → Mem → List Handled
  | 0, _, _, _ => []
  | rounds + 1, k, s, m =>
      match serveRequest env k s m with
      | none => []
      | some (h, s) => h :: (if (env.cut k).isSome then [] else serveConn rounds (k + 1) s h.after)

end Serve

/-! ## What is inside -/

/-- The `n` bytes from `addr` on lie in one of the regions. -/
def Inside (regions : List (Nat × Nat)) (addr n : Nat) : Prop :=
  ∃ r ∈ regions, r.1 ≤ addr ∧ addr + n ≤ r.1 + r.2

lemma covered_iff {regions : List (Nat × Nat)} {addr n : Nat} :
    covered regions addr n = true ↔ Inside regions addr n := by
  simp [covered, Inside]

lemma Inside.mono {regions : List (Nat × Nat)} {addr n n' : Nat} (h : Inside regions addr n)
    (hn : n' ≤ n) : Inside regions addr n' := by
  obtain ⟨r, hr, hbase, hend⟩ := h
  exact ⟨r, hr, hbase, by omega⟩

/-- What a READ sends lies in one region, what a WRITE writes too; a WRITE outside all of them writes
    nothing and is answered with 0. -/
def Handled.Confined (h : Handled) : Prop :=
  (opOf h.message = 1 ∧ h.after = h.before ∧ Inside h.regions (addrOf h.message) h.sent.length
      ∧ h.sent = h.before.read (addrOf h.message) h.sent.length)
    ∨ (opOf h.message = 2 ∧ Inside h.regions (addrOf h.message) (lengthOf h.message)
      ∧ (h.message.drop 17).length = lengthOf h.message
      ∧ h.after = h.before.write (addrOf h.message) (h.message.drop 17) ∧ h.sent = sendall h.cut [1])
    ∨ (opOf h.message = 2 ∧ ¬ Inside h.regions (addrOf h.message) (lengthOf h.message)
      ∧ h.after = h.before ∧ h.sent = sendall h.cut [0])

/-- A READ whose length is `-1` as a C `int`. -/
def Handled.ReadsString (h : Handled) : Prop :=
  opOf h.message = 1 ∧ lengthOf h.message % 2 ^ 32 = 2 ^ 32 - 1

/-- What is sent from the address on goes no further than `p`: there is a NUL, the connection fails
    there, or the address space ends. -/
def Handled.StopsAt (h : Handled) (p : Nat) : Prop :=
  h.before p = 0 ∨ h.cut = some (p - addrOf h.message) ∨ p = 2 ^ 64

/-- A region holds the address and goes on to where the string stops. -/
def Handled.StringInside (h : Handled) : Prop :=
  ∃ r ∈ h.regions, r.1 ≤ addrOf h.message
    ∧ ∃ p, addrOf h.message ≤ p ∧ p ≤ r.1 + r.2 ∧ h.StopsAt p

/-! ## One request -/

section Request

variable {env : Around} {k : Nat} {s s' : Sock UInt8} {m : Mem} {h : Handled}

lemma stringAt_eq {addr size : Nat} {data : Bytes} (hdata : stringAt m addr size = some data) :
    data = m.read addr data.length ∧ (size % 2 ^ 32 ≠ 2 ^ 32 - 1 → data.length ≤ size) := by
  rw [stringAt] at hdata
  split_ifs at hdata with hshort hnul
  · cases hdata
    rw [Mem.length_read]
    exact ⟨rfl, fun _ => Nat.mod_le _ _⟩
  · cases hdata; exact ⟨m.untilNul_eq addr _, fun hne => absurd hnul hne⟩

lemma sendall_read {cut : Option Nat} {addr n : Nat} :
    sendall cut (m.read addr n) = m.read addr (sendall cut (m.read addr n)).length
      ∧ (sendall cut (m.read addr n)).length ≤ n := by
  cases cut with
  | none =>
    rw [sendall, Mem.length_read]
    exact ⟨rfl, Nat.le_refl n⟩
  | some k =>
    rw [sendall, Mem.take_read, Mem.length_read]
    exact ⟨rfl, Nat.min_le_right k n⟩

lemma stringAt_string {addr size : Nat} (hnul : size % 2 ^ 32 = 2 ^ 32 - 1) :
    stringAt m addr size = some (m.untilNul addr (2 ^ 64 - addr)) := by
  rw [stringAt, if_neg (by omega), if_pos hnul]

lemma length_sendall (cut : Option Nat) (data : Bytes) :
    (sendall cut data).length ≤ data.length ∧ (∀ k, cut = some k → (sendall cut data).length ≤ k)
      ∧ ((sendall cut data).length = data.length ∨ cut = some (sendall cut data).length) := by
  cases cut with
  | none => exact ⟨Nat.le_refl _, by rintro _ ⟨⟩, .inl rfl⟩
  | some k =>
    rw [sendall, length_take]
    refine ⟨Nat.min_le_right _ _, ?_, ?_⟩
    · intro j hj
      cases hj
      exact Nat.min_le_left _ _
    · rcases Nat.le_total k data.length with hle | hle
      · exact .inr (by rw [Nat.min_eq_left hle])
      · exact .inl (Nat.min_eq_right hle)

/-- **WHERE A STRING ENDS**: the bytes sent lie in a region exactly if one goes on to where the string
    in the memory, or the connection, stops. -/
lemma inside_string (haddr : addrOf h.message ≤ 2 ^ 64)
    (hsent : h.sent = sendall h.cut (h.before.untilNul (addrOf h.message)
      (2 ^ 64 - addrOf h.message))) :
    Inside h.regions (addrOf h.message) h.sent.length ↔ h.StringInside := by
  obtain ⟨hall, hcut, hstop⟩ := length_sendall h.cut
    (h.before.untilNul (addrOf h.message) (2 ^ 64 - addrOf h.message))
  have hlen := h.before.length_untilNul_le (addrOf h.message) (2 ^ 64 - addrOf h.message)
  have hnul := h.before.untilNul_stops (addrOf h.message) (2 ^ 64 - addrOf h.message)
  rw [← hsent] at hall hcut hstop
  refine exists_congr (fun r => and_congr_right (fun _ => and_congr_right (fun _ => ⟨?_, ?_⟩)))
  · intro hend
    refine ⟨_, Nat.le_add_right _ _, hend, ?_⟩
    rcases hstop with hwhole | hfail
    · rcases hnul with hspace | hzero
      · refine .inr (.inr ?_)
        omega
      · rw [← hwhole] at hzero
        exact .inl hzero
    · refine .inr (.inl ?_)
      rw [Nat.add_sub_cancel_left]
      exact hfail
  · rintro ⟨p, hp, hend, hzero | hfail | rfl⟩
    · -- the string is not longer than the bytes before its NUL
      have hshort : (h.before.untilNul (addrOf h.message) (2 ^ 64 - addrOf h.message)).length
          ≤ p - addrOf h.message := by
        by_contra hlong
        refine h.before.untilNul_ne_zero (i := p - addrOf h.message) (Nat.lt_of_not_le hlong) ?_
        rw [Nat.add_sub_cancel' hp]
        exact hzero
      omega
    · have := hcut _ hfail
      omega
    · omega

lemma fields_append {hdr data : Bytes} (hlen : hdr.length = 17) :
    opOf (hdr ++ data) = opOf hdr ∧ addrOf (hdr ++ data) = addrOf hdr
      ∧ lengthOf (hdr ++ data) = lengthOf hdr := by
  refine ⟨?_, ?_, ?_⟩
  · cases hdr with
    | nil => cases hlen
    | cons b hdr => rfl
  · rw [addrOf, drop_append_of_le_length (by omega),
      take_append_of_le_length (by rw [length_drop]; omega)]
    rfl
  · rw [lengthOf, drop_append_of_le_length (by omega),
      take_append_of_le_length (by rw [length_drop]; omega)]
    rfl

lemma addrOf_le (hdr : Bytes) : addrOf hdr ≤ 2 ^ 64 := by
  have hlt := ofLE_lt ((hdr.drop 1).take 8).reverse
  have hlen : ((hdr.drop 1).take 8).reverse.length ≤ 8 := by
    rw [length_reverse]
    exact length_take_le 8 _
  exact hlt.le.trans (Nat.pow_le_pow_right (by decide) hlen)

lemma confined_read {hdr data : Bytes} {regions : List (Nat × Nat)} {cut : Option Nat}
    (hop : opOf hdr = 1) (hin : Inside regions (addrOf hdr) (lengthOf hdr))
    (hdata : stringAt m (addrOf hdr) (lengthOf hdr) = some data)
    (hh : h = ⟨hdr, regions, m, m, cut, sendall cut data⟩) :
    h.Confined ↔ (h.ReadsString → h.StringInside) := by
  have hstring : h.ReadsString →
      (Inside h.regions (addrOf h.message) h.sent.length ↔ h.StringInside) := by
    subst hh
    rintro ⟨-, hnul⟩
    refine inside_string (addrOf_le hdr) ?_
    rw [stringAt_string hnul] at hdata
    rw [Option.some.inj hdata]
  refine Iff.trans ?_ (forall_congr' hstring)
  clear hstring
  subst hh
  obtain ⟨hread, hshort⟩ := stringAt_eq hdata
  have hsent := @sendall_read m cut (addrOf hdr) data.length
  rw [← hread] at hsent
  constructor
  · rintro (⟨-, -, hinside, -⟩ | ⟨hop', -⟩ | ⟨hop', -⟩) ⟨hop, -⟩
    · exact hinside
    · exact absurd (hop.symm.trans hop') (by decide)
    · exact absurd (hop.symm.trans hop') (by decide)
  · intro hstring
    refine .inl ⟨hop, rfl, ?_, hsent.1⟩
    by_cases hnul : lengthOf hdr % 2 ^ 32 = 2 ^ 32 - 1
    · exact hstring ⟨hop, hnul⟩
    · exact hin.mono (Nat.le_trans hsent.2 (hshort hnul))

lemma confined_write {hdr data : Bytes} {regions : List (Nat × Nat)} {cut : Option Nat}
    (hhdr : hdr.length = 17) (hop : opOf hdr = 2) (hdata : data.length = lengthOf hdr)
    (hh : h = if covered regions (addrOf hdr) (lengthOf hdr)
      then ⟨hdr ++ data, regions, m, m.write (addrOf hdr) data, cut, sendall cut [1]⟩
      else ⟨hdr ++ data, regions, m, m, cut, sendall cut [0]⟩) :
    h.message = hdr ++ data ∧ h.regions = regions ∧ h.Confined ∧ ¬ h.ReadsString := by
  obtain ⟨hop', haddr, hlength⟩ := @fields_append hdr data hhdr
  have hpayload : (hdr ++ data).drop 17 = data := drop_left' hhdr
  have hstring : opOf (hdr ++ data) ≠ 1 := by
    rw [hop', hop]
    decide
  split_ifs at hh with hcov
  · subst hh
    refine ⟨rfl, rfl, .inr (Or.inl ?_), fun hs => hstring hs.1⟩
    rw [hop', haddr, hlength, hpayload]
    exact ⟨hop, covered_iff.mp hcov, hdata, rfl, rfl⟩
  · subst hh
    refine ⟨rfl, rfl, .inr (Or.inr ?_), fun hs => hstring hs.1⟩
    rw [hop', haddr, hlength]
    exact ⟨hop, fun hin => hcov (covered_iff.mpr hin), rfl, rfl⟩

/-- **ONE REQUEST**: it is taken off the stream as a whole, and it is confined unless it asks for a
    string that ends outside. -/
lemma serveRequest_spec (hs : serveRequest env k s m = some (h, s')) :
    s.rest = h.message ++ s'.rest ∧ h.regions = env.regions k
      ∧ (h.Confined ↔ (h.ReadsString → h.StringInside))
      ∧ (h.ReadsString → Inside h.regions (addrOf h.message) (lengthOf h.message)) := by
  have h1 := s.recvExact_fst env.sizes 17
  have h2 := s.recvExact_rest env.sizes 17
  rw [serveRequest] at hs
  generalize s.recvExact env.sizes 17 = r at hs h1 h2
  obtain ⟨o, s₁⟩ := r
  cases o with
  | none => cases hs
  | some hdr =>
    split_ifs at h1 with hlen
    have hhdr : hdr.length = 17 := by
      rw [Option.some.inj h1, length_take]
      omega
    have hrest : s.rest = hdr ++ s₁.rest := by
      rw [h2, Option.some.inj h1, take_append_drop]
    dsimp only at hs
    by_cases hread : opOf hdr = 1
    · rw [if_pos hread] at hs
      split_ifs at hs with hcov
      obtain ⟨data, hdata, hpair⟩ := Option.map_eq_some_iff.mp hs
      obtain ⟨hh, rfl⟩ := Prod.mk.inj hpair
      have hin := covered_iff.mp hcov
      refine ⟨by rw [← hh]; exact hrest, by rw [← hh], confined_read hread hin hdata hh.symm, ?_⟩
      intro _
      rw [← hh]
      exact hin
    · by_cases hwrite : opOf hdr = 2
      · rw [if_neg hread, if_pos hwrite] at hs
        -- the payload is as long as the header says
        have h3 := s₁.recvExact_fst env.sizes (lengthOf hdr)
        have h4 := s₁.recvExact_rest env.sizes (lengthOf hdr)
        generalize s₁.recvExact env.sizes (lengthOf hdr) = r at hs h3 h4
        obtain ⟨o, s₂⟩ := r
        cases o with
        | none => cases hs
        | some data =>
          split_ifs at h3 with hall
          have hdata : data.length = lengthOf hdr := by
            rw [Option.some.inj h3, length_take]
            omega
          have hpair : ((if covered (env.regions k) (addrOf hdr) (lengthOf hdr)
              then ⟨hdr ++ data, env.regions k, env.others k m,
                (env.others k m).write (addrOf hdr) data, env.cut k, sendall (env.cut k) [1]⟩
              else ⟨hdr ++ data, env.regions k, env.others k m, env.others k m, env.cut k,
                sendall (env.cut k) [0]⟩ : Handled), s₂) = (h, s') := by
            refine Option.some.inj (Eq.trans ?_ hs)
            dsimp only
            split <;> rfl
          obtain ⟨hh, rfl⟩ := Prod.mk.inj hpair
          obtain ⟨hmessage, hregions, hconf, hstring⟩ := confined_write hhdr hwrite hdata hh.symm
          refine ⟨?_, hregions, iff_of_true hconf (fun hs => absurd hs hstring),
            fun hs => absurd hs hstring⟩
          rw [hmessage, hrest, h4, Option.some.inj h3, append_assoc, take_append_drop]
      · rw [if_neg hread, if_neg hwrite] at hs; cases hs

lemma serveRequest_read {data : Bytes} (hlen : s.rest.length = 17) (hop : opOf s.rest = 1)
    (hin : Inside (env.regions k) (addrOf s.rest) (lengthOf s.rest))
    (hdata : stringAt (env.others k m) (addrOf s.rest) (lengthOf s.rest) = some data) :
    ∃ s', serveRequest env k s m = some (⟨s.rest, env.regions k, env.others k m, env.others k m,
      env.cut k, sendall (env.cut k) data⟩, s') := by
  have h1 := s.recvExact_fst env.sizes 17
  rw [if_pos hlen.ge, take_of_length_le hlen.le] at h1
  rw [serveRequest]
  generalize s.recvExact env.sizes 17 = r at h1 ⊢
  obtain ⟨o, s'⟩ := r
  obtain rfl : o = some s.rest := h1
  refine ⟨s', ?_⟩
  dsimp only
  rw [if_pos hop, if_pos (covered_iff.mpr hin), hdata]
  rfl

end Request

/-! ## A whole connection -/

section Connection

variable (env : Around) (rounds k : Nat) (s : Sock UInt8) (m : Mem)

lemma serveConn_spec : (serveConn env rounds k s m).flatMap Handled.message <+: s.rest
      ∧ ∀ h ∈ serveConn env rounds k s m,
        (h.Confined ↔ (h.ReadsString → h.StringInside))
          ∧ (h.ReadsString → Inside h.regions (addrOf h.message) (lengthOf h.message))
          ∧ ∃ j, h.regions = env.regions j := by
  induction rounds generalizing k s m with
  | zero => exact ⟨List.nil_prefix, forall_mem_nil _⟩
  | succ rounds ih =>
    rw [serveConn]
    cases hs : serveRequest env k s m with
    | none => exact ⟨List.nil_prefix, forall_mem_nil _⟩
    | some r =>
      obtain ⟨h, s'⟩ := r
      obtain ⟨hrest, hregions, hconf, hstr⟩ := serveRequest_spec hs
      have hlater : ∀ later : List Handled, later.flatMap Handled.message <+: s'.rest →
          (h :: later).flatMap Handled.message <+: s.rest := by
        intro later hl
        rw [flatMap_cons, hrest]
        exact prefix_append_right_inj _ |>.mpr hl
      dsimp only
      split
      · exact ⟨hlater [] nil_prefix, forall_mem_singleton.mpr ⟨hconf, hstr, k, hregions⟩⟩
      · obtain ⟨ih1, ih2⟩ := ih (k + 1) s' h.after
        exact ⟨hlater _ ih1, forall_mem_cons.mpr ⟨⟨hconf, hstr, k, hregions⟩, ih2⟩⟩

end Connection

/-- **THE SERVER IS CONFINED, STRINGS APART**: for every stream a client may send, in any pieces, with
    any registered regions, other threads that write as they like, and a connection that fails
    anywhere.  Everything the server does is confined exactly if each READ of `-1` finds, in the
    memory as it is then, a NUL at or behind its address before the region is left.  With regions
    of fewer than `2^32 - 1` bytes there is no such READ.  No byte of the stream is used for two
    requests. -/
theorem server_confined_iff (env : Around) (rounds : Nat) (stream : Bytes) (m : Mem) :
    ((∀ h ∈ serveConn env rounds 0 ⟨stream, 0⟩ m, h.Confined)
        ↔ ∀ h ∈ serveConn env rounds 0 ⟨stream, 0⟩ m, h.ReadsString → h.StringInside)
      ∧ ((∀ k, ∀ r ∈ env.regions k, r.2 < 2 ^ 32 - 1) →
          ∀ h ∈ serveConn env rounds 0 ⟨stream, 0⟩ m, h.Confined)
      ∧ (serveConn env rounds 0 ⟨stream, 0⟩ m).flatMap Handled.message <+: stream := by
  obtain ⟨hstream, hall⟩ := serveConn_spec env rounds 0 ⟨stream, 0⟩ m
  refine ⟨forall₂_congr (fun h hh => (hall h hh).1), ?_, hstream⟩
  intro hsmall h hh
  obtain ⟨hconf, hstr, j, hregions⟩ := hall h hh
  refine hconf.mpr (fun hstring => ?_)
  obtain ⟨r, hr, hbase, hend⟩ := hstr hstring
  rw [hregions] at hr
  have hlt := hsmall j r hr
  have hle := Nat.mod_le (lengthOf h.message) (2 ^ 32)
  rw [hstring.2] at hle
  omega

/-- One client, and nothing else going on. -/
def quiet (regions : List (Nat × Nat)) : Around := ⟨fun _ => 17, fun _ => regions, fun _ m => m, fun _ => none⟩

/-- READ of `2^32 - 1` bytes at address 0. -/
def readString : Bytes := 1 :: (List.replicate 12 0 ++ List.replicate 4 255)

/-- The READ is inside the segment.  What is sent in answer goes on with the byte behind it. -/
theorem string_leaves_segment :
    ∃ h, serveConn (quiet [(0, 4 * 2 ^ 30)]) 1 0 ⟨readString, 0⟩ (fullSegment 1) = [h]
      ∧ opOf h.message = 1 ∧ Inside h.regions (addrOf h.message) (lengthOf h.message)
      ∧ 4 * 2 ^ 30 < h.sent.length ∧ ¬ h.Confined := by
  have hlen : lengthOf readString = 2 ^ 32 - 1 := by decide
  have haddr : addrOf readString = 0 := by decide
  have hin : Inside [(0, 4 * 2 ^ 30)] (addrOf readString) (lengthOf readString) := by
    rw [hlen, haddr]
    exact ⟨_, mem_cons_self, Nat.le_refl 0, by omega⟩
  obtain ⟨data, hdata, hlong⟩ := fullSegment_string
  rw [← hlen, ← haddr] at hdata
  obtain ⟨s', hturn⟩ := @serveRequest_read (quiet [(0, 4 * 2 ^ 30)]) 0 ⟨readString, 0⟩ (fullSegment 1)
    data rfl rfl hin hdata
  have hsent : sendall ((quiet [(0, 4 * 2 ^ 30)]).cut 0) data = data := rfl
  rw [hsent] at hturn
  refine ⟨_, by rw [serveConn, hturn]; rfl, rfl, hin, by dsimp only; omega, ?_⟩
  have hno : (1 : UInt8) ≠ 2 := by decide
  rintro (⟨-, -, ⟨r, hr, -, hend⟩, -⟩ | ⟨hop, -⟩ | ⟨hop, -⟩)
  · obtain rfl := mem_singleton.mp hr
    dsimp only at hend
    omega
  · exact hno hop
  · exact hno hop

end PeerCacheTcp
