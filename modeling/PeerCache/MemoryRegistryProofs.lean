import PeerCache.SortedMapProofs
import PeerCache.TransitionProofs

/-! # The registry of memory regions

    A work request names a local address range and the key of a memory region that covers it.
    `RdmaContext` keeps the regions in a map from base address to length and region, and
    `lkey_for_ensure` looks a key up, registering the range if it finds none.  Its comment
    promises a key for `[local_addr, local_addr + length)`. -/

namespace PeerCacheRegistry

open SortedMap Transition

/-! ## `RdmaContext` -/

/-- What the verbs library answers to a registration that succeeds. -/
structure IbvMr where
  lkey : Nat
  rkey : Nat

structure MrHandle where
  addr : Nat
  length : Nat
  lkey : Nat
  rkey : Nat

/-- A base address, with the length and the region registered there. -/
abbrev Region := Nat × (Nat × IbvMr)

structure RdmaContext where
  mrs : List Region
  lazyMrs : Nat

/-- Addition of `uint64_t`. -/
def add64 (a b : Nat) : Nat := (a + b) % 2 ^ 64

namespace RdmaContext

def new : RdmaContext := ⟨[], 0⟩

/-- The part that both registrations share: `mr` is what the library answered. -/
def registerWith (error : String) (c : RdmaContext) (addr length : Nat) :
    Option IbvMr → Except String MrHandle × RdmaContext
  | none => (.error error, c)
  | some mr =>
      (.ok ⟨addr, length, mr.lkey, mr.rkey⟩, { c with mrs := set addr (length, mr) c.mrs })

def registerMr : RdmaContext → Nat → Nat → Option IbvMr → Except String MrHandle × RdmaContext :=
  registerWith "peercache: ibv_reg_mr failed"

/-- The descriptor and the offset go to the verbs library only. -/
def registerMrDmabuf (c : RdmaContext) (addr length : Nat) (_fd : Int) (_fdOffset : Nat) :
    Option IbvMr → Except String MrHandle × RdmaContext :=
  registerWith
    ("peercache: ibv_reg_dmabuf_mr failed -- needs rdma-core>=33 and a NIC + "
      ++ "driver with GPUDirect/dmabuf support (ConnectX + MOFED, or "
      ++ "nvidia-peermem). Check the dmabuf fd/offset and that the device "
      ++ "supports peer memory.") c addr length

def deregisterMr (c : RdmaContext) (addr : Nat) : RdmaContext :=
  { c with mrs := erase addr c.mrs }

def lkeyFor (c : RdmaContext) (localAddr : Nat) : Nat :=
  match before localAddr c.mrs with
  | none => 0
  | some r =>
      if r.1 ≤ localAddr ∧ localAddr < add64 r.1 r.2.1 then r.2.2.lkey else 0

/-- The locked half of `lkey_for_ensure`, after `mr` was registered for the range: the regions
    may have changed since the lookup. -/
def keepMr (c : RdmaContext) (localAddr length : Nat) (mr : IbvMr) : Nat × RdmaContext :=
  let covered := (before localAddr c.mrs).filter
    (fun r => r.1 ≤ localAddr ∧ add64 localAddr length ≤ add64 r.1 r.2.1)
  match covered with
  | some r => (r.2.2.lkey, c)
  | none => (mr.lkey, ⟨set localAddr (length, mr) c.mrs, c.lazyMrs + 1⟩)

/-- What a call of `lkey_for_ensure` returns and leaves, and whether it came to a registration. -/
structure Ensured where
  lkey : Nat
  attempted : Bool
  context : RdmaContext

/-- `answer` is what the verbs library says if the call registers its range. -/
def lkeyForEnsure (c : RdmaContext) (localAddr length : Nat) (answer : Option IbvMr) : Ensured :=
  let lk := c.lkeyFor localAddr
  if lk ≠ 0 then ⟨lk, false, c⟩
  else if length = 0 then ⟨0, false, c⟩
  else
    match answer with
    | none => ⟨0, true, c⟩
    | some mr => ⟨(c.keepMr localAddr length mr).1, true, (c.keepMr localAddr length mr).2⟩

end RdmaContext

/-- The calls, with the answers of the verbs library.  `keepMr` is a call of another thread that
    looked its key up earlier and now has its region. -/
inductive ContextOp where
  | registerMr (addr length : Nat) (answer : Option IbvMr)
  | registerMrDmabuf (addr length : Nat) (fd : Int) (fdOffset : Nat) (answer : Option IbvMr)
  | deregisterMr (addr : Nat)
  | lkeyForEnsure (localAddr length : Nat) (answer : Option IbvMr)
  | keepMr (localAddr length : Nat) (mr : IbvMr)

def contextStep (c : RdmaContext) : ContextOp → RdmaContext
  | .registerMr addr length answer => (c.registerMr addr length answer).2
  | .registerMrDmabuf addr length fd fdOffset answer =>
      (c.registerMrDmabuf addr length fd fdOffset answer).2
  | .deregisterMr addr => c.deregisterMr addr
  | .lkeyForEnsure localAddr length answer => (c.lkeyForEnsure localAddr length answer).context
  | .keepMr localAddr length mr => (c.keepMr localAddr length mr).2

/-! ## What the verbs library promises -/

/-- A region is registered inside the address space, under a key that is not 0 and that no region
    of the registry has. -/
structure Granted (c : RdmaContext) (addr length : Nat) (mr : IbvMr) : Prop where
  lkey_ne : mr.lkey ≠ 0
  fresh : ∀ r ∈ c.mrs, r.2.2.lkey ≠ mr.lkey
  fits : addr + length < 2 ^ 64

def Answered (c : RdmaContext) : ContextOp → Prop
  | .registerMr addr length answer => ∀ mr ∈ answer, Granted c addr length mr
  | .registerMrDmabuf addr length _ _ answer => ∀ mr ∈ answer, Granted c addr length mr
  | .deregisterMr _ => True
  | .lkeyForEnsure addr length answer => ∀ mr ∈ answer, Granted c addr length mr
  | .keepMr addr length mr => Granted c addr length mr

/-- A region holds all of `[addr, addr + length)`. -/
def Region.Holds (r : Region) (addr length : Nat) : Prop :=
  r.1 ≤ addr ∧ addr + length ≤ r.1 + r.2.1

instance (r : Region) (addr length : Nat) : Decidable (r.Holds addr length) :=
  inferInstanceAs (Decidable (_ ∧ _))

/-- The bases increase, and each key is of one region. -/
structure Registered (c : RdmaContext) : Prop where
  sorted : Sorted c.mrs
  lkey_ne : ∀ r ∈ c.mrs, r.2.2.lkey ≠ 0
  unique : ∀ r ∈ c.mrs, ∀ q ∈ c.mrs, r.2.2.lkey = q.2.2.lkey → r = q
  fits : ∀ r ∈ c.mrs, r.1 + r.2.1 < 2 ^ 64

variable {c : RdmaContext} {a length : Nat}

lemma add64_of_lt {a b : Nat} (h : a + b < 2 ^ 64) : add64 a b = a + b := Nat.mod_eq_of_lt h

lemma registered_new : Registered RdmaContext.new where
  sorted := List.Pairwise.nil
  lkey_ne := by intro r hr; cases hr
  unique := by intro r hr; cases hr
  fits := by intro r hr; cases hr

variable {mr : IbvMr}

lemma registered_set (h : Registered c) (hmr : Granted c a length mr) (n : Nat) :
    Registered ⟨set a (length, mr) c.mrs, n⟩ where
  sorted := sorted_alter h.sorted a _
  lkey_ne := by
    intro r hr
    rcases (mem_set h.sorted).mp hr with rfl | ⟨hr, -⟩
    · exact hmr.lkey_ne
    · exact h.lkey_ne r hr
  unique := by
    intro r hr q hq he
    rcases (mem_set h.sorted).mp hr with rfl | ⟨hr, -⟩ <;>
      rcases (mem_set h.sorted).mp hq with rfl | ⟨hq, -⟩
    · rfl
    · exact absurd he.symm (hmr.fresh q hq)
    · exact absurd he (hmr.fresh r hr)
    · exact h.unique r hr q hq he
  fits := by
    intro r hr
    rcases (mem_set h.sorted).mp hr with rfl | ⟨hr, -⟩
    · exact hmr.fits
    · exact h.fits r hr

variable {answer : Option IbvMr} {r : Region}

lemma registered_register (h : Registered c) {error : String}
    (hmr : ∀ mr ∈ answer, Granted c a length mr) :
    Registered (c.registerWith error a length answer).2 := by
  cases answer with
  | none => exact h
  | some mr => exact registered_set h (hmr mr rfl) c.lazyMrs

lemma registered_deregister (h : Registered c) : Registered (c.deregisterMr a) where
  sorted := sorted_erase h.sorted a
  lkey_ne := fun r hr => h.lkey_ne r (mem_erase.mp hr).1
  unique := fun r hr q hq => h.unique r (mem_erase.mp hr).1 q (mem_erase.mp hq).1
  fits := fun r hr => h.fits r (mem_erase.mp hr).1

/-! ## The two halves of `lkey_for_ensure` -/

/-- The region in front of an address: the last that starts at or before it. -/
def InFront (c : RdmaContext) (a : Nat) (r : Region) : Prop :=
  r ∈ c.mrs ∧ r.1 ≤ a ∧ ∀ q ∈ c.mrs, q.1 ≤ a → q.1 ≤ r.1

lemma inFront_iff (h : Registered c) : before a c.mrs = some r ↔ InFront c a r :=
  before_eq_some h.sorted

lemma InFront.eq (h : Registered c) {q : Region} (hr : InFront c a r) (hq : InFront c a q) :
    r = q := Option.some.inj (((inFront_iff h).mpr hr).symm.trans ((inFront_iff h).mpr hq))

lemma lkeyFor_eq (h : Registered c) (hr : InFront c a r) :
    c.lkeyFor a = if a < r.1 + r.2.1 then r.2.2.lkey else 0 := by
  unfold RdmaContext.lkeyFor
  rw [(inFront_iff h).mpr hr]
  show (if r.1 ≤ a ∧ a < add64 r.1 r.2.1 then _ else _) = _
  rw [add64_of_lt (h.fits r hr.1)]
  exact if_congr (and_iff_right hr.2.1) rfl rfl

lemma lkeyFor_eq_zero_iff (h : Registered c) :
    c.lkeyFor a = 0 ↔ ∀ r, InFront c a r → r.1 + r.2.1 ≤ a := by
  cases hb : before a c.mrs with
  | none =>
    refine iff_of_true (by rw [RdmaContext.lkeyFor, hb]) ?_
    intro r hr
    exact absurd (hb.symm.trans ((inFront_iff h).mpr hr)) (Option.some_ne_none r).symm
  | some r =>
    have hr := (inFront_iff h).mp hb
    have hkey := h.lkey_ne r hr.1
    have hone : (∀ q, InFront c a q → q.1 + q.2.1 ≤ a) ↔ r.1 + r.2.1 ≤ a :=
      ⟨fun hall => hall r hr, fun hle q hq => hq.eq h hr ▸ hle⟩
    rw [lkeyFor_eq h hr, hone]
    split_ifs with hin
    · exact iff_of_false hkey (by omega)
    · exact iff_of_true rfl (by omega)

lemma keepMr_holds (h : Registered c) (hmr : Granted c a length mr) :
    Registered (c.keepMr a length mr).2
      ∧ ∃ r ∈ (c.keepMr a length mr).2.mrs, r.2.2.lkey = (c.keepMr a length mr).1
          ∧ r.Holds a length := by
  unfold RdmaContext.keepMr
  cases hb : (before a c.mrs).filter
    (fun r => r.1 ≤ a ∧ add64 a length ≤ add64 r.1 r.2.1) with
  | none =>
    refine ⟨registered_set h hmr _, (a, (length, mr)), ?_, rfl, le_rfl, le_rfl⟩
    exact (mem_set h.sorted).mpr (.inl rfl)
  | some r =>
    obtain ⟨hfront, hcov⟩ := Option.filter_eq_some_iff.mp hb
    obtain ⟨hmem, hle, -⟩ := (inFront_iff h).mp hfront
    have hend := (of_decide_eq_true hcov).2
    rw [add64_of_lt hmr.fits, add64_of_lt (h.fits r hmem)] at hend
    exact ⟨h, r, hmem, rfl, hle, hend⟩

lemma ensure_miss (h : Registered c) (hmiss : c.lkeyFor a = 0) (hlen : 0 < length)
    (hmr : ∀ mr ∈ answer, Granted c a length mr) :
    (answer = none ∧ c.lkeyForEnsure a length answer = ⟨0, true, c⟩)
      ∨ ∃ r ∈ (c.lkeyForEnsure a length answer).context.mrs,
          r.2.2.lkey = (c.lkeyForEnsure a length answer).lkey ∧ r.Holds a length := by
  unfold RdmaContext.lkeyForEnsure
  rw [if_neg (not_not.mpr hmiss), if_neg hlen.ne']
  cases answer with
  | none => exact .inl ⟨rfl, rfl⟩
  | some mr => exact .inr (keepMr_holds h (hmr mr rfl)).2

lemma ensure_hit (hhit : c.lkeyFor a ≠ 0) (answer : Option IbvMr) :
    c.lkeyForEnsure a length answer = ⟨c.lkeyFor a, false, c⟩ := if_pos hhit

lemma registered_ensure (h : Registered c) (hmr : ∀ mr ∈ answer, Granted c a length mr) :
    Registered (c.lkeyForEnsure a length answer).context := by
  by_cases hmiss : c.lkeyFor a = 0
  · unfold RdmaContext.lkeyForEnsure
    rw [if_neg (not_not.mpr hmiss)]
    split_ifs with hlen
    · exact h
    · cases answer with
      | none => exact h
      | some mr => exact (keepMr_holds h (hmr mr rfl)).1
  · rw [ensure_hit hmiss]; exact h

/-! ## Runs -/

lemma registered_step (h : Registered c) {op : ContextOp} (hop : Answered c op) :
    Registered (contextStep c op) := by
  cases op with
  | registerMr addr length answer => exact registered_register h hop
  | registerMrDmabuf addr length fd fdOffset answer => exact registered_register h hop
  | deregisterMr addr => exact registered_deregister h
  | lkeyForEnsure localAddr length answer => exact registered_ensure h hop
  | keepMr localAddr length mr => exact (keepMr_holds h hop).1

lemma registered_run {ops : List ContextOp}
    (hops : Guarded (fun c op => some (contextStep c op)) Answered RdmaContext.new ops) :
    Registered (ops.foldl contextStep RdmaContext.new) :=
  foldl_invariant (P := Registered) (fun _ _ _ hc hop => registered_step hc hop) registered_new hops

lemma found_holds_iff (h : Registered c) (hr : InFront c a r) (hin : a < r.1 + r.2.1) :
    (∃ q ∈ c.mrs, q.2.2.lkey = c.lkeyFor a ∧ q.Holds a length) ↔ r.Holds a length := by
  rw [lkeyFor_eq h hr, if_pos hin]
  constructor
  · rintro ⟨q, hq, hkey, hholds⟩; exact h.unique q hq r hr.1 hkey ▸ hholds
  · intro hholds; exact ⟨r, hr.1, rfl, hholds⟩

/-- **THE KEY COVERS THE TRANSFER, UNLESS THE REGION IN FRONT ENDS INSIDE IT**: after any calls, a
    key that `lkey_for_ensure` returns is of a registered region that holds the whole range,
    exactly if the last region that starts at or before the address, where it contains the
    address, contains the range.  It returns 0 only after a registration that failed. -/
theorem lkey_covers_iff (ops : List ContextOp)
    (hops : Guarded (fun c op => some (contextStep c op)) Answered RdmaContext.new ops)
    (a length : Nat) (hlen : 0 < length) (answer : Option IbvMr)
    (hans : Answered (ops.foldl contextStep RdmaContext.new) (.lkeyForEnsure a length answer)) :
    let c := ops.foldl contextStep RdmaContext.new
    let ensured := c.lkeyForEnsure a length answer
    ((ensured.lkey ≠ 0 →
        ∃ r ∈ ensured.context.mrs, r.2.2.lkey = ensured.lkey ∧ r.Holds a length)
      ↔ ∀ r, InFront c a r → a < r.1 + r.2.1 → r.Holds a length)
    ∧ (ensured.lkey = 0 → ensured.attempted = true ∧ answer = none) := by
  intro c ensured
  have h : Registered c := registered_run hops
  by_cases hmiss : c.lkeyFor a = 0
  · have hends := (lkeyFor_eq_zero_iff h).mp hmiss
    have hright : ∀ r, InFront c a r → a < r.1 + r.2.1 → r.Holds a length :=
      fun r hr hin => absurd hin (not_lt.mpr (hends r hr))
    rcases ensure_miss h hmiss hlen hans with ⟨hnone, hzero⟩ | ⟨r, hr, hkey, hholds⟩
    · have hens : ensured = ⟨0, true, c⟩ := hzero
      rw [hens]
      exact ⟨iff_of_true (fun hne => absurd rfl hne) hright, fun _ => ⟨rfl, hnone⟩⟩
    · refine ⟨iff_of_true (fun _ => ⟨r, hr, hkey, hholds⟩) hright, ?_⟩
      intro hzero
      exact absurd (hkey.trans hzero) ((registered_ensure h hans).lkey_ne r hr)
  · obtain ⟨r, hr, hin⟩ : ∃ r, InFront c a r ∧ a < r.1 + r.2.1 := by
      by_contra hnone
      refine hmiss ((lkeyFor_eq_zero_iff h).mpr fun r hr => ?_)
      exact not_lt.mp fun hin => hnone ⟨r, hr, hin⟩
    have hens : ensured = ⟨c.lkeyFor a, false, c⟩ := ensure_hit hmiss answer
    rw [hens]
    refine ⟨?_, fun hzero => absurd hzero hmiss⟩
    rw [forall_prop_of_true hmiss, found_holds_iff h hr hin]
    exact ⟨fun hholds q hq _ => hq.eq h hr ▸ hholds, fun hall => hall r hr hin⟩

/-- A long region, and a short one that lies in it. -/
def nested : List ContextOp :=
  [.registerMr 4096 1000 (some ⟨1, 1⟩), .registerMr 4200 10 (some ⟨2, 2⟩)]

lemma nested_answered :
    Guarded (fun c op => some (contextStep c op)) Answered RdmaContext.new nested := by
  refine ⟨?_, fun c hc => ⟨?_, fun _ _ => trivial⟩⟩
  · intro mr hmr
    obtain rfl := Option.mem_some.mp hmr
    exact ⟨by decide, by decide, by decide⟩
  · cases hc
    intro mr hmr
    obtain rfl := Option.mem_some.mp hmr
    exact ⟨by decide, by decide, by decide⟩

theorem lkey_covers_iff_nested :
    let ensured := (nested.foldl contextStep RdmaContext.new).lkeyForEnsure 4100 50 none
    ∃ r ∈ ensured.context.mrs, r.2.2.lkey = ensured.lkey ∧ r.Holds 4100 50 := by
  have hans : Answered (nested.foldl contextStep RdmaContext.new) (.lkeyForEnsure 4100 50 none) := by
    intro mr hmr
    cases hmr
  refine (lkey_covers_iff nested nested_answered 4100 50 (by decide) none hans).1.mpr ?_ (by decide)
  rintro r ⟨hr, hle, -⟩ -
  have hcases : r = (4096, (1000, ⟨1, 1⟩)) ∨ r = (4200, (10, ⟨2, 2⟩)) := List.mem_pair.mp hr
  rcases hcases with rfl | rfl
  · decide
  · exact absurd hle (by decide)

/-- A transfer of 50 bytes that starts in the short region is given its key, though the short region
    holds 5 of them and the long one all. -/
theorem short_region_in_front :
    Guarded (fun c op => some (contextStep c op)) Answered RdmaContext.new nested
      ∧ let ensured := (nested.foldl contextStep RdmaContext.new).lkeyForEnsure 4205 50 none
        ensured.lkey = 2 ∧ ensured.attempted = false
          ∧ (¬ ∃ r ∈ ensured.context.mrs, r.2.2.lkey = ensured.lkey ∧ r.Holds 4205 50)
          ∧ ∃ r ∈ ensured.context.mrs, r.Holds 4205 50 :=
  ⟨nested_answered, by decide⟩

end PeerCacheRegistry
