import Mathlib
import PeerCache.TransitionProofs

/-! # The channel pool — no slot is lost

    `ConnectionManager` (`connection_manager.cpp`) keeps a pool of connected endpoints for every
    peer.  `lease` takes a free channel, or reserves a slot and connects a new one with the
    pool's mutex dropped; `release` and `discard` give a channel back.  The channels a pool owns
    are the free ones and the ones handed out (`PoolOk.owned`), and `created` counts them
    together with the slots that are reserved. -/

namespace PeerCacheChannel

open Transition List

/-- Which manager (one per rail), and which of its pools: `(rail, "host:port")`, in the order of
    `std::pair`. -/
abbrev PoolKey := Nat ×ₗ String

/-! ## One pool -/

/-- `PeerPool`.  An endpoint object is named by a number; `next` is the name of the next one. -/
structure PeerPool where
  free : List Nat
  owned : List Nat
  created : Nat
  next : Nat

namespace PeerPool

/-- `pool_for` of a peer not seen before. -/
def empty : PeerPool := ⟨[], [], 0, 0⟩

/-- What a turn of the loop in `lease` comes to. -/
inductive Turn where
  | channel (ep : Nat)
  /-- a slot is reserved, and the mutex dropped for the handshake -/
  | connect
  /-- at capacity: `cv.wait` -/
  | wait

/-- One turn of the loop in `lease`, under the mutex. -/
def leaseTurn (p : PeerPool) (maxChannels : Nat) : Turn × PeerPool :=
  match p.free.getLast? with
  | some ep => (.channel ep, { p with free := p.free.dropLast })
  | none =>
      if p.created < maxChannels then (.connect, { p with created := p.created + 1 })
      else (.wait, p)

/-- The end of `lease` when `connect_new` has returned an endpoint, which is `p.next`. -/
def connected (p : PeerPool) : PeerPool :=
  { p with owned := p.owned ++ [p.next], next := p.next + 1 }

/-- The end of `lease` when `connect_new` has returned null. -/
def refused (p : PeerPool) : PeerPool := { p with created := p.created - 1 }

def release (p : PeerPool) (ep : Nat) : PeerPool := { p with free := p.free ++ [ep] }

def discard (p : PeerPool) (ep : Nat) : PeerPool :=
  { p with
    owned := p.owned.erase ep
    created := if p.created > 0 then p.created - 1 else p.created }

end PeerPool

/-- The state of a pool whose channels `out` are handed out and which has `reserved` slots
    without a channel. -/
structure PoolOk (maxChannels : Nat) (p : PeerPool) (out : List Nat) (reserved : Nat) : Prop where
  owned : p.owned.Perm (p.free ++ out)
  distinct : p.owned.Nodup
  fresh : ∀ ep ∈ p.owned, ep < p.next
  created : p.created = p.owned.length + reserved
  capacity : p.created ≤ maxChannels

variable {maxChannels reserved : Nat} {p : PeerPool} {out out' : List Nat} {ep : Nat}

lemma PoolOk.nodup (h : PoolOk maxChannels p out reserved) : (p.free ++ out).Nodup :=
  h.owned.nodup h.distinct

lemma PoolOk.free_nodup (h : PoolOk maxChannels p out reserved) : p.free.Nodup :=
  (nodup_append.mp h.nodup).1

lemma PoolOk.out_nodup (h : PoolOk maxChannels p out reserved) : out.Nodup :=
  (nodup_append.mp h.nodup).2.1

lemma PoolOk.free_subset (h : PoolOk maxChannels p out reserved) : p.free ⊆ p.owned :=
  fun _ hep => h.owned.mem_iff.mpr (mem_append_left _ hep)

lemma PoolOk.out_subset (h : PoolOk maxChannels p out reserved) : out ⊆ p.owned :=
  fun _ hep => h.owned.mem_iff.mpr (mem_append_right _ hep)

lemma PoolOk.not_free (h : PoolOk maxChannels p out reserved) (hep : ep ∈ out) : ep ∉ p.free :=
  fun hfree => (nodup_append.mp h.nodup).2.2 ep hfree ep hep rfl

lemma PoolOk.perm (h : PoolOk maxChannels p out reserved) (hout : out.Perm out') :
    PoolOk maxChannels p out' reserved :=
  ⟨h.owned.trans (hout.append_left p.free), h.distinct, h.fresh, h.created, h.capacity⟩

lemma poolOk_empty (maxChannels : Nat) : PoolOk maxChannels PeerPool.empty [] 0 :=
  ⟨List.Perm.refl _, nodup_nil, forall_mem_nil _, rfl, Nat.zero_le _⟩

lemma leaseTurn_cases (p : PeerPool) (maxChannels : Nat) : (∃ ep rest, p.free = rest ++ [ep]
        ∧ p.leaseTurn maxChannels = (.channel ep, { p with free := rest }))
      ∨ (p.free = [] ∧ p.created < maxChannels
        ∧ p.leaseTurn maxChannels = (.connect, { p with created := p.created + 1 }))
      ∨ (p.free = [] ∧ maxChannels ≤ p.created ∧ p.leaseTurn maxChannels = (.wait, p)) := by
  rw [PeerPool.leaseTurn]
  cases hl : p.free.getLast? with
  | some ep =>
      refine .inl ⟨ep, p.free.dropLast, ?_, rfl⟩
      exact (dropLast_append_getLast? ep hl).symm
  | none =>
      have hnil := getLast?_eq_none_iff.mp hl
      refine Or.inr ?_
      by_cases hc : p.created < maxChannels
      · exact .inl ⟨hnil, hc, if_pos hc⟩
      · exact .inr ⟨hnil, Nat.le_of_not_lt hc, if_neg hc⟩

lemma PoolOk.channel (h : PoolOk maxChannels p out reserved) {rest : List Nat}
    (hfree : p.free = rest ++ [ep]) :
    PoolOk maxChannels { p with free := rest } (ep :: out) reserved := by
  refine ⟨?_, h.distinct, h.fresh, h.created, h.capacity⟩
  have howned := h.owned
  rw [hfree, append_assoc, singleton_append] at howned
  exact howned

lemma PoolOk.connect (h : PoolOk maxChannels p out reserved) (hroom : p.created < maxChannels) :
    PoolOk maxChannels { p with created := p.created + 1 } out (reserved + 1) :=
  ⟨h.owned, h.distinct, h.fresh, congrArg (· + 1) h.created, hroom⟩

lemma PoolOk.connected (h : PoolOk maxChannels p out (reserved + 1)) :
    PoolOk maxChannels p.connected (p.next :: out) reserved := by
  have hnew : p.next ∉ p.owned := fun hmem => Nat.lt_irrefl _ (h.fresh _ hmem)
  refine ⟨?_, ?_, ?_, ?_, h.capacity⟩
  · refine (perm_append_singleton _ _).trans ?_
    exact (h.owned.cons p.next).trans perm_middle.symm
  · show (p.owned ++ [p.next]).Nodup
    rw [← concat_eq_append]
    exact h.distinct.concat hnew
  · intro ep hep
    rcases mem_append.mp hep with hep | hep
    · exact Nat.lt_succ_of_lt (h.fresh ep hep)
    · rw [mem_singleton.mp hep]; exact Nat.lt_succ_self _
  · show p.created = (p.owned ++ [p.next]).length + reserved
    rw [h.created, length_append, length_singleton]
    omega

lemma PoolOk.refused (h : PoolOk maxChannels p out (reserved + 1)) :
    PoolOk maxChannels p.refused out reserved := by
  have hcreated := h.created
  have hcap := h.capacity
  refine ⟨h.owned, h.distinct, h.fresh, ?_, ?_⟩
  · show p.created - 1 = p.owned.length + reserved
    omega
  · show p.created - 1 ≤ maxChannels
    omega

lemma PoolOk.release (h : PoolOk maxChannels p (ep :: out) reserved) :
    PoolOk maxChannels (p.release ep) out reserved := by
  refine ⟨?_, h.distinct, h.fresh, h.created, h.capacity⟩
  show p.owned.Perm (p.free ++ [ep] ++ out)
  rw [append_assoc, singleton_append]
  exact h.owned

lemma PoolOk.discard (h : PoolOk maxChannels p (ep :: out) reserved) :
    PoolOk maxChannels (p.discard ep) out reserved := by
  have hmem : ep ∈ p.owned := h.out_subset (.head _)
  have hlen := length_erase_of_mem hmem
  have hpos := length_pos_of_mem hmem
  have hcreated := h.created
  have hcap := h.capacity
  have hif : (if p.created > 0 then p.created - 1 else p.created) = p.created - 1 :=
    if_pos (by omega)
  refine ⟨?_, h.distinct.erase ep, ?_, ?_, ?_⟩
  · show (p.owned.erase ep).Perm (p.free ++ out)
    refine ((h.owned.trans perm_middle).erase ep).trans ?_
    rw [erase_cons_head]
  · exact fun ep' hep => h.fresh ep' (mem_of_mem_erase hep)
  · show (if p.created > 0 then p.created - 1 else p.created) = (p.owned.erase ep).length + reserved
    omega
  · show (if p.created > 0 then p.created - 1 else p.created) ≤ maxChannels
    omega

/-! ## The pools and the threads that lease from them -/

/-- A channel that a thread has leased and not given back. -/
structure Holding where
  thread : Nat
  key : PoolKey
  ep : Nat
deriving DecidableEq

/-- The connection managers of all rails, with what `lease` has handed out (`held`), the threads
    inside `connect_new` (`attempts`), and the connection attempts that left by an exception. -/
structure Manager where
  maxChannels : Nat
  pools : PoolKey → PeerPool
  held : List Holding
  attempts : List (Nat × PoolKey)
  thrown : List PoolKey

/-- `ConnectionManager` -/
def Manager.new (maxChannelsPerPeer : Nat) : Manager where
  maxChannels := if maxChannelsPerPeer = 0 then 1 else maxChannelsPerPeer
  pools := fun _ => PeerPool.empty
  held := []
  attempts := []
  thrown := []

inductive Act where
  /-- a turn of `lease` that does not wait -/
  | lease (thread : Nat) (key : PoolKey)
  /-- `connect_new` returns an endpoint, null, or leaves by an exception -/
  | connected (thread : Nat) (key : PoolKey)
  | refused (thread : Nat) (key : PoolKey)
  | threw (thread : Nat) (key : PoolKey)
  /-- a thread gives back a channel that it has leased -/
  | release (h : Holding)
  | discard (h : Holding)

/-- One section under a pool's mutex, or the exception. -/
def step (m : Manager) : Act → Option Manager
  | .lease thread key =>
      match (m.pools key).leaseTurn m.maxChannels with
      | (.channel ep, p) => some { m with
          pools := Function.update m.pools key p
          held := ⟨thread, key, ep⟩ :: m.held }
      | (.connect, p) => some { m with
          pools := Function.update m.pools key p
          attempts := (thread, key) :: m.attempts }
      | (.wait, _) => none
  | .connected thread key =>
      if (thread, key) ∈ m.attempts then some { m with
        pools := Function.update m.pools key (m.pools key).connected
        held := ⟨thread, key, (m.pools key).next⟩ :: m.held
        attempts := m.attempts.erase (thread, key) }
      else none
  | .refused thread key =>
      if (thread, key) ∈ m.attempts then some { m with
        pools := Function.update m.pools key (m.pools key).refused
        attempts := m.attempts.erase (thread, key) }
      else none
  | .threw thread key =>
      if (thread, key) ∈ m.attempts then some { m with
        attempts := m.attempts.erase (thread, key)
        thrown := key :: m.thrown }
      else none
  | .release h =>
      if h ∈ m.held then some { m with
        pools := Function.update m.pools h.key ((m.pools h.key).release h.ep)
        held := m.held.erase h }
      else none
  | .discard h =>
      if h ∈ m.held then some { m with
        pools := Function.update m.pools h.key ((m.pools h.key).discard h.ep)
        held := m.held.erase h }
      else none

/-- The channels of a pool among those handed out. -/
def outOf (held : List Holding) (key : PoolKey) : List Nat :=
  (held.filter (fun h => h.key = key)).map Holding.ep

/-- How many threads are connecting a channel for the pool. -/
def Manager.attemptsAt (m : Manager) (key : PoolKey) : Nat := (m.attempts.map Prod.snd).count key

lemma outOf_cons_self (h : Holding) (held : List Holding) :
    outOf (h :: held) h.key = h.ep :: outOf held h.key := by
  rw [outOf, filter_cons_of_pos (by simp), map_cons]
  rfl

variable {h : Holding} {a : Act} {acts : List Act}

lemma outOf_cons_of_ne {key : PoolKey} (hne : h.key ≠ key) (held : List Holding) :
    outOf (h :: held) key = outOf held key := by
  rw [outOf, filter_cons_of_neg (by simpa using hne)]
  rfl

lemma outOf_perm {held held' : List Holding} (h : held.Perm held') (key : PoolKey) :
    (outOf held key).Perm (outOf held' key) := (h.filter _).map _

lemma mem_outOf {held : List Holding} (hmem : h ∈ held) : h.ep ∈ outOf held h.key :=
  mem_map_of_mem (mem_filter.mpr ⟨hmem, decide_eq_true rfl⟩)

variable {thread : Nat} {m m' : Manager}

lemma count_snd_erase {attempts : List (Nat × PoolKey)} {key : PoolKey}
    (h : (thread, key) ∈ attempts) (key' : PoolKey) :
    (attempts.map Prod.snd).count key'
      = ((attempts.erase (thread, key)).map Prod.snd).count key' + if key = key' then 1 else 0 := by
  rw [((perm_cons_erase h).map Prod.snd).count_eq, map_cons, count_cons]
  simp only [beq_iff_eq]

/-- **THE ACCOUNTS** of all pools: a slot without a channel is a connection attempt in progress, or
    one that left by an exception. -/
def Ledger (m : Manager) : Prop :=
  ∀ key, PoolOk m.maxChannels (m.pools key) (outOf m.held key)
    (m.attemptsAt key + m.thrown.count key)

lemma ledger_update {key : PoolKey} {p : PeerPool} (h : Ledger m)
    (hmax : m'.maxChannels = m.maxChannels) (hpools : m'.pools = Function.update m.pools key p)
    (hself : PoolOk m.maxChannels p (outOf m'.held key) (m'.attemptsAt key + m'.thrown.count key))
    (hout : ∀ key', key ≠ key' → (outOf m.held key').Perm (outOf m'.held key'))
    (hreserved : ∀ key', key ≠ key' → m'.attemptsAt key' + m'.thrown.count key'
      = m.attemptsAt key' + m.thrown.count key') : Ledger m' := by
  intro key'
  rw [hmax, hpools]
  by_cases hk : key = key'
  · subst hk
    rw [Function.update_self]
    exact hself
  · rw [Function.update_of_ne (fun heq => hk heq.symm), hreserved key' hk]
    exact (h key').perm (hout key' hk)

lemma Ledger.held_unique (h : Ledger m) {x y : Holding} (hx : x ∈ m.held) (hy : y ∈ m.held)
    (hkey : x.key = y.key) (hep : x.ep = y.ep) : x = y := by
  refine inj_on_of_nodup_map (h x.key).out_nodup ?_ ?_ hep
  · exact mem_filter.mpr ⟨hx, decide_eq_true rfl⟩
  · exact mem_filter.mpr ⟨hy, decide_eq_true hkey.symm⟩

lemma ledger_new (maxChannelsPerPeer : Nat) : Ledger (Manager.new maxChannelsPerPeer) :=
  fun _ => poolOk_empty _

lemma ledger_lease {key : PoolKey} (h : Ledger m) (hs : step m (.lease thread key) = some m') :
    Ledger m' := by
  rw [step] at hs
  rcases leaseTurn_cases (m.pools key) m.maxChannels with
    ⟨ep, rest, hfree, heq⟩ | ⟨-, hroom, heq⟩ | ⟨-, -, heq⟩
  · rw [heq] at hs
    cases hs
    refine ledger_update h rfl rfl ?_ ?_ (fun _ _ => rfl)
    · rw [outOf_cons_self ⟨thread, key, ep⟩]; exact (h key).channel hfree
    · intro key' hk
      rw [outOf_cons_of_ne hk]
  · rw [heq] at hs
    cases hs
    have hcount : ∀ key', Manager.attemptsAt { m with attempts := (thread, key) :: m.attempts } key'
        = m.attemptsAt key' + if key = key' then 1 else 0 := by
      intro key'
      show (((thread, key) :: m.attempts).map Prod.snd).count key' = _
      rw [map_cons, count_cons]
      simp only [beq_iff_eq]
      rfl
    refine ledger_update h rfl rfl ?_ (fun _ _ => List.Perm.refl _) ?_
    · show PoolOk _ _ _ (Manager.attemptsAt { m with attempts := (thread, key) :: m.attempts } key + _)
      rw [hcount, if_pos rfl, Nat.add_right_comm]
      exact (h key).connect hroom
    · intro key' hk
      show Manager.attemptsAt { m with attempts := (thread, key) :: m.attempts } key' + _ = _
      rw [hcount, if_neg hk]
      rfl
  · rw [heq] at hs; cases hs

lemma ledger_attempt {key : PoolKey} {p : PeerPool} (h : Ledger m)
    (hin : (thread, key) ∈ m.attempts) (hmax : m'.maxChannels = m.maxChannels)
    (hpools : m'.pools = Function.update m.pools key p)
    (hattempts : m'.attempts = m.attempts.erase (thread, key)) (hthrown : m'.thrown = m.thrown)
    (hself : ∀ r, PoolOk m.maxChannels (m.pools key) (outOf m.held key) (r + 1) →
      PoolOk m.maxChannels p (outOf m'.held key) r)
    (hout : ∀ key', key ≠ key' → (outOf m.held key').Perm (outOf m'.held key')) : Ledger m' := by
  have hcount : ∀ key', m.attemptsAt key' = m'.attemptsAt key' + if key = key' then 1 else 0 := by
    intro key'
    rw [Manager.attemptsAt, Manager.attemptsAt, hattempts]
    exact count_snd_erase hin key'
  refine ledger_update h hmax hpools ?_ hout ?_
  · have hkey := h key
    rw [hcount key, if_pos rfl, Nat.add_right_comm, ← hthrown] at hkey
    exact hself _ hkey
  · intro key' hk
    rw [hcount key', if_neg hk, hthrown, Nat.add_zero]

lemma ledger_giveBack {hd : Holding} {p : PeerPool} (h : Ledger m) (hin : hd ∈ m.held)
    (hmax : m'.maxChannels = m.maxChannels) (hpools : m'.pools = Function.update m.pools hd.key p)
    (hheld : m'.held = m.held.erase hd) (hattempts : m'.attempts = m.attempts)
    (hthrown : m'.thrown = m.thrown)
    (hself : ∀ out reserved, PoolOk m.maxChannels (m.pools hd.key) (hd.ep :: out) reserved →
      PoolOk m.maxChannels p out reserved) : Ledger m' := by
  have hperm : ∀ key, (outOf m.held key).Perm (outOf (hd :: m.held.erase hd) key) :=
    outOf_perm (perm_cons_erase hin)
  have hreserved : ∀ key, m'.attemptsAt key + m'.thrown.count key
      = m.attemptsAt key + m.thrown.count key := by
    intro key
    rw [Manager.attemptsAt, Manager.attemptsAt, hattempts, hthrown]
  refine ledger_update h hmax hpools ?_ ?_ (fun key' _ => hreserved key')
  · rw [hheld, hreserved]
    have hkey := (h hd.key).perm (hperm hd.key)
    rw [outOf_cons_self] at hkey
    exact hself _ _ hkey
  · intro key' hk
    rw [hheld]
    have hk' := hperm key'
    rw [outOf_cons_of_ne hk] at hk'
    exact hk'

/-- **THE STEP LEMMA**: the accounts are kept by every section under a mutex. -/
lemma ledger_step (h : Ledger m) (hs : step m a = some m') : Ledger m' := by
  cases a with
  | lease thread key => exact ledger_lease h hs
  | connected thread key =>
    rw [step] at hs
    split_ifs at hs with hin
    cases hs
    refine ledger_attempt h hin rfl rfl rfl rfl ?_ ?_
    · intro r hkey
      rw [outOf_cons_self ⟨thread, key, (m.pools key).next⟩]
      exact hkey.connected
    · intro key' hk
      rw [outOf_cons_of_ne hk]
  | refused thread key =>
    rw [step] at hs
    split_ifs at hs with hin
    cases hs
    exact ledger_attempt h hin rfl rfl rfl rfl (fun _ => PoolOk.refused) (fun _ _ => List.Perm.refl _)
  | threw thread key =>
    rw [step] at hs
    split_ifs at hs with hin
    cases hs
    -- the slot of the attempt is still counted, now as thrown
    intro key'
    have hkey := h key'
    have hcount := count_snd_erase hin key'
    rw [Manager.attemptsAt, hcount, Nat.add_assoc, Nat.add_comm (if key = key' then 1 else 0)] at hkey
    rw [count_cons]
    simp only [beq_iff_eq]
    exact hkey
  | release hd =>
    rw [step] at hs
    split_ifs at hs with hin
    cases hs
    exact ledger_giveBack h hin rfl rfl rfl rfl rfl (fun _ _ => PoolOk.release)
  | discard hd =>
    rw [step] at hs
    split_ifs at hs with hin
    cases hs
    exact ledger_giveBack h hin rfl rfl rfl rfl rfl (fun _ _ => PoolOk.discard)

lemma ledger_run (h : Ledger m) (hrun : run step m acts = some m') : Ledger m' :=
  run_invariant (fun _ _ _ _ hi _ hs => ledger_step hi hs) h (guarded_trivial m acts) hrun

/-! ## Lost slots -/

/-- The pool of an attempt that leaves by an exception. -/
def Act.threwAt : Act → Option PoolKey
  | .threw _ key => some key
  | _ => none

lemma thrown_step (hs : step m a = some m') : m'.thrown = a.threwAt.toList ++ m.thrown := by
  cases a with
  | lease thread key =>
    rw [step] at hs
    rcases leaseTurn_cases (m.pools key) m.maxChannels with
      ⟨ep, rest, -, heq⟩ | ⟨-, -, heq⟩ | ⟨-, -, heq⟩
    · rw [heq] at hs
      cases hs
      rfl
    · rw [heq] at hs
      cases hs
      rfl
    · rw [heq] at hs; cases hs
  | connected thread key | refused thread key | threw thread key | release hd | discard hd =>
    rw [step] at hs
    split_ifs at hs
    cases hs
    rfl

lemma mem_thrown_run (hrun : run step m acts = some m') (key : PoolKey) :
    key ∈ m'.thrown ↔ key ∈ m.thrown ∨ ∃ a ∈ acts, a.threwAt = some key := by
  induction acts generalizing m with
  | nil =>
    cases hrun
    simp
  | cons a acts ih =>
    obtain ⟨u, hu, hrest⟩ := run_cons hrun
    rw [ih hrest, thrown_step hu, mem_append, Option.mem_toList, exists_mem_cons_iff]
    tauto

/-- What is asked of every pool at all times. -/
def PoolSound (m : Manager) (key : PoolKey) : Prop :=
  (m.pools key).created = (m.pools key).owned.length + m.attemptsAt key
    ∧ (m.pools key).created ≤ m.maxChannels
    ∧ (m.pools key).free.Nodup
    ∧ (m.pools key).free ⊆ (m.pools key).owned

instance decidablePoolSound (m : Manager) (key : PoolKey) : Decidable (PoolSound m key) :=
  inferInstanceAs (Decidable (_ ∧ _ ∧ _ ∧ _))

/-- **NO SLOT IS LOST** exactly as long as no connection attempt leaves by an exception. -/
theorem capacity_kept_iff (maxChannelsPerPeer : Nat) (acts : List Act) (m : Manager)
    (hrun : run step (Manager.new maxChannelsPerPeer) acts = some m) :
    (∀ key, PoolSound m key) ↔ ∀ thread key, Act.threw thread key ∉ acts := by
  have hledger := ledger_run (ledger_new maxChannelsPerPeer) hrun
  constructor
  · intro hsound thread key hmem
    have hcount : 0 < m.thrown.count key := by
      rw [List.count_pos_iff, mem_thrown_run hrun]
      exact Or.inr ⟨_, hmem, rfl⟩
    have hcreated := (hledger key).created
    have hkept := (hsound key).1
    omega
  · intro hnone key
    have hcount : m.thrown.count key = 0 := by
      rw [List.count_eq_zero, mem_thrown_run hrun]
      rintro (hnil | ⟨a, ha, hthrew⟩)
      · cases hnil
      · cases a with
        | threw thread key' => exact hnone thread key' ha
        | lease thread key' | connected thread key' | refused thread key' | release hd | discard hd =>
            cases hthrew
    have hkey := hledger key
    refine ⟨?_, hkey.capacity, hkey.free_nodup, hkey.free_subset⟩
    rw [hkey.created, hcount, Nat.add_zero]

/-- Two threads share a pool of two channels; one connects, the other is refused. -/
def sharedPool : List Act :=
  [.lease 0 (toLex (0, "b:1")), .lease 1 (toLex (0, "b:1")), .refused 1 (toLex (0, "b:1")),
    .connected 0 (toLex (0, "b:1")), .release ⟨0, toLex (0, "b:1"), 0⟩]

theorem capacity_kept_two_threads :
    ∃ m, run step (Manager.new 2) sharedPool = some m
      ∧ (m.pools (toLex (0, "b:1"))).free = [0] ∧ (m.pools (toLex (0, "b:1"))).created = 1
      ∧ ∀ key, PoolSound m key := by
  refine ⟨_, rfl, by decide +kernel, by decide +kernel, (capacity_kept_iff 2 sharedPool _ rfl).mpr ?_⟩
  intro thread key hmem
  simp [sharedPool] at hmem

/-- One attempt leaves by an exception: the only slot of the pool is gone, and `lease` waits for
    ever on a pool without channels. -/
theorem slot_lost :
    ∃ m, run step (Manager.new 1) [.lease 0 (toLex (0, "b:1")), .threw 0 (toLex (0, "b:1"))] = some m
      ∧ ¬ PoolSound m (toLex (0, "b:1"))
      ∧ (m.pools (toLex (0, "b:1"))).owned = [] ∧ m.attempts = [] ∧ m.held = []
      ∧ (step m (.lease 1 (toLex (0, "b:1")))).isNone :=
  ⟨_, rfl, by decide +kernel⟩

end PeerCacheChannel
