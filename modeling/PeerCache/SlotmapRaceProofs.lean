import Mathlib
import PeerCache.SlotBatchProofs
import PeerCache.TransitionProofs

/-! # Slotmap under concurrency — when a hit is the right page

    Three disciplines meet on one slot.  A local writer holds the region's lock and goes
    through an odd header, the payload and an even header.  A remote writer lands
    `[header | payload]` in one WRITE and takes no lock.  A reader checks the header once
    and copies: a remote reader out of a snapshot, `read_local` out of live memory. -/

namespace PeerCacheSlot

open Transition Function List OrderedDict Option

/-! ## The system -/

/-- One node's region and the lock `_lock` of its `SlotRegion`. -/
structure Shared where
  region : SlotRegion
  lock : Option Nat

/-- A `write_local` call after its `pick_way`. -/
structure LocalWrite where
  node : String
  key : String
  n : Nat
  bucket : Nat
  way : Nat

/-- Where a thread stands. -/
inductive Thread where
  | idle
  /-- `write_local`: way chosen, lock not yet taken again. -/
  | picked (l : LocalWrite)
  /-- `write_local`: odd header stored. -/
  | marked (l : LocalWrite) (newSeq : Nat)
  /-- `write_local`: payload stored. -/
  | copied (l : LocalWrite) (newSeq : Nat)
  /-- `_publish_slotmap_remote`, Phase A: buckets to READ, and those read. -/
  | reading (todo : List RemotePage) (got : List (RemotePage × Bytes))
  /-- `_publish_slotmap_remote`, Phase B: WRITEs in flight. -/
  | writing (todo : List SlotWrite)
  /-- `_fetch_slotmap`: bucket read. -/
  | snapped (key : String) (n : Nat) (snap : Bytes)
  /-- `read_local`: the way to check next. -/
  | scanning (node key : String) (n way : Nat)
  /-- `read_local`: header accepted, payload not yet copied. -/
  | matched (node key : String) (n way : Nat)

/-- A reported hit and the bytes delivered with it. -/
structure Hit where
  key : String
  n : Nat
  bytes : Bytes
deriving DecidableEq

structure World where
  shared : String → Shared
  threads : Nat → Thread
  hits : List Hit

/-- Zero-initialised regions, no thread running. -/
def World.init : World := ⟨fun _ => ⟨SlotRegion.zero, none⟩, fun _ => .idle, []⟩

def World.mem (w : World) (node : String) : Mem := (w.shared node).region.mem

/-- Replace the region and the lock of one node. -/
def World.setShared (w : World) (node : String) (s : Shared) : World :=
  { w with shared := Function.update w.shared node s }

/-- Replace the memory of one node. -/
def World.setMem (w : World) (node : String) (m : Mem) : World :=
  w.setShared node ⟨⟨m, (w.shared node).region.seq⟩, (w.shared node).lock⟩

def World.setThread (w : World) (tid : Nat) (t : Thread) : World :=
  { w with threads := Function.update w.threads tid t }

/-- What a thread does next. -/
inductive Act where
  | writeLocal (node key : String) (n : Nat)
  | mark
  | copy
  | finish
  | publish (node : String) (pages : List (String × Nat))
  | readBucket
  | plan
  | write (i : Nat)
  | fetch (node key : String) (n : Nat)
  | deliver
  | readLocal (node key : String) (n : Nat)
  | check
  | copyOut

/-- The keys an action brings into play. -/
def Act.keys : Act → List String
  | .writeLocal _ key _ => [key]
  | .publish _ pages => pages.map Prod.fst
  | .fetch _ key _ => [key]
  | .readLocal _ key _ => [key]
  | _ => []

section

variable (H : SlotHash) (g : SlotGeometry) (owner : String → Option String)
  (content : String → Nat → Bytes)

/-- The pages of a publish with their bytes. -/
def withContent (pages : List (String × Nat)) : List (String × Bytes) :=
  pages.map fun (key, n) => (key, content key n)

/-- The start of a call, on an idle thread. -/
def startStep (w : World) (tid : Nat) : Act → Option World
  | .writeLocal node key n =>
      if owner key = some node ∧ n ≤ g.maxPayload ∧ (w.shared node).lock = none then
        let (bucket, way) := pickWay H g (w.shared node).region key
        some (w.setThread tid (.picked ⟨node, key, n, bucket, way⟩))
      else none
  | .publish node pages =>
      some (w.setThread tid (.reading (remotePages owner g node (withContent content pages)) []))
  | .fetch node key n =>
      match owner key with
      | none => none
      | some o =>
          if o ≠ node ∧ n ≤ g.maxPayload then
            some (w.setThread tid
              (.snapped key n (PeerCacheSlot.readBucket g (w.mem o) (g.bucketIndex H key))))
          else none
  | .readLocal node key n =>
      if owner key = some node then some (w.setThread tid (.scanning node key n 0)) else none
  | _ => none

/-- The odd header of a local write, under the lock.  A header that cannot be encoded raises
    and releases the lock. -/
def markStep (w : World) (tid : Nat) (l : LocalWrite) : Option World :=
  let s := w.shared l.node
  if s.lock = none then
    let newSeq := nextSeq (s.region.seqOf l.bucket l.way)
    match markSeq H s.region.mem (g.slotOffset l.bucket l.way) (newSeq ||| 1) l.key l.n with
    | none => some (w.setThread tid .idle)
    | some m =>
        some ((w.setShared l.node ⟨⟨m, s.region.seq⟩, some tid⟩).setThread tid (.marked l newSeq))
  else none

/-- The payload of a local write. -/
def copyStep (w : World) (tid : Nat) (l : LocalWrite) (newSeq : Nat) : World :=
  (w.setMem l.node ((w.mem l.node).write (g.slotOffset l.bucket l.way + headerSize)
    (content l.key l.n))).setThread tid (.copied l newSeq)

/-- The even header of a local write; the lock is released either way. -/
def finishStep (w : World) (tid : Nat) (l : LocalWrite) (newSeq : Nat) : World :=
  let s := w.shared l.node
  match markSeq H s.region.mem (g.slotOffset l.bucket l.way) newSeq l.key l.n with
  | none => (w.setShared l.node ⟨s.region, none⟩).setThread tid .idle
  | some m =>
      (w.setShared l.node ⟨⟨m, s.region.seq.set (l.bucket, l.way) newSeq⟩, none⟩).setThread tid
        .idle

/-- One action of one thread; `none` when it is not enabled. -/
def step (w : World) (a : Nat × Act) : Option World :=
  let tid := a.1
  match w.threads tid, a.2 with
  | .idle, act => startStep H g owner content w tid act
  | .picked l, .mark => markStep H g w tid l
  | .marked l newSeq, .copy => some (copyStep g content w tid l newSeq)
  | .copied l newSeq, .finish => some (finishStep H g w tid l newSeq)
  | .reading (p :: todo) got, .readBucket =>
      let snap := PeerCacheSlot.readBucket g (w.mem p.owner) (g.bucketIndex H p.key)
      some (w.setThread tid (.reading todo (got ++ [(p, snap)])))
  | .reading [] got, .plan =>
      match planWrites H g OrderedDict.empty got with
      | none => some (w.setThread tid .idle)
      | some ws => some (w.setThread tid (if ws.isEmpty then .idle else .writing ws))
  | .writing ws, .write i =>
      match ws[i]? with
      | none => none
      | some x =>
          let rest := ws.eraseIdx i
          some ((w.setMem x.page.owner (x.apply g (w.mem x.page.owner))).setThread tid
            (if rest.isEmpty then .idle else .writing rest))
  | .snapped key n snap, .deliver =>
      let w := w.setThread tid .idle
      match readSnapshot H g snap key n with
      | none => some w
      | some bytes => some { w with hits := w.hits ++ [⟨key, n, bytes⟩] }
  | .scanning node key n way, .check =>
      if way < g.ways then
        if slotMatches H (headerAt g (w.mem node) (g.bucketIndex H key) way) key n then
          some (w.setThread tid (.matched node key n way))
        else some (w.setThread tid (.scanning node key n (way + 1)))
      else some (w.setThread tid .idle)
  | .matched node key n way, .copyOut =>
      let bytes := payloadAt g (w.mem node) (g.bucketIndex H key) way n
      some { w.setThread tid .idle with hits := w.hits ++ [⟨key, n, bytes⟩] }
  | _, _ => none

/-! ## The steps that disturb -/

def LocalWrite.slot (l : LocalWrite) : SlotId := (l.node, l.bucket, l.way)

/-- The slot a thread has under a local write, and the page it is writing there. -/
def Thread.inProgress : Thread → Option (SlotId × String × Nat)
  | .marked l _ => some (l.slot, l.key, l.n)
  | .copied l _ => some (l.slot, l.key, l.n)
  | _ => none

/-- The slot a thread has validated and not yet copied, and the page it validated. -/
def Thread.validated : Thread → Option (SlotId × String × Nat)
  | .matched node key n way => some ((node, g.bucketIndex H key, way), key, n)
  | _ => none

/-- The step overwrites no other page's slot under a pending copy, and no other page's slot
    under a local write.  Only a slot WRITE and the payload copy of a local write can. -/
def Undisturbed (w : World) (a : Nat × Act) : Prop :=
  match w.threads a.1, a.2 with
  | .marked l _, .copy =>
      ∀ tid page, (w.threads tid).validated H g = some (l.slot, page) → page = (l.key, l.n)
  | .writing ws, .write i =>
      ∀ x, ws[i]? = some x → ∀ tid page,
        (w.threads tid).validated H g = some (x.slot, page)
          ∨ (w.threads tid).inProgress = some (x.slot, page) →
        page = (x.page.key, x.page.data.length)
  | _, _ => True

end

/-! ## The invariant -/

section

variable (H : SlotHash) (g : SlotGeometry) (content : String → Nat → Bytes)
  (keys : Set String)

/-- What a slot matches, it holds. -/
def SlotOk (m : Mem) (b way : Nat) : Prop :=
  ∀ k ∈ keys, ∀ n, slotMatches H (headerAt g m b way) k n = true →
    n ≤ g.maxPayload ∧ payloadAt g m b way n = content k n

/-- A slot matches no page but this one. -/
def OnlyMatches (m : Mem) (b way : Nat) (page : String × Nat) : Prop :=
  ∀ k ∈ keys, ∀ n, slotMatches H (headerAt g m b way) k n = true → (k, n) = page

/-- A local write of a page in play, to a way of the bucket, that fits. -/
def LocalWrite.Ok (l : LocalWrite) : Prop := l.key ∈ keys ∧ l.n ≤ g.maxPayload ∧ l.way < g.ways

/-- A remote page in play that fits and carries its own bytes. -/
def RemotePage.Ok (p : RemotePage) : Prop :=
  p.key ∈ keys ∧ p.data.length ≤ g.maxPayload ∧ p.data = content p.key p.data.length

/-- What each thread knows. -/
def ThreadOk (shared : String → Shared) (tid : Nat) : Thread → Prop
  | .idle => True
  | .picked l => l.Ok g keys
  | .marked l newSeq => l.Ok g keys ∧ newSeq % 2 = 0 ∧ (shared l.node).lock = some tid
      ∧ OnlyMatches H g keys (shared l.node).region.mem l.bucket l.way (l.key, l.n)
  | .copied l newSeq => l.Ok g keys ∧ newSeq % 2 = 0 ∧ (shared l.node).lock = some tid
      ∧ OnlyMatches H g keys (shared l.node).region.mem l.bucket l.way (l.key, l.n)
      ∧ payloadAt g (shared l.node).region.mem l.bucket l.way l.n = content l.key l.n
  | .reading todo got => (∀ p ∈ todo, p.Ok g content keys) ∧ ∀ q ∈ got, q.1.Ok g content keys
  | .writing ws => ∀ x ∈ ws, WellStamped H g x ∧ x.page.Ok g content keys
  | .snapped key n snap => ∀ way < g.ways, slotMatches H (snapHeader g snap way) key n = true →
      snapPayload g snap way n = content key n
  | .scanning _ key _ _ => key ∈ keys
  | .matched node key n way => way < g.ways ∧ n ≤ g.maxPayload
      ∧ payloadAt g (shared node).region.mem (g.bucketIndex H key) way n = content key n

structure RaceInv (w : World) : Prop where
  slots : ∀ node b way, way < g.ways → SlotOk H g content keys (w.mem node) b way
  threads : ∀ tid, ThreadOk H g content keys w.shared tid (w.threads tid)
  hits : ∀ x ∈ w.hits, x.bytes = content x.key x.n

end

variable {H : SlotHash} {g : SlotGeometry} {owner : String → Option String}
  {content : String → Nat → Bytes} {keys : Set String}

variable {m : Mem} {b way tid : Nat} {page : String × Nat} {w w' : World} {t : Thread}
  {l : LocalWrite}

variable {m' : Mem} {s : Shared} {newSeq : Nat} {a : Nat × Act}

lemma SlotOk.of_same (h : SlotOk H g content keys m b way) (hs : SameSlot g m m' b way) :
    SlotOk H g content keys m' b way := by
  intro k hk n hmatch
  rw [hs.1] at hmatch
  obtain ⟨hn, hpay⟩ := h k hk n hmatch
  exact ⟨hn, (hs.2 n hn).trans hpay⟩

lemma OnlyMatches.of_same (h : OnlyMatches H g keys m b way page) (hs : SameSlot g m m' b way) :
    OnlyMatches H g keys m' b way page := by
  intro k hk n hmatch
  rw [hs.1] at hmatch
  exact h k hk n hmatch

lemma mem_setShared (w : World) (node node' : String) (s : Shared) :
    (w.setShared node s).mem node' = if node' = node then s.region.mem else w.mem node' := by
  by_cases h : node' = node
  · subst h
    rw [if_pos rfl]
    exact congrArg (fun s : Shared => s.region.mem) (update_self _ _ _)
  · rw [if_neg h]
    exact congrArg (fun s : Shared => s.region.mem) (update_of_ne h _ _)

lemma sameSlot_of_write {node : String} (o : Nat) (bs : Bytes)
    (hs : s.region.mem = (w.mem node).write (g.slotOffset b way + o) bs) (hway : way < g.ways)
    (hin : o + bs.length ≤ g.slotStride) {node' : String} {b' way' : Nat} (hway' : way' < g.ways)
    (hne : (node', b', way') ≠ (node, b, way)) :
    SameSlot g (w.mem node') ((w.setShared node s).mem node') b' way' := by
  rw [mem_setShared]
  split_ifs with hnode
  · rw [hs, hnode]
    have hne' : (b, way) ≠ (b', way') := by
      rintro heq
      cases heq
      exact hne (by rw [hnode])
    exact sameSlot_write hway hway' hne' hin
  · exact ⟨rfl, fun _ _ => rfl⟩

lemma raceInv_setThread (h : RaceInv H g content keys w)
    (ht : ThreadOk H g content keys w.shared tid t) :
    RaceInv H g content keys (w.setThread tid t) := by
  refine ⟨h.slots, ?_, h.hits⟩
  intro tid'
  show ThreadOk H g content keys w.shared tid' (update w.threads tid t tid')
  by_cases htid : tid' = tid
  · rw [htid, update_self]; exact ht
  · rw [update_of_ne htid]; exact h.threads tid'

lemma raceInv_rewrite {node : String} (b way : Nat) (h : RaceInv H g content keys w)
    (hother : ∀ node' b' way', way' < g.ways → (node', b', way') ≠ (node, b, way) →
      SameSlot g (w.mem node') ((w.setShared node s).mem node') b' way')
    (hslot : SlotOk H g content keys s.region.mem b way)
    (hself : ThreadOk H g content keys (w.setShared node s).shared tid t)
    (hlock : ∀ tid', tid' ≠ tid → (w.shared node).lock = some tid' → s.lock = some tid')
    (hprog : ∀ tid', tid' ≠ tid → ∀ page,
      (w.threads tid').inProgress = some ((node, b, way), page) →
      OnlyMatches H g keys s.region.mem b way page
        ∧ payloadAt g s.region.mem b way page.2 = content page.1 page.2)
    (hval : ∀ tid', tid' ≠ tid → ∀ page,
      (w.threads tid').validated H g = some ((node, b, way), page) →
      payloadAt g s.region.mem b way page.2 = content page.1 page.2) :
    RaceInv H g content keys ((w.setShared node s).setThread tid t) := by
  have hmem : (w.setShared node s).mem node = s.region.mem := by rw [mem_setShared, if_pos rfl]
  have hlocks : ∀ tid', tid' ≠ tid → ∀ node', (w.shared node').lock = some tid' →
      ((w.setShared node s).shared node').lock = some tid' := by
    intro tid' hne node' hl
    show (update w.shared node s node').lock = some tid'
    by_cases hnode : node' = node
    · subst hnode; rw [update_self]; exact hlock tid' hne hl
    · rw [update_of_ne hnode]; exact hl
  have hslots : ∀ node' b' way', way' < g.ways →
      SlotOk H g content keys ((w.setShared node s).mem node') b' way' := by
    intro node' b' way' hway'
    by_cases heq : (node', b', way') = (node, b, way)
    · obtain ⟨rfl, h2⟩ := Prod.mk.inj heq
      cases h2
      rw [hmem]; exact hslot
    · exact (h.slots node' b' way' hway').of_same (hother node' b' way' hway' heq)
  -- a thread in progress on a slot: either this very slot, or one that did not change
  have hin : ∀ tid', tid' ≠ tid → ∀ l : LocalWrite, l.way < g.ways →
      (w.threads tid').inProgress = some (l.slot, l.key, l.n) →
      OnlyMatches H g keys (w.mem l.node) l.bucket l.way (l.key, l.n) →
      OnlyMatches H g keys ((w.setShared node s).mem l.node) l.bucket l.way (l.key, l.n) := by
    intro tid' hne l hway hp honly
    by_cases heq : (l.node, l.bucket, l.way) = (node, b, way)
    · have := (hprog tid' hne (l.key, l.n) (heq ▸ hp)).1
      obtain ⟨h1, h2⟩ := Prod.mk.inj heq
      obtain ⟨h2, h3⟩ := Prod.mk.inj h2
      rw [h1, h2, h3, hmem]; exact this
    · exact honly.of_same (hother _ _ _ hway heq)
  refine ⟨hslots, ?_, h.hits⟩
  intro tid'
  show ThreadOk H g content keys (w.setShared node s).shared tid'
    (update w.threads tid t tid')
  by_cases htid : tid' = tid
  · rw [htid, update_self]; exact hself
  · rw [update_of_ne htid]
    have hok := h.threads tid'
    have hp := hprog tid' htid
    have hv := hval tid' htid
    have hi := hin tid' htid
    cases ht : w.threads tid' with
    | idle => exact trivial
    | picked l => rw [ht] at hok; exact hok
    | marked l newSeq =>
      rw [ht] at hok hi
      obtain ⟨hl, heven, hlk, honly⟩ := hok
      exact ⟨hl, heven, hlocks tid' htid _ hlk, hi l hl.2.2 rfl honly⟩
    | copied l newSeq =>
      rw [ht] at hok hi hp
      obtain ⟨hl, heven, hlk, honly, hpay⟩ := hok
      refine ⟨hl, heven, hlocks tid' htid _ hlk, hi l hl.2.2 rfl honly, ?_⟩
      show payloadAt g ((w.setShared node s).mem l.node) l.bucket l.way l.n = _
      by_cases heq : (l.node, l.bucket, l.way) = (node, b, way)
      · have := (hp (l.key, l.n) (congrArg (fun x => some (x, l.key, l.n)) heq)).2
        obtain ⟨h1, h2⟩ := Prod.mk.inj heq
        obtain ⟨h2, h3⟩ := Prod.mk.inj h2
        rw [h1, h2, h3, hmem]; exact this
      · exact ((hother _ _ _ hl.2.2 heq).2 l.n hl.2.1).trans hpay
    | reading todo got => rw [ht] at hok; exact hok
    | writing ws => rw [ht] at hok; exact hok
    | snapped key n snap => rw [ht] at hok; exact hok
    | scanning node' key n way' => rw [ht] at hok; exact hok
    | matched node' key n way' =>
      rw [ht] at hok hv
      obtain ⟨hway', hn, hpay⟩ := hok
      refine ⟨hway', hn, ?_⟩
      show payloadAt g ((w.setShared node s).mem node') _ way' n = _
      by_cases heq : (node', g.bucketIndex H key, way') = (node, b, way)
      · have := hv (key, n) (congrArg (fun x => some (x, key, n)) heq)
        obtain ⟨h1, h2⟩ := Prod.mk.inj heq
        obtain ⟨h2, h3⟩ := Prod.mk.inj h2
        rw [h1, h2, h3, hmem]; exact this
      · exact ((hother _ _ _ hway' heq).2 n hn).trans hpay

/-! ## One step -/

lemma inProgress_lock {node : String} (h : RaceInv H g content keys w)
    (hp : (w.threads tid).inProgress = some ((node, b, way), page)) :
    (w.shared node).lock = some tid := by
  have hok := h.threads tid
  cases ht : w.threads tid with
  | marked l newSeq | copied l newSeq =>
    rw [ht] at hok hp
    obtain ⟨hslot, -⟩ := Prod.mk.inj (some.inj hp)
    rw [← (Prod.mk.inj hslot).1]
    exact hok.2.2.1
  | _ => rw [ht] at hp; cases hp

lemma validated_payload {node : String} (h : RaceInv H g content keys w)
    (hv : (w.threads tid).validated H g = some ((node, b, way), page)) :
    payloadAt g (w.mem node) b way page.2 = content page.1 page.2 := by
  have hok := h.threads tid
  cases ht : w.threads tid with
  | matched node' key n way' =>
    rw [ht] at hok hv
    obtain ⟨hslot, hpage⟩ := Prod.mk.inj (some.inj hv)
    obtain ⟨h1, hslot⟩ := Prod.mk.inj hslot
    obtain ⟨h2, h3⟩ := Prod.mk.inj hslot
    rw [← h1, ← h2, ← h3, ← hpage]
    exact hok.2.2
  | _ => rw [ht] at hv; cases hv

lemma OnlyMatches.slotOk (h : OnlyMatches H g keys m b way page) (hn : page.2 ≤ g.maxPayload)
    (hpay : payloadAt g m b way page.2 = content page.1 page.2) :
    SlotOk H g content keys m b way := by
  intro k hk n hmatch
  obtain rfl : (k, n) = page := h k hk n hmatch
  exact ⟨hn, hpay⟩

lemma onlyMatches_stamp (hinj : Set.InjOn H.keyHash128 keys) {key : String} {n seq : Nat}
    (hkey : key ∈ keys) (henc : encodeHeader H key n seq = some (headerAt g m b way)) :
    OnlyMatches H g keys m b way (key, n) := by
  intro k hk n' hmatch
  obtain ⟨-, hhash, hn⟩ := (slotMatches_stamp henc).mp hmatch
  rw [hinj hk hkey hhash, hn]

lemma markStep_inv (h : RaceInv H g content keys w) (hl : l.Ok g keys)
    (hstep : markStep H g w tid l = some w') : RaceInv H g content keys w' := by
  rw [markStep] at hstep
  by_cases hlock : (w.shared l.node).lock = none
  · simp only [hlock, if_true] at hstep
    cases hm : markSeq H (w.shared l.node).region.mem (g.slotOffset l.bucket l.way)
        (nextSeq ((w.shared l.node).region.seqOf l.bucket l.way) ||| 1) l.key l.n with
    | none =>
      simp only [hm] at hstep
      cases hstep
      exact raceInv_setThread h trivial
    | some m =>
      simp only [hm] at hstep
      cases hstep
      obtain ⟨hdr, henc, rfl⟩ := map_eq_some_iff.mp hm
      have hlen := length_encodeHeader henc
      have heven := nextSeq_even ((w.shared l.node).region.seqOf l.bucket l.way)
      -- an odd header matches nothing at all
      have hnone : ∀ k n, slotMatches H
          (headerAt g ((w.mem l.node).write (g.slotOffset l.bucket l.way) hdr) l.bucket l.way)
            k n ≠ true := by
        intro k n hmatch
        rw [headerAt_stamp hlen, slotMatches_stamp henc, or_one_odd heven] at hmatch
        omega
      refine raceInv_rewrite l.bucket l.way h (fun node' b' way' hw' hne =>
          sameSlot_of_write 0 hdr rfl hl.2.2 ?_ hw' hne)
        (fun k _ n hmatch => absurd hmatch (hnone k n)) ?_ ?_ ?_ ?_
      · rw [hlen]
        have := SlotGeometry.fits (Nat.zero_le g.maxPayload)
        omega
      · refine ⟨hl, heven, ?_, ?_⟩
        · show (update w.shared l.node _ l.node).lock = some tid
          rw [update_self]
        · show OnlyMatches H g keys (update w.shared l.node _ l.node).region.mem _ _ _
          rw [update_self]
          exact fun k _ n hmatch => absurd hmatch (hnone k n)
      · intro tid' _ hl'
        rw [hlock] at hl'
        cases hl'
      · intro tid' _ page hp
        have := inProgress_lock h hp
        rw [hlock] at this
        cases this
      · intro tid' _ page hv
        exact (payloadAt_stamp hlen).trans (validated_payload h hv)
  · simp only [hlock, if_false] at hstep; cases hstep

lemma copyStep_inv (hlen : ∀ k n, (content k n).length = n) (h : RaceInv H g content keys w)
    (ht : w.threads tid = .marked l newSeq)
    (hok : ∀ tid' page, (w.threads tid').validated H g = some (l.slot, page) →
      page = (l.key, l.n)) : RaceInv H g content keys (copyStep g content w tid l newSeq) := by
  have hmark := h.threads tid
  rw [ht] at hmark
  obtain ⟨hl, heven, hlock, honly⟩ := hmark
  have hpay : payloadAt g ((w.mem l.node).write (g.slotOffset l.bucket l.way + headerSize)
      (content l.key l.n)) l.bucket l.way l.n = content l.key l.n :=
    payloadAt_copy (hlen l.key l.n)
  have honly' : OnlyMatches H g keys ((w.mem l.node).write
      (g.slotOffset l.bucket l.way + headerSize) (content l.key l.n)) l.bucket l.way
      (l.key, l.n) := by
    intro k hk n hmatch
    rw [headerAt_copy] at hmatch
    exact honly k hk n hmatch
  refine raceInv_rewrite l.bucket l.way h
    (fun node' b' way' hw' hne => sameSlot_of_write headerSize (content l.key l.n) rfl hl.2.2 ?_ hw' hne)
    (honly'.slotOk hl.2.1 hpay) ?_ ?_ ?_ ?_
  · rw [hlen]; exact SlotGeometry.fits hl.2.1
  · refine ⟨hl, heven, ?_, ?_, ?_⟩
    · show (update w.shared l.node _ l.node).lock = some tid
      rw [update_self]; exact hlock
    · show OnlyMatches H g keys (update w.shared l.node _ l.node).region.mem _ _ _
      rw [update_self]; exact honly'
    · show payloadAt g (update w.shared l.node _ l.node).region.mem _ _ _ = _
      rw [update_self]; exact hpay
  · intro tid' _ hl'; exact hl'
  · intro tid' hne page hp
    have := hlock.symm.trans (inProgress_lock h hp)
    exact absurd (some.inj this).symm hne
  · intro tid' _ page hv
    obtain rfl := hok tid' page hv
    exact hpay

lemma finishStep_inv (hinj : Set.InjOn H.keyHash128 keys) (h : RaceInv H g content keys w)
    (ht : w.threads tid = .copied l newSeq) :
    RaceInv H g content keys (finishStep H g w tid l newSeq) := by
  have hcopied := h.threads tid
  rw [ht] at hcopied
  obtain ⟨hl, -, hlock, honly, hpay⟩ := hcopied
  have hnoOther : ∀ tid', tid' ≠ tid → ∀ page,
      (w.threads tid').inProgress ≠ some (l.slot, page) := by
    intro tid' hne page hp
    exact hne (some.inj (hlock.symm.trans (inProgress_lock h hp))).symm
  have hfree : ∀ tid', tid' ≠ tid → (w.shared l.node).lock = some tid' → (none : Option Nat) = some tid' :=
    fun tid' hne hl' => absurd (some.inj (hlock.symm.trans hl')).symm hne
  rw [finishStep]
  cases hm : markSeq H (w.shared l.node).region.mem (g.slotOffset l.bucket l.way) newSeq l.key
      l.n with
  | none =>
    refine raceInv_rewrite l.bucket l.way h ?_ (h.slots l.node l.bucket l.way hl.2.2) trivial hfree
      (fun tid' hne page hp => absurd hp (hnoOther tid' hne page))
      (fun tid' _ page hv => validated_payload h hv)
    intro node' b' way' _ _
    rw [mem_setShared]
    split_ifs with hnode
    · rw [hnode]; exact ⟨rfl, fun _ _ => rfl⟩
    · exact ⟨rfl, fun _ _ => rfl⟩
  | some m =>
    obtain ⟨hdr, henc, rfl⟩ := map_eq_some_iff.mp hm
    have hlen := length_encodeHeader henc
    have honly' : OnlyMatches H g keys
        ((w.mem l.node).write (g.slotOffset l.bucket l.way) hdr) l.bucket l.way (l.key, l.n) :=
      onlyMatches_stamp hinj hl.1 ((headerAt_stamp hlen).symm ▸ henc)
    refine raceInv_rewrite l.bucket l.way h
      (fun node' b' way' hw' hne => sameSlot_of_write 0 hdr rfl hl.2.2 ?_ hw' hne)
      (honly'.slotOk hl.2.1 ((payloadAt_stamp hlen).trans hpay)) trivial hfree
      (fun tid' hne page hp => absurd hp (hnoOther tid' hne page))
      (fun tid' _ page hv => (payloadAt_stamp hlen).trans (validated_payload h hv))
    rw [hlen]
    have := SlotGeometry.fits (Nat.zero_le g.maxPayload)
    omega

lemma writeStep_inv (hinj : Set.InjOn H.keyHash128 keys) {x : SlotWrite}
    (h : RaceInv H g content keys w) (hx : WellStamped H g x) (hpage : x.page.Ok g content keys)
    (hok : ∀ tid' page, (w.threads tid').validated H g = some (x.slot, page)
      ∨ (w.threads tid').inProgress = some (x.slot, page) →
      page = (x.page.key, x.page.data.length)) (ht : ∀ shared, ThreadOk H g content keys shared tid t) :
    RaceInv H g content keys
      ((w.setMem x.page.owner (x.apply g (w.mem x.page.owner))).setThread tid t) := by
  obtain ⟨seq, -, henc⟩ := hx.stamped
  have hlen := length_encodeHeader henc
  obtain ⟨hkey, hfit, hdata⟩ := hpage
  have hhdr : headerAt g (x.apply g (w.mem x.page.owner)) x.bucket x.way = x.hdr := by
    rw [SlotWrite.apply, write_slot hlen, headerAt_copy, headerAt_stamp hlen]
  have hpay : payloadAt g (x.apply g (w.mem x.page.owner)) x.bucket x.way x.page.data.length
      = content x.page.key x.page.data.length := by
    rw [SlotWrite.apply, write_slot hlen, payloadAt_copy rfl]; exact hdata
  have honly : OnlyMatches H g keys (x.apply g (w.mem x.page.owner)) x.bucket x.way
      (x.page.key, x.page.data.length) := onlyMatches_stamp hinj hkey (hhdr.symm ▸ henc)
  refine raceInv_rewrite x.bucket x.way h (fun node' b' way' hw' hne =>
      sameSlot_of_write 0 (x.hdr ++ x.page.data) rfl hx.way_lt ?_ hw' hne)
    (honly.slotOk hfit hpay) (ht _) (fun _ _ hl => hl) ?_ ?_
  · rw [length_append, hlen, Nat.zero_add]; exact SlotGeometry.fits hfit
  · intro tid' _ page hp
    obtain rfl := hok tid' page (.inr hp)
    exact ⟨honly, hpay⟩
  · intro tid' _ page hv
    obtain rfl := hok tid' page (.inl hv)
    exact hpay

lemma raceInv_hit {x : Hit} (h : RaceInv H g content keys w) (hx : x.bytes = content x.key x.n) :
    RaceInv H g content keys { w.setThread tid .idle with hits := w.hits ++ [x] } := by
  have h' : RaceInv H g content keys (w.setThread tid .idle) := raceInv_setThread h trivial
  refine ⟨h'.slots, h'.threads, ?_⟩
  intro y hy
  rcases mem_append.mp hy with hy | hy
  · exact h.hits y hy
  · obtain rfl := mem_singleton.mp hy
    exact hx

lemma startStep_inv (hlen : ∀ k n, (content k n).length = n) {act : Act}
    (hkeys : ∀ k ∈ act.keys, k ∈ keys) (h : RaceInv H g content keys w)
    (hstep : startStep H g owner content w tid act = some w') : RaceInv H g content keys w' := by
  cases act with
  | writeLocal node key n =>
    rw [startStep] at hstep
    by_cases hc : owner key = some node ∧ n ≤ g.maxPayload ∧ (w.shared node).lock = none
    · rw [if_pos hc] at hstep
      cases hstep
      exact raceInv_setThread h ⟨hkeys key (.head _), hc.2.1,
        (pickWay_picks (w.shared node).region key).1⟩
    · rw [if_neg hc] at hstep; cases hstep
  | publish node pages =>
    cases hstep
    refine raceInv_setThread h ⟨?_, forall_mem_nil _⟩
    intro p hp
    obtain ⟨hget, -, -, hfit⟩ := mem_remotePages hp
    obtain ⟨⟨key, n⟩, hmem, heq⟩ := mem_map.mp (mem_of_getElem? hget)
    obtain ⟨hk, hd⟩ := Prod.mk.inj heq
    refine ⟨hkeys p.key (mem_map.mpr ⟨(key, n), hmem, hk⟩), hfit, ?_⟩
    rw [← hd, hlen, ← hk]
  | fetch node key n =>
    rw [startStep] at hstep
    cases ho : owner key with
    | none => simp only [ho] at hstep; cases hstep
    | some o =>
      simp only [ho] at hstep
      by_cases hc : o ≠ node ∧ n ≤ g.maxPayload
      · rw [if_pos hc] at hstep
        cases hstep
        refine raceInv_setThread h ?_
        intro way hway hmatch
        rw [snapHeader_readBucket hway] at hmatch
        rw [snapPayload_readBucket hway hc.2]
        exact (h.slots o _ way hway key (hkeys key (.head _)) n hmatch).2
      · rw [if_neg hc] at hstep; cases hstep
  | readLocal node key n =>
    rw [startStep] at hstep
    by_cases hc : owner key = some node
    · rw [if_pos hc] at hstep
      cases hstep
      exact raceInv_setThread h (hkeys key (.head _))
    · rw [if_neg hc] at hstep; cases hstep
  | _ => cases hstep

lemma threadOk_writing {shared : String → Shared} {ws : List SlotWrite}
    (h : ∀ x ∈ ws, WellStamped H g x ∧ x.page.Ok g content keys) :
    ThreadOk H g content keys shared tid (if ws.isEmpty then .idle else .writing ws) := by
  split_ifs with hempty
  · exact trivial
  · exact h

/-- **ONE STEP** that disturbs nothing keeps the invariant. -/
lemma step_raceInv (hlen : ∀ k n, (content k n).length = n) (hinj : Set.InjOn H.keyHash128 keys)
    (hkeys : ∀ k ∈ a.2.keys, k ∈ keys) (h : RaceInv H g content keys w) (hok : Undisturbed H g w a)
    (hstep : step H g owner content w a = some w') : RaceInv H g content keys w' := by
  obtain ⟨tid, act⟩ := a
  have hthread := h.threads tid
  cases ht : w.threads tid with
  | idle =>
    simp only [step, ht] at hstep
    exact startStep_inv hlen hkeys h hstep
  | picked l =>
    rw [ht] at hthread
    cases act with
    | mark =>
      simp only [step, ht] at hstep
      exact markStep_inv h hthread hstep
    | _ => simp [step, ht] at hstep
  | marked l newSeq =>
    cases act with
    | copy =>
      simp only [step, ht] at hstep
      cases hstep
      simp only [Undisturbed, ht] at hok
      exact copyStep_inv hlen h ht hok
    | _ => simp [step, ht] at hstep
  | copied l newSeq =>
    cases act with
    | finish =>
      simp only [step, ht] at hstep
      cases hstep
      exact finishStep_inv hinj h ht
    | _ => simp [step, ht] at hstep
  | reading todo got =>
    rw [ht] at hthread
    obtain ⟨htodo, hgot⟩ := hthread
    cases act with
    | readBucket =>
      cases todo with
      | nil => simp [step, ht] at hstep
      | cons p todo =>
        simp only [step, ht] at hstep
        cases hstep
        refine raceInv_setThread h ⟨fun q hq => htodo q (mem_cons_of_mem p hq), ?_⟩
        intro q hq
        rcases mem_append.mp hq with hq | hq
        · exact hgot q hq
        · obtain rfl := mem_singleton.mp hq
          exact htodo p (.head _)
    | plan =>
      cases todo with
      | cons p todo => simp [step, ht] at hstep
      | nil =>
        simp only [step, ht] at hstep
        cases hplan : planWrites H g empty got with
        | none =>
          simp only [hplan] at hstep
          cases hstep
          exact raceInv_setThread h trivial
        | some ws =>
          simp only [hplan] at hstep
          cases hstep
          refine raceInv_setThread h (threadOk_writing ?_)
          intro x hx
          obtain ⟨hstamp, q, hq, hpage⟩ := planWrites_wellStamped hplan x hx
          exact ⟨hstamp, hpage ▸ hgot q hq⟩
    | _ => simp [step, ht] at hstep
  | writing ws =>
    rw [ht] at hthread
    cases act with
    | write i =>
      simp only [step, ht] at hstep
      cases hx : ws[i]? with
      | none => simp only [hx] at hstep; cases hstep
      | some x =>
        simp only [hx] at hstep
        cases hstep
        simp only [Undisturbed, ht] at hok
        obtain ⟨hstamp, hpage⟩ := hthread x (mem_of_getElem? hx)
        refine writeStep_inv hinj h hstamp hpage (hok x hx) ?_
        exact fun shared =>
          threadOk_writing (fun y hy => hthread y (mem_of_mem_eraseIdx hy))
    | _ => simp [step, ht] at hstep
  | snapped key n snap =>
    rw [ht] at hthread
    cases act with
    | deliver =>
      simp only [step, ht] at hstep
      cases hread : readSnapshot H g snap key n with
      | none =>
        simp only [hread] at hstep
        cases hstep
        exact raceInv_setThread h trivial
      | some bytes =>
        simp only [hread] at hstep
        cases hstep
        -- header and payload come from one snapshot, so later writes do not matter
        obtain ⟨way, hway, hmatch, rfl⟩ := readSnapshot_eq_some hread
        exact raceInv_hit h (hthread way hway hmatch)
    | _ => simp [step, ht] at hstep
  | scanning node key n way =>
    rw [ht] at hthread
    cases act with
    | check =>
      simp only [step, ht] at hstep
      by_cases hway : way < g.ways
      · rw [if_pos hway] at hstep
        by_cases hmatch : slotMatches H
            (headerAt g (w.mem node) (g.bucketIndex H key) way) key n = true
        · rw [if_pos hmatch] at hstep
          cases hstep
          -- from here on the payload is only right as long as nobody writes the slot
          obtain ⟨hn, hpay⟩ := h.slots node _ way hway key hthread n hmatch
          exact raceInv_setThread h ⟨hway, hn, hpay⟩
        · rw [if_neg hmatch] at hstep
          cases hstep
          exact raceInv_setThread h hthread
      · rw [if_neg hway] at hstep
        cases hstep
        exact raceInv_setThread h trivial
    | _ => simp [step, ht] at hstep
  | matched node key n way =>
    rw [ht] at hthread
    cases act with
    | copyOut =>
      simp only [step, ht] at hstep
      cases hstep
      exact raceInv_hit h hthread.2.2
    | _ => simp [step, ht] at hstep

lemma raceInv_init : RaceInv H g content keys World.init := by
  refine ⟨?_, fun _ => trivial, forall_mem_nil _⟩
  intro node b way _ k _ n hmatch
  rw [show headerAt g (World.init.mem node) b way = _ from headerAt_zero b way,
    slotMatches_zero] at hmatch
  cases hmatch

/-! ## Runs -/

/-- The keys a run brings into play. -/
def keysOf (acts : List (Nat × Act)) : Set String := { k | ∃ a ∈ acts, k ∈ a.2.keys }

/-- **NO DIRTY HIT IN AN UNDISTURBED RUN.**  Any number of nodes and threads, any interleaving:
    if no step overwrites another page's slot under a pending copy or a local write, every hit
    delivers the bytes of the page it was asked for. -/
theorem no_dirty_hit_undisturbed (H : SlotHash) (g : SlotGeometry) (owner : String → Option String)
    (content : String → Nat → Bytes) (hlen : ∀ k n, (content k n).length = n)
    (acts : List (Nat × Act)) (hinj : Set.InjOn H.keyHash128 (keysOf acts)) {w : World}
    (hok : Guarded (step H g owner content) (Undisturbed H g) World.init acts)
    (hrun : run (step H g owner content) World.init acts = some w) :
    ∀ x ∈ w.hits, x.bytes = content x.key x.n := by
  have hinv : RaceInv H g content (keysOf acts) w := by
    refine run_invariant ?_ raceInv_init hok hrun
    intro s a t ha hs hsafe hstep
    exact step_raceInv hlen hinj (fun k hk => ⟨a, ha, hk⟩) hs hsafe hstep
  exact hinv.hits

lemma step_threads (hstep : step H g owner content w a = some w') (hne : tid ≠ a.1) :
    w'.threads tid = w.threads tid := by
  obtain ⟨me, act⟩ := a
  have hset : ∀ (v : World) (t : Thread), v.threads = w.threads →
      (v.setThread me t).threads tid = w.threads tid := by
    intro v t hv
    show update v.threads me t tid = w.threads tid
    rw [update_of_ne hne, hv]
  rw [step] at hstep
  split at hstep
  · cases act with
    | publish node pages =>
      cases hstep
      exact hset w _ rfl
    | writeLocal node key n | readLocal node key n =>
      simp only [startStep] at hstep
      split at hstep
      · cases hstep; exact hset w _ rfl
      · cases hstep
    | fetch node key n =>
      simp only [startStep] at hstep
      split at hstep
      · cases hstep
      · split at hstep
        · cases hstep; exact hset w _ rfl
        · cases hstep
    | _ => cases hstep
  · simp only [markStep] at hstep
    split at hstep
    · split at hstep <;> (obtain rfl := some.inj hstep; exact hset _ _ rfl)
    · cases hstep
  · cases hstep; exact hset _ _ rfl
  · cases hstep
    rw [finishStep]
    split <;> exact hset _ _ rfl
  · cases hstep; exact hset _ _ rfl
  · split at hstep <;> (obtain rfl := some.inj hstep; exact hset _ _ rfl)
  · split at hstep
    · cases hstep
    · cases hstep; exact hset _ _ rfl
  · simp only at hstep
    split at hstep <;> (obtain rfl := some.inj hstep; exact hset w _ rfl)
  · split at hstep
    · split at hstep <;> (obtain rfl := some.inj hstep; exact hset _ _ rfl)
    · cases hstep; exact hset _ _ rfl
  · cases hstep; exact hset w _ rfl
  · cases hstep

/-- The slot that the step overwrites, and the page it puts there. -/
def overwritten (w : World) (a : Nat × Act) : Option (SlotId × String × Nat) :=
  match w.threads a.1, a.2 with
  | .marked l _, .copy => some (l.slot, l.key, l.n)
  | .writing ws, .write i => ws[i]?.map fun x => (x.slot, x.page.key, x.page.data.length)
  | _, _ => none

/-- The slots that a thread is about to copy out of, or to complete. -/
def Thread.busy (H : SlotHash) (g : SlotGeometry) (t : Thread) : List (SlotId × String × Nat) :=
  (t.validated H g).toList ++ t.inProgress.toList

lemma undisturbed_of_busy (h : ∀ tid, ∀ o ∈ overwritten w a, ∀ q ∈ (w.threads tid).busy H g,
    q.1 = o.1 → q.2 = o.2) : Undisturbed H g w a := by
  rw [Undisturbed]
  split
  · rename_i l _ ht ha
    intro tid page hv
    refine h tid (l.slot, l.key, l.n) ?_ (l.slot, page) ?_ rfl
    · rw [overwritten, ht, ha]
      rfl
    · simp [Thread.busy, hv]
  · rename_i ws i ht ha
    intro x hx tid page hv
    refine h tid (x.slot, x.page.key, x.page.data.length) ?_ (x.slot, page) ?_ rfl
    · rw [overwritten, ht, ha]
      simp [hx]
    · simpa [Thread.busy] using hv
  · exact trivial

/-- **THREADS BELOW `n`**: the others are idle, and need not be looked at. -/
lemma undisturbed_below (n : Nat) {acts : List (Nat × Act)} (hacts : ∀ a ∈ acts, a.1 < n)
    (hidle : ∀ t, n ≤ t → w.threads t = .idle)
    (h : Guarded (step H g owner content) (fun w a => ∀ tid < n, ∀ o ∈ overwritten w a,
      ∀ q ∈ (w.threads tid).busy H g, q.1 = o.1 → q.2 = o.2) w acts) :
    Guarded (step H g owner content) (Undisturbed H g) w acts := by
  induction acts generalizing w with
  | nil => exact trivial
  | cons a acts ih =>
    obtain ⟨hme, hrest⟩ := forall_mem_cons.mp hacts
    refine ⟨undisturbed_of_busy ?_, ?_⟩
    · intro tid
      by_cases htid : tid < n
      · exact h.1 tid htid
      · rw [hidle tid (Nat.not_lt.mp htid)]
        rintro o - q ⟨⟩
    · intro t hstep
      refine ih hrest ?_ (h.2 t hstep)
      intro u hu
      rw [step_threads hstep (Nat.ne_of_gt (hme.trans_le hu))]
      exact hidle u hu

/-! ## A dirty hit -/

def twoContents (k : String) (n : Nat) : Bytes := List.replicate n (if k = "a" then 1 else 2)

/-- A reader validates the header of `a`, a local write of `b` reaches its payload copy, the
    reader copies. -/
def dirtyRun : List (Nat × Act) :=
  [(0, .writeLocal "n" "a" 1), (0, .mark), (0, .copy), (0, .finish),
    (1, .readLocal "n" "a" 1), (1, .check),
    (0, .writeLocal "n" "b" 1), (0, .mark), (0, .copy),
    (1, .copyOut)]

/-- **A DIRTY HIT**: `read_local` reports a hit for `a` and delivers `b`'s byte. -/
theorem dirty_hit :
    Set.InjOn twoKeyHash.keyHash128 {"a", "b"} ∧ twoContents "a" 1 ≠ twoContents "b" 1
      ∧ (run (step twoKeyHash oneSlot (fun _ => some "n") twoContents) World.init dirtyRun).map
          World.hits = some [⟨"a", 1, twoContents "b" 1⟩] := by
  exact ⟨twoKeyHash_injOn, by decide, by decide +kernel⟩

/-- A reader starts while the page is copied in, and validates its header afterwards. -/
def cleanRun : List (Nat × Act) :=
  [(0, .writeLocal "n" "a" 1), (0, .mark), (1, .readLocal "n" "a" 1), (0, .copy), (0, .finish),
    (1, .check), (1, .copyOut)]

theorem no_dirty_hit_two_threads :
    ∃ w, run (step twoKeyHash oneSlot (fun _ => some "n") twoContents) World.init cleanRun = some w
      ∧ w.hits = [⟨"a", 1, [1]⟩] ∧ ∀ x ∈ w.hits, x.bytes = twoContents x.key x.n := by
  have hhits : (run (step twoKeyHash oneSlot (fun _ => some "n") twoContents) World.init
      cleanRun).map World.hits = some [⟨"a", 1, [1]⟩] := by decide +kernel
  obtain ⟨w, hrun, hw⟩ := map_eq_some_iff.mp hhits
  have hkeys : ∀ k ∈ keysOf cleanRun, k = "a" := by
    rintro k ⟨a, ha, hk⟩
    have hall : ∀ a ∈ cleanRun, ∀ k ∈ a.2.keys, k = "a" := by decide
    exact hall a ha k hk
  refine ⟨w, hrun, hw, no_dirty_hit_undisturbed twoKeyHash oneSlot _ twoContents
    (fun k n => length_replicate) cleanRun ?_ ?_ hrun⟩
  · intro k hk k' hk' _
    rw [hkeys k hk, hkeys k' hk']
  · exact undisturbed_below 2 (by decide) (fun _ _ => rfl) (by decide +kernel)

end PeerCacheSlot
