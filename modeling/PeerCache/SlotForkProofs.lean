import PeerCache.ChooserAgreementProofs
import PeerCache.SlotPublishProofs

/-! # A key in two ways of its bucket

    `_publish_slotmap_remote` goes on when the READ of a bucket fails: it plans the page
    from a bucket of zeros, in which every way is empty, and still writes it.  The page
    then goes to the first way, whatever is there, and leaves an older copy of itself in
    another way untouched.  A WRITE that fails has a similar effect on the pages after it
    in the batch, which were planned as if it had landed. -/

namespace PeerCacheSlot

open Transition WayClaims Landing Function List

variable {H : SlotHash} {g : SlotGeometry}

/-! ## Batches whose transfers may fail -/

/-- A call of `_publish_slotmap` by node `me`: `reads` and `writes` are the outcomes of the transfers,
    in the order of the pages sent, and `order` says how the WRITEs land. -/
structure Batch where
  me : String
  pages : List (String × Bytes)
  reads : Nat → Bool
  writes : Nat → Bool
  order : List Nat

/-- A page that goes to another node, and whether its READ and its WRITE succeed. -/
structure SentPage where
  page : RemotePage
  readOk : Bool
  writeOk : Bool

/-- The pages of a batch that go to other nodes. -/
def Batch.sent (b : Batch) (owner : String → Option String) (g : SlotGeometry) : List SentPage :=
  (remotePages owner g b.me b.pages).zipIdx.map fun q => ⟨q.1, b.reads q.2, b.writes q.2⟩

/-- The WRITEs that succeed, as they land. -/
def arrived (ws : List SlotWrite) (sent : List SentPage) (order : List Nat) : List SlotWrite :=
  ((landed (ws.zip sent) order).filter fun q => q.2.writeOk).map Prod.fst

section

variable (H g)

/-- `snap`: the bytes of the bucket, or zeros when the READ failed. -/
def snapshot (c : Cluster) (p : RemotePage) (readOk : Bool) : Bytes :=
  if readOk then readBucket g (c p.owner).mem (g.bucketIndex H p.key)
  else List.replicate g.bucketStride 0

/-- Phases A and B of `_publish_slotmap_remote`, with the outcome of the READ of each page. -/
def planFaulty (c : Cluster) (pages : List (RemotePage × Bool)) : Option (List SlotWrite) :=
  planWrites H g OrderedDict.empty (pages.map fun q => (q.1, snapshot H g c q.1 q.2))

/-- `_publish_slotmap` -/
def publishFaulty (owner : String → Option String) (c : Cluster) (b : Batch) :
    Option (List Bool × Cluster) :=
  (publishOwn H g owner b.me b.pages.zipIdx (c b.me)).bind fun own =>
    let c := Function.update c b.me own.2
    let sent := b.sent owner g
    (planFaulty H g c (sent.map fun s => (s.page, s.readOk))).map fun ws =>
      let ws := arrived ws sent b.order
      (setTrue (setTrue (List.replicate b.pages.length false) own.1) (ws.map fun x => x.page.idx),
        applyWrites g c ws)

/-- One complete batch. -/
def batchStep (owner : String → Option String) (c : Cluster) (b : Batch) : Option Cluster :=
  (publishFaulty H g owner c b).map Prod.snd

end

/-! ## When a batch is harmless -/

section

variable (H g)

/-- The page's key is in way `v` of its bucket. -/
def HeldAt (c : Cluster) (p : RemotePage) (v : Nat) : Prop :=
  headerKey (headerAt g (c p.owner).mem (g.bucketIndex H p.key) v) = some (H.keyHash128 p.key)

/-- The two pages go to one bucket. -/
def Beside (p q : RemotePage) : Prop := p.In H g q.owner (g.bucketIndex H q.key)

/-- The page's key can be in its bucket when it lands: it was there before the batch, or a page
    before it has brought it. -/
def Carried (c : Cluster) (before : List SentPage) (s : SentPage) : Prop :=
  (∃ v < g.ways, HeldAt H g c s.page v) ∨ ∃ t ∈ before, t.writeOk = true ∧ Beside H g t.page s.page
    ∧ H.keyHash128 t.page.key = H.keyHash128 s.page.key

/-- The page was shown where its key is: the bucket was read, and every page that goes there before
    it has landed; or it is the first, and its key is in no way but the first. -/
def Shown (c : Cluster) (before : List SentPage) (s : SentPage) : Prop :=
  (s.readOk = true ∧ ∀ t ∈ before, Beside H g t.page s.page → t.writeOk = true)
    ∨ ((∀ t ∈ before, ¬ Beside H g t.page s.page) ∧ ∀ v < g.ways, HeldAt H g c s.page v → v = 0)

/-- Every page that lands and whose key can be in its bucket was shown where. -/
def AllShown (c : Cluster) : List SentPage → List SentPage → Prop
  | _, [] => True
  | before, s :: sent => (s.writeOk = true → Carried H g c before s → Shown H g c before s)
      ∧ AllShown c (s :: before) sent

/-- **A HARMLESS BATCH**: pages of one key go through one queue, and every page that lands and whose
    key can be in its bucket was shown where. -/
structure Harmless (rails : String → Nat) (me : String) (c : Cluster) (sent : List SentPage) :
    Prop where
  ordered : sent.Pairwise fun s t => Beside H g s.page t.page →
    H.keyHash128 s.page.key = H.keyHash128 t.page.key →
    OneLane H g rails me (sent.map SentPage.page) t.page.owner (g.bucketIndex H t.page.key)
  shown : AllShown H g c [] sent

instance (p q : RemotePage) : Decidable (Beside H g p q) := inferInstanceAs (Decidable (p.In H g _ _))

instance (c : Cluster) (p : RemotePage) (v : Nat) : Decidable (HeldAt H g c p v) :=
  inferInstanceAs (Decidable (_ = _))

instance (c : Cluster) (before : List SentPage) (s : SentPage) : Decidable (Carried H g c before s) :=
  inferInstanceAs (Decidable ((∃ v < g.ways, HeldAt H g c s.page v) ∨ ∃ t ∈ before, _))

instance (c : Cluster) (before : List SentPage) (s : SentPage) : Decidable (Shown H g c before s) :=
  inferInstanceAs (Decidable ((_ ∧ ∀ t ∈ before, _) ∨ ((∀ t ∈ before, _)
    ∧ ∀ v < g.ways, HeldAt H g c s.page v → v = 0)))

instance decidableAllShown (c : Cluster) :
    (before sent : List SentPage) → Decidable (AllShown H g c before sent)
  | _, [] => isTrue trivial
  | before, s :: sent =>
      have := decidableAllShown c (s :: before) sent
      inferInstanceAs (Decidable (_ ∧ _))

instance (rails : String → Nat) (me : String) (c : Cluster) (sent : List SentPage) :
    Decidable (Harmless H g rails me c sent) :=
  decidable_of_iff (_ ∧ AllShown H g c [] sent) ⟨fun h => ⟨h.1, h.2⟩, fun h => ⟨h.ordered, h.shown⟩⟩

end

/-! ## What a landing WRITE does -/

variable {owner : String → Option String} {c c0 cs ca : Cluster} {r : SlotRegion}
  {ws : List SlotWrite} {x : SlotWrite} {b v : Nat} {o : String} {rails : String → Nat} {me : String}
  {before sent : List SentPage} {s : SentPage} {claimed : Claimed} {order : List Nat}

/-- No bucket has two ways whose headers carry the same key. -/
def NoFork (g : SlotGeometry) (c : Cluster) : Prop := ∀ node b kh, HeldOnce g (c node) b kh

lemma noFork_update (h : NoFork g c) (node : String) (r : SlotRegion) :
    NoFork g (Function.update c node r) ↔ ∀ b kh, HeldOnce g r b kh := by
  constructor
  · intro h' b kh
    have hself := h' node b kh
    rwa [update_self] at hself
  · intro hr n b kh
    by_cases hn : n = node
    · subst hn
      rw [update_self]
      exact hr b kh
    · rw [update_of_ne hn]; exact h n b kh

lemma heldOnce_stamp_iff {r' : SlotRegion} {b way : Nat} {kh : Nat × Nat} {hdr data : Bytes}
    (h : ∀ b kh, HeldOnce g r b kh) (hst : Stamped g r.mem r'.mem b way hdr data)
    (hkey : headerKey hdr = some kh) :
    (∀ b kh, HeldOnce g r' b kh)
      ↔ ∀ v < g.ways, headerKey (headerAt g r.mem b v) = some kh → v = way := by
  rw [← unique_stamp_iff (fun b v hv w hw kh => h b kh v hv w hw) hst hkey]
  exact ⟨fun h' b v hv w hw kh => h' b kh v hv w hw, fun h' b kh v hv w hw => h' b v hv w hw kh⟩

lemma noFork_write_iff {x : SlotWrite} (h : NoFork g c) (hstamp : WellStamped H g x)
    (hfit : x.page.Fits g) :
    NoFork g (applyWrites g c [x]) ↔ ∀ v < g.ways,
      headerKey (headerAt g (c x.page.owner).mem x.bucket v) = some (H.keyHash128 x.page.key) →
        v = x.way := by
  obtain ⟨seq, -, henc⟩ := hstamp.stamped
  have hst : Stamped g (c x.page.owner).mem (x.apply g (c x.page.owner).mem) x.bucket x.way x.hdr
      x.page.data := stamped_apply hstamp.way_lt (length_encodeHeader henc) hfit _
  show NoFork g (update c x.page.owner _) ↔ _
  rw [noFork_update h, heldOnce_stamp_iff (h x.page.owner) hst (headerKey_stamp henc).1]

lemma headerAt_write (hstamp : WellStamped H g x) (hfit : x.page.Fits g) (c : Cluster) (o : String)
    (b : Nat) (hv : v < g.ways) : headerAt g (applyWrites g c [x] o).mem b v
      = if x.slot = (o, b, v) then x.hdr else headerAt g (c o).mem b v := by
  have hok : ∀ y ∈ [x], WellStamped H g y ∧ y.page.Fits g := forall_mem_singleton.mpr ⟨hstamp, hfit⟩
  have hafter := slotAfter c hok o b hv
  have hlast : lastTo [x] (o, b, v) = if x.slot = (o, b, v) then some x else none :=
    lastTo_concat [] x (o, b, v)
  split_ifs with hslot
  · rw [if_pos hslot] at hlast; exact (hafter.written x hlast).1
  · rw [if_neg hslot] at hlast; exact (hafter.same hlast).1

lemma noFork_zero : NoFork g Cluster.zero := by
  intro node b kh v hv w hw hkv hkw
  exact slotsOk_zero.unique b v hv w hw kh hkv hkw

/-! ## A READ that fails -/

lemma snapshot_failed (c : Cluster) (p : RemotePage) :
    snapshot H g c p false = readBucket g SlotRegion.zero.mem (g.bucketIndex H p.key) := by
  rw [snapshot, if_neg Bool.false_ne_true]
  exact (Mem.read_const 0 _ _).symm

lemma pickWayFromBucket_zero (b : Nat) (key : String) :
    (pickWayFromBucket H g (readBucket g SlotRegion.zero.mem b) key).1 = 0 := by
  have hempty : ∀ v < g.ways,
      headerKey (snapHeader g (readBucket g SlotRegion.zero.mem b) v) = none := by
    intro v hv
    rw [snapHeader_readBucket hv, headerAt_zero, headerKey, decodeHeader_zero]
  obtain ⟨hsettles, -⟩ := pickWayFromBucket_settles (H := H) (g := g)
    (readBucket g SlotRegion.zero.mem b) key
  refine Nat.le_zero.mp (hsettles.first_vacant ?_ 0 g.ways_pos (hempty 0 g.ways_pos))
  intro v hv hk
  exact Option.some_ne_none _ (hk.symm.trans (hempty v hv))

/-- **A PAGE WHOSE READ FAILED** goes to way 0 of its bucket, so it forks its key exactly when a copy
    sits in another way. -/
theorem fork_unread_iff {p : RemotePage} (h : NoFork g c) (hfit : p.Fits g)
    (hplan : planFaulty H g c [(p, false)] = some ws) :
    NoFork g (applyWrites g c ws) ↔ ∀ v < g.ways,
      headerKey (headerAt g (c p.owner).mem (g.bucketIndex H p.key) v) = some (H.keyHash128 p.key) →
        v = 0 := by
  obtain ⟨claims, way, seq, hdr, ws', rfl, hpick, -, hnil, rfl⟩ := planWrites_cons hplan
  cases hnil
  have hway : way = 0 := by
    rw [snapshot_failed] at hpick
    exact (congrArg Prod.fst hpick).trans (pickWayFromBucket_zero _ p.key)
  obtain ⟨hstamp, -⟩ := planWrites_wellStamped hplan _ (mem_singleton_self _)
  rw [← hway]
  exact noFork_write_iff h hstamp hfit

/-- The owner's pages "b" and "a" are in ways 0 and 1; a page "a" that is sent without a look at the
    bucket puts "a" in both. -/
theorem fork_unread_iff_second_way :
    ∃ c ws, run (clusterStep twoKeyHash twoWays) Cluster.zero
        [.writeLocal "n" "b" [1], .writeLocal "n" "a" [1]] = some c
      ∧ planFaulty twoKeyHash twoWays c [(⟨0, "a", "n", [2]⟩, false)] = some ws
      ∧ NoFork twoWays c ∧ ¬ NoFork twoWays (applyWrites twoWays c ws) := by
  have hrun : ((run (clusterStep twoKeyHash twoWays) Cluster.zero
      [.writeLocal "n" "b" [1], .writeLocal "n" "a" [1]]).map fun c =>
        ((planFaulty twoKeyHash twoWays c [(⟨0, "a", "n", [2]⟩, false)]).isSome,
          headerKey (headerAt twoWays (c "n").mem 0 1))) = some (true, some (1, 0)) := by
    decide +kernel
  obtain ⟨c, hc, hobs⟩ := Option.map_eq_some_iff.mp hrun
  obtain ⟨hplan, hkey⟩ := Prod.mk.inj hobs
  obtain ⟨ws, hws⟩ := Option.isSome_iff_exists.mp hplan
  have hfork : NoFork twoWays c := by
    intro node b kh v hv w hw hkv hkw
    exact (run_clusterOk hc node).unique b v hv w hw kh hkv hkw
  refine ⟨c, ws, hc, hws, hfork, fun h => ?_⟩
  exact absurd ((fork_unread_iff hfork (by decide) hws).mp h 1 (by decide) hkey) (by decide)

/-! ## The pages of a batch, in its order -/

/-- The WRITEs of a batch that succeed, in its order. -/
def stored (ws : List SlotWrite) (sent : List SentPage) : List SlotWrite :=
  ((ws.zip sent).filter fun q => q.2.writeOk).map Prod.fst

/-- Part of the batch is through: `c0` is the cluster before it, `cs` what the rest is planned on and
    `ca` what has landed. -/
structure Sending (H : SlotHash) (g : SlotGeometry) (c0 cs ca : Cluster) (claimed : Claimed)
    (before : List SentPage) : Prop where
  overlaid : Overlaid g c0 cs claimed
  noFork : NoFork g ca
  same : ∀ o b, (∀ t ∈ before, t.page.In H g o b → t.writeOk = true) →
    ∀ v < g.ways, headerAt g (ca o).mem b v = headerAt g (cs o).mem b v
  held : ∀ o b kh, ∀ v < g.ways, headerKey (headerAt g (ca o).mem b v) = some kh →
    (∃ u < g.ways, headerKey (headerAt g (c0 o).mem b u) = some kh)
      ∨ ∃ t ∈ before, t.writeOk = true ∧ t.page.In H g o b ∧ H.keyHash128 t.page.key = kh
  unclaimed : ∀ o b, (∀ t ∈ before, ¬ t.page.In H g o b) → claimed.get? (o, b) = none

lemma sending_start (h : NoFork g c) : Sending H g c c c OrderedDict.empty [] where
  overlaid := overlaid_refl c
  noFork := h
  same _ _ _ _ _ := rfl
  held _ _ _ v hv hk := .inl ⟨v, hv, hk⟩
  unclaimed _ _ _ := rfl

/-- The WRITE of page `s`, planned on the claims of the pages before it. -/
structure PlannedOn (H : SlotHash) (g : SlotGeometry) (c0 : Cluster) (claimed : Claimed)
    (s : SentPage) (x : SlotWrite) : Prop where
  page_eq : x.page = s.page
  bucket_eq : x.bucket = g.bucketIndex H s.page.key
  stamped : ∃ seq, (x.way, seq) = pickWayFromBucket H g (overlay g (snapshot H g c0 s.page s.readOk)
      ((claimed.get? (s.page.owner, g.bucketIndex H s.page.key)).getD OrderedDict.empty)) s.page.key
    ∧ encodeHeader H s.page.key s.page.data.length seq = some x.hdr

lemma PlannedOn.wellStamped (h : PlannedOn H g c0 claimed s x) : WellStamped H g x := by
  obtain ⟨seq, hpick, henc⟩ := h.stamped
  obtain ⟨hrule, heven, -⟩ := pickWayFromBucket_spec (H := H) (g := g)
    (overlay g (snapshot H g c0 s.page s.readOk)
      ((claimed.get? (s.page.owner, g.bucketIndex H s.page.key)).getD OrderedDict.empty)) s.page.key
  rw [← hpick] at hrule heven
  rw [← h.page_eq] at henc
  exact ⟨h.page_eq ▸ h.bucket_eq, hrule.1, seq, heven, henc⟩

/-- **A PAGE THAT IS SHOWN WHERE ITS KEY IS** goes there. -/
lemma PlannedOn.finds (hx : PlannedOn H g c0 claimed s x) (h : Sending H g c0 cs ca claimed before)
    (hshown : Shown H g c0 before s) (hv : v < g.ways) (hk : HeldAt H g ca s.page v) : v = x.way := by
  obtain ⟨seq, hpick, -⟩ := hx.stamped
  -- a bucket that was read and whose pages have all landed is shown as it is
  have hread : s.readOk = true → (∀ t ∈ before, Beside H g t.page s.page → t.writeOk = true) →
      v = x.way := by
    intro hok hall
    have hsame := h.same s.page.owner (g.bucketIndex H s.page.key) hall
    rw [hok, snapshot, if_pos rfl, pickWay_overlay h.overlaid] at hpick
    have hlive := pickWayFromBucket_live (H := H) (g := g) (cs s.page.owner)
      (g.bucketIndex H s.page.key) s.page.key
    rw [← hpick] at hlive
    have hholder := hlive.holder v hv
    rw [bucketWays, waysOf_key, waysOf_key, ← hsame v hv, ← hsame x.way hlive.lt] at hholder
    exact h.noFork _ _ _ v hv x.way hlive.lt hk (hholder hk)
  rcases hshown with ⟨hok, hall⟩ | ⟨hfirst, hzero⟩
  · exact hread hok hall
  · cases hok : s.readOk with
    | true => exact hread hok fun t ht hin => absurd hin (hfirst t ht)
    | false =>
      have hnone := h.unclaimed _ _ hfirst
      rw [hok, snapshot_failed, hnone] at hpick
      have hway : x.way = 0 := (congrArg Prod.fst hpick).trans (pickWayFromBucket_zero _ s.page.key)
      rw [hway]
      refine hzero v hv ?_
      have hsame := h.same _ _ (fun t ht hin => absurd hin (hfirst t ht)) v hv
      rw [h.overlaid.headers _ _ v hv, hnone] at hsame
      rw [HeldAt, hsame] at hk
      exact hk

/-- **ONE PAGE** of a harmless batch. -/
lemma Sending.step (h : Sending H g c0 cs ca claimed before) (hfit : s.page.Fits g)
    (hshown : s.writeOk = true → Carried H g c0 before s → Shown H g c0 before s)
    (hx : PlannedOn H g c0 claimed s x) :
    Sending H g c0 (applyWrites g cs [x]) (if s.writeOk then applyWrites g ca [x] else ca)
      (claimed.set (s.page.owner, g.bucketIndex H s.page.key)
        (((claimed.get? (s.page.owner, g.bucketIndex H s.page.key)).getD OrderedDict.empty).set x.way
          x.hdr)) (s :: before) := by
  have hstamp := hx.wellStamped
  have hfit' : x.page.Fits g := hx.page_eq ▸ hfit
  have hslot : x.slot = (s.page.owner, g.bucketIndex H s.page.key, x.way) := by
    rw [SlotWrite.slot, hx.page_eq, hx.bucket_eq]
  -- a bucket the page does not go to is as before
  have hother : ∀ o b v, ¬ s.page.In H g o b → x.slot ≠ (o, b, v) := by
    intro o b v hin heq
    rw [hslot] at heq
    obtain ⟨ho, hb⟩ := Prod.mk.inj heq
    exact hin ⟨ho, (Prod.mk.inj hb).1⟩
  obtain ⟨seq, -, henc⟩ := hx.stamped
  refine ⟨?_, ?_, ?_, ?_, ?_⟩
  · have hst := stamped_apply hstamp.way_lt (length_encodeHeader henc) hfit' (cs x.page.owner).mem
    have hover := overlaid_write h.overlaid { cs x.page.owner with
      mem := x.apply g (cs x.page.owner).mem } (length_encodeHeader henc) hst
    rw [hx.page_eq, hx.bucket_eq] at hover
    show Overlaid g c0 (update cs x.page.owner _) _
    rw [hx.page_eq]
    exact hover
  · cases hok : s.writeOk with
    | false => exact h.noFork
    | true =>
      refine (noFork_write_iff h.noFork hstamp hfit').mpr ?_
      rw [hx.page_eq, hx.bucket_eq]
      intro v hv hk
      refine hx.finds h (hshown hok ?_) hv hk
      exact h.held _ _ _ v hv hk
  · intro o b hall v hv
    rw [headerAt_write hstamp hfit' cs o b hv]
    have hbefore := h.same o b (fun t ht => hall t (.tail _ ht)) v hv
    cases hok : s.writeOk with
    | false =>
      have hin : ¬ s.page.In H g o b := fun hin => by cases hok.symm.trans (hall s (.head _) hin)
      rw [if_neg (hother o b v hin)]
      exact hbefore
    | true =>
      rw [if_pos rfl, headerAt_write hstamp hfit' ca o b hv, hbefore]
  · intro o b kh v hv hk
    have hmore : ∀ (t : SentPage), t ∈ before → t ∈ s :: before := fun t ht => .tail _ ht
    have hold : headerKey (headerAt g (ca o).mem b v) = some kh →
        (∃ u < g.ways, headerKey (headerAt g (c0 o).mem b u) = some kh) ∨ ∃ t ∈ s :: before,
          t.writeOk = true ∧ t.page.In H g o b ∧ H.keyHash128 t.page.key = kh := by
      intro hk
      refine (h.held o b kh v hv hk).imp_right ?_
      rintro ⟨t, ht, hrest⟩
      exact ⟨t, hmore t ht, hrest⟩
    cases hok : s.writeOk with
    | false => rw [hok] at hk; exact hold hk
    | true =>
      rw [hok, if_pos rfl, headerAt_write hstamp hfit' ca o b hv] at hk
      split_ifs at hk with hs
      · rw [hslot] at hs
        obtain ⟨ho, hb⟩ := Prod.mk.inj hs
        rw [(headerKey_stamp henc).1] at hk
        exact .inr ⟨s, .head _, hok, ⟨ho, (Prod.mk.inj hb).1⟩, Option.some.inj hk⟩
      · exact hold hk
  · intro o b hnone
    rw [OrderedDict.get?_set, if_neg]
    · exact h.unclaimed o b fun t ht => hnone t (.tail _ ht)
    · intro heq
      obtain ⟨ho, hb⟩ := Prod.mk.inj heq
      exact hnone s (.head _) ⟨ho.symm, hb.symm⟩

/-- **IN THE ORDER OF THE BATCH** no WRITE of a harmless batch forks a key. -/
lemma noFork_stored (hsend : Sending H g c0 cs ca claimed before)
    (hfit : ∀ s ∈ sent, s.page.Fits g) (hshown : AllShown H g c0 before sent)
    (hws : planWrites H g claimed (sent.map fun s => (s.page, snapshot H g c0 s.page s.readOk)) = some ws)
    {l : List SlotWrite} (hl : l <+: stored ws sent) : NoFork g (applyWrites g ca l) := by
  induction sent generalizing cs ca claimed before ws l with
  | nil =>
    cases hws
    rw [List.prefix_nil.mp hl]
    exact hsend.noFork
  | cons s sent ih =>
    obtain ⟨claims, way, seq, hdr, ws', rfl, hpick, henc, hws', rfl⟩ := planWrites_cons hws
    obtain ⟨hs, hrest⟩ := forall_mem_cons.mp hfit
    have hx : PlannedOn H g c0 claimed s ⟨s.page, g.bucketIndex H s.page.key, way, hdr⟩ :=
      ⟨rfl, rfl, seq, hpick, henc⟩
    have hstep := hsend.step hs hshown.1 hx
    cases hok : s.writeOk with
    | false =>
      rw [hok] at hstep
      rw [stored, zip_cons_cons, filter_cons_of_neg (by simpa using hok)] at hl
      exact ih hstep hrest hshown.2 hws' hl
    | true =>
      rw [hok, if_pos rfl] at hstep
      rw [stored, zip_cons_cons, filter_cons_of_pos (by simpa using hok), map_cons] at hl
      cases l with
      | nil => exact hsend.noFork
      | cons y l =>
        obtain ⟨rfl, htail⟩ := List.cons_prefix_cons.mp hl
        exact ih hstep hrest hshown.2 hws' htail

/-! ## The pages of a batch, as they land -/

lemma planFaulty_ok (hfit : ∀ s ∈ sent, s.page.Fits g)
    (hws : planFaulty H g c (sent.map fun s => (s.page, s.readOk)) = some ws) :
    ∀ x ∈ ws, WellStamped H g x ∧ x.page.Fits g := by
  intro x hx
  obtain ⟨hstamp, p, hp, hpage⟩ := planWrites_wellStamped hws x hx
  rw [map_map] at hp
  obtain ⟨s, hs, rfl⟩ := mem_map.mp hp
  exact ⟨hstamp, hpage ▸ hfit s hs⟩

lemma mem_of_arrived (hx : x ∈ arrived ws sent order) : x ∈ ws := by
  obtain ⟨q, hq, rfl⟩ := mem_map.mp hx
  obtain ⟨i, -, hi⟩ := mem_filterMap.mp (mem_filter.mp hq).1
  exact (of_mem_zip (mem_of_getElem? hi)).1

/-- The WRITEs of a batch, planned on `c`, and an order in which they can land. -/
structure Sends (H : SlotHash) (g : SlotGeometry) (rails : String → Nat) (me : String) (c : Cluster)
    (sent : List SentPage) (ws : List SlotWrite) (order : List Nat) : Prop where
  fits : ∀ s ∈ sent, s.page.Fits g
  plan : planFaulty H g c (sent.map fun s => (s.page, s.readOk)) = some ws
  lands : Landing.Lands (laneOf rails me (sent.map SentPage.page)) sent.length order

namespace Sends

variable {i : Nat} {q : SlotWrite × SentPage} (h : Sends H g rails me c sent ws order)

include h

lemma planned : planWrites H g OrderedDict.empty
    (sent.map fun s => (s.page, snapshot H g c s.page s.readOk)) = some ws := by
  rw [← h.plan, planFaulty, map_map]
  rfl

lemma pages_eq : ws.map (fun x => x.page) = sent.map SentPage.page := by
  rw [planWrites_pages h.planned, map_map]
  rfl

lemma length_eq : ws.length = sent.length := by
  rw [← length_map (fun x : SlotWrite => x.page), h.pages_eq, length_map]

lemma getElem?_page (hq : (ws.zip sent)[i]? = some q) :
    (sent.map SentPage.page)[i]? = some q.2.page ∧ q.1.page = q.2.page := by
  obtain ⟨hx, hs⟩ := getElem?_zip_eq_some.mp hq
  have hpage : (sent.map SentPage.page)[i]? = some q.2.page := by rw [getElem?_map, hs]; rfl
  have hpage' : (sent.map SentPage.page)[i]? = some q.1.page := by
    rw [← h.pages_eq, getElem?_map, hx]
    rfl
  exact ⟨hpage, Option.some.inj (hpage'.symm.trans hpage)⟩

lemma wellStamped : ∀ x ∈ ws, WellStamped H g x ∧ x.page.Fits g := planFaulty_ok h.fits h.plan

lemma landsZip : Landing.Lands (laneOf rails me (sent.map SentPage.page)) (ws.zip sent).length order := by
  rw [length_zip, h.length_eq, Nat.min_self]
  exact h.lands

lemma mem_arrived : x ∈ arrived ws sent order ↔ x ∈ stored ws sent := by
  simp only [arrived, stored, mem_map, mem_filter, h.landsZip.mem_landed]

omit h in
lemma mem_stored : x ∈ stored ws sent ↔ ∃ s, (x, s) ∈ ws.zip sent ∧ s.writeOk = true := by
  simp only [stored, mem_map, mem_filter, Prod.exists, exists_and_right, exists_eq_right]

lemma arrived_ok : ∀ x ∈ arrived ws sent order, WellStamped H g x ∧ x.page.Fits g :=
  fun x hx => h.wellStamped x (mem_of_arrived hx)

/-- The page of a WRITE to bucket `b` of node `o` goes there. -/
lemma page_in (hq : q ∈ ws.zip sent) (hslot : q.1.slot = (o, b, v)) : q.2.page.In H g o b := by
  obtain ⟨i, hi⟩ := mem_iff_getElem?.mp hq
  obtain ⟨ho, hb⟩ := Prod.mk.inj hslot
  have hbucket := (h.wellStamped q.1 (of_mem_zip hq).1).1.bucket_eq
  rw [(h.getElem?_page hi).2] at ho hbucket
  exact ⟨ho, hbucket.symm.trans (Prod.mk.inj hb).1⟩

/-- A bucket behind one queue is left as by the order of the batch. -/
lemma lastTo_arrived (hlane : OneLane H g rails me (sent.map SentPage.page) o b) (v : Nat) :
    lastTo (arrived ws sent order) (o, b, v) = lastTo (stored ws sent) (o, b, v) := by
  rw [lastTo, lastTo, arrived, stored, filter_map, filter_map, filter_filter, filter_filter,
    h.landsZip.filter_landed]
  intro i j x y hx hy hpx hpy
  have hsx := of_decide_eq_true (Bool.and_eq_true_iff.mp hpx).1
  have hsy := of_decide_eq_true (Bool.and_eq_true_iff.mp hpy).1
  exact hlane i j x.2.page y.2.page (h.getElem?_page hx).1 (h.getElem?_page hy).1
    (h.page_in (mem_of_getElem? hx) hsx) (h.page_in (mem_of_getElem? hy) hsy)

omit h in
/-- Pages of one key whose bucket is not behind one queue are the same page. -/
lemma same_of_hash (hord : sent.Pairwise fun s t => Beside H g s.page t.page →
      H.keyHash128 s.page.key = H.keyHash128 t.page.key →
      OneLane H g rails me (sent.map SentPage.page) t.page.owner (g.bucketIndex H t.page.key))
    (hlane : ¬ OneLane H g rails me (sent.map SentPage.page) o b) {q' : SlotWrite × SentPage}
    (hq : q ∈ ws.zip sent) (hq' : q' ∈ ws.zip sent) (hin : q.2.page.In H g o b)
    (hin' : q'.2.page.In H g o b)
    (hkey : H.keyHash128 q.2.page.key = H.keyHash128 q'.2.page.key) : q = q' := by
  obtain ⟨i, hi⟩ := mem_iff_getElem?.mp hq
  obtain ⟨j, hj⟩ := mem_iff_getElem?.mp hq'
  have hapart : ∀ {i j : Nat} {p p' : SlotWrite × SentPage}, i < j → (ws.zip sent)[i]? = some p →
      (ws.zip sent)[j]? = some p' → p.2.page.In H g o b → p'.2.page.In H g o b →
      H.keyHash128 p.2.page.key ≠ H.keyHash128 p'.2.page.key := by
    intro i j p p' hij hp hp' hpin hpin' hpkey
    obtain ⟨hilt, his⟩ := List.getElem?_eq_some_iff.mp (getElem?_zip_eq_some.mp hp).2
    obtain ⟨hjlt, hjs⟩ := List.getElem?_eq_some_iff.mp (getElem?_zip_eq_some.mp hp').2
    have hpair := pairwise_iff_getElem.mp hord i j hilt hjlt hij
    rw [his, hjs, hpin'.1, hpin'.2] at hpair
    refine hlane (hpair ?_ hpkey)
    rw [Beside, hpin'.1, hpin'.2]
    exact hpin
  rcases Nat.lt_trichotomy i j with hij | rfl | hij
  · exact absurd hkey (hapart hij hi hj hin hin')
  · exact Option.some.inj (hi.symm.trans hj)
  · exact absurd hkey.symm (hapart hij hj hi hin' hin)

end Sends

/-- What a slot holds that was last written with `x`. -/
lemma headerKey_of_lastTo (hok : ∀ y ∈ ws, WellStamped H g y ∧ y.page.Fits g) (hv : v < g.ways)
    (hx : lastTo ws (o, b, v) = some x) :
    headerKey (headerAt g (applyWrites g c ws o).mem b v) = some (H.keyHash128 x.page.key) := by
  obtain ⟨seq, -, henc⟩ := (hok x (mem_of_lastTo hx).1).1.stamped
  rw [((slotAfter c hok o b hv).written x hx).1, (headerKey_stamp henc).1]

/-- A key that a batch brings is not also in a way that the batch leaves alone. -/
lemma Sends.way_eq (h : Sends H g rails me c sent ws order) (hc : NoFork g c)
    (hharm : Harmless H g rails me c sent) {w : Nat} (hv : v < g.ways) (hw : w < g.ways)
    (hnone : lastTo (arrived ws sent order) (o, b, v) = none)
    (hx : lastTo (arrived ws sent order) (o, b, w) = some x)
    (hk : headerKey (headerAt g (c o).mem b v) = some (H.keyHash128 x.page.key)) : v = w := by
  obtain ⟨hmem, hslot⟩ := mem_of_lastTo hx
  -- up to this WRITE, in the order of the batch
  obtain ⟨l, rest, hsplit⟩ := append_of_mem (h.mem_arrived.mp hmem)
  have hpre : l ++ [x] <+: stored ws sent := ⟨rest, by rw [hsplit, append_assoc]; rfl⟩
  have hfork := noFork_stored (sending_start hc) h.fits hharm.shown h.planned hpre
  have hok : ∀ y ∈ l ++ [x], WellStamped H g y ∧ y.page.Fits g :=
    fun y hy => h.arrived_ok y (h.mem_arrived.mpr (hpre.subset hy))
  have hold : lastTo (l ++ [x]) (o, b, v) = none := by
    refine getLast?_eq_none_iff.mpr (filter_eq_nil_iff.mpr ?_)
    intro y hy
    rw [decide_eq_true_eq]
    exact lastTo_none hnone y (h.mem_arrived.mpr (hpre.subset hy))
  refine hfork o b _ v hv w hw ?_ (headerKey_of_lastTo hok hw ((lastTo_concat l x _).trans (if_pos hslot)))
  rw [((slotAfter c hok o b hv).same hold).1]
  exact hk

/-- **A HARMLESS BATCH** forks no key, in whatever order its WRITEs land. -/
lemma Sends.noFork (h : Sends H g rails me c sent ws order) (hc : NoFork g c)
    (hharm : Harmless H g rails me c sent) :
    NoFork g (applyWrites g c (arrived ws sent order)) := by
  have hok := h.arrived_ok
  have hstored : ∀ y ∈ stored ws sent, WellStamped H g y ∧ y.page.Fits g :=
    fun y hy => hok y (h.mem_arrived.mpr hy)
  intro o b kh v hv w hw hkv hkw
  by_cases hlane : OneLane H g rails me (sent.map SentPage.page) o b
  · rw [headerAt_of_lastTo hstored hok hv (h.lastTo_arrived hlane v)] at hkv
    rw [headerAt_of_lastTo hstored hok hw (h.lastTo_arrived hlane w)] at hkw
    exact noFork_stored (sending_start hc) h.fits hharm.shown h.planned (prefix_refl _) o b kh v hv
      w hw hkv hkw
  · have hafter : ∀ u < g.ways, _ := fun u hu => slotAfter c hok o b hu
    cases hx : lastTo (arrived ws sent order) (o, b, v) with
    | none =>
      rw [((hafter v hv).same hx).1] at hkv
      cases hy : lastTo (arrived ws sent order) (o, b, w) with
      | none =>
        rw [((hafter w hw).same hy).1] at hkw
        exact hc o b kh v hv w hw hkv hkw
      | some y =>
        rw [headerKey_of_lastTo hok hw hy] at hkw
        exact h.way_eq hc hharm hv hw hx hy (hkv.trans hkw.symm)
    | some x =>
      rw [headerKey_of_lastTo hok hv hx] at hkv
      cases hy : lastTo (arrived ws sent order) (o, b, w) with
      | none =>
        rw [((hafter w hw).same hy).1] at hkw
        exact (h.way_eq hc hharm hw hv hy hx (hkw.trans hkv.symm)).symm
      | some y =>
        rw [headerKey_of_lastTo hok hw hy] at hkw
        obtain ⟨hxm, hsx⟩ := mem_of_lastTo hx
        obtain ⟨hym, hsy⟩ := mem_of_lastTo hy
        obtain ⟨s, hxs, -⟩ := mem_stored.mp (h.mem_arrived.mp hxm)
        obtain ⟨t, hyt, -⟩ := mem_stored.mp (h.mem_arrived.mp hym)
        have hkey : H.keyHash128 s.page.key = H.keyHash128 t.page.key := by
          obtain ⟨i, hi⟩ := mem_iff_getElem?.mp hxs
          obtain ⟨j, hj⟩ := mem_iff_getElem?.mp hyt
          rw [← (h.getElem?_page hi).2, ← (h.getElem?_page hj).2]
          exact Option.some.inj (hkv.trans hkw.symm)
        have hxy := same_of_hash hharm.ordered hlane hxs hyt (h.page_in hxs hsx) (h.page_in hyt hsy)
          hkey
        rw [(Prod.mk.inj hxy).1, hsy] at hsx
        exact (Prod.mk.inj (Prod.mk.inj hsx).2).2.symm

/-! ## One page for each bucket -/

/-- No two pages go to one bucket. -/
def OnePerBucket (H : SlotHash) (g : SlotGeometry) (sent : List SentPage) : Prop :=
  sent.Pairwise fun s t => ¬ Beside H g s.page t.page

lemma beside_symm {p q : RemotePage} (h : Beside H g p q) : Beside H g q p := ⟨h.1.symm, h.2.symm⟩

/-- A page that is alone in its bucket and was not read goes to the first way. -/
lemma unread_way (hone : OnePerBucket H g sent)
    (hclaim : ∀ s ∈ sent, claimed.get? (s.page.owner, g.bucketIndex H s.page.key) = none)
    (hws : planWrites H g claimed (sent.map fun s => (s.page, snapshot H g c s.page s.readOk)) = some ws) :
    ∀ q ∈ ws.zip sent, q.2.readOk = false → q.1.way = 0 := by
  induction sent generalizing claimed ws with
  | nil => exact fun q hq => by rw [zip_nil_right] at hq; cases hq
  | cons s sent ih =>
    obtain ⟨claims, way, seq, hdr, ws', rfl, hpick, -, hws', rfl⟩ := planWrites_cons hws
    obtain ⟨hs, hrest⟩ := pairwise_cons.mp hone
    obtain ⟨hfree, hfrees⟩ := forall_mem_cons.mp hclaim
    intro q hq hread
    rcases mem_cons.mp hq with rfl | hq
    · have hread : s.readOk = false := hread
      rw [hread, snapshot_failed, hfree] at hpick
      exact (congrArg Prod.fst hpick).trans (pickWayFromBucket_zero _ s.page.key)
    · refine ih hrest ?_ hws' q hq hread
      intro t ht
      rw [OrderedDict.get?_set, if_neg]
      · exact hfrees t ht
      · intro heq
        obtain ⟨ho, hb⟩ := Prod.mk.inj heq
        exact hs t ht ⟨ho.symm, hb.symm⟩

lemma harmless_of_zero (hone : OnePerBucket H g sent) (hzero : ∀ s ∈ sent, s.writeOk = true →
      s.readOk = false → ∀ v < g.ways, HeldAt H g c s.page v → v = 0) :
    Harmless H g rails me c sent := by
  refine ⟨hone.imp fun hst hin => absurd hin hst, ?_⟩
  have hshown : ∀ before, (∀ t ∈ before, ∀ s ∈ sent, ¬ Beside H g t.page s.page) →
      AllShown H g c before sent := by
    induction sent with
    | nil => exact fun _ _ => trivial
    | cons s sent ih =>
      intro before hbefore
      obtain ⟨hs, hrest⟩ := pairwise_cons.mp hone
      have hfirst : ∀ t ∈ before, ¬ Beside H g t.page s.page := fun t ht => hbefore t ht s (.head _)
      refine ⟨?_, ih hrest (fun t ht => hzero t (.tail _ ht)) (s :: before) ?_⟩
      · intro hok _
        cases hread : s.readOk with
        | true => exact .inl ⟨hread, fun t ht hin => absurd hin (hfirst t ht)⟩
        | false => exact .inr ⟨hfirst, hzero s (.head _) hok hread⟩
      · intro t ht u hu
        rcases mem_cons.mp ht with rfl | ht
        · exact hs u hu
        · exact hbefore t ht u (.tail _ hu)
  exact hshown [] fun t ht => absurd ht not_mem_nil

/-- **ONE PAGE FOR EACH BUCKET**: the batch forks no key exactly when it is harmless. -/
lemma Sends.noFork_iff (h : Sends H g rails me c sent ws order) (hc : NoFork g c)
    (hone : OnePerBucket H g sent) :
    NoFork g (applyWrites g c (arrived ws sent order)) ↔ Harmless H g rails me c sent := by
  refine ⟨fun hfork => harmless_of_zero hone ?_, h.noFork hc⟩
  intro s hs hok hread v hv hk
  obtain ⟨i, hi⟩ := mem_iff_getElem?.mp hs
  obtain ⟨x, hx⟩ : ∃ x, ws[i]? = some x := by
    refine ⟨_, List.getElem?_eq_getElem ?_⟩
    rw [h.length_eq]
    exact (List.getElem?_eq_some_iff.mp hi).1
  have hzip : (ws.zip sent)[i]? = some (x, s) := getElem?_zip_eq_some.mpr ⟨hx, hi⟩
  have hxs := mem_of_getElem? hzip
  have hway : x.way = 0 := unread_way hone (fun _ _ => rfl) h.planned (x, s) hxs hread
  have hpage : x.page = s.page := (h.getElem?_page hzip).2
  have hslot : x.slot = (s.page.owner, g.bucketIndex H s.page.key, 0) := by
    rw [SlotWrite.slot, (h.wellStamped x (mem_of_getElem? hx)).1.bucket_eq, hpage, hway]
  -- no other WRITE goes to the bucket
  have halone : ∀ y u, lastTo (arrived ws sent order) (s.page.owner, g.bucketIndex H s.page.key, u)
      = some y → y = x := by
    intro y u hy
    obtain ⟨hym, hsy⟩ := mem_of_lastTo hy
    obtain ⟨t, hyt, -⟩ := mem_stored.mp (h.mem_arrived.mp hym)
    obtain ⟨j, hj⟩ := mem_iff_getElem?.mp hyt
    have hin := h.page_in hyt hsy
    by_contra hne
    have hij : i ≠ j := by
      rintro rfl
      exact hne (Option.some.inj ((getElem?_zip_eq_some.mp hj).1.symm.trans hx))
    obtain ⟨hilt, his⟩ := List.getElem?_eq_some_iff.mp hi
    obtain ⟨hjlt, hjt⟩ := List.getElem?_eq_some_iff.mp (getElem?_zip_eq_some.mp hj).2
    have hpair := pairwise_iff_getElem.mp hone
    rcases Nat.lt_or_gt_of_ne hij with hlt | hlt
    · exact hpair i j hilt hjlt hlt (his ▸ hjt ▸ beside_symm hin)
    · exact hpair j i hjlt hilt hlt (his ▸ hjt ▸ hin)
  have hmem : x ∈ arrived ws sent order := h.mem_arrived.mpr (mem_stored.mpr ⟨s, hxs, hok⟩)
  have hnew : HeldAt H g (applyWrites g c (arrived ws sent order)) s.page 0 := by
    cases hy : lastTo (arrived ws sent order) (s.page.owner, g.bucketIndex H s.page.key, 0) with
    | none => exact absurd hslot (lastTo_none hy x hmem)
    | some y =>
      rw [HeldAt, headerKey_of_lastTo h.arrived_ok g.ways_pos hy, halone y 0 hy, hpage]
  cases hy : lastTo (arrived ws sent order) (s.page.owner, g.bucketIndex H s.page.key, v) with
  | none =>
    refine hfork _ _ _ v hv 0 g.ways_pos ?_ hnew
    rw [((slotAfter c h.arrived_ok _ _ hv).same hy).1]
    exact hk
  | some y =>
    have hsy := (mem_of_lastTo hy).2
    rw [halone y v hy, hslot] at hsy
    exact (Prod.mk.inj (Prod.mk.inj hsy).2).2.symm

/-! ## Whole batches -/

lemma heldOnce_own {pages : List ((String × Bytes) × Nat)} {own : List Nat × SlotRegion}
    (h : ∀ b kh, HeldOnce g r b kh) (hown : publishOwn H g owner me pages r = some own) :
    ∀ b kh, HeldOnce g own.2 b kh := by
  induction pages generalizing r own with
  | nil =>
    cases hown
    exact h
  | cons q pages ih =>
    obtain ⟨⟨key, data⟩, i⟩ := q
    rw [publishOwn] at hown
    split_ifs at hown with hme
    · obtain ⟨⟨off, r'⟩, hw, hrest⟩ := Option.bind_eq_some_iff.mp hown
      obtain ⟨⟨idxs, r''⟩, hown', rfl⟩ := Option.map_eq_some_iff.mp hrest
      refine @ih _ (idxs, r'') ?_ hown'
      rcases writeLocal_cases hw with ⟨-, -, rfl⟩ | ⟨-, hdr, henc, hst, -⟩
      · exact h
      · refine (heldOnce_stamp_iff h hst (headerKey_stamp henc).1).mpr ?_
        intro v hv hk
        exact h _ _ v hv _ hst.way_lt hk ((pickWay_picks r key).2 v hv hk)
    · exact ih h hown

variable {a : Batch} {c' : Cluster}

lemma sent_fits {s : SentPage} (hs : s ∈ a.sent owner g) : s.page.owner ≠ a.me ∧ s.page.Fits g := by
  obtain ⟨q, hq, rfl⟩ := mem_map.mp hs
  exact (mem_remotePages (fst_mem_of_mem_zipIdx hq)).2.2

/-- The order is one in which the WRITEs of the batch can land. -/
def Batch.Possible (rails : String → Nat) (owner : String → Option String) (g : SlotGeometry)
    (a : Batch) : Prop :=
  Landing.Lands (laneOf rails a.me ((a.sent owner g).map SentPage.page)) (a.sent owner g).length a.order

instance (rails : String → Nat) (a : Batch) : Decidable (a.Possible rails owner g) :=
  inferInstanceAs (Decidable (Landing.Lands _ _ _))

lemma harmless_congr {c' : Cluster} (hsame : ∀ s ∈ sent, c' s.page.owner = c s.page.owner) :
    Harmless H g rails me c' sent ↔ Harmless H g rails me c sent := by
  have hshown : ∀ before, AllShown H g c' before sent ↔ AllShown H g c before sent := by
    induction sent with
    | nil => exact fun _ => Iff.rfl
    | cons s sent ih =>
      intro before
      obtain ⟨hs, hrest⟩ := forall_mem_cons.mp hsame
      refine and_congr ?_ (ih hrest (s :: before))
      simp only [Carried, Shown, HeldAt, hs]
  exact ⟨fun h => ⟨h.ordered, (hshown []).mp h.shown⟩, fun h => ⟨h.ordered, (hshown []).mpr h.shown⟩⟩

/-- **WHAT A BATCH DOES**: it writes its own pages, which forks no key, and then sends the others. -/
lemma batchStep_sends (hposs : a.Possible rails owner g) (hc : NoFork g c)
    (hstep : batchStep H g owner c a = some c') :
    ∃ c1 ws, NoFork g c1 ∧ Sends H g rails a.me c1 (a.sent owner g) ws a.order
      ∧ (Harmless H g rails a.me c1 (a.sent owner g) ↔ Harmless H g rails a.me c (a.sent owner g))
      ∧ c' = applyWrites g c1 (arrived ws (a.sent owner g) a.order) := by
  obtain ⟨res, hres, rfl⟩ := Option.map_eq_some_iff.mp hstep
  obtain ⟨own, hown, hrest⟩ := Option.bind_eq_some_iff.mp hres
  obtain ⟨ws, hws, rfl⟩ := Option.map_eq_some_iff.mp hrest
  refine ⟨update c a.me own.2, ws, (noFork_update hc a.me own.2).mpr (heldOnce_own (hc a.me) hown),
    ⟨fun s hs => (sent_fits hs).2, hws, hposs⟩, harmless_congr ?_, rfl⟩
  exact fun s hs => update_of_ne (sent_fits hs).1 _ _

/-! ## The main result -/

/-- **HARMLESS BATCHES FORK NO KEY.**  Batches of `_publish_slotmap`, one at a time from zeroed
    regions, with READs and WRITEs failing in any pattern and WRITEs landing in any order that the
    queues allow: if each is harmless for the buckets it finds, no bucket has two ways with the same
    key.  A batch with one page for each bucket forks a key exactly when it is not harmless. -/
theorem forks_never_when_harmless (H : SlotHash) (g : SlotGeometry) (owner : String → Option String)
    (rails : String → Nat) :
    (∀ (batches : List Batch) (c : Cluster), (∀ a ∈ batches, a.Possible rails owner g) →
        Guarded (batchStep H g owner) (fun c a => Harmless H g rails a.me c (a.sent owner g))
          Cluster.zero batches →
        run (batchStep H g owner) Cluster.zero batches = some c → NoFork g c)
      ∧ ∀ (a : Batch) (c c' : Cluster), a.Possible rails owner g → NoFork g c →
        OnePerBucket H g (a.sent owner g) → batchStep H g owner c a = some c' →
        (NoFork g c' ↔ Harmless H g rails a.me c (a.sent owner g)) := by
  constructor
  · intro batches c hposs hharm hrun
    refine run_invariant (I := NoFork g) ?_ noFork_zero hharm hrun
    intro c a c' ha hc hh hstep
    obtain ⟨c1, ws, hc1, hsends, hiff, rfl⟩ := batchStep_sends (hposs a ha) hc hstep
    exact hsends.noFork hc1 (hiff.mpr hh)
  · intro a c c' hposs hc hone hstep
    obtain ⟨c1, ws, hc1, hsends, hiff, rfl⟩ := batchStep_sends hposs hc hstep
    exact (hsends.noFork_iff hc1 hone).trans hiff

/-- The owner writes "b".  Then "a" is sent without a look at the bucket, where it is not, and lands on
    "b"; of "b" and "a", sent together, only the first lands. -/
def failingTransfers : List Batch :=
  [⟨"n", [("b", [1])], fun _ => true, fun _ => true, []⟩,
    ⟨"m", [("a", [1])], fun _ => false, fun _ => true, [0]⟩,
    ⟨"m", [("b", [2]), ("a", [2])], fun _ => true, fun i => i = 0, [0, 1]⟩]

theorem forks_never_when_harmless_failures :
    ∃ c, run (batchStep twoKeyHash twoWays fun _ => some "n") Cluster.zero failingTransfers = some c
      ∧ headerKey (headerAt twoWays (c "n").mem 0 0) = some (1, 0)
      ∧ headerKey (headerAt twoWays (c "n").mem 0 1) = some (2, 0) ∧ NoFork twoWays c := by
  have hrun : (run (batchStep twoKeyHash twoWays fun _ => some "n") Cluster.zero failingTransfers).map
      (fun c => (headerKey (headerAt twoWays (c "n").mem 0 0),
        headerKey (headerAt twoWays (c "n").mem 0 1)))
      = some (some (1, 0), some (2, 0)) := by decide +kernel
  obtain ⟨c, hc, hobs⟩ := Option.map_eq_some_iff.mp hrun
  obtain ⟨h0, h1⟩ := Prod.mk.inj hobs
  refine ⟨c, hc, h0, h1, ?_⟩
  exact (forks_never_when_harmless twoKeyHash twoWays _ fun _ => 1).1 failingTransfers c
    (by decide +kernel) (by decide +kernel) hc

/-- The owner's pages "b" and "a" are in ways 0 and 1.  Another node sends "a", its READ fails, and
    the page goes to way 0: both ways hold "a". -/
theorem failed_read_forks :
    ∃ c, run (batchStep twoKeyHash twoWays fun _ => some "n") Cluster.zero
        [⟨"n", [("b", [1]), ("a", [1])], fun _ => true, fun _ => true, []⟩,
          ⟨"m", [("a", [2])], fun _ => false, fun _ => true, [0]⟩] = some c
      ∧ ¬ NoFork twoWays c := by
  have hrun : (run (batchStep twoKeyHash twoWays fun _ => some "n") Cluster.zero
      [⟨"n", [("b", [1]), ("a", [1])], fun _ => true, fun _ => true, []⟩,
        ⟨"m", [("a", [2])], fun _ => false, fun _ => true, [0]⟩]).map
      (fun c => (headerKey (headerAt twoWays (c "n").mem 0 0),
        headerKey (headerAt twoWays (c "n").mem 0 1)))
      = some (some (1, 0), some (1, 0)) := by decide +kernel
  obtain ⟨c, hc, hobs⟩ := Option.map_eq_some_iff.mp hrun
  obtain ⟨h0, h1⟩ := Prod.mk.inj hobs
  refine ⟨c, hc, ?_⟩
  intro h
  exact absurd (h "n" 0 (1, 0) 0 (by decide) 1 (by decide) h0 h1) (by decide)

end PeerCacheSlot
