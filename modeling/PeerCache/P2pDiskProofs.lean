import PeerCache.PublishBatchProofs
import PeerCache.HandledPagesProofs
import PeerCache.TransitionProofs

/-! # Peer-to-peer mode with a disk tier — one node, whole calls

    A node sets and gets batches of pages; pages that leave the pool stay on disk and come
    back when they are read.  `_fetch` first resolves the location of every page of the
    batch, promoting those on disk, and only then copies.  A promotion may evict a page of
    the same batch whose location is resolved already: the copy then delivers the promoted
    page under the evicted one's key, and reports `True` (`promoted_page_delivered`). -/

namespace PeerCacheP2pDisk

open PeerCachePool PeerCacheDirectory PeerCacheDisk PeerCacheOwner Transition Option List

/-! ## Component keys -/

/-- How a store names the components of a page. -/
structure KeySpace where
  keyTag : String
  isMla : Bool
  mlaSuffix : String
  mhaSuffix : String

/-- `_tag_keys` -/
def tagKeys (c : KeySpace) (keys : List String) : List String :=
  if c.keyTag = "" then keys else keys.map (fun k => c.keyTag ++ "_" ++ k)

/-- The components of one page. -/
def componentsOf (c : KeySpace) (k : String) : List String :=
  if c.isMla then [k ++ "_" ++ c.mlaSuffix ++ "_k"]
  else [k ++ "_" ++ c.mhaSuffix ++ "_k", k ++ "_" ++ c.mhaSuffix ++ "_v"]

/-- The number of components of a page. -/
def multiplier (c : KeySpace) : Nat := if c.isMla then 1 else 2

/-- `_component_keys` -/
def componentKeys (c : KeySpace) (keys : List String) : List String × Nat :=
  ((tagKeys c keys).flatMap (componentsOf c), multiplier c)

/-- `_page_results` -/
def pageResults (results : List Bool) (mult : Nat) : List Bool :=
  (List.range ((results.length + mult - 1) / mult)).map fun i =>
    ((results.drop (i * mult)).take mult).all id

/-! ## The calls -/

section

variable (me : String) (owners : Owners) (c : KeySpace)

/-- `_publish_p2p` -/
def publishP2p (s : PageOwner) (pages : List (String × Bytes)) : Published :=
  let existing := existsKeys owners s.dir (pages.map Prod.fst)
  publishPages me owners s
    (pages.zip (existing.map fun b => if b then Admission.existing else Admission.fresh))

/-- `batch_set_v1` -/
def batchSetV1 (s : PageOwner) (keys : List String) (pages : List Bytes) :
    List Bool × PageOwner :=
  let (compKeys, mult) := componentKeys c keys
  if compKeys.length = pages.length then
    let r := publishP2p me owners s (compKeys.zip pages)
    (pageResults r.results mult, r.owner)
  else (keys.map (fun _ => false), s)

/-- What `_resolve_non_resident` leaves. -/
structure Resolved where
  locs : List (Option DataLocation)
  owner : PageOwner
  evicted : List String

/-- `_resolve_non_resident`; there is no other node to promote a page. -/
def resolveNonResident : List (String × Option DataLocation) → PageOwner → Resolved
  | [], s => ⟨[], s, []⟩
  | (_, none) :: rest, s =>
      let r := resolveNonResident rest s
      { r with locs := none :: r.locs }
  | (k, some loc) :: rest, s =>
      if loc.resident then
        let r := resolveNonResident rest s
        { r with locs := some loc :: r.locs }
      else if loc.nodeId = me then
        let e := ensureResident me owners s [k]
        let r := resolveNonResident rest e.owner
        ⟨e.locs.headD none :: r.locs, r.owner, e.evicted ++ r.evicted⟩
      else
        let r := resolveNonResident rest s
        { r with locs := none :: r.locs }

/-- What `_fetch` copies to the destination of a page of `size` bytes, if anything; `True` is
    reported exactly when it copies. -/
def copyPage (pool : PublishedPool String) (size : Nat) : Option DataLocation → Option Bytes
  | none => none
  | some loc =>
      if loc.resident ∧ loc.length = size ∧ loc.nodeId = me then some (readLocation pool loc) else none

/-- The result of `_fetch`: what was copied to each destination. -/
structure Fetched where
  copied : List (Option Bytes)
  owner : PageOwner
  evicted : List String

/-- `_fetch`, with nothing primed. -/
def fetch (s : PageOwner) (queries : List (String × Nat)) : Fetched :=
  let keys := queries.map Prod.fst
  let r := resolveNonResident me owners (keys.zip (get owners s.dir keys)) s
  ⟨(queries.zip r.locs).map (fun q => copyPage me r.owner.pool q.1.2 q.2), r.owner, r.evicted⟩

/-- A `batch_get_v1` that was answered: the pages asked for, what reached their destinations and
    what was reported. -/
structure Got where
  keys : List String
  copied : List (Option Bytes)
  results : List Bool
deriving DecidableEq

/-- `batch_get_v1` -/
def batchGetV1 (s : PageOwner) (keys : List String) (sizes : List Nat) : Got × PageOwner :=
  let (compKeys, mult) := componentKeys c keys
  if compKeys.length = sizes.length then
    let r := fetch me owners s (compKeys.zip sizes)
    (⟨keys, r.copied, pageResults (r.copied.map Option.isSome) mult⟩, r.owner)
  else (⟨keys, [], keys.map (fun _ => false)⟩, s)

end

/-! ## Runs -/

/-- The node and the answers it gave. -/
structure Store where
  owner : PageOwner
  gets : List Got

inductive Call where
  | set (keys : List String)
  | get (keys : List String) (sizes : List Nat)

/-- The pages a call is about. -/
def Call.keys : Call → List String
  | .set keys => keys
  | .get keys _ => keys

section

variable (me : String) (owners : Owners) (c : KeySpace) (safeName : String → String)
  (content : String → Bytes)

/-- The disk worker until its queue is empty. -/
def drainDisk (s : PageOwner) : PageOwner :=
  (diskWork owners safeName)^[(s.disk.map (fun d => d.queue.length)).getD 0] s

/-- One call, and the disk worker after it. -/
def call (s : Store) : Call → Store
  | .set keys =>
      let r := batchSetV1 me owners c s.owner keys ((componentKeys c keys).1.map content)
      { s with owner := drainDisk owners safeName r.2 }
  | .get keys sizes =>
      let r := batchGetV1 me owners c s.owner keys sizes
      ⟨drainDisk owners safeName r.2, s.gets ++ [r.1]⟩

def step (s : Store) (a : Call) : Option Store := some (call me owners c safeName content s a)

/-- The keys that `_resolve_non_resident` promotes, in turn: those the node has on disk only. -/
def promotions (work : List (String × Option DataLocation)) : List String :=
  work.filterMap fun q => q.2.bind fun loc =>
    if loc.resident = false ∧ loc.nodeId = me then some q.1 else none

/-- Promoting a key takes no page of the batch away: it is in the pool, or none of the pages that
    make room for it is of the batch. -/
def PromoteApart (batch : List String) (s : PageOwner) (k : String) : Prop :=
  k ∈ s.pool.entries.keys
    ∨ ∀ data ∈ (s.diskGet k).1, ∀ v ∈ victims s.pool data.length, v ∉ batch

instance (batch : List String) (s : PageOwner) (k : String) : Decidable (PromoteApart batch s k) :=
  inferInstanceAs (Decidable (_ ∨ ∀ data ∈ (s.diskGet k).1, _))

/-- Every promotion takes no page of the batch away. -/
abbrev AllApart (batch : List String) (s : PageOwner) (ks : List String) : Prop :=
  Guarded (fun s k => some (ensureResident me owners s [k]).owner) (PromoteApart batch) s ks

/-- No promotion of a get takes away a page that the get reads. -/
def PromotesApart (s : Store) : Call → Prop
  | .set _ => True
  | .get keys _ =>
      let batch := (componentKeys c keys).1
      AllApart me owners batch s.owner (promotions me (batch.zip (get owners s.owner.dir batch)))

instance (s : Store) (a : Call) : Decidable (PromotesApart me owners c s a) :=
  match a with
  | .set _ => isTrue trivial
  | .get _ _ => inferInstanceAs (Decidable (AllApart _ _ _ _ _))

end

/-- A fresh node. -/
def Store.init (pool : PublishedPool String) (disk : Option Nat) : Store :=
  ⟨⟨pool, disk.map DiskStore.empty, OrderedDict.empty, fun _ => OrderedDict.empty⟩, []⟩

/-! ## The invariant -/

section

variable {me : String} {owners : Owners} {c : KeySpace} {safeName : String → String}
  {content : String → Bytes} {keysUsed : Set String}

/-- Pool and disk hold contents, and a resident directory entry names the pool's entry. -/
structure StoreInv (owners : Owners) (safeName : String → String)
    (content : String → Bytes) (keysUsed : Set String) (s : PageOwner) : Prop where
  pool : Inv s.pool
  holds : HoldsAll content s.pool
  disk : DiskSound safeName content keysUsed s
  dir : ∀ node k loc, node ∈ owners k → (s.dir node).get? k = some loc → loc.resident = true →
    Current s.pool k loc ∧ k ∈ s.keyLen.keys

lemma current_of_effect {p q : PublishedPool String} {evicted reserved : List String} {k : String}
    {loc : DataLocation} (h : Effect content p q evicted reserved) (hc : Current p k loc)
    (hk : k ∉ evicted) : Current q k loc := by
  obtain ⟨x, hx, haddr, hlen⟩ := hc
  exact ⟨x, h.keeps k x hx hk, haddr.trans (congrArg (· + x.1) h.region.base.symm), hlen⟩

namespace StoreInv

variable {s t : PageOwner} {evicted : List String}

lemma effect (h : StoreInv owners safeName content keysUsed s)
    (heff : OwnerEffect owners content s t evicted [])
    (hd : DiskSound safeName content keysUsed t) : StoreInv owners safeName content keysUsed t where
  pool := heff.pool.inv
  holds := heff.pool.holdsAll h.holds
  disk := hd
  dir := by
    intro node k loc hn hk hres
    obtain ⟨hold, hev⟩ := heff.resident node k loc hk hres
    obtain ⟨hcur, hlen⟩ := h.dir node k loc hn hold hres
    exact ⟨current_of_effect heff.pool hcur (hev hn hlen), heff.lens k hlen⟩

lemma put (h : StoreInv owners safeName content keysUsed s)
    {entries : Locations}
    (hent : ∀ k loc, entries.get? k = some loc → loc.resident = true →
      Current s.pool k loc ∧ k ∈ s.keyLen.keys) :
    StoreInv owners safeName content keysUsed (s.setDir (PeerCacheDirectory.put owners s.dir entries)) where
  pool := h.pool
  holds := h.holds
  disk := h.disk
  dir := by
    intro node k loc hn hk hres
    rcases put_get?_cases hk with ⟨-, hput⟩ | ⟨hold, -⟩
    · exact hent k loc hput hres
    · exact h.dir node k loc hn hold hres

lemma diskWork (hinj : Set.InjOn safeName keysUsed)
    (h : StoreInv owners safeName content keysUsed s) :
    StoreInv owners safeName content keysUsed (PeerCacheOwner.diskWork owners safeName s) := by
  obtain ⟨hpool, hdir⟩ := diskWork_spec owners safeName s
  refine ⟨hpool ▸ h.pool, hpool ▸ h.holds, diskSound_diskWork hinj h.disk, ?_⟩
  intro node k loc hn hk hres
  obtain ⟨hold, hlen⟩ := hdir node k loc hk
  obtain ⟨hcur, hmem⟩ := h.dir node k loc hn hold hres
  exact ⟨hpool ▸ hcur, hlen hn hmem⟩

lemma drainDisk (hinj : Set.InjOn safeName keysUsed)
    (h : StoreInv owners safeName content keysUsed s) :
    StoreInv owners safeName content keysUsed (PeerCacheP2pDisk.drainDisk owners safeName s) := by
  rw [PeerCacheP2pDisk.drainDisk]
  generalize (s.disk.map (fun d => d.queue.length)).getD 0 = n
  induction n with
  | zero => exact h
  | succ n ih =>
    rw [Function.iterate_succ_apply']
    exact ih.diskWork hinj

end StoreInv

lemma storeInv_init {pool : PublishedPool String} (hi : Inv pool) (hall : HoldsAll content pool)
    (disk : Option Nat) : StoreInv owners safeName content keysUsed (Store.init pool disk).owner where
  pool := hi
  holds := hall
  disk := by
    intro d hd
    obtain ⟨n, -, rfl⟩ := map_eq_some_iff.mp hd
    exact diskOk_empty n
  dir := fun _ _ _ _ h _ => nomatch h

/-- **A SET** keeps the invariant. -/
lemma storeInv_publishP2p {s : PageOwner} (h : StoreInv owners safeName content keysUsed s)
    (keys : List String) (hkeys : ∀ k ∈ keys, k ∈ keysUsed) :
    StoreInv owners safeName content keysUsed
      (publishP2p me owners s (keys.zip (keys.map content))).owner := by
  generalize hp : (keys.zip (keys.map content)).zip
    ((existsKeys owners s.dir ((keys.zip (keys.map content)).map Prod.fst)).map
      fun b => if b then Admission.existing else Admission.fresh) = pages
  have hpages : ∀ q ∈ pages, q.1.1 ∈ keysUsed ∧ q.1.2 = content q.1.1 := by
    intro q hq
    rw [← hp] at hq
    have hmem := (of_mem_zip hq).1
    rw [show keys.zip (keys.map content) = keys.map (fun k => (k, content k)) by
      simpa using List.zip_map' (f := id) (g := content) (l := keys), List.mem_map] at hmem
    obtain ⟨k, hk, hkq⟩ := hmem
    rw [← hkq]
    exact ⟨hkeys k hk, rfl⟩
  obtain ⟨t, entries, hown, heff, hdisk, hent⟩ :=
    publishPages_spec me owners pages (fun q hq => (hpages q hq).2) h.pool
  have hsound : DiskSound safeName content keysUsed t :=
    (diskSound_publishLoop pages hpages h.disk OrderedDict.empty).congr hdisk
  have ht := h.effect heff hsound
  rw [publishP2p]
  simp only [hp]
  rw [hown]
  refine ht.put ?_
  intro k loc hk hres
  obtain ⟨x, hx, haddr, hlen⟩ := hent.address k loc hk hres
  exact ⟨⟨x, hx, haddr, hlen.trans (ht.holds k x hx).1.symm⟩, (hent.batch k loc hk).2.1⟩

/-- **PROMOTING ONE KEY**: the invariant holds, and the location is current. -/
lemma ensureResident_single (me : String) {s : PageOwner} (h : StoreInv owners safeName content keysUsed s)
    (k : String) :
    StoreInv owners safeName content keysUsed (ensureResident me owners s [k]).owner
      ∧ Effect content s.pool (ensureResident me owners s [k]).owner.pool
          (ensureResident me owners s [k]).evicted []
      ∧ ∀ loc, (ensureResident me owners s [k]).locs.headD none = some loc →
        Current (ensureResident me owners s [k]).owner.pool k loc := by
  have heff : OwnerEffect owners content s (ensureOne me owners s k).owner
      (ensureOne me owners s k).evicted [] := ownerEffect_ensureOne h.pool h.disk k
  have hone := h.effect heff (diskSound_ensureOne h.disk k)
  have hev : (ensureResident me owners s [k]).evicted = (ensureOne me owners s k).evicted :=
    append_nil _
  refine ⟨?_, hev ▸ heff.pool, fun loc hloc => ensureOne_current h.disk hloc⟩
  refine hone.put ?_
  intro j loc hj _
  rcases addPromoted_get? hj with hj | ⟨rfl, hp, hloc⟩
  · cases hj
  · exact ⟨ensureOne_current h.disk hloc, (ensureOne_promoted h.disk hp).2⟩

/-- **RESOLVING A BATCH** keeps the invariant. -/
lemma resolve_inv (me : String) (work : List (String × Option DataLocation)) {s : PageOwner}
    (h : StoreInv owners safeName content keysUsed s) :
    StoreInv owners safeName content keysUsed (resolveNonResident me owners work s).owner
      ∧ Effect content s.pool (resolveNonResident me owners work s).owner.pool
          (resolveNonResident me owners work s).evicted [] := by
  induction work generalizing s with
  | nil => exact ⟨h, Effect.refl h.pool⟩
  | cons q rest ih =>
    obtain ⟨k, oloc⟩ := q
    cases oloc with
    | none => exact ih h
    | some loc =>
      rw [resolveNonResident]
      by_cases hres : loc.resident = true
      · rw [if_pos hres]; exact ih h
      · rw [if_neg hres]
        split_ifs with hme
        · obtain ⟨hinv1, heff1, -⟩ := ensureResident_single me h k
          obtain ⟨hinv, heff⟩ := ih hinv1
          exact ⟨hinv, heff1.trans heff⟩
        · exact ih h

/-- Resident locations of the batch are current. -/
def Located (pool : PublishedPool String) (q : String × Option DataLocation) : Prop :=
  ∀ loc, q.2 = some loc → loc.resident = true → Current pool q.1 loc

lemma ensureOne_evicted {s : PageOwner} {k v : String} (hv : v ∈ (ensureOne me owners s k).evicted) :
    k ∉ s.pool.entries.keys ∧ ∃ data ∈ (s.diskGet k).1, v ∈ victims s.pool data.length := by
  rcases ensureOne_split me owners s k with
    ⟨x, -, heq⟩ | ⟨hout, ⟨-, heq⟩ | ⟨data, r, hdata, rfl, ⟨-, heq⟩ | ⟨addr, -, heq⟩⟩⟩
  · rw [heq] at hv; cases hv
  · rw [heq] at hv; cases hv
  all_goals
    rw [heq] at hv
    have hplace : v ∈ (publish (s.diskGet k).2.pool k data).evicted := hv
    rw [diskGet_pool] at hplace
    exact ⟨hout, data, hdata, (mem_place_evicted.mp hplace).2⟩

/-- The keys promoted, in turn, from the keys looked up. -/
lemma promotions_cons (me k : String) (loc : DataLocation) (rest : List (String × Option DataLocation)) :
    promotions me ((k, some loc) :: rest) = if loc.resident = false ∧ loc.nodeId = me then
      k :: promotions me rest else promotions me rest := by
  rw [promotions, filterMap_cons]
  by_cases h : loc.resident = false ∧ loc.nodeId = me
  · simp only [Option.bind_some, if_pos h]
    rfl
  · simp only [Option.bind_some, if_neg h]
    rfl

/-- What resolving a batch leaves is what its promotions leave, in turn. -/
lemma resolve_owner (work : List (String × Option DataLocation)) (s : PageOwner) :
    (resolveNonResident me owners work s).owner
      = (promotions me work).foldl (fun s k => (ensureResident me owners s [k]).owner) s := by
  induction work generalizing s with
  | nil => rfl
  | cons q rest ih =>
    obtain ⟨k, oloc⟩ := q
    cases oloc with
    | none => exact ih s
    | some loc =>
      rw [promotions_cons, resolveNonResident]
      by_cases hres : loc.resident = true
      · rw [if_pos hres, if_neg (fun hc => by cases hres.symm.trans hc.1)]
        exact ih s
      · rw [if_neg hres]
        by_cases hme : loc.nodeId = me
        · rw [if_pos hme, if_pos ⟨Bool.eq_false_iff.mpr hres, hme⟩]
          exact ih _
        · rw [if_neg hme, if_neg (fun hc => hme hc.2)]
          exact ih s

/-- **PROMOTIONS APART** evict no page of the batch. -/
lemma resolve_apart {batch : List String} {work : List (String × Option DataLocation)} {s : PageOwner}
    (h : AllApart me owners batch s (promotions me work)) :
    ∀ v ∈ (resolveNonResident me owners work s).evicted, v ∉ batch := by
  induction work generalizing s with
  | nil => exact fun v hv => absurd hv not_mem_nil
  | cons q rest ih =>
    obtain ⟨k, oloc⟩ := q
    cases oloc with
    | none => exact ih h
    | some loc =>
      rw [promotions_cons] at h
      rw [resolveNonResident]
      by_cases hres : loc.resident = true
      · rw [if_pos hres]
        rw [if_neg (fun hc => by cases hres.symm.trans hc.1)] at h
        exact ih h
      · rw [if_neg hres]
        by_cases hme : loc.nodeId = me
        · rw [if_pos hme]
          rw [if_pos ⟨Bool.eq_false_iff.mpr hres, hme⟩] at h
          intro v hv
          rcases mem_append.mp hv with hv | hv
          · have hone : v ∈ (ensureOne me owners s k).evicted := by
              rw [← append_nil (ensureOne me owners s k).evicted]
              exact hv
            obtain ⟨hout, data, hdata, hvict⟩ := ensureOne_evicted hone
            exact h.1.resolve_left hout data hdata v hvict
          · exact ih (h.2 _ rfl) v hv
        · rw [if_neg hme]
          rw [if_neg (fun hc => hme hc.2)] at h
          exact ih h

/-- **A BATCH THAT EVICTS NONE OF ITS OWN KEYS** has current locations when it is resolved. -/
lemma resolve_current (me : String) (work : List (String × Option DataLocation)) {s : PageOwner}
    (h : StoreInv owners safeName content keysUsed s) (hwork : ∀ q ∈ work, Located s.pool q)
    (hapart : ∀ q ∈ work, q.1 ∉ (resolveNonResident me owners work s).evicted) :
    List.Forall₂ (fun q new => Located (resolveNonResident me owners work s).owner.pool (q.1, new))
      work (resolveNonResident me owners work s).locs := by
  induction work generalizing s with
  | nil => exact List.Forall₂.nil
  | cons q rest ih =>
    obtain ⟨k, oloc⟩ := q
    obtain ⟨hhead, htail⟩ := forall_mem_cons.mp hwork
    cases oloc with
    | none =>
      have hrest := (forall_mem_cons.mp hapart).2
      exact List.Forall₂.cons nofun (ih h htail hrest)
    | some loc =>
      rw [resolveNonResident] at hapart ⊢
      by_cases hres : loc.resident = true
      · rw [if_pos hres] at hapart ⊢
        obtain ⟨hk, hrest⟩ := forall_mem_cons.mp hapart
        refine List.Forall₂.cons ?_ (ih h htail hrest)
        exact fun l hl hlr => current_of_effect (resolve_inv me rest h).2 (hhead l hl hlr) hk
      · rw [if_neg hres] at hapart ⊢
        by_cases hme : loc.nodeId = me
        · rw [if_pos hme] at hapart ⊢
          obtain ⟨hinv1, heff1, hcur⟩ := ensureResident_single me h k
          obtain ⟨hk, hrest⟩ := forall_mem_cons.mp hapart
          -- the promotion leaves the pages of the batch where they are
          have hwork1 : ∀ q ∈ rest, Located (ensureResident me owners s [k]).owner.pool q :=
            fun q hq l hl hlr => current_of_effect heff1 (htail q hq l hl hlr)
              (fun hev => hrest q hq (mem_append_left _ hev))
          refine List.Forall₂.cons ?_ (ih hinv1 hwork1
            (fun q hq hev => hrest q hq (mem_append_right _ hev)))
          exact fun l hl _ => current_of_effect (resolve_inv me rest hinv1).2 (hcur l hl)
            (fun hev => hk (mem_append_right _ hev))
        · rw [if_neg hme] at hapart ⊢
          have hrest := (forall_mem_cons.mp hapart).2
          exact List.Forall₂.cons nofun (ih h htail hrest)

/-- What is copied for a key is its content. -/
def Copies (content : String → Bytes) (k : String) (copied : Option Bytes) : Prop :=
  ∀ data, copied = some data → data = content k

lemma forall₂_zip_map {α β γ : Type} {R : α → β → Prop} {Q : α → γ → Prop} {f : α → β → γ}
    (hf : ∀ a b, R a b → Q a (f a b)) {l : List α} {m : List β} (h : List.Forall₂ R l m) :
    List.Forall₂ Q l ((l.zip m).map (fun q => f q.1 q.2)) := by
  induction h with
  | nil => exact List.Forall₂.nil
  | cons hab _ ih => exact List.Forall₂.cons (hf _ _ hab) ih

variable (me) in
/-- **A FETCH** that evicts none of its own keys copies contents. -/
lemma fetch_copies {s : PageOwner} (h : StoreInv owners safeName content keysUsed s)
    (queries : List (String × Nat))
    (hapart : ∀ k ∈ (fetch me owners s queries).evicted, k ∉ queries.map Prod.fst) :
    List.Forall₂ (fun q copied => Copies content q.1 copied) queries
      (fetch me owners s queries).copied := by
  have hzip : (queries.map Prod.fst).zip (get owners s.dir (queries.map Prod.fst))
      = queries.map (fun q => (q.1, view owners s.dir q.1)) := by
    rw [get_eq_view, List.map_map, List.zip_map']
    rfl
  rw [fetch] at hapart ⊢
  simp only [hzip] at hapart ⊢
  generalize hr : resolveNonResident me owners
    (queries.map (fun q => (q.1, view owners s.dir q.1))) s = r at hapart ⊢
  have hlocated : ∀ q ∈ queries.map (fun q => (q.1, view owners s.dir q.1)), Located s.pool q := by
    intro q hq loc hloc hres
    obtain ⟨x, -, rfl⟩ := mem_map.mp hq
    obtain ⟨node, hn, hnode⟩ := view_mem hloc
    exact (h.dir node x.1 loc hn hnode hres).1
  have hinv := (resolve_inv me (queries.map (fun q => (q.1, view owners s.dir q.1))) h).1
  have hcur := resolve_current me _ h hlocated (by
    intro q hq hev
    obtain ⟨x, hx, rfl⟩ := mem_map.mp hq
    rw [hr] at hev
    exact hapart x.1 hev (mem_map_of_mem hx))
  rw [hr] at hinv hcur
  refine forall₂_zip_map (f := fun q new => copyPage me r.owner.pool q.2 new) ?_
    (forall₂_map_left_iff.mp hcur)
  intro q new hnew data hdata
  cases new with
  | none => cases hdata
  | some loc =>
    rw [copyPage] at hdata
    by_cases hc : loc.resident ∧ loc.length = q.2 ∧ loc.nodeId = me
    · rw [if_pos hc] at hdata
      rw [← some.inj hdata]
      exact (hnew loc rfl hc.1).read (hinv.holds q.1)
    · rw [if_neg hc] at hdata; cases hdata

end

/-! ## Pages -/

lemma length_componentsOf (c : KeySpace) (k : String) :
    (componentsOf c k).length = multiplier c := by
  rw [componentsOf, multiplier]
  cases c.isMla with
  | true => rfl
  | false => rfl

lemma tagKeys_getElem? (c : KeySpace) {keys : List String} {i : Nat} {key : String}
    (h : keys[i]? = some key) : ∃ k, (tagKeys c keys)[i]? = some k ∧ tagKeys c [key] = [k] := by
  rw [tagKeys, tagKeys]
  by_cases ht : c.keyTag = ""
  · rw [if_pos ht, if_pos ht]; exact ⟨key, h, rfl⟩
  · rw [if_neg ht, if_neg ht]
    exact ⟨_, by rw [getElem?_map, h]; rfl, rfl⟩

variable {α β : Type} {m : Nat} {results : List Bool}

lemma slice_flatMap_elim {f : α → List β} (hf : ∀ x, (f x).length = m) (l : List α) (i : Nat) :
    ((l.flatMap f).drop (i * m)).take m = (l[i]?).elim [] f := by
  induction l generalizing i with
  | nil =>
    rw [flatMap_nil, drop_nil, take_nil]
    rfl
  | cons y l ih =>
    rw [flatMap_cons]
    cases i with
    | zero => rw [Nat.zero_mul, drop_zero, take_left' (hf y), getElem?_cons_zero,
        elim_some]
    | succ i => rw [Nat.succ_mul, Nat.add_comm, ← drop_drop, drop_left' (hf y), ih,
        getElem?_cons_succ]

variable {i : Nat}

lemma slice_flatMap {f : α → List β} (hf : ∀ x, (f x).length = m) {l : List α} {x : α}
    (hx : l[i]? = some x) : ((l.flatMap f).drop (i * m)).take m = f x := by
  rw [slice_flatMap_elim hf, hx, elim_some]

lemma pageResults_true {mult : Nat} (h : (pageResults results mult)[i]? = some true) :
    ((results.drop (i * mult)).take mult).all id = true := by
  rw [pageResults, List.getElem?_map] at h
  obtain ⟨j, hj, hall⟩ := map_eq_some_iff.mp h
  obtain ⟨_, hij⟩ := List.getElem?_eq_some_iff.mp hj
  rw [List.getElem_range] at hij
  rw [hij]
  exact hall

lemma length_componentKeys_single (c : KeySpace) (key : String) :
    (componentKeys c [key]).1.length = multiplier c := by
  have hhead : [key][0]? = some key := rfl
  obtain ⟨tagged, -, hone⟩ := tagKeys_getElem? c hhead
  show ((tagKeys c [key]).flatMap (componentsOf c)).length = _
  rw [hone, flatMap_singleton]
  exact length_componentsOf c tagged

lemma pageResults_replicate (c : KeySpace) :
    pageResults (List.replicate (multiplier c) true) (multiplier c) = [true] := by
  rw [multiplier]
  cases c.isMla with
  | true => rfl
  | false => rfl

lemma components_of_true {c : KeySpace} {keys : List String} {key : String} {P : String → Prop}
    (hlen : results.length = (componentKeys c keys).1.length)
    (hP : ∀ q ∈ (componentKeys c keys).1.zip results, q.2 = true → P q.1) (hi : keys[i]? = some key)
    (ht : (pageResults results (multiplier c))[i]? = some true) :
    ∀ k ∈ (componentKeys c [key]).1, P k := by
  obtain ⟨tagged, htag, hone⟩ := tagKeys_getElem? c hi
  have hslice := slice_flatMap (length_componentsOf c) htag
  have hall := all_eq_true.mp (pageResults_true ht)
  intro k hk
  rw [show (componentKeys c [key]).1 = componentsOf c tagged by
    show (tagKeys c [key]).flatMap (componentsOf c) = _
    rw [hone, flatMap_singleton]] at hk
  rw [← hslice] at hk
  obtain ⟨j, hj⟩ := mem_iff_getElem?.mp hk
  have hkeys : (componentKeys c keys).1[i * multiplier c + j]? = some k := by
    rw [getElem?_take] at hj
    split_ifs at hj
    rw [getElem?_drop] at hj
    exact hj
  have hjm : j < multiplier c := by
    by_contra hc
    rw [getElem?_take, if_neg hc] at hj
    cases hj
  have hlt : i * multiplier c + j < results.length := by
    rw [hlen]; exact (List.getElem?_eq_some_iff.mp hkeys).1
  obtain ⟨b, hb⟩ : ∃ b, results[i * multiplier c + j]? = some b := ⟨_, getElem?_eq_getElem hlt⟩
  have htrue : b = true := by
    refine hall b (mem_iff_getElem?.mpr ⟨j, ?_⟩)
    rw [getElem?_take, if_pos hjm, getElem?_drop]
    exact hb
  exact hP (k, b) (mem_of_getElem? (getElem?_zip_eq_some.mpr ⟨hkeys, hb⟩)) htrue

/-- Every page reported `True` reached its destination. -/
def TrueIsContent (c : KeySpace) (content : String → Bytes) (g : Got) : Prop :=
  ∀ i key, g.keys[i]? = some key → g.results[i]? = some true →
    (g.copied.drop (i * multiplier c)).take (multiplier c)
      = (componentKeys c [key]).1.map (fun k => some (content k))

lemma eq_contents_of_isSome {content : String → Bytes} {ks : List String}
    {copied : List (Option Bytes)} (h : List.Forall₂ (Copies content) ks copied)
    (hall : copied.all Option.isSome = true) : copied = ks.map (fun k => some (content k)) := by
  induction h with
  | nil => rfl
  | cons hk _ ih =>
    rw [all_cons, Bool.and_eq_true] at hall
    obtain ⟨data, hdata⟩ := isSome_iff_exists.mp hall.1
    rw [map_cons, ih hall.2, hdata, hk data hdata]

/-! ## Every run -/

section

variable {me : String} {owners : Owners} {c : KeySpace} {safeName : String → String}
  {content : String → Bytes} {keysUsed : Set String}

/-- **A GET** whose promotions stay apart from its pages. -/
lemma batchGetV1_content {s : PageOwner} (h : StoreInv owners safeName content keysUsed s)
    {keys : List String} {sizes : List Nat}
    (hapart : AllApart me owners (componentKeys c keys).1 s (promotions me
      ((componentKeys c keys).1.zip (get owners s.dir (componentKeys c keys).1)))) :
    TrueIsContent c content (batchGetV1 me owners c s keys sizes).1 := by
  intro i key hkey htrue
  rw [batchGetV1] at hkey htrue ⊢
  simp only at hkey htrue ⊢
  by_cases hlen : (componentKeys c keys).1.length = sizes.length
  · rw [if_pos hlen] at hkey htrue ⊢
    have hfst : ((componentKeys c keys).1.zip sizes).map Prod.fst = (componentKeys c keys).1 :=
      map_fst_zip hlen.le
    have hcopies := forall₂_map_left_iff.mpr
      (fetch_copies me h ((componentKeys c keys).1.zip sizes) ?_)
    swap
    · rw [fetch, hfst]
      exact resolve_apart hapart
    rw [hfst] at hcopies
    obtain ⟨k, hk, htag⟩ := tagKeys_getElem? c hkey
    -- the components of page `i` and what was copied for them
    have hslice := forall₂_take (multiplier c) (forall₂_drop (i * multiplier c) hcopies)
    have hcomp : (componentKeys c [key]).1 = componentsOf c k := by
      rw [componentKeys, htag]
      exact append_nil _
    rw [show ((componentKeys c keys).1.drop (i * multiplier c)).take (multiplier c) = componentsOf c k
      from slice_flatMap (length_componentsOf c) hk] at hslice
    rw [hcomp]
    refine eq_contents_of_isSome hslice ?_
    have hall := pageResults_true htrue
    rw [← List.map_drop, ← List.map_take, List.all_map] at hall
    exact hall
  · rw [if_neg hlen] at hkey htrue ⊢
    rw [getElem?_map] at htrue
    obtain ⟨_, -, hfalse⟩ := map_eq_some_iff.mp htrue
    cases hfalse

lemma storeInv_batchGetV1 {s : PageOwner} (h : StoreInv owners safeName content keysUsed s)
    (keys : List String) (sizes : List Nat) :
    StoreInv owners safeName content keysUsed (batchGetV1 me owners c s keys sizes).2 := by
  rw [batchGetV1]
  simp only
  split_ifs with hlen
  · exact (resolve_inv me _ h).1
  · exact h

lemma storeInv_batchSetV1 {s : PageOwner} (h : StoreInv owners safeName content keysUsed s)
    (keys : List String) (hkeys : ∀ k ∈ (componentKeys c keys).1, k ∈ keysUsed) :
    StoreInv owners safeName content keysUsed
      (batchSetV1 me owners c s keys ((componentKeys c keys).1.map content)).2 := by
  rw [batchSetV1]
  simp only
  rw [if_pos (length_map content).symm]
  exact storeInv_publishP2p h _ hkeys

/-- The invariant of runs: the node is sound and so was every answer. -/
structure RunInv (owners : Owners) (c : KeySpace) (safeName : String → String)
    (content : String → Bytes) (keysUsed : Set String) (s : Store) : Prop where
  store : StoreInv owners safeName content keysUsed s.owner
  gets : ∀ g ∈ s.gets, TrueIsContent c content g

/-- **ONE CALL** that promotes apart. -/
lemma call_runInv (hinj : Set.InjOn safeName keysUsed) {s : Store}
    (h : RunInv owners c safeName content keysUsed s) (a : Call)
    (hkeys : ∀ k ∈ (componentKeys c a.keys).1, k ∈ keysUsed)
    (hok : PromotesApart me owners c s a) :
    RunInv owners c safeName content keysUsed (call me owners c safeName content s a) := by
  cases a with
  | set keys => exact ⟨(storeInv_batchSetV1 h.store keys hkeys).drainDisk hinj, h.gets⟩
  | get keys sizes =>
    refine ⟨(storeInv_batchGetV1 h.store keys sizes).drainDisk hinj, ?_⟩
    intro g hg
    rcases mem_append.mp hg with hg | hg
    · exact h.gets g hg
    · obtain rfl := mem_singleton.mp hg
      exact batchGetV1_content h.store hok

end

/-- The component keys of a list of calls. -/
def keysOf (c : KeySpace) (calls : List Call) : Set String :=
  { k | ∃ a ∈ calls, k ∈ (componentKeys c a.keys).1 }

/-- **THE DISK TIER IS TRANSPARENT WHEN PROMOTIONS STAY APART.**  Any pool and disk capacity, any
    sequence of whole sets and gets: if no get evicts a page that it reads, every page reported
    `True` reached its destination. -/
theorem disk_tier_transparent_when_apart (me : String) (owners : Owners) (c : KeySpace)
    (safeName : String → String) (content : String → Bytes) (base capacity rkey : Nat)
    (rkeys : List Nat) (buf : Mem) (disk : Option Nat) (calls : List Call)
    (hinj : Set.InjOn safeName (keysOf c calls)) {s : Store}
    (hok : Guarded (step me owners c safeName content) (PromotesApart me owners c)
      (Store.init (new base capacity rkey rkeys buf) disk) calls)
    (hrun : Transition.run (step me owners c safeName content)
      (Store.init (new base capacity rkey rkeys buf) disk) calls = some s) :
    ∀ g ∈ s.gets, TrueIsContent c content g := by
  have hinit : RunInv owners c safeName content (keysOf c calls)
      (Store.init (new base capacity rkey rkeys buf) disk) :=
    ⟨storeInv_init (inv_new _ _ _ _ _) (holdsAll_new _ _ _ _ _) disk,
      fun _ hg => absurd hg not_mem_nil⟩
  refine (run_invariant ?_ hinit hok hrun).gets
  intro s a t ha h hsafe hstep
  obtain rfl := Option.some.inj hstep
  exact call_runInv hinj h a (fun k hk => ⟨a, ha, hk⟩) hsafe

/-- Keys as they are, one component each. -/
def plainKeys : KeySpace := ⟨"", true, "0", "0"⟩

/-- The byte of each page. -/
def onePerKey (k : String) : Bytes := if k = "a_0_k" then [1] else if k = "b_0_k" then [2] else [3]

/-- Three pages through a pool of two: `a` is on disk only. -/
def threeSets : List Call := [.set ["a"], .set ["b"], .set ["c"]]

/-- Reading `a` alone promotes it in the place of `b`, and both `a` and `c` are read. -/
theorem disk_tier_transparent_when_apart_promoted :
    ∃ s, Transition.run (step "n" (fun _ => ["n"]) plainKeys id onePerKey)
        (Store.init (new 100 2 7 [7] (fun _ => 0)) (some 100)) (threeSets ++ [.get ["c", "a"] [1, 1]])
          = some s
      ∧ s.gets.map Got.results = [[true, true]] ∧ ∀ g ∈ s.gets, TrueIsContent plainKeys onePerKey g := by
  cases hrun : Transition.run (step "n" (fun _ => ["n"]) plainKeys id onePerKey)
      (Store.init (new 100 2 7 [7] (fun _ => 0)) (some 100)) (threeSets ++ [.get ["c", "a"] [1, 1]]) with
  | none => exact absurd (congrArg Option.isSome hrun) (by decide +kernel)
  | some s =>
      refine ⟨s, rfl, ?_, disk_tier_transparent_when_apart "n" (fun _ => ["n"]) plainKeys id onePerKey
        100 2 7 [7] (fun _ => 0) (some 100) _ (Set.injOn_id _) (by decide +kernel) hrun⟩
      have hgets : (some s).map (fun s => s.gets.map Got.results) = some [[true, true]] := by
        rw [← hrun]
        decide +kernel
      exact Option.some.inj hgets

/-- **A PROMOTED PAGE DELIVERED FOR ANOTHER**: `a` and `b` are read in one batch that fits the pool.
    Promoting `a` evicts `b` and reuses its slot, and `b` is copied from where it was. -/
theorem promoted_page_delivered :
    onePerKey "b_0_k" = [2]
      ∧ (Transition.run (step "n" (fun _ => ["n"]) plainKeys id onePerKey)
          (Store.init (new 100 2 7 [7] (fun _ => 0)) (some 100))
          (threeSets ++ [.get ["a", "b"] [1, 1]])).map Store.gets
        = some [⟨["a", "b"], [some [1], some [1]], [true, true]⟩] := by
  exact ⟨by decide, by decide +kernel⟩

end PeerCacheP2pDisk
