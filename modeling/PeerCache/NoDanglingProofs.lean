import PeerCache.ClusterEntriesProofs
import PeerCache.BatchPlacesProofs

/-! # Dangling directory entries

    An entry is backed when the node it names has the page: in the pool, at the address and of
    the length it says, or, if it is not resident, in the index of the disk tier.  Entries are
    written by four paths, and three of them can leave one that is not backed. -/

namespace PeerCacheCluster

open PeerCachePool PeerCacheDirectory PeerCacheDisk PeerCacheOwner PeerCacheStorage OrderedDict
  PeerCacheStorageWrite Transition Option Function

open PeerCacheP2pDisk (KeySpace componentKeys publishP2p)

/-! ## When an operation is sound -/

/-- One page of a batch, with the keys before it. -/
def publishTurn (st : List String × PublishedPool String) (q : String × Bytes) :
    List String × PublishedPool String :=
  (q.1 :: st.1, (publish st.2 q.1 q.2).pool)

/-- The key is in the pool, or its page spares those handled so far. -/
def PageSpares (st : List String × PublishedPool String) (q : String × Bytes) : Prop :=
  q.1 ∈ st.2.entries.keys ∨ SparesHandled st.1 q.2.length st.2

instance (st : List String × PublishedPool String) (q : String × Bytes) :
    Decidable (PageSpares st q) :=
  inferInstanceAs (Decidable (_ ∨ _))

/-- Every page of the batch spares the pages before it. -/
abbrev PagesSpare (p : PublishedPool String) (pages : List (String × Bytes)) : Prop :=
  Guarded (fun st q => some (publishTurn st q)) PageSpares ([], p) pages

/-- The pages of a batch that the directory does not know. -/
def freshPages (owners : Owners) (dir : Shards) (pages : List (String × Bytes)) :
    List (String × Bytes) :=
  pages.filter (fun q => !(view owners dir q.1).isSome)

/-- A set is sound: a key has one length; and every page it publishes spares those before it, or
    there is a disk tier and none is too large for it. -/
def SetSound (owners : Owners) (s : PageOwner) (pages : List (String × Bytes)) :
    Prop :=
  (∀ q ∈ freshPages owners s.dir pages, ∀ x ∈ s.pool.entries.get? q.1, x.2 = q.2.length)
    ∧ (∀ q ∈ freshPages owners s.dir pages, ∀ r ∈ freshPages owners s.dir pages,
      q.1 = r.1 → q.2.length = r.2.length)
    ∧ (s.disk = none → PagesSpare s.pool (freshPages owners s.dir pages))
    ∧ ∀ d ∈ s.disk, ∀ q ∈ freshPages owners s.dir pages, q.2.length ≤ d.maxBytes

instance (disk : Option DiskStore) : Decidable (disk = none) :=
  decidable_of_iff (disk.isNone = true) Option.isNone_iff_eq_none

instance (owners : Owners) (s : PageOwner) (pages : List (String × Bytes)) :
    Decidable (SetSound owners s pages) :=
  inferInstanceAs (Decidable (_ ∧ _ ∧ _ ∧ _))

/-- The pages a set publishes, if the buffers match the keys. -/
def Op.pages (space : String → KeySpace) : Op → Option (String × List (String × Bytes))
  | .set me keys pages =>
      if (componentKeys (space me) keys).1.length = pages.length then
        some (me, (componentKeys (space me) keys).1.zip pages)
      else none
  | _ => none

/-- **SOUND OPERATIONS**: the sets are sound, and in a promote request every key spares those
    before it. -/
def Sound (owners : Owners) (space : String → KeySpace) (w : World) (a : Op) : Prop :=
  PromotesMeet owners space (fun c me keys => PromotesSpare me owners (c.node me) keys) w a
    ∧ ∀ q ∈ a.pages space, SetSound owners (w.cluster.node q.1) q.2

instance (owners : Owners) (space : String → KeySpace) (w : World) (a : Op) :
    Decidable (Sound owners space w a) :=
  inferInstanceAs (Decidable (_ ∧ _))

/-! ## The invariant -/

/-- What an entry says of the node it names. -/
structure Backs (h : Host) (k : String) (loc : DataLocation) : Prop where
  resident : loc.resident = true → Current h.pool k loc ∧ k ∈ h.keyLen.keys
  spilled : loc.resident = false → OnDisk h.disk k

/-- A node's own state: with a disk tier, every page of known length is on disk. -/
structure NodeOk (h : Host) : Prop where
  pool : Inv h.pool
  tidy : ∀ d ∈ h.disk, Tidy d
  lens : h.disk ≠ none → ∀ k ∈ h.keyLen.keys, OnDisk h.disk k

/-- Every entry is backed. -/
abbrev Backed (owners : Owners) : Cluster → Prop := Entries owners NodeOk Backs

section

variable {owners : Owners} {me : String} {w : Cluster} {s t : PageOwner}
  {stores : String → Bytes → Prop} {promotes : String → Prop}

lemma backed_keep (h : Backed owners (w.setNode me s)) (hnode : NodeOk (hostOf t))
    (hdir : t.dir = s.dir) (hcur : ∀ k loc, Current s.pool k loc → Current t.pool k loc)
    (hlen : ∀ k ∈ s.keyLen.keys, k ∈ t.keyLen.keys)
    (hdisk : ∀ k, OnDisk s.disk k → OnDisk t.disk k) : Backed owners (w.setNode me t) := by
  refine h.keep hnode hdir ?_
  intro k loc hb
  exact ⟨fun hr => ⟨hcur k loc (hb.resident hr).1, hlen k (hb.resident hr).2⟩,
    fun hr => hdisk k (hb.spilled hr)⟩

/-- **PUBLISHING A PAGE** keeps entries backed: an evicted page whose length is known is on disk. -/
lemma backed_publishPage (h : Backed owners (w.setNode me s)) (key : String) (data : Bytes) :
    Backed owners (w.setNode me (publishPage me owners s key data).owner) := by
  have hs := h.self
  have hpool : (publishPage me owners s key data).owner.pool = (publish s.pool key data).pool :=
    publishPage_pool s key data
  have hdisk : (publishPage me owners s key data).owner.disk = s.disk := publishPage_disk s key data
  have hlen : (publishPage me owners s key data).owner.keyLen = s.keyLen := publishPage_keyLen s key data
  refine h.publishPage key data ?_ ?_ ?_
  · rw [show hostOf (publishPage me owners s key data).owner
      = ⟨(publish s.pool key data).pool, s.disk, s.keyLen⟩ by rw [hostOf, hpool, hdisk, hlen]]
    exact ⟨inv_place hs.pool key _ _, hs.tidy, hs.lens⟩
  · intro k loc hb hgone
    rw [show hostOf (publishPage me owners s key data).owner
      = ⟨(publish s.pool key data).pool, s.disk, s.keyLen⟩ by rw [hostOf, hpool, hdisk, hlen]]
    refine ⟨?_, hb.spilled⟩
    intro hr
    obtain ⟨⟨x, hx, haddr, hlength⟩, hkl⟩ := hb.resident hr
    refine ⟨⟨x, place_get?_of_not_evicted hx ?_, haddr.trans ?_, hlength⟩, hkl⟩
    · exact fun hmem => get?_eq_none.mp (hgone hmem) hkl
    · exact congrArg (· + x.1) (place_region s.pool key _ _).base.symm
  · intro k length hd hl
    refine ⟨fun hr => (nomatch hr), fun _ => ?_⟩
    show OnDisk (publishPage me owners s key data).owner.disk k
    rw [hdisk]
    exact hs.lens hd k (mem_keys.mpr ⟨length, hl⟩)

/-- **EVERY STEP** keeps entries backed, if what is noted is not too large for the disk tier. -/
lemma backed_ownerStep (hstep : OwnerStep me owners stores promotes s t)
    (hfit : ∀ k data, stores k data → ∀ n, diskLimit s.disk = some n → data.length ≤ n)
    (h : Backed owners (w.setNode me s)) : Backed owners (w.setNode me t) := by
  have hs := h.self
  have hinv : Inv t.pool := inv_ownerStep hstep hs.pool
  have htidy : ∀ d ∈ t.disk, Tidy d := tidy_ownerStep hstep hs.tidy
  have hmono : ∀ k, OnDisk s.disk k → OnDisk t.disk k := fun k => onDisk_ownerStep hstep
  have hgrow : ∀ k ∈ s.keyLen.keys, k ∈ t.keyLen.keys := fun k => lens_ownerStep hstep
  cases hstep with
  | touch k =>
    refine backed_keep h ⟨hinv, htidy, hs.lens⟩ rfl ?_ hgrow hmono
    rintro j loc ⟨x, hx, haddr, hlen⟩
    refine ⟨x, (addressOf_get? s.pool k j).trans hx, haddr.trans ?_, hlen⟩
    exact congrArg (· + x.1) (addressOf_region s.pool k).base.symm
  | read k =>
    refine backed_keep h ⟨hinv, htidy, ?_⟩ (diskGet_dir s k) ?_ hgrow hmono
    · intro hd j hj
      have hd' : s.disk ≠ none := by
        intro hnone
        refine hd ?_
        show (s.diskGet k).2.disk = none
        rw [diskGet_disk, hnone]
        rfl
      refine hmono j (hs.lens hd' j ?_)
      show j ∈ s.keyLen.keys
      rw [← diskGet_keyLen s k]
      exact hj
    · intro j loc hc
      rw [diskGet_pool]
      exact hc
  | store k data _ | restore k data _ _ => exact backed_publishPage h k data
  | note k data hst =>
    refine backed_keep h ⟨hinv, htidy, ?_⟩ rfl (fun _ _ hc => hc) hgrow hmono
    intro hd j hj
    rcases mem_keys_set.mp hj with rfl | hj
    · -- the page just noted: it is on disk, or in the queue
      cases hdisk : s.disk with
      | none => exact absurd (show (noteStored s j data).disk = none by
          show s.disk.map _ = none; rw [hdisk]; rfl) hd
      | some d =>
        show OnDisk (s.disk.map _) j
        rw [hdisk]
        exact onDisk_put_self (hs.tidy d hdisk).inflight (hfit j data hst d.maxBytes (by rw [hdisk]; rfl))
    · refine hmono j (hs.lens ?_ j hj)
      intro hnone
      refine hd ?_
      show s.disk.map _ = none
      rw [show s.disk = none from hnone]
      rfl
  | noteLength k data _ hdata =>
    refine backed_keep h ⟨hinv, htidy, ?_⟩ rfl (fun _ _ hc => hc) hgrow hmono
    intro hd j hj
    rcases mem_keys_set.mp hj with rfl | hj
    · rw [diskGet_fst] at hdata
      obtain ⟨d, hdisk, hget⟩ := bind_eq_some_iff.mp hdata
      exact ⟨d, hdisk, .inl (get_some hget)⟩
    · exact hs.lens hd j hj

lemma backed_ownerSteps (hsteps : OwnerSteps me owners stores promotes s t)
    (hfit : ∀ k data, stores k data → ∀ n, diskLimit s.disk = some n → data.length ≤ n)
    (h : Backed owners (w.setNode me s)) : Backed owners (w.setNode me t) := by
  have hboth := OwnerSteps.keeps
    (P := fun u => Backed owners (w.setNode me u) ∧ diskLimit u.disk = diskLimit s.disk)
    (fun a b hab ha => ⟨backed_ownerStep hab (ha.2 ▸ hfit) ha.1,
      (diskLimit_ownerStep hab).trans ha.2⟩) hsteps ⟨h, rfl⟩
  exact hboth.1

/-! ## The operations -/

/-- **A TURN OF THE DISK WORKER.** -/
lemma backed_diskWork (h : Backed owners (w.setNode me s)) (safeName : String → String) :
    Backed owners (w.setNode me (diskWork owners safeName s)) := by
  have hs := h.self
  rw [diskWork]
  cases hd : s.disk with
  | none => exact h
  | some d =>
    have hdisk : ∀ k, OnDisk s.disk k → k ∉ (work safeName d).2 → OnDisk (some (work safeName d).1) k :=
      fun k hk hout => (onDisk_work safeName (hd ▸ hk)).resolve_right hout
    have hlen : ∀ k, k ∈ ((work safeName d).2.foldl erase s.keyLen).keys
        ↔ k ∈ s.keyLen.keys ∧ k ∉ (work safeName d).2 := by
      intro k
      rw [mem_keys, get?_foldl_erase, mem_keys]
      by_cases hk : k ∈ (work safeName d).2
      · simp [hk]
      · simp [hk]
    have htidy : ∀ d' ∈ some (work safeName d).1, Tidy d' := by
      intro d' hd'
      cases hd'
      exact tidy_work safeName (hs.tidy d hd)
    refine h.change ⟨hs.pool, htidy, ?_⟩ ?_
    · intro _ k hk
      obtain ⟨hk, hout⟩ := (hlen k).mp hk
      exact hdisk k (hs.lens (by show s.disk ≠ none; rw [hd]; exact fun h => (by cases h)) k hk) hout
    · intro node k loc hk
      obtain ⟨hold, hev⟩ := delete_get?_some hk
      refine .inl ⟨hold, ?_⟩
      intro _ hn hb
      exact ⟨fun hr => ⟨(hb.resident hr).1, (hlen k).mpr ⟨(hb.resident hr).2, hev hn⟩⟩,
        fun hr => hdisk k (hb.spilled hr) (hev hn)⟩

/-- **PROMOTING**: what is put is current, if every key spares those before it. -/
lemma backed_ensureResident (h : Backed owners (w.setNode me s)) {keys : List String}
    (hok : PromotesSpare me owners s keys) :
    Backed owners (w.setNode me (ensureResident me owners s keys).owner) := by
  refine (backed_ownerSteps (ensureLoop_chain me owners (fun _ _ => False) s keys)
    (fun _ _ hst => hst.elim) h).put ?_
  intro k loc hk
  obtain ⟨hme, hres, hlen, -⟩ := promotedOk_ensureLoop keys promotedOk_empty k loc hk
  exact ⟨hme, fun _ => ⟨(locationsValid_of_spares hok).put k loc hk, hlen⟩,
    fun hr => nomatch hres.symm.trans hr⟩

/-- A single key has none before it. -/
lemma promotesSpare_single (s : PageOwner) (key : String) : PromotesSpare me owners s [key] := by
  refine ⟨.inr fun data _ => ?_, fun _ _ => trivial⟩
  exact .inr (.inr (.inr (.inr fun _ hk => absurd hk List.not_mem_nil)))

/-- **A BATCH THAT SPARES ITS PAGES**: every page with an entry is still in the pool at the end. -/
lemma publishLoop_stays (me : String) (owners : Owners)
    (pages : List ((String × Bytes) × Admission)) {handled : List String}
    (entries : Locations) (hlast : HandledLast handled s.pool)
    (hspare : Guarded (fun st q => some (publishTurn st q)) PageSpares (handled, s.pool)
      ((pages.filter (fun q => q.2 = .fresh)).map Prod.fst))
    (hin : ∀ k ∈ entries.keys, k ∈ handled ∧ k ∈ s.pool.entries.keys) :
    ∀ k ∈ (publishLoop me owners pages s entries).entries.keys,
      k ∈ (publishLoop me owners pages s entries).owner.pool.entries.keys := by
  induction pages generalizing handled s entries with
  | nil => exact fun k hk => (hin k hk).2
  | cons q pages ih =>
    obtain ⟨⟨key, data⟩, adm⟩ := q
    cases adm with
    | refused | existing => exact ih _ hlast hspare hin
    | fresh =>
      obtain ⟨hone, hrest⟩ := hspare
      have hpool : (publishPage me owners s key data).owner.pool = (publish s.pool key data).pool :=
        publishPage_pool s key data
      -- a page handled before is still there
      have hstay : ∀ k ∈ entries.keys,
          k ∈ key :: handled ∧ k ∈ (publish s.pool key data).pool.entries.keys := by
        intro k hk
        obtain ⟨x, hx⟩ := mem_keys.mp (hin k hk).2
        exact ⟨.tail _ (hin k hk).1, mem_keys.mpr ⟨x, place_keeps hlast hone _ (hin k hk).1 hx⟩⟩
      rw [publishLoop]
      cases haddr : (publishPage me owners s key data).addr with
      | none =>
        exact ih _ (hpool ▸ handledLast_place hlast key _ _) (hpool ▸ hrest _ rfl) (hpool ▸ hstay)
      | some addr =>
        refine ih _ (hpool ▸ handledLast_place hlast key _ _) (hpool ▸ hrest _ rfl) ?_
        intro k hk
        show k ∈ key :: handled ∧ k ∈ (publishPage me owners s key data).owner.pool.entries.keys
        rw [hpool]
        rcases mem_keys_set.mp hk with rfl | hk
        · exact ⟨.head _, mem_keys.mpr ((place_addr haddr).imp fun _ he => he.1)⟩
        · exact hstay k hk

/-- **A SOUND SET.** -/
lemma backed_publishP2p (h : Backed owners (w.setNode me s)) {pages : List (String × Bytes)}
    (hok : SetSound owners s pages) :
    Backed owners (w.setNode me (publishP2p me owners s pages).owner) := by
  obtain ⟨hpool, hsame, hstay, hfits⟩ := hok
  rw [publishP2p_eq]
  generalize hps : (pages.map fun q => (q, if (view owners s.dir q.1).isSome then
    Admission.existing else Admission.fresh)) = ps
  have hfresh : ((ps.filter (fun q => q.2 = .fresh)).map Prod.fst) = freshPages owners s.dir pages := by
    rw [← hps, List.filter_map, List.map_map, freshPages]
    rw [show (Prod.fst ∘ fun q : String × Bytes => (q, if (view owners s.dir q.1).isSome then
      Admission.existing else Admission.fresh)) = id from rfl, List.map_id]
    refine List.filter_congr ?_
    intro q _
    cases hv : (view owners s.dir q.1).isSome with
    | false => simp [hv]
    | true => simp [hv]
  have hmem : ∀ q ∈ ps, q.2 = .fresh → q.1 ∈ freshPages owners s.dir pages := by
    intro q hq hf
    rw [← hfresh]
    exact List.mem_map.mpr ⟨q, List.mem_filter.mpr ⟨hq, decide_eq_true hf⟩, rfl⟩
  -- the loop and the lookups of the reconcile are one chain
  have hloop : OwnerSteps me owners (fun k data => (k, data) ∈ freshPages owners s.dir pages)
      (fun _ => False) s (publishLoop me owners ps s empty).owner :=
    publishLoop_steps ps (fun q hq hf => hmem q hq hf) s empty
  have hfit : ∀ k data, (k, data) ∈ freshPages owners s.dir pages →
      ∀ n, diskLimit s.disk = some n → data.length ≤ n := by
    intro k data hq n hn
    obtain ⟨d, hd, rfl⟩ := map_eq_some_iff.mp hn
    exact hfits d hd _ hq
  have hb := backed_ownerSteps hloop hfit h
  have hlength : ∀ k x, (publishLoop me owners ps s empty).owner.pool.entries.get? k
      = some x → ∀ q ∈ freshPages owners s.dir pages, q.1 = k → x.2 = q.2.length := by
    refine OwnerSteps.keeps (P := fun u => ∀ k x, u.pool.entries.get? k = some x →
      ∀ q ∈ freshPages owners s.dir pages, q.1 = k → x.2 = q.2.length) ?_ hloop ?_
    · intro a b hab ha k x hx q hq hk
      rcases entry_ownerStep hab hx with hold | ⟨data, hlen, hst | ⟨hf, -⟩⟩
      · exact ha k x hold q hq hk
      · rw [hlen]; exact hsame (k, data) hst q hq hk.symm
      · exact hf.elim
    · intro k x hx q hq hk
      subst hk
      exact hpool q hq x hx
  have hent : ∀ k old, (publishLoop me owners ps s empty).entries.get? k = some old → _ :=
    fun _ _ hold => (publishLoop_entries me owners ps s empty hold).resolve_left
      nofun
  have hkept := fun hnone => publishLoop_stays me owners ps empty
    (handledLast_nil s.pool) (hfresh ▸ hstay hnone) (fun _ hk => absurd hk List.not_mem_nil)
  rw [publishPages]
  generalize hr : publishLoop me owners ps s empty = r at *
  have hrec : OwnerSteps me owners (fun _ _ => False) (fun _ => False) r.owner
      (reconcile me r.entries.keys r.owner r.entries).2 := reconcile_steps _ _ _
  obtain ⟨heff, hdisk⟩ := ownerEffect_reconcile me owners (fun _ => []) r.entries.keys
    hb.self.pool r.entries
  refine (backed_ownerSteps hrec (fun _ _ hst => hst.elim) hb).put ?_
  intro k loc hk
  obtain ⟨old, hold, rfl⟩ := reconcile_entries hk
  obtain ⟨hme, hres, hkl, q, hq, hf, rfl, hlen⟩ := hent k old hold
  rw [settle]
  cases hx : r.owner.pool.entries.get? q.1.1 with
  | some x =>
    refine ⟨hme, fun _ => ⟨⟨x, heff.pool.keeps _ x hx List.not_mem_nil, ?_, ?_⟩,
      heff.lens _ hkl⟩, fun hr => by cases hres.symm.trans hr⟩
    · exact congrArg (· + x.1) heff.pool.region.base.symm
    · exact hlen.trans (hlength _ x hx q.1 (hmem q hq hf) rfl).symm
  | none =>
    refine ⟨rfl, fun hr => (by cases hr), fun _ => ?_⟩
    show OnDisk (reconcile me r.entries.keys r.owner r.entries).2.disk q.1.1
    rw [hdisk]
    refine hb.self.lens ?_ _ hkl
    intro hnone
    -- without a disk tier the page is still in the pool
    have hnone' : s.disk = none := by
      have hlim := OwnerSteps.keeps (P := fun u => diskLimit u.disk = diskLimit s.disk)
        (fun _ _ hab ha => (diskLimit_ownerStep hab).trans ha) hloop rfl
      rw [show r.owner.disk = none from hnone] at hlim
      exact map_eq_none_iff.mp hlim.symm
    exact get?_eq_none.mp hx (hkept hnone' _ (mem_keys.mpr ⟨old, hold⟩))

variable {space : String → KeySpace} {cap ttl : Nat} {safeName : String → String}

/-- **ONE SOUND OPERATION** keeps every entry backed. -/
lemma backed_step {w : World} {a : Op} (hok : Sound owners space w a) (h : Backed owners w.cluster) :
    Backed owners (step owners space cap ttl safeName w a).cluster := by
  have hself : ∀ (c : Cluster) (n : String), Backed owners c → Backed owners (c.setNode n (c.node n)) :=
    fun c n hc => (setNode_node c n).symm ▸ hc
  refine step_keeps ?_ ?_ ?_ ?_ ?_ h hok.1
  · intro n keys pages ha hlen
    subst ha
    refine backed_publishP2p (hself w.cluster n h) (hok.2 (n, _) ?_)
    show _ ∈ (if _ then _ else _ : Option _)
    rw [if_pos hlen]
    rfl
  · exact fun c n k hc => backed_ensureResident (hself c n hc) (promotesSpare_single _ k)
  · exact fun c n keys hc hstay => (backed_ensureResident (hself c n hc) hstay).delete _
  · intro c n k hc
    have htouch : OwnerStep n owners (fun _ _ => False) (fun _ => False) (c.node n)
        ((c.node n).setPool (addressOf (c.node n).pool k).2) := .touch _ k
    exact backed_ownerStep htouch (fun _ _ hst => hst.elim) (hself c n hc)
  · exact fun n _ => backed_diskWork (hself w.cluster n h) safeName

lemma backed_init (cfg : String → NodeConfig) : Backed owners (World.init cfg).cluster where
  node n := by
    refine ⟨inv_new _ _ _ _ _, ?_, fun _ _ hk => absurd hk List.not_mem_nil⟩
    intro d hd
    obtain ⟨m, -, rfl⟩ := map_eq_some_iff.mp hd
    exact tidy_empty m
  entry _ _ _ h := nomatch h

end

/-! ## Runs -/

/-- No write waits for a disk worker. -/
def Drained (w : Cluster) : Prop := ∀ n, ∀ d ∈ (w.hosts n).disk, d.queue = []

/-- Every directory entry is backed by the node it names. -/
def EntriesBacked (w : Cluster) : Prop :=
  ∀ node k loc, (w.dir node).get? k = some loc →
    (loc.resident = true → Current (w.hosts loc.nodeId).pool k loc)
      ∧ (loc.resident = false → ∃ d ∈ (w.hosts loc.nodeId).disk, k ∈ d.index.keys)

/-- **NO DANGLING ENTRY AFTER SOUND OPERATIONS**: for any nodes, any placement of the directory
    and any order of calls and turns of the disk workers, once these have nothing left to write. -/
theorem entries_backed_when_sound (owners : Owners) (space : String → KeySpace)
    (cap ttl : Nat) (safeName : String → String) (cfg : String → NodeConfig) (acts : List Op)
    (hok : Guarded (fun w a => some (step owners space cap ttl safeName w a)) (Sound owners space)
      (World.init cfg) acts)
    (hdrained : Drained (after owners space cap ttl safeName cfg acts).cluster) :
    EntriesBacked (after owners space cap ttl safeName cfg acts).cluster := by
  have hb : Backed owners (after owners space cap ttl safeName cfg acts).cluster :=
    foldl_invariant (P := fun w : World => Backed owners w.cluster)
      (fun w a _ hw ha => backed_step ha hw) (backed_init cfg) hok
  intro node k loc hk
  have hback := (hb.entry node k loc hk).2
  refine ⟨fun hr => (hback.resident hr).1, ?_⟩
  intro hr
  obtain ⟨d, hd, hin | hin⟩ := hback.spilled hr
  · exact ⟨d, hd, hin⟩
  · rw [hdrained _ d hd] at hin
    exact absurd hin List.not_mem_nil

/-! ## Two runs -/

/-- Pages of one component. -/
def mla : KeySpace := ⟨"", true, "r", ""⟩

/-- A pool of `pages` pages of one byte. -/
def smallPool (pages : Nat) : PeerCacheP2pRace.PoolConfig := ⟨0, pages, 0, [], fun _ => 0⟩

/-- Node `a` has room for one page in its pool and a disk tier, the others have no disk tier. -/
def oneDisk (n : String) : NodeConfig :=
  if n = "a" then ⟨smallPool 1, some 8⟩ else ⟨smallPool 4, none⟩

/-- Node `a` sets two pages, one after the other; `b` looks for both and reads one. -/
def setsAndReads : List Op :=
  [.set "a" ["p"] [[1]], .worker "a", .set "a" ["q"] [[2]], .worker "a", .exists "b" 0 ["p", "q"],
    .get "b" 1 ["p"] [1], .get "a" 2 ["q"] [1]]

theorem entries_backed_sets_and_reads :
    Guarded (fun w a => some (step (fun _ => ["a"]) (fun _ => mla) 8 4 id w a))
        (Sound (fun _ => ["a"]) (fun _ => mla)) (World.init oneDisk) setsAndReads
      ∧ EntriesBacked (after (fun _ => ["a"]) (fun _ => mla) 8 4 id oneDisk setsAndReads).cluster := by
  have hok : Guarded (fun w a => some (step (fun _ => ["a"]) (fun _ => mla) 8 4 id w a))
      (Sound (fun _ => ["a"]) (fun _ => mla)) (World.init oneDisk) setsAndReads := by
    decide +kernel
  refine ⟨hok, entries_backed_when_sound _ _ _ _ _ _ _ hok ?_⟩
  intro n d hd
  by_cases hn : n = "a"
  · subst hn
    have hq : ∀ d ∈ ((after (fun _ => ["a"]) (fun _ => mla) 8 4 id oneDisk setsAndReads).cluster.hosts
        "a").disk, d.queue = [] := by decide +kernel
    exact hq d hd
  · have hlimit := diskLimit_after (fun _ => ["a"]) (fun _ => mla) 8 4 id oneDisk setsAndReads n
    rw [show (oneDisk n).disk = none by rw [oneDisk, if_neg hn]] at hlimit
    exact nomatch (map_eq_none_iff.mp hlimit).symm.trans hd

/-- Two pages in one batch, on a node without a disk tier and with room for one page: the entry of
    the first names a page that is nowhere. -/
theorem dangling_without_disk :
    Drained (after (fun _ => ["a"]) (fun _ => mla) 8 4 id (fun _ => ⟨smallPool 1, none⟩)
        [.set "a" ["p", "q"] [[1], [2]]]).cluster
      ∧ ¬ EntriesBacked (after (fun _ => ["a"]) (fun _ => mla) 8 4 id (fun _ => ⟨smallPool 1, none⟩)
        [.set "a" ["p", "q"] [[1], [2]]]).cluster := by
  have hnone : ∀ n, ((after (fun _ => ["a"]) (fun _ => mla) 8 4 id (fun _ => ⟨smallPool 1, none⟩)
      [.set "a" ["p", "q"] [[1], [2]]]).cluster.hosts n).disk = none :=
    fun n => map_eq_none_iff.mp (diskLimit_after _ _ _ _ _ _ _ n)
  have hentry : ((after (fun _ => ["a"]) (fun _ => mla) 8 4 id (fun _ => ⟨smallPool 1, none⟩)
      [.set "a" ["p", "q"] [[1], [2]]]).cluster.dir "a").get? "p_r_k" = some (nonResident "a" 1) := by
    decide +kernel
  constructor
  · intro n d hd
    exact nomatch (hnone n).symm.trans hd
  · intro h
    obtain ⟨d, hd, -⟩ := (h "a" "p_r_k" _ hentry).2 rfl
    exact nomatch (hnone _).symm.trans hd

end PeerCacheCluster
