import PeerCache.StorageWriteProofs

/-! # `_publish_storage` — the whole batch, group after group

    The groups of a batch go to different owners one after the other, so a group leaves the
    pools of the other owners alone and names pages of its own keys only. -/

namespace PeerCacheStorageWrite

open PeerCachePool PeerCacheDirectory PeerCacheDisk PeerCacheOwner PeerCacheStorage Tiling
  Function List

section

variable {o : String} {owners : Owners} {content : String → Bytes} {mem : Mem}

/-! ## All groups -/

/-- What is known of a group: its pages, and that it goes to their owner. -/
structure GroupOk (content : String → Bytes) (mem : Mem) (dataOwner : String → Option String)
    (pages : List Page) (g : String × List (Page × Nat)) : Prop where
  sized : SizedPages content g.2
  bytes : BytesOf content mem g.2
  index : ∀ q ∈ g.2, pages[q.2]? = some q.1
  owner : ∀ q ∈ g.2, dataOwner q.1.key = some g.1

section groups

variable {pages : List Page} {reachable : String → Bool} {faults : String → Faults}
  {dataOwner : String → Option String}

lemma publishGroup_cases (owners : Owners) (mem : Mem) (pages : List Page)
    (reachable : String → Bool) (faults : String → Faults) (results : List Bool) (w : Cluster)
    (g : String × List (Page × Nat)) :
    ∃ prep, prep = prepareGroup g.1 owners (w.node g.1) g.2
      ∧ (publishGroup owners mem pages reachable faults (results, w) g = (results, w)
        ∨ publishGroup owners mem pages reachable faults (results, w) g
            = (results, w.setNode g.1 prep.owner)
        ∨ (reachable g.1 = true ∧ (faults g.1).prepare = .answered
          ∧ publishGroup owners mem pages reachable faults (results, w) g
            = ((writeGroup owners mem pages g.1 (faults g.1) g.2 prep results).1, w.setNode g.1
                (writeGroup owners mem pages g.1 (faults g.1) g.2 prep results).2))) := by
  refine ⟨_, rfl, ?_⟩
  rw [publishGroup]
  simp only [dataPrepareWrites_eq]
  split_ifs with hr
  · cases hp : (faults g.1).prepare with
    | lostRequest => exact .inl rfl
    | lostReply => exact .inr (.inl rfl)
    | answered => exact .inr (.inr ⟨hr, rfl, rfl⟩)
  · exact .inl rfl

variable {w : Cluster} {results : List Bool} {g : String × List (Page × Nat)} {k : String}
  {dir : Shards}

lemma inv_setNode (h : ∀ n, Inv (w.hosts n).pool) {o : String} {s : PageOwner} (hs : Inv s.pool) :
    ∀ n, Inv ((w.setNode o s).hosts n).pool := by
  intro n
  show Inv (update w.hosts o ⟨s.pool, s.disk, s.keyLen⟩ n).pool
  by_cases hn : n = o
  · rw [hn, update_self]; exact hs
  · rw [update_of_ne hn]; exact h n

variable (owners reachable faults)

/-- **A GROUP** keeps every pool sound, and names pages of its own keys only. -/
lemma publishGroup_inv (hg : GroupOk content mem dataOwner pages g)
    (h : ∀ n, Inv (w.hosts n).pool) :
    (∀ n, Inv ((publishGroup owners mem pages reachable faults (results, w) g).2.hosts n).pool)
      ∧ Names g.1 (g.2.map (fun q => q.1.key)) w.dir
          (publishGroup owners mem pages reachable faults (results, w) g).2.dir := by
  obtain ⟨_, rfl, hcases⟩ := publishGroup_cases owners mem pages reachable faults results w g
  have heff : OwnerEffect owners content (w.node g.1)
      (prepareGroup g.1 owners (w.node g.1) g.2).owner _ _ :=
    ownerEffect_prepareLoop _ owners _ (request_sized hg.sized) (h g.1)
  have hnames : Names g.1 (g.2.map (fun q => q.1.key)) w.dir
      (prepareGroup g.1 owners (w.node g.1) g.2).owner.dir :=
    fun node k loc hk hres => .inl (heff.resident node k loc hk hres).1
  rcases hcases with heq | heq | ⟨-, -, heq⟩
  · rw [heq]; exact ⟨h, Names.refl _ _ _⟩
  · rw [heq]; exact ⟨inv_setNode h heff.pool.inv, hnames⟩
  · rw [heq]
    obtain ⟨⟨ev, hgroup⟩, hgnames⟩ := writeGroup_spec (o := g.1) heff.pool.inv hg.bytes
    exact ⟨inv_setNode h hgroup.inv, hnames.trans hgnames⟩

lemma publishGroup_hosts (results : List Bool) (w : Cluster) {o : String} (hne : g.1 ≠ o) :
    (publishGroup owners mem pages reachable faults (results, w) g).2.hosts o = w.hosts o := by
  obtain ⟨prep, -, heq | heq | ⟨-, -, heq⟩⟩ :=
    publishGroup_cases owners mem pages reachable faults results w g
  · rw [heq]
  · rw [heq]; exact update_of_ne (Ne.symm hne) _ _
  · rw [heq]; exact update_of_ne (Ne.symm hne) _ _

lemma publishGroup_unreported (hidx : ∀ q ∈ g.2, pages[q.2]? = some q.1)
    (hk : ∀ q ∈ g.2, q.1.key ≠ k) (h : Unreported pages k results) :
    Unreported pages k (publishGroup owners mem pages reachable faults (results, w) g).1 := by
  obtain ⟨prep, -, heq | heq | ⟨-, -, heq⟩⟩ :=
    publishGroup_cases owners mem pages reachable faults results w g
  · rw [heq]; exact h
  · rw [heq]; exact h
  · rw [heq]
    intro i p hp hpk htrue
    rcases writeGroup_true hidx htrue with htrue | ⟨p', hp', hmem⟩
    · exact h i p hp hpk htrue
    · obtain rfl := Option.some.inj (hp.symm.trans hp')
      obtain ⟨q, hq, hqk⟩ := mem_map.mp hmem
      exact hk q hq (hqk.trans hpk)

/-- The group is harmless to the key, if its prepare is answered. -/
def GroupHarmless (owners : Owners) (mem : Mem) (content : String → Bytes)
    (pages : List Page) (reachable : String → Bool) (faults : String → Faults)
    (acc : List Bool × Cluster) (g : String × List (Page × Nat)) (k : String) : Prop :=
  reachable g.1 = true → (faults g.1).prepare = .answered →
    Harmless owners mem content pages g.1 (faults g.1) (acc.2.node g.1) g.2 acc.1 k

/-- **THE GROUP OF THE KEY'S OWNER.** -/
lemma publishGroup_keeps (hg : GroupOk content mem dataOwner pages g) (hi : Inv (w.hosts g.1).pool)
    (hfalse : Unreported pages k results)
    (hsafe : GroupHarmless owners mem content pages reachable faults (results, w) g k) :
    HoldsFor content
        ((publishGroup owners mem pages reachable faults (results, w) g).2.hosts g.1).pool k
      ∨ Unreported pages k (publishGroup owners mem pages reachable faults (results, w) g).1 := by
  obtain ⟨prep, rfl, heq | heq | ⟨hreach, hprep, heq⟩⟩ :=
    publishGroup_cases owners mem pages reachable faults results w g
  · rw [heq]; exact .inr hfalse
  · rw [heq]; exact .inr hfalse
  · rw [heq]
    refine (writeGroup_keeps (s := w.node g.1) hi hg.sized hg.bytes hg.index hfalse
      (hsafe hreach hprep)).imp_left ?_
    intro hholds
    show HoldsFor content (update w.hosts g.1 _ g.1).pool k
    rw [update_self]
    exact hholds

variable {owners reachable faults}

/-! ## `pending` -/

lemma pending_spec (h : g ∈ (pending owners dir dataOwner pages).items) :
    (∀ q ∈ g.2, pages[q.2]? = some q.1) ∧ ∀ q ∈ g.2, dataOwner q.1.key = some g.1 := by
  have hmem : ∀ q ∈ g.2, pages[q.2]? = some q.1 ∧ dataOwner q.1.key = some g.1 := by
    intro q hq
    rw [mem_pending h] at hq
    obtain ⟨hz, hgo⟩ := mem_filter.mp hq
    rw [goesTo, Bool.and_eq_true, decide_eq_true_eq] at hgo
    exact ⟨mem_zipIdx_iff_getElem?.mp hz, hgo.2⟩
  exact ⟨fun q hq => (hmem q hq).1, fun q hq => (hmem q hq).2⟩

lemma groupOk_pending (hbytes : ∀ p ∈ pages, mem.read p.ptr p.size = content p.key)
    (h : g ∈ (pending owners dir dataOwner pages).items) :
    GroupOk content mem dataOwner pages g := by
  obtain ⟨hplace, howner⟩ := pending_spec h
  have hread : ∀ q ∈ g.2, mem.read q.1.ptr q.1.size = content q.1.key :=
    fun q hq => hbytes q.1 (mem_of_getElem? (hplace q hq))
  refine ⟨?_, hread, hplace, howner⟩
  intro q hq
  rw [← hread q hq, Mem.length_read]

/-! ## The whole call -/

variable (owners reachable faults)

variable {acc : List Bool × Cluster}

variable (mem acc) in
lemma publishGroups_unreported {groups : List (String × List (Page × Nat))}
    (hgroups : ∀ g ∈ groups, ∀ q ∈ g.2, pages[q.2]? = some q.1)
    (hothers : ∀ g ∈ groups, ∀ q ∈ g.2, q.1.key ≠ k) (h : Unreported pages k acc.1) :
    Unreported pages k (groups.foldl (publishGroup owners mem pages reachable faults) acc).1 := by
  induction groups generalizing acc with
  | nil => exact h
  | cons g groups ih =>
    obtain ⟨hg, htail⟩ := forall_mem_cons.mp hgroups
    obtain ⟨hkey, hrest⟩ := forall_mem_cons.mp hothers
    exact ih _ htail hrest (publishGroup_unreported owners reachable faults hg hkey h)

/-- The page of the key is named by `o` only, at one shard. -/
def NamedBy (o k node : String) (dir : Shards) : Prop :=
  ∀ loc, (dir node).get? k = some loc → loc.resident = true → loc.nodeId = o

lemma NamedBy.names {o o' node : String} {keys : List String} {d e : Shards}
    (h : NamedBy o k node d) (hn : Names o' keys d e) (hk : k ∈ keys → o' = o) :
    NamedBy o k node e := by
  intro loc hloc hres
  rcases hn node k loc hloc hres with hold | ⟨hid, hmem⟩
  · exact h loc hold hres
  · exact hid.trans (hk hmem)

lemma publishGroups_others {groups : List (String × List (Page × Nat))} {o node : String}
    (hgroups : ∀ g ∈ groups, GroupOk content mem dataOwner pages g)
    (hothers : ∀ g ∈ groups, g.1 ≠ o ∧ ∀ q ∈ g.2, q.1.key ≠ k)
    (hi : ∀ n, Inv (acc.2.hosts n).pool) (hnamed : NamedBy o k node acc.2.dir)
    {last : List Bool × Cluster}
    (hend : groups.foldl (publishGroup owners mem pages reachable faults) acc = last) :
    (∀ n, Inv (last.2.hosts n).pool) ∧ last.2.hosts o = acc.2.hosts o
      ∧ NamedBy o k node last.2.dir := by
  induction groups generalizing acc with
  | nil =>
    cases hend
    exact ⟨hi, rfl, hnamed⟩
  | cons g groups ih =>
    obtain ⟨hg, htail⟩ := forall_mem_cons.mp hgroups
    obtain ⟨⟨hne, hkey⟩, hrest⟩ := forall_mem_cons.mp hothers
    obtain ⟨hinv, hnames⟩ := publishGroup_inv owners reachable faults hg hi
    have hnamed' := hnamed.names hnames (fun hmem => by
      obtain ⟨q, hq, hqk⟩ := mem_map.mp hmem
      exact absurd hqk (hkey q hq))
    obtain ⟨hi', hhost, hnamed''⟩ := ih htail hrest hinv hnamed' hend
    refine ⟨hi', hhost.trans ?_, hnamed''⟩
    exact publishGroup_hosts owners reachable faults acc.1 acc.2 hne

/-- **ALL GROUPS**, one of them with the key. -/
lemma publishGroups_keeps {l₁ l₂ : List (String × List (Page × Nat))} {node : String}
    (hnodup : ((l₁ ++ g :: l₂).map Prod.fst).Nodup)
    (hgroups : ∀ h ∈ l₁ ++ g :: l₂, GroupOk content mem dataOwner pages h)
    (hk : dataOwner k = some g.1) (acc : List Bool × Cluster)
    (hi : ∀ n, Inv (acc.2.hosts n).pool) (hfalse : Unreported pages k acc.1)
    (hnamed : NamedBy g.1 k node acc.2.dir)
    (hsafe : GroupHarmless owners mem content pages reachable faults
      (l₁.foldl (publishGroup owners mem pages reachable faults) acc) g k)
    {last : List Bool × Cluster}
    (hend : (l₁ ++ g :: l₂).foldl (publishGroup owners mem pages reachable faults) acc = last) :
    NamedBy g.1 k node last.2.dir
      ∧ (HoldsFor content (last.2.hosts g.1).pool k ∨ Unreported pages k last.1) := by
  -- the key has one owner, so the other groups are of other keys
  have hothers : ∀ h ∈ l₁ ++ g :: l₂, h.1 ≠ g.1 → h.1 ≠ g.1 ∧ ∀ q ∈ h.2, q.1.key ≠ k := by
    intro h hmem hne
    refine ⟨hne, fun q hq hqk => hne ?_⟩
    have hq' := (hgroups h hmem).owner q hq
    rw [hqk, hk] at hq'
    exact (Option.some.inj hq').symm
  rw [map_append, map_cons] at hnodup
  obtain ⟨-, hnodup₂, hdisj⟩ := nodup_append.mp hnodup
  obtain ⟨hok₁, hok₂⟩ := forall_mem_append.mp hgroups
  obtain ⟨hothers₁, hothers₂⟩ := forall_mem_append.mp hothers
  have h₁ : ∀ h ∈ l₁, h.1 ≠ g.1 ∧ ∀ q ∈ h.2, q.1.key ≠ k := fun h hmem =>
    hothers₁ h hmem (hdisj h.1 (mem_map_of_mem hmem) g.1 (.head _))
  have h₂ : ∀ h ∈ l₂, h.1 ≠ g.1 ∧ ∀ q ∈ h.2, q.1.key ≠ k := fun h hmem =>
    hothers₂ h (.tail _ hmem) (fun heq => (nodup_cons.mp hnodup₂).1 (heq ▸ mem_map_of_mem hmem))
  obtain ⟨hg, htail⟩ := forall_mem_cons.mp hok₂
  rw [foldl_append, foldl_cons] at hend
  have hfalse₁ := publishGroups_unreported owners mem reachable faults acc
    (fun h hmem => (hok₁ h hmem).index) (fun h hmem => (h₁ h hmem).2) hfalse
  obtain ⟨hi₁, -, hnamed₁⟩ := publishGroups_others owners reachable faults hok₁ h₁ hi hnamed rfl
  generalize l₁.foldl (publishGroup owners mem pages reachable faults) acc = acc₁
    at hi₁ hnamed₁ hfalse₁ hsafe hend
  have hkeep : _ ∨ Unreported pages k (publishGroup owners mem pages reachable faults acc₁ g).1 :=
    publishGroup_keeps owners reachable faults hg (hi₁ g.1) hfalse₁ hsafe
  obtain ⟨hi₂, hnames₂⟩ :
      (∀ n, Inv ((publishGroup owners mem pages reachable faults acc₁ g).2.hosts n).pool)
        ∧ Names g.1 (g.2.map (fun q => q.1.key)) acc₁.2.dir
            (publishGroup owners mem pages reachable faults acc₁ g).2.dir :=
    publishGroup_inv owners reachable faults hg hi₁
  obtain ⟨-, hhost, hnamed₃⟩ := publishGroups_others owners reachable faults htail h₂ hi₂
    (hnamed₁.names hnames₂ (fun _ => rfl)) hend
  refine ⟨hnamed₃, ?_⟩
  rcases hkeep with hholds | hun
  · exact .inl (hhost ▸ hholds)
  · rw [← hend]
    exact .inr (publishGroups_unreported owners mem reachable faults _
      (fun h hmem => (htail h hmem).index) (fun h hmem => (h₂ h hmem).2) hun)

end groups

end

/-- One storage node with room for one page of one byte, zeroed. -/
def oneNode : Cluster :=
  ⟨fun _ => ⟨new 100 1 7 [7] (fun _ => 0), none, OrderedDict.empty⟩, fun _ => OrderedDict.empty⟩

/-- Two pages of one byte. -/
def twoPages : List Page := [⟨"k", 0, 1⟩, ⟨"l", 1, 1⟩]

/-- The client's memory: the bytes `1` and `2`, and so on. -/
def countUp : Mem := fun a => UInt8.ofNat (a + 1)

/-- Nothing fails but the WRITEs, all as given. -/
def onlyWrite (out : WriteOutcome) : String → Faults :=
  fun _ => ⟨.answered, fun _ => out, [0, 1], .answered, .answered⟩

/-- The call with the WRITEs ending as given. -/
def writePages (out : WriteOutcome) (pages : List Page) : List Bool × Cluster :=
  publishStorage (fun _ => ["s"]) countUp ["s"] (fun _ => some "s") (fun _ => true) (onlyWrite out)
    oneNode pages

/-- Where a page goes. -/
def pageLocation : DataLocation := ⟨"s", 100, 7, 1, true⟩

/-- A WRITE that leaves `9` in its slot. -/
def nine : WriteOutcome := .failed (fun _ => 9)

end PeerCacheStorageWrite
