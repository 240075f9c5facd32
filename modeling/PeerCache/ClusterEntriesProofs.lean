import PeerCache.P2pClusterProofs

/-! # Directory entries and the nodes they name

    Two ways to speak of the entries of a cluster.  `Entries` relates every entry to the node it
    names; an operation at one node is checked against its own entries only
    (`Entries.change`).  `Named`, `OnlyNames` and `Agree` are about the entries of one key in
    all its shards, and about what a chain of steps at one node does to them. -/

namespace PeerCacheCluster

open PeerCachePool PeerCacheDirectory PeerCacheDisk PeerCacheOwner PeerCacheStorage
  PeerCacheStorageWrite Transition

/-! ## Entries and nodes -/

/-- Every node is `NodeP`, and every entry is in a shard of its key and `EntryP` for the node that
    it names. -/
structure Entries (owners : Owners) (NodeP : Host → Prop)
    (EntryP : Host → String → DataLocation → Prop) (w : Cluster) : Prop where
  node : ∀ n, NodeP (w.hosts n)
  entry : ∀ node k loc, (w.dir node).get? k = some loc →
    node ∈ owners k ∧ EntryP (w.hosts loc.nodeId) k loc

namespace Entries

variable {owners : Owners} {me : String} {w : Cluster} {s t : PageOwner}
  {NodeP : Host → Prop} {EntryP : Host → String → DataLocation → Prop}

lemma self (h : Entries owners NodeP EntryP (w.setNode me s)) : NodeP (hostOf s) := by
  rw [← setNode_hosts_self w me s]
  exact h.node me

/-- **CHANGING ONE NODE**: its own entries are kept or are right anew, the others stay. -/
lemma change (h : Entries owners NodeP EntryP (w.setNode me s)) (hnode : NodeP (hostOf t))
    (hentry : ∀ node k loc, (t.dir node).get? k = some loc →
      ((s.dir node).get? k = some loc ∧ (loc.nodeId = me → node ∈ owners k → EntryP (hostOf s) k loc →
          EntryP (hostOf t) k loc))
        ∨ (node ∈ owners k ∧ loc.nodeId = me ∧ EntryP (hostOf t) k loc)) :
    Entries owners NodeP EntryP (w.setNode me t) where
  node := by
    intro n
    by_cases hn : n = me
    · rw [hn, setNode_hosts_self]; exact hnode
    · rw [setNode_hosts_ne w hn, ← setNode_hosts_ne w hn s]; exact h.node n
  entry := by
    intro node k loc hk
    rcases hentry node k loc hk with ⟨hold, hback⟩ | ⟨hn, hme, hback⟩
    · obtain ⟨hn, hs⟩ := h.entry node k loc hold
      refine ⟨hn, ?_⟩
      by_cases hme : loc.nodeId = me
      · rw [hme, setNode_hosts_self] at hs ⊢; exact hback hme hn hs
      · rw [setNode_hosts_ne w hme] at hs ⊢; exact hs
    · refine ⟨hn, ?_⟩
      rw [hme, setNode_hosts_self]
      exact hback

lemma keep (h : Entries owners NodeP EntryP (w.setNode me s)) (hnode : NodeP (hostOf t))
    (hdir : t.dir = s.dir) (hentry : ∀ k loc, EntryP (hostOf s) k loc → EntryP (hostOf t) k loc) :
    Entries owners NodeP EntryP (w.setNode me t) := by
  refine h.change hnode ?_
  intro node k loc hk
  rw [hdir] at hk
  exact .inl ⟨hk, fun _ _ hb => hentry k loc hb⟩

/-- **PUT** of entries that are right. -/
lemma put (h : Entries owners NodeP EntryP (w.setNode me s))
    {entries : Locations}
    (hent : ∀ k loc, entries.get? k = some loc → loc.nodeId = me ∧ EntryP (hostOf s) k loc) :
    Entries owners NodeP EntryP
      (w.setNode me (s.setDir (PeerCacheDirectory.put owners s.dir entries))) := by
  refine h.change h.self ?_
  intro node k loc hk
  rcases put_get?_cases hk with ⟨hn, hput⟩ | ⟨hold, -⟩
  · exact .inr ⟨hn, hent k loc hput⟩
  · exact .inl ⟨hold, fun _ _ hb => hb⟩

lemma delete (h : Entries owners NodeP EntryP (w.setNode me s)) (keys : List String) :
    Entries owners NodeP EntryP
      (w.setNode me (s.setDir (PeerCacheDirectory.delete owners s.dir keys))) := by
  refine h.change h.self ?_
  intro node k loc hk
  exact .inl ⟨(delete_get?_some hk).1, fun _ _ hb => hb⟩

/-- **PUBLISHING A PAGE**: the entries of the pages it evicts are dropped, or become those of
    pages on disk.  `EntryP` is to hold for the latter, and to survive for pages that stay. -/
lemma publishPage (h : Entries owners NodeP EntryP (w.setNode me s)) (key : String)
    (data : Bytes) (hnode : NodeP (hostOf (PeerCacheOwner.publishPage me owners s key data).owner))
    (hstay : ∀ k loc, EntryP (hostOf s) k loc →
      (k ∈ (publish s.pool key data).evicted → s.keyLen.get? k = none) →
      EntryP (hostOf (PeerCacheOwner.publishPage me owners s key data).owner) k loc)
    (hspill : ∀ k length, s.disk ≠ none → s.keyLen.get? k = some length →
      EntryP (hostOf (PeerCacheOwner.publishPage me owners s key data).owner) k
        (nonResident me length)) :
    Entries owners NodeP EntryP
      (w.setNode me (PeerCacheOwner.publishPage me owners s key data).owner) := by
  refine h.change hnode ?_
  intro node k loc hk
  have hk' := (onPoolEvict_get? (s.setPool (publish s.pool key data).pool)
    (publish s.pool key data).evicted node k).symm.trans hk
  split_ifs at hk' with hev
  · rw [evictedEntry] at hk'
    cases hd : s.disk with
    | none =>
      rw [show (s.setPool (publish s.pool key data).pool).disk = none from hd] at hk'
      cases hk'
    | some d =>
      rw [show (s.setPool (publish s.pool key data).pool).disk = some d from hd] at hk'
      cases hl : s.keyLen.get? k with
      | none =>
        rw [show (s.setPool (publish s.pool key data).pool).keyLen.get? k = none from hl] at hk'
        exact .inl ⟨hk', fun _ _ hb => hstay k loc hb (fun _ => hl)⟩
      | some length =>
        rw [show (s.setPool (publish s.pool key data).pool).keyLen.get? k = some length from hl]
          at hk'
        cases hk'
        refine .inr ⟨hev.2, rfl, hspill k length ?_ hl⟩
        rw [hd]
        rintro ⟨⟩
  · refine .inl ⟨hk', ?_⟩
    intro _ hn hb
    exact hstay k loc hb (fun hmem => absurd ⟨hmem, hn⟩ hev)

end Entries

/-! ## What the directory says of a key -/

/-- Every shard of the key has an entry that names the node. -/
def Named (owners : Owners) (dir : Shards) (k n : String) : Prop :=
  ∀ node ∈ owners k, ∃ loc, (dir node).get? k = some loc ∧ loc.nodeId = n

/-- An entry of the key, if there is one, names the node. -/
def OnlyNames (owners : Owners) (dir : Shards) (k n : String) : Prop :=
  ∀ node ∈ owners k, ∀ loc, (dir node).get? k = some loc → loc.nodeId = n

/-- The shards of a key agree. -/
def Agree (owners : Owners) (dir : Shards) : Prop :=
  ∀ k, ∀ node ∈ owners k, ∀ node' ∈ owners k, (dir node).get? k = (dir node').get? k

section

variable {owners : Owners} {dir : Shards} {k n m : String}

lemma Named.unique (hring : owners k ≠ []) (h : Named owners dir k n)
    (h' : OnlyNames owners dir k m) : n = m := by
  obtain ⟨node, hnode⟩ := List.exists_mem_of_ne_nil _ hring
  obtain ⟨loc, hloc, hn⟩ := h node hnode
  exact hn.symm.trans (h' node hnode loc hloc)

lemma Named.only (h : Named owners dir k n) : OnlyNames owners dir k n := by
  intro node hnode loc hloc
  obtain ⟨loc', hloc', hn⟩ := h node hnode
  obtain rfl := Option.some.inj (hloc.symm.trans hloc')
  exact hn

lemma Named.view (hring : owners k ≠ []) (h : Named owners dir k n) :
    ∃ loc, view owners dir k = some loc ∧ loc.nodeId = n := by
  rw [PeerCacheDirectory.view]
  cases ho : owners k with
  | nil => exact absurd ho hring
  | cons primary rest =>
    obtain ⟨loc, hloc, hn⟩ := h primary (by rw [ho]; exact (.head _))
    exact ⟨loc, hloc, hn⟩

lemma Agree.eq_view (h : Agree owners dir) {node : String} (hnode : node ∈ owners k) :
    (dir node).get? k = view owners dir k := by
  have hall := h k node hnode
  rw [view]
  cases ho : owners k with
  | nil => rw [ho] at hnode; cases hnode
  | cons primary rest => exact hall primary (by rw [ho]; exact (.head _))

lemma Agree.only (h : Agree owners dir) {loc : DataLocation} (hv : view owners dir k = some loc) :
    OnlyNames owners dir k loc.nodeId := by
  intro node hnode loc' hloc'
  rw [h.eq_view hnode, hv] at hloc'
  rw [← Option.some.inj hloc']

lemma Agree.only_of_none (h : Agree owners dir) (hv : view owners dir k = none) :
    OnlyNames owners dir k n := by
  intro node hnode loc hloc
  rw [h.eq_view hnode, hv] at hloc
  cases hloc

lemma Agree.put (h : Agree owners dir) (entries : Locations) :
    Agree owners (put owners dir entries) := by
  intro k node hnode node' hnode'
  rw [put_get?, put_get?, if_pos hnode, if_pos hnode', h k node hnode node' hnode']

lemma Agree.delete (h : Agree owners dir) (keys : List String) :
    Agree owners (delete owners dir keys) := by
  intro k node hnode node' hnode'
  rw [delete_get?, delete_get?, h k node hnode node' hnode']
  simp only [hnode, hnode', and_true]

lemma Named.put {entries : Locations}
    (hent : ∀ loc, entries.get? k = some loc → loc.nodeId = n)
    (h : Named owners dir k n ∨ k ∈ entries.keys) : Named owners (put owners dir entries) k n := by
  intro node hnode
  rw [put_get?, if_pos hnode]
  cases he : entries.get? k with
  | some loc => exact ⟨loc, rfl, hent loc he⟩
  | none => exact h.resolve_right (OrderedDict.get?_eq_none.mp he) node hnode

lemma Named.delete {keys : List String} (h : Named owners dir k n) (hk : k ∉ keys) :
    Named owners (delete owners dir keys) k n := by
  intro node hnode
  rw [delete_get?, if_neg (fun hc => hk hc.1)]
  exact h node hnode

end

/-! ## What steps at one node do to the directory -/

section

variable {owners : Owners} {me : String} {s t : PageOwner}
  {stores : String → Bytes → Prop} {promotes : String → Prop}

lemma dir_ownerStep (h : OwnerStep me owners stores promotes s t) :
    t.dir = s.dir ∨ ∃ evicted : List String, ∀ node k, (t.dir node).get? k
      = if k ∈ evicted ∧ node ∈ owners k then evictedEntry me s k ((s.dir node).get? k)
        else (s.dir node).get? k := by
  cases h with
  | touch j => exact .inl rfl
  | read j => exact .inl (diskGet_dir s j)
  | store j data _ => exact .inr ⟨_, onPoolEvict_get? (s.setPool (publish s.pool j data).pool) _⟩
  | note j data _ => exact .inl rfl
  | restore j data _ _ => exact .inr ⟨_, onPoolEvict_get? (s.setPool (publish s.pool j data).pool) _⟩
  | noteLength j data _ _ => exact .inl rfl

lemma mine_ownerStep (h : OwnerStep me owners stores promotes s t) {node k : String}
    {loc : DataLocation} (hk : (t.dir node).get? k = some loc) :
    (s.dir node).get? k = some loc ∨ loc.nodeId = me := by
  rcases dir_ownerStep h with hdir | ⟨evicted, hdir⟩
  · rw [hdir] at hk; exact .inl hk
  · rw [hdir] at hk
    split_ifs at hk
    · rw [evictedEntry] at hk
      cases hd : s.disk with
      | none => rw [hd] at hk; cases hk
      | some d =>
        rw [hd] at hk
        cases hl : s.keyLen.get? k with
        | none => rw [hl] at hk; exact .inl hk
        | some length =>
          rw [hl] at hk
          exact .inr (Option.some.inj hk ▸ rfl)
    · exact .inl hk

lemma named_ownerStep (h : OwnerStep me owners stores promotes s t) (hdisk : s.disk ≠ none)
    {k : String} (hk : Named owners s.dir k me) : Named owners t.dir k me := by
  rcases dir_ownerStep h with hdir | ⟨evicted, hdir⟩
  · rw [hdir]; exact hk
  · intro node hnode
    rw [hdir]
    split_ifs
    · rw [evictedEntry]
      cases hd : s.disk with
      | none => exact absurd hd hdisk
      | some d =>
        cases hl : s.keyLen.get? k with
        | none => exact hk node hnode
        | some length => exact ⟨nonResident me length, rfl, rfl⟩
    · exact hk node hnode

lemma agree_ownerStep (h : OwnerStep me owners stores promotes s t) (ha : Agree owners s.dir) :
    Agree owners t.dir := by
  rcases dir_ownerStep h with hdir | ⟨evicted, hdir⟩
  · rw [hdir]; exact ha
  · intro k node hnode node' hnode'
    rw [hdir, hdir, ha k node hnode node' hnode']
    simp only [hnode, hnode', and_true]

lemma disk_ownerSteps (h : OwnerSteps me owners stores promotes s t) (hdisk : s.disk ≠ none) :
    t.disk ≠ none := by
  intro hnone
  have hlimit := diskLimit_ownerSteps h
  rw [hnone] at hlimit
  exact hdisk (Option.map_eq_none_iff.mp hlimit.symm)

lemma steps_frame (h : OwnerSteps me owners stores promotes s t) {k : String}
    (hstores : ∀ data, ¬ stores k data) (hpromotes : ¬ promotes k) (hk : k ∉ s.pool.entries.keys) :
    k ∉ t.pool.entries.keys ∧ ∀ node, (t.dir node).get? k = (s.dir node).get? k := by
  refine OwnerSteps.keeps (P := fun u => k ∉ u.pool.entries.keys
    ∧ ∀ node, (u.dir node).get? k = (s.dir node).get? k) ?_ h ⟨hk, fun _ => rfl⟩
  intro a b hab ha
  obtain ⟨hout, hsame⟩ := frame_ownerStep hab hstores hpromotes ha.1
  exact ⟨hout, fun node => (hsame node).trans (ha.2 node)⟩

lemma steps_mine (h : OwnerSteps me owners stores promotes s t) (node k : String)
    (loc : DataLocation) (hk : (t.dir node).get? k = some loc) :
    (s.dir node).get? k = some loc ∨ loc.nodeId = me := by
  refine OwnerSteps.keeps (P := fun u => ∀ loc, (u.dir node).get? k = some loc →
    (s.dir node).get? k = some loc ∨ loc.nodeId = me) ?_ h (fun _ h => .inl h) loc hk
  intro a b hab ha loc hloc
  rcases mine_ownerStep hab hloc with hold | hme
  · exact ha loc hold
  · exact .inr hme

/-- **CHAIN RULE** on a node with a disk tier. -/
lemma steps_with_disk {P : PageOwner → Prop}
    (hstep : ∀ a b, OwnerStep me owners stores promotes a b → a.disk ≠ none → P a → P b)
    (h : OwnerSteps me owners stores promotes s t) (hdisk : s.disk ≠ none) (hs : P s) : P t := by
  have hboth := OwnerSteps.keeps (P := fun u => P u ∧ diskLimit u.disk = diskLimit s.disk) ?_ h
    ⟨hs, rfl⟩
  · exact hboth.1
  · intro a b hab ha
    refine ⟨hstep a b hab ?_ ha.1, (diskLimit_ownerStep hab).trans ha.2⟩
    intro hnone
    rw [hnone] at ha
    exact hdisk (Option.map_eq_none_iff.mp ha.2.symm)

lemma steps_named (h : OwnerSteps me owners stores promotes s t) (hdisk : s.disk ≠ none)
    {k : String} (hk : Named owners s.dir k me) : Named owners t.dir k me :=
  steps_with_disk (P := fun u => Named owners u.dir k me)
    (fun _ _ hab hd ha => named_ownerStep hab hd ha) h hdisk hk

lemma present_ownerStep (h : OwnerStep me owners stores promotes s t) (hdisk : s.disk ≠ none)
    {k : String} (hk : (view owners s.dir k).isSome = true) :
    (view owners t.dir k).isSome = true := by
  rcases dir_ownerStep h with hdir | ⟨evicted, hdir⟩
  · rw [hdir]; exact hk
  · rw [view] at hk ⊢
    cases ho : owners k with
    | nil => rw [ho] at hk; cases hk
    | cons primary rest =>
      rw [ho] at hk
      show ((t.dir primary).get? k).isSome = true
      rw [hdir]
      split_ifs
      · rw [evictedEntry]
        cases hd : s.disk with
        | none => exact absurd hd hdisk
        | some d =>
          cases hl : s.keyLen.get? k with
          | none => exact hk
          | some length => rfl
      · exact hk

lemma steps_present (h : OwnerSteps me owners stores promotes s t) (hdisk : s.disk ≠ none)
    {k : String} (hk : (view owners s.dir k).isSome = true) :
    (view owners t.dir k).isSome = true :=
  steps_with_disk (P := fun u => (view owners u.dir k).isSome = true)
    (fun _ _ hab hd ha => present_ownerStep hab hd ha) h hdisk hk

lemma steps_agree (h : OwnerSteps me owners stores promotes s t) (ha : Agree owners s.dir) :
    Agree owners t.dir :=
  OwnerSteps.keeps (P := fun u => Agree owners u.dir) (fun _ _ hab => agree_ownerStep hab) h ha

end

end PeerCacheCluster
