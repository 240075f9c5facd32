import PeerCache.NoDanglingProofs

/-! # Pages in a pool and their directory entries

    With a disk tier on every node, a page in a pool has one holder, and the directory names it:
    publishing, evicting and promoting all write entries of the node that does it, and only for
    pages that no other node holds.  `Moves` says what such an operation does at its own node,
    and `Findable.move` carries it to the cluster. -/

namespace PeerCacheCluster

open PeerCachePool PeerCacheDirectory PeerCacheDisk PeerCacheOwner PeerCacheStorage OrderedDict
  PeerCacheStorageWrite Transition Option Function

open PeerCacheP2pDisk (KeySpace componentKeys publishP2p)

open PeerCacheP2pRace (remoteByOwner)

/-! ## What one node does -/

/-- What an operation does at the node `me`: pages it does not touch stay out of its pool and keep
    their entries, new entries name `me`, and so do the entries of the pages in its pool. -/
structure Moves (owners : Owners) (me : String) (touched : String → Prop)
    (s t : PageOwner) : Prop where
  frame : ∀ k, k ∉ s.pool.entries.keys → ¬ touched k →
    k ∉ t.pool.entries.keys ∧ ∀ node, (t.dir node).get? k = (s.dir node).get? k
  mine : ∀ node k loc, (t.dir node).get? k = some loc → (s.dir node).get? k = some loc ∨ loc.nodeId = me
  named : ∀ k ∈ t.pool.entries.keys,
    (k ∈ s.pool.entries.keys → Named owners s.dir k me) → Named owners t.dir k me
  agree : Agree owners s.dir → Agree owners t.dir

section

variable {owners : Owners} {me : String} {s t : PageOwner}
  {stores : String → Bytes → Prop} {promotes touched : String → Prop}

/-- **A CHAIN AND ITS PUT.** -/
lemma Moves.of_steps (h : OwnerSteps me owners stores promotes s t) (hdisk : s.disk ≠ none)
    {entries : Locations}
    (htouched : ∀ k, ¬ touched k → (∀ data, ¬ stores k data) ∧ ¬ promotes k ∧ k ∉ entries.keys)
    (hent : ∀ k loc, entries.get? k = some loc → loc.nodeId = me)
    (hnew : ∀ k ∈ t.pool.entries.keys, k ∈ s.pool.entries.keys ∨ k ∈ entries.keys) :
    Moves owners me touched s (t.setDir (put owners t.dir entries)) where
  frame := by
    intro k hk hnot
    obtain ⟨hst, hpr, hout⟩ := htouched k hnot
    obtain ⟨hpool, hdir⟩ := steps_frame h hst hpr hk
    refine ⟨hpool, ?_⟩
    intro node
    show (put owners t.dir entries node).get? k = _
    rw [put_get?, get?_eq_none.mpr hout, ite_self]
    exact hdir node
  mine := by
    intro node k loc hk
    rcases put_get?_cases hk with ⟨-, hput⟩ | ⟨hold, -⟩
    · exact .inr (hent k loc hput)
    · exact steps_mine h node k loc hold
  named := by
    intro k hk hs
    refine Named.put (fun loc => hent k loc) ?_
    exact (hnew k hk).imp (fun hin => steps_named h hdisk (hs hin)) id
  agree := fun ha => (steps_agree h ha).put entries

lemma Moves.delete (h : Moves owners me touched s t) {keys : List String}
    (hkeys : ∀ k ∈ keys, touched k ∧ k ∉ t.pool.entries.keys) :
    Moves owners me touched s (t.setDir (PeerCacheDirectory.delete owners t.dir keys)) where
  frame := by
    intro k hk hnot
    obtain ⟨hpool, hdir⟩ := h.frame k hk hnot
    refine ⟨hpool, ?_⟩
    intro node
    show (PeerCacheDirectory.delete owners t.dir keys node).get? k = _
    rw [delete_get?, if_neg (fun hc => hnot (hkeys k hc.1).1)]
    exact hdir node
  mine := fun node k loc hk => h.mine node k loc (delete_get?_some hk).1
  named := fun k hk hs => (h.named k hk hs).delete (fun hmem => (hkeys k hmem).2 hk)
  agree := fun ha => (h.agree ha).delete keys

/-- **A PROMOTE** touches the pages it is asked for. -/
lemma moves_ensureResident (hdisk : s.disk ≠ none) (keys : List String) :
    Moves owners me (· ∈ keys) s (ensureResident me owners s keys).owner := by
  have hsteps : OwnerSteps me owners (fun _ _ => False) (· ∈ keys) s
      (ensureLoop me owners keys s empty).owner :=
    ensureLoop_steps keys (fun _ hk => hk) s empty
  have hprom : ∀ (keys : List String) (s : PageOwner) (promoted : Locations),
      ∀ k ∈ (ensureLoop me owners keys s promoted).promoted.keys, k ∈ keys ∨ k ∈ promoted.keys := by
    intro keys
    induction keys with
    | nil => exact fun _ _ _ hk => .inr hk
    | cons j keys ih =>
      intro s promoted k hk
      rcases ih _ _ k hk with hk | hk
      · exact .inl (.tail _ hk)
      · obtain ⟨loc, hloc⟩ := mem_keys.mp hk
        rcases addPromoted_get? hloc with hold | ⟨rfl, -⟩
        · exact .inr (mem_keys.mpr ⟨loc, hold⟩)
        · exact .inl (.head _)
  refine Moves.of_steps hsteps hdisk ?_ ?_ (fun k hk => ensureLoop_brings keys s _ hk)
  · intro k hk
    refine ⟨fun _ => not_false, hk, ?_⟩
    intro hmem
    rcases hprom keys s empty k hmem with h | h
    · exact hk h
    · cases h
  · exact fun k loc hk => (promotedOk_ensureLoop keys promotedOk_empty k loc hk).1

lemma moves_dataPromote (hdisk : s.disk ≠ none) (keys : List String) :
    Moves owners me (· ∈ keys) s (dataPromote me owners s keys).owner := by
  refine (moves_ensureResident hdisk keys).delete ?_
  intro k hk
  obtain ⟨q, hq, rfl⟩ := List.mem_map.mp hk
  obtain ⟨hzip, hnone⟩ := List.mem_filter.mp hq
  exact ⟨(List.of_mem_zip hzip).1,
    ensureLoop_misses keys s empty q hzip (of_decide_eq_true hnone)⟩

lemma publishLoop_brings (pages : List ((String × Bytes) × Admission)) (s : PageOwner)
    (entries : Locations) {k : String}
    (hk : k ∈ (publishLoop me owners pages s entries).owner.pool.entries.keys) :
    k ∈ s.pool.entries.keys ∨ k ∈ (publishLoop me owners pages s entries).entries.keys := by
  have hstored : ∀ {s key data}, k ∈ (publishPage me owners s key data).owner.pool.entries.keys →
      k ∈ s.pool.entries.keys ∨ (k = key ∧ (publishPage me owners s key data).addr ≠ none) := by
    intro s key data
    rw [publishPage_pool]
    intro hin
    obtain ⟨x, hx⟩ := mem_keys.mp hin
    rcases place_get?_from hx with hold | ⟨rfl, -⟩
    · exact .inl (mem_keys.mpr ⟨x, hold⟩)
    · exact .inr ⟨rfl, fun hnone => place_addr_none hnone hin⟩
  fun_induction publishLoop me owners pages s entries with
  | case1 => exact .inl hk
  | case2 _ _ _ _ _ ih | case3 _ _ _ _ _ ih => exact ih hk
  | case4 _ _ _ _ _ _ haddr _ ih =>
    rcases ih hk with hin | hin
    · rcases hstored hin with hold | ⟨-, hne⟩
      · exact .inl hold
      · exact absurd haddr hne
    · exact .inr hin
  | case5 _ _ pages _ _ _ _ _ _ _ ih =>
    rcases ih hk with hin | hin
    · rcases hstored hin with hold | ⟨rfl, -⟩
      · exact .inl hold
      · exact .inr (publishLoop_mono pages _ (mem_keys_set.mpr (.inl rfl)))
    · exact .inr hin

/-- **A SET** touches the pages that the directory does not know. -/
lemma moves_publishP2p (hdisk : s.disk ≠ none) (pages : List (String × Bytes)) :
    Moves owners me (fun k => view owners s.dir k = none) s (publishP2p me owners s pages).owner := by
  rw [publishP2p_eq]
  generalize hps : (pages.map fun q => (q, if (view owners s.dir q.1).isSome then
    Admission.existing else Admission.fresh)) = ps
  have hfresh : ∀ q ∈ ps, q.2 = .fresh → view owners s.dir q.1.1 = none := by
    intro q hq hf
    rw [← hps] at hq
    obtain ⟨r, -, rfl⟩ := List.mem_map.mp hq
    cases hv : view owners s.dir r.1 with
    | none => rfl
    | some loc => simp [hv] at hf
  have hloop : OwnerSteps me owners (fun k _ => view owners s.dir k = none) (fun _ => False) s
      (publishLoop me owners ps s empty).owner :=
    publishLoop_steps ps (fun q hq hf => hfresh q hq hf) s empty
  have hrec : OwnerSteps me owners (fun k _ => view owners s.dir k = none) (fun _ => False)
      (publishLoop me owners ps s empty).owner
      (reconcile me (publishLoop me owners ps s empty).entries.keys
        (publishLoop me owners ps s empty).owner
        (publishLoop me owners ps s empty).entries).2 := reconcile_steps _ _ _
  refine Moves.of_steps (hloop.trans hrec) hdisk ?_ ?_ ?_
  · intro k hk
    refine ⟨fun _ => hk, not_false, ?_⟩
    intro hmem
    obtain ⟨loc, hloc⟩ := mem_keys.mp hmem
    obtain ⟨old, hold, -⟩ := reconcile_entries hloc
    rcases publishLoop_entries me owners ps s empty hold with h | ⟨-, -, -, q, hq, hf, rfl, -⟩
    · cases h
    · exact hk (hfresh q hq hf)
  · intro k loc hloc
    obtain ⟨old, hold, rfl⟩ := reconcile_entries hloc
    rcases publishLoop_entries me owners ps s empty hold with h | ⟨hme, -⟩
    · cases h
    · rw [settle]
      cases (publishLoop me owners ps s empty).owner.pool.entries.get? k with
      | none => rfl
      | some x => exact hme
  · intro k hk
    -- the lookups of the reconcile bring nothing in
    have hin : k ∈ (publishLoop me owners ps s empty).owner.pool.entries.keys := by
      have htouch : OwnerSteps me owners (fun _ _ => False) (fun _ => False)
          (publishLoop me owners ps s empty).owner
          (reconcile me (publishLoop me owners ps s empty).entries.keys
            (publishLoop me owners ps s empty).owner
            (publishLoop me owners ps s empty).entries).2 := reconcile_steps _ _ _
      by_contra hout
      exact (steps_frame htouch (fun _ => not_false) not_false hout).1 hk
    refine (publishLoop_brings ps s empty hin).imp_right ?_
    intro hmem
    rw [mem_keys, reconcile_get?, if_pos hmem]
    obtain ⟨old, hold⟩ := mem_keys.mp hmem
    exact ⟨_, by rw [hold]; rfl⟩

lemma moves_touch (s : PageOwner) (k : String) :
    Moves owners me (fun _ => False) s (s.setPool (addressOf s.pool k).2) where
  frame := by
    intro j hj _
    refine ⟨?_, fun _ => rfl⟩
    intro hmem
    obtain ⟨x, hx⟩ := mem_keys.mp hmem
    exact hj (mem_keys.mpr ⟨x, (addressOf_get? s.pool k j).symm.trans hx⟩)
  mine := fun _ _ _ hk => .inl hk
  named := by
    intro j hj hs
    obtain ⟨x, hx⟩ := mem_keys.mp hj
    exact hs (mem_keys.mpr ⟨x, (addressOf_get? s.pool k j).symm.trans hx⟩)
  agree := fun h => h

end

/-! ## The cluster -/

/-- Every node has a disk tier whose accounts are right, and the directory names the holder of every
    page in a pool. -/
structure Findable (owners : Owners) (w : Cluster) : Prop where
  disk : ∀ n, (w.hosts n).disk ≠ none
  tidy : ∀ n, ∀ d ∈ (w.hosts n).disk, Tidy d
  agree : Agree owners w.dir
  held : ∀ n, ∀ k ∈ (w.hosts n).pool.entries.keys, Named owners w.dir k n

section

variable {owners : Owners} {me : String} {w : Cluster} {t : PageOwner}
  {touched : String → Prop}

/-- **CHANGING ONE NODE**: if what it touches is named for no other node, every holder is still
    named, and an entry that names a node names it afterwards. -/
lemma Findable.move (hring : ∀ k, owners k ≠ []) (h : Findable owners w)
    (hm : Moves owners me touched (w.node me) t) (hdisk : t.disk ≠ none) (htidy : ∀ d ∈ t.disk, Tidy d)
    (htouched : ∀ k, touched k → OnlyNames owners w.dir k me) :
    Findable owners (w.setNode me t) ∧ ∀ k n, OnlyNames owners w.dir k n → (touched k → n = me) →
        OnlyNames owners (w.setNode me t).dir k n := by
  -- a page that is another node's is not touched
  have hother : ∀ k n, n ≠ me → Named owners w.dir k n →
      k ∉ (w.hosts me).pool.entries.keys ∧ ¬ touched k := by
    intro k n hn hk
    refine ⟨fun hin => hn ?_, fun hin => hn (hk.unique (hring k) (htouched k hin))⟩
    exact hk.unique (hring k) (h.held me k hin).only
  refine ⟨⟨?_, ?_, hm.agree h.agree, ?_⟩, ?_⟩
  · intro n
    by_cases hn : n = me
    · rw [hn, setNode_hosts_self]; exact hdisk
    · rw [setNode_hosts_ne w hn]; exact h.disk n
  · intro n
    by_cases hn : n = me
    · rw [hn, setNode_hosts_self]; exact htidy
    · rw [setNode_hosts_ne w hn]; exact h.tidy n
  · intro n k hk
    by_cases hn : n = me
    · rw [hn, setNode_hosts_self] at hk
      rw [hn]
      exact hm.named k hk (fun hin => h.held me k hin)
    · rw [setNode_hosts_ne w hn] at hk
      have hnamed := h.held n k hk
      obtain ⟨hout, hnot⟩ := hother k n hn hnamed
      obtain ⟨-, hsame⟩ := hm.frame k hout hnot
      intro node hnode
      obtain ⟨loc, hloc, hid⟩ := hnamed node hnode
      exact ⟨loc, (hsame node).trans hloc, hid⟩
  · intro k n honly htouch node hnode loc hloc
    by_cases hn : n = me
    · rcases hm.mine node k loc hloc with hold | hme
      · exact honly node hnode loc hold
      · exact hme.trans hn.symm
    · have hout : k ∉ (w.hosts me).pool.entries.keys :=
        fun hin => hn ((h.held me k hin).unique (hring k) honly).symm
      obtain ⟨-, hsame⟩ := hm.frame k hout (fun hin => hn (htouch hin))
      exact honly node hnode loc ((hsame node).symm.trans hloc)

/-! ## The disk worker -/

/-- The pages younger than a page of the index, and the page, in bytes. -/
def youngerBytes (index : OrderedDict String (String × Nat)) (k : String) : Nat :=
  diskBytes (index.items.dropWhile (fun e => e.1 ≠ k))

/-- The directory finds the page in the pool of the node that it names. -/
def Held (owners : Owners) (w : Cluster) (k : String) : Prop :=
  ∃ loc ∈ view owners w.dir k, k ∈ (w.hosts loc.nodeId).pool.entries.keys

instance (owners : Owners) (w : Cluster) (k : String) : Decidable (Held owners w k) :=
  match h : view owners w.dir k with
  | none => isFalse (fun ⟨_, hl, _⟩ => nomatch h.symm.trans hl)
  | some loc => decidable_of_iff (k ∈ (w.hosts loc.nodeId).pool.entries.keys)
      ⟨fun hk => ⟨loc, h, hk⟩, fun ⟨l, hl, hk⟩ => by
        obtain rfl := Option.some.inj (h.symm.trans hl)
        exact hk⟩

/-- **ROOM FOR A TURN**: with the page to be written, every page of the index that a pool holds fits
    on disk together with the younger ones. -/
def TurnFits (owners : Owners) (w : Cluster) (me : String) : Prop :=
  ∀ d ∈ (w.hosts me).disk, ∀ q ∈ d.queue.head?, ∀ k ∈ d.index.keys,
    Held owners w k → youngerBytes d.index k + q.2.length ≤ d.maxBytes

instance (owners : Owners) (w : Cluster) (me : String) :
    Decidable (TurnFits owners w me) :=
  inferInstanceAs (Decidable (∀ d ∈ (w.hosts me).disk, ∀ q ∈ d.queue.head?, ∀ k ∈ d.index.keys,
    Held owners w k → youngerBytes d.index k + q.2.length ≤ d.maxBytes))

/-- The keys that the next turn of a node's worker hands to `_on_disk_evict`. -/
def turnEvicts (safeName : String → String) (w : Cluster) (me : String) : List String :=
  ((w.hosts me).disk.map (fun d => (work safeName d).2)).getD []

variable {k : String}

lemma dropWhile_split {l : List (String × String × Nat)} (h : k ∈ l.map Prod.fst) :
    ∃ older v younger, l = older ++ (k, v) :: younger
      ∧ l.dropWhile (fun e => e.1 ≠ k) = (k, v) :: younger := by
  induction l with
  | nil => cases h
  | cons e l ih =>
    obtain ⟨j, v⟩ := e
    by_cases hj : j = k
    · subst hj; exact ⟨[], v, l, rfl, by simp⟩
    · have hk : k ∈ l.map Prod.fst := (List.mem_cons.mp h).resolve_left (fun he => hj he.symm)
      obtain ⟨older, v', younger, hl, hd⟩ := ih hk
      refine ⟨(j, v) :: older, v', younger, by rw [hl]; rfl, ?_⟩
      rw [List.dropWhile_cons_of_pos (by simpa using hj)]
      exact hd

lemma work_spares (safeName : String → String) {d : DiskStore} (h : Tidy d)
    (hk : k ∈ (work safeName d).2) :
    ∃ q ∈ d.queue.head?, k ∈ d.index.keys ∧ d.maxBytes < youngerBytes d.index k + q.2.length := by
  rcases hcase : d.queue with _ | ⟨⟨key, data⟩, queue⟩
  · rw [work, hcase] at hk; cases hk
  · have hkey : key ∉ d.index.keys := h.apart key (by rw [hcase]; exact (.head _))
    have hitems := writePage_items safeName hkey data
    have hused := writePage_used safeName h hkey data
    rw [work, hcase] at hk
    have hk' : k ∈ (enforceCapacity (writePage safeName d key data).index.items.length
        { writePage safeName d key data with queue := queue } []).2 := hk
    refine ⟨(key, data), rfl, ?_⟩
    -- the page that is written is the youngest, and it fits
    have hnew : k ≠ key := by
      rintro rfl
      refine enforceCapacity_spares (e := (k, safeName k, data.length))
        (d := { writePage safeName d k data with queue := queue }) _ [] hitems hused
        ?_ List.not_mem_nil hk'
      exact h.fits (k, data) (by rw [hcase]; exact (.head _))
    have hin : k ∈ d.index.keys := by
      obtain ⟨dropped, index, files, heq, hsplit⟩ := enforceCapacity_spec
        (writePage safeName d key data).index.items.length
        { writePage safeName d key data with queue := queue } []
      rw [heq, List.nil_append] at hk'
      have hmem : k ∈ (writePage safeName d key data).index.keys := by
        rw [keys, show (writePage safeName d key data).index.items = _ from hsplit,
          List.map_append]
        exact List.mem_append_left _ hk'
      exact (mem_writePage_keys.mp hmem).resolve_left hnew
    refine ⟨hin, ?_⟩
    by_contra hfit
    obtain ⟨older, v, younger, hl, hdrop⟩ := dropWhile_split hin
    rw [youngerBytes, hdrop] at hfit
    have hsplit : (writePage safeName d key data).index.items
        = older ++ (k, v) :: (younger ++ [(key, safeName key, data.length)]) := by
      rw [hitems, hl, List.append_assoc, List.cons_append]
    refine enforceCapacity_spares (e := (k, v))
      (d := { writePage safeName d key data with queue := queue }) _ [] hsplit hused ?_
      List.not_mem_nil hk'
    · show diskBytes (((k, v) :: younger) ++ [(key, safeName key, data.length)]) ≤ d.maxBytes
      rw [diskBytes_append]
      exact Nat.le_of_not_lt hfit

/-- **A TURN WITH ROOM** drops no page that a pool holds. -/
lemma turn_spares (hring : ∀ k, owners k ≠ []) (h : Findable owners w) (hfit : TurnFits owners w me)
    (safeName : String → String) (hk : k ∈ turnEvicts safeName w me) (n : String) :
    k ∉ (w.hosts n).pool.entries.keys := by
  intro hin
  cases hd : (w.hosts me).disk with
  | none => exact h.disk me hd
  | some d =>
    rw [turnEvicts, hd] at hk
    obtain ⟨q, hq, hindex, hover⟩ := work_spares safeName (h.tidy me d hd) hk
    obtain ⟨loc, hloc, hid⟩ := (h.held n k hin).view (hring k)
    have hheld : Held owners w k := ⟨loc, hloc, by rw [hid]; exact hin⟩
    exact absurd (hfit d hd q hq k hindex hheld) (Nat.not_le.mpr hover)

lemma Findable.diskWork (hring : ∀ k, owners k ≠ []) (h : Findable owners w)
    (hfit : TurnFits owners w me) (safeName : String → String) :
    Findable owners (w.setNode me (PeerCacheOwner.diskWork owners safeName (w.node me))) := by
  rw [PeerCacheOwner.diskWork]
  cases hd : (w.node me).disk with
  | none => exact absurd hd (h.disk me)
  | some d =>
    have hpool : ∀ n, ((w.setNode me (onDiskEvict owners ((w.node me).setDisk (some (work safeName d).1))
        (work safeName d).2)).hosts n).pool = (w.hosts n).pool := by
      intro n
      by_cases hn : n = me
      · rw [hn, setNode_hosts_self]; rfl
      · rw [setNode_hosts_ne w hn]
    refine ⟨?_, ?_, h.agree.delete _, ?_⟩
    · intro n
      by_cases hn : n = me
      · rw [hn, setNode_hosts_self]; rintro ⟨⟩
      · rw [setNode_hosts_ne w hn]; exact h.disk n
    · intro n
      by_cases hn : n = me
      · rw [hn, setNode_hosts_self]
        intro d' hd'
        cases hd'
        exact tidy_work safeName (h.tidy me d hd)
      · rw [setNode_hosts_ne w hn]; exact h.tidy n
    · intro n k hk
      rw [hpool] at hk
      refine (h.held n k hk).delete ?_
      intro hmem
      refine turn_spares hring h hfit safeName (k := k) ?_ n hk
      rw [turnEvicts, show (w.hosts me).disk = some d from hd]
      exact hmem

end

/-! ## The calls -/

section

variable {owners : Owners} {space : String → KeySpace} {cap ttl : Nat}
  {safeName : String → String} {me : String}

lemma tidy_ownerSteps {stores : String → Bytes → Prop} {promotes : String → Prop}
    {s t : PageOwner} (h : OwnerSteps me owners stores promotes s t) (ht : ∀ d ∈ s.disk, Tidy d) :
    ∀ d ∈ t.disk, Tidy d :=
  OwnerSteps.keeps (P := fun u => ∀ d ∈ u.disk, Tidy d) (fun _ _ hab => tidy_ownerStep hab) h ht

lemma disk_ensureResident (me : String) (owners : Owners) {s : PageOwner} (hdisk : s.disk ≠ none) (ht : ∀ d ∈ s.disk, Tidy d)
    (keys : List String) :
    (ensureResident me owners s keys).owner.disk ≠ none
      ∧ ∀ d ∈ (ensureResident me owners s keys).owner.disk, Tidy d := by
  have hsteps := ensureLoop_chain me owners (fun _ _ => False) s keys
  exact ⟨(disk_ownerSteps hsteps hdisk :), (tidy_ownerSteps hsteps ht :)⟩

lemma disk_publishPages (me : String) (owners : Owners) {s : PageOwner} (hdisk : s.disk ≠ none) (ht : ∀ d ∈ s.disk, Tidy d)
    (pages : List ((String × Bytes) × Admission)) :
    (publishPages me owners s pages).owner.disk ≠ none
      ∧ ∀ d ∈ (publishPages me owners s pages).owner.disk, Tidy d := by
  obtain ⟨t, hsteps, heq⟩ := publishPages_chain me owners (fun _ _ => True) s pages
    (fun _ _ _ => trivial)
  rw [heq]
  exact ⟨(disk_ownerSteps hsteps hdisk :), (tidy_ownerSteps hsteps ht :)⟩

/-- **RESOLVING** what the directory says: every request is of pages that are named for the node
    it goes to. -/
lemma findable_resolve (hring : ∀ k, owners k ≠ []) {w : Cluster} (h : Findable owners w)
    {keys : List String} {locs : List (Option DataLocation)}
    (hlocs : ∀ i loc, locs[i]? = some (some loc) → loc.resident = false →
      view owners w.dir (keyAt keys i) = some loc) (reachable : String → Bool) :
    Findable owners (resolveNonResident owners reachable me w keys locs).2 := by
  -- an entry that there was at the start still names its node, if it is still there
  have hall : RequestsMeet owners reachable (fun _ _ _ => True) me w keys locs := guarded_trivial _ _
  have hkeep := resolve_keeps (P := fun c => Findable owners c ∧ ∀ k loc,
    view owners w.dir k = some loc → OnlyNames owners c.dir k loc.nodeId) ?_ ?_ hall
    ⟨h, fun k loc hv => h.agree.only hv⟩
  · exact hkeep.1
  · rintro c i hi ⟨hc, hnames⟩
    obtain ⟨loc, hloc, hr, hme⟩ := mem_localIdx hi
    have hview := hlocs i loc hloc hr
    obtain ⟨hdisk, htidy⟩ := disk_ensureResident me owners (s := c.node me) (hc.disk me)
      (hc.tidy me) [keyAt keys i]
    obtain ⟨hfind, htrans⟩ := hc.move hring (moves_ensureResident (hc.disk me) [keyAt keys i]) hdisk htidy
      (by
        intro k hk
        obtain rfl := List.mem_singleton.mp hk
        exact hme ▸ hnames _ loc hview)
    refine ⟨hfind, ?_⟩
    intro k loc' hv
    refine htrans k loc'.nodeId (hnames k loc' hv) ?_
    intro hk
    obtain rfl := List.mem_singleton.mp hk
    rw [← hme, some.inj (hview.symm.trans hv)]
  · rintro c g hg ⟨hc, hnames⟩ -
    have hasked : ∀ k ∈ g.2.map (keyAt keys), ∃ loc, view owners w.dir k = some loc ∧ loc.nodeId = g.1 := by
      intro k hk
      obtain ⟨i, hi, rfl⟩ := List.mem_map.mp hk
      obtain ⟨loc, hloc, hr, hid⟩ := mem_remoteByOwner hg hi
      exact ⟨loc, hlocs i loc hloc hr, hid⟩
    obtain ⟨hdisk, htidy⟩ := disk_ensureResident g.1 owners (s := c.node g.1) (hc.disk g.1) (hc.tidy g.1)
      (g.2.map (keyAt keys))
    obtain ⟨hfind, htrans⟩ := hc.move hring (moves_dataPromote (hc.disk g.1) (g.2.map (keyAt keys)))
      hdisk htidy
      (by
        intro k hk
        obtain ⟨loc, hv, hid⟩ := hasked k hk
        exact hid ▸ hnames k loc hv)
    refine ⟨hfind, ?_⟩
    intro k loc' hv
    refine htrans k loc'.nodeId (hnames k loc' hv) ?_
    intro hk
    obtain ⟨loc, hv', hid⟩ := hasked k hk
    rw [← hid, some.inj (hv'.symm.trans hv)]

/-- The cluster is findable, and only resident locations are primed. -/
structure WorldFindable (owners : Owners) (w : World) : Prop where
  cluster : Findable owners w.cluster
  primed : ∀ n, Primed (fun _ => True) (w.readers n).primed

/-- Turns of the disk workers that have room, and requests from outside only for pages that are
    named for the node. -/
def Roomy (owners : Owners) (w : World) : Op → Prop
  | .set _ _ _ => True
  | .exists _ _ _ => True
  | .get _ _ _ _ => True
  | .promote me keys => ∀ k ∈ keys, ∀ loc ∈ view owners w.cluster.dir k, loc.nodeId = me
  | .worker me => TurnFits owners w.cluster me

instance (owners : Owners) (w : World) (a : Op) : Decidable (Roomy owners w a) :=
  match a with
  | .set _ _ _ => isTrue trivial
  | .exists _ _ _ => isTrue trivial
  | .get _ _ _ _ => isTrue trivial
  | .promote _ _ => inferInstanceAs (Decidable (∀ k ∈ _, ∀ loc ∈ _, _))
  | .worker me => inferInstanceAs (Decidable (TurnFits owners w.cluster me))

/-- **ONE OPERATION.** -/
lemma worldFindable_step (hring : ∀ k, owners k ≠ []) {w : World} {a : Op} (hok : Roomy owners w a)
    (h : WorldFindable owners w) :
    WorldFindable owners (step owners space cap ttl safeName w a) := by
  obtain ⟨hc, hp⟩ := h
  refine ⟨?_, readers_step (fun _ _ _ _ => trivial) hp a⟩
  cases a with
  | set me keys pages =>
    show Findable owners (w.cluster.setNode me
      (PeerCacheP2pDisk.batchSetV1 me owners (space me) (w.cluster.node me) keys pages).2)
    rw [PeerCacheP2pDisk.batchSetV1]
    by_cases hlen : (componentKeys (space me) keys).1.length = pages.length
    · simp only [if_pos hlen]
      have hdisk := disk_publishPages me owners (s := w.cluster.node me) (hc.disk me) (hc.tidy me)
      refine (hc.move hring (moves_publishP2p (hc.disk me) _) ?_ ?_
        (fun k hk => hc.agree.only_of_none hk)).1
      · rw [publishP2p_eq]; exact (hdisk _).1
      · rw [publishP2p_eq]; exact (hdisk _).2
    · simp only [if_neg hlen, setNode_node]; exact hc
  | «exists» me now keys =>
    show Findable owners (if _ ∧ _ then _ else _)
    split_ifs
    · exact findable_resolve hring hc (fun i loc hi _ => get_view hi) _
    · exact hc
  | get me now keys sizes =>
    show Findable owners (batchGet owners (fun _ => true) space false me now w keys sizes).2.cluster
    rw [batchGet]
    by_cases hlen : (componentKeys (space me) keys).1.length = sizes.length
    · simp only [if_pos hlen, fetch_cluster]
      refine copyPages_keeps ?_ _ (findable_resolve hring hc
        (fun i loc hi hr => fetchLocs_view (hp me) now _ hi hr) _)
      intro c k hc
      exact (hc.move hring (moves_touch (c.node me) k) (hc.disk me) (hc.tidy me)
        (fun _ hf => hf.elim)).1
    · simp only [if_neg hlen]; exact hc
  | promote me keys =>
    have hdisk := disk_ensureResident me owners (s := w.cluster.node me) (hc.disk me)
      (hc.tidy me) keys
    refine (hc.move hring (moves_dataPromote (hc.disk me) keys) hdisk.1 hdisk.2 ?_).1
    intro k hk
    cases hv : view owners w.cluster.dir k with
    | none => exact hc.agree.only_of_none hv
    | some loc => exact hok k hk loc hv ▸ hc.agree.only hv
  | worker me => exact hc.diskWork hring hok safeName

lemma worldFindable_init (cfg : String → NodeConfig) (hdisk : ∀ n, (cfg n).disk ≠ none) :
    WorldFindable owners (World.init cfg) where
  cluster :=
    { disk := fun n hnone => hdisk n (map_eq_none_iff.mp hnone)
      tidy := by
        intro n d hd
        obtain ⟨m, -, rfl⟩ := map_eq_some_iff.mp hd
        exact tidy_empty m
      agree := fun _ _ _ _ _ => rfl
      held := fun _ _ hk => absurd hk List.not_mem_nil }
  primed _ _ _ h := nomatch h

end

/-- **PAGES IN A POOL ARE FOUND** when the turns of the disk workers have room: every one has a
    directory entry, and the next turn that has room drops none of them. -/
theorem held_pages_found (owners : Owners) (hring : ∀ k, owners k ≠ [])
    (space : String → KeySpace) (cap ttl : Nat) (safeName : String → String)
    (cfg : String → NodeConfig) (hdisk : ∀ n, (cfg n).disk ≠ none) (acts : List Op)
    (hok : Guarded (fun w a => some (step owners space cap ttl safeName w a)) (Roomy owners)
      (World.init cfg) acts) :
    (∀ n, ∀ k ∈ ((after owners space cap ttl safeName cfg acts).cluster.hosts n).pool.entries.keys,
        (view owners (after owners space cap ttl safeName cfg acts).cluster.dir k).isSome = true)
      ∧ ∀ me, TurnFits owners (after owners space cap ttl safeName cfg acts).cluster me →
        ∀ k ∈ turnEvicts safeName (after owners space cap ttl safeName cfg acts).cluster me,
          ∀ n, k ∉ ((after owners space cap ttl safeName cfg acts).cluster.hosts n).pool.entries.keys := by
  have hw : WorldFindable owners (after owners space cap ttl safeName cfg acts) :=
    foldl_invariant (P := WorldFindable owners) (fun w a _ hw ha => worldFindable_step hring ha hw)
      (worldFindable_init cfg hdisk) hok
  constructor
  · intro n k hk
    obtain ⟨loc, hloc, -⟩ := (hw.cluster.held n k hk).view (hring k)
    rw [hloc]
    rfl
  · exact fun me hfit k hk n => turn_spares hring hw.cluster hfit safeName hk n

/-- Every node has room for two pages in its pool and for three on disk. -/
def twoTiers (_ : String) : NodeConfig := ⟨smallPool 2, some 3⟩

/-- Node `a` sets three pages, the disk worker in between; `b` reads the one that was evicted. -/
def threePages : List Op :=
  [.set "a" ["p"] [[1]], .worker "a", .set "a" ["q"] [[2]], .worker "a", .set "a" ["r"] [[3]],
    .worker "a", .exists "b" 0 ["p", "q"], .get "b" 1 ["p"] [1]]

theorem held_pages_found_three_pages :
    Guarded (fun w a => some (step (fun _ => ["a"]) (fun _ => mla) 8 4 id w a))
        (Roomy (fun _ => ["a"])) (World.init twoTiers) threePages
      ∧ (view (fun _ => ["a"]) (after (fun _ => ["a"]) (fun _ => mla) 8 4 id twoTiers
          threePages).cluster.dir "p_r_k").isSome = true := by
  have hok : Guarded (fun w a => some (step (fun _ => ["a"]) (fun _ => mla) 8 4 id w a))
      (Roomy (fun _ => ["a"])) (World.init twoTiers) threePages := by
    decide +kernel
  refine ⟨hok, (held_pages_found (fun _ => ["a"]) (fun _ => List.cons_ne_nil _ _) (fun _ => mla) 8 4 id
    twoTiers (fun _ h => nomatch h) threePages hok).1 "a" "p_r_k" ?_⟩
  decide +kernel

/-- A disk tier for one page under a pool for two: the second page drops the first one from disk,
    and with it the entry of a page that is in the pool. -/
theorem dropped_while_held :
    "p_r_k" ∈ ((after (fun _ => ["a"]) (fun _ => mla) 8 4 id (fun _ => ⟨smallPool 2, some 1⟩)
        [.set "a" ["p"] [[1]], .worker "a", .set "a" ["q"] [[2]], .worker "a"]).cluster.hosts
          "a").pool.entries.keys
      ∧ view (fun _ => ["a"]) (after (fun _ => ["a"]) (fun _ => mla) 8 4 id
        (fun _ => ⟨smallPool 2, some 1⟩)
        [.set "a" ["p"] [[1]], .worker "a", .set "a" ["q"] [[2]], .worker "a"]).cluster.dir "p_r_k"
          = none := by
  decide +kernel

end PeerCacheCluster
