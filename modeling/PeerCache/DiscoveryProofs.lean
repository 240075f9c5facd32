import PeerCache.OrderedDictProofs

/-! # The membership table of the discovery service

    `DiscoveryServer` keeps the info of each node and when it was last heard of.  Nodes that were
    silent for longer than `member_ttl` are dropped by `_prune`, which runs when somebody asks for
    something, after the record of that very request.  A heartbeat of a node that is not in the table
    leaves it out. -/

namespace PeerCacheDiscovery

open OrderedDict List

/-- A request, with what the clock shows while it is served: at the record, and in `_prune`. -/
inductive Request (Info : Type) where
  | register (info : Info) (s now : ℚ)
  | heartbeat (node : String) (s now : ℚ)
  | members (now : ℚ)
  | deregister (node : String)

variable {Info : Type}

def Request.readings : Request Info → List ℚ
  | .register _ s now => [s, now]
  | .heartbeat _ s now => [s, now]
  | .members now => [now]
  | .deregister _ => []

/-- `_members` -/
abbrev Table (Info : Type) : Type := OrderedDict String (Info × ℚ)

section Server

variable (nodeId : Info → String) (ttl : ℚ)

/-- `_prune` -/
def prune (now : ℚ) (d : Table Info) : Table Info :=
  let dead := (d.items.filter (fun e => now - e.2.2 > ttl)).map Prod.fst
  dead.foldl OrderedDict.erase d

/-- `_on_register` -/
def onRegister (info : Info) (s now : ℚ) (d : Table Info) : Table Info :=
  prune ttl now (d.set (nodeId info) (info, s))

/-- `_on_heartbeat`: whether the node is known, and the table. -/
def onHeartbeat (node : String) (s now : ℚ) (d : Table Info) : Bool × Table Info :=
  match d.get? node with
  | some entry => (true, prune ttl now (d.set node (entry.1, s)))
  | none => (false, prune ttl now d)

/-- `_on_members`: the reply, and the table. -/
def onMembers (now : ℚ) (d : Table Info) : List Info × Table Info :=
  let d := prune ttl now d
  (d.items.map (fun e => e.2.1), d)

/-- `_on_deregister` -/
def onDeregister (node : String) (d : Table Info) : Table Info := d.erase node

def serve (d : Table Info) : Request Info → Table Info
  | .register info s now => onRegister nodeId ttl info s now d
  | .heartbeat node s now => (onHeartbeat ttl node s now d).2
  | .members now => (onMembers ttl now d).2
  | .deregister node => onDeregister node d

/-- The table after these requests. -/
def after (hist : List (Request Info)) : Table Info := hist.foldl (serve nodeId ttl) OrderedDict.empty

/-! ## What the history says -/

/-- After the requests `pre`, request `r` is a register or an accepted heartbeat of `node` at `s`. -/
def Refreshes (pre : List (Request Info)) (r : Request Info) (node : String) (s : ℚ) : Prop :=
  (∃ info now, r = .register info s now ∧ nodeId info = node)
    ∨ (∃ now, r = .heartbeat node s now ∧ node ∈ (after nodeId ttl pre).keys)

/-- Such a request was made at `s`, and no deregister of the node after it. -/
def HeardAt (hist : List (Request Info)) (node : String) (s : ℚ) : Prop :=
  ∃ pre r post, hist = pre ++ r :: post ∧ Refreshes nodeId ttl pre r node s
    ∧ Request.deregister node ∉ post

def Request.info? : Request Info → Option Info
  | .register info _ _ => some info
  | _ => none

/-- The info of the most recent register of a node. -/
def lastInfo (hist : List (Request Info)) (node : String) : Option Info :=
  ((hist.filterMap Request.info?).filter (fun info => nodeId info = node)).getLast?

end Server

/-! ## The table follows the history -/

section Tracks

variable {nodeId : Info → String} {ttl c now s : ℚ} {d : Table Info} {hist : List (Request Info)}
  {r : Request Info} {node : String}

lemma get?_prune : (prune ttl now d).get? node = (d.get? node).filter (fun e => now - e.2 ≤ ttl) := by
  have hdead : node ∈ (d.items.filter (fun e => now - e.2.2 > ttl)).map Prod.fst
      ↔ ∃ e, d.get? node = some e ∧ ttl < now - e.2 := by
    simp [get?_eq_some]
  rw [prune, get?_foldl_erase]
  cases hget : d.get? node with
  | none => simp
  | some e =>
    rw [hget] at hdead
    by_cases hlate : ttl < now - e.2
    · rw [if_pos (hdead.mpr ⟨e, rfl, hlate⟩), Option.filter_some_neg (by simpa [lt_sub_iff_add_lt] using hlate)]
    · rw [if_neg (by simpa [hdead] using hlate), Option.filter_some_pos (by simpa using hlate)]

lemma prune_eq_some {e : Info × ℚ} :
    (prune ttl now d).get? node = some e ↔ d.get? node = some e ∧ now - e.2 ≤ ttl := by
  rw [get?_prune, Option.filter_eq_some_iff, decide_eq_true_iff]

lemma heardAt_snoc : HeardAt nodeId ttl (hist ++ [r]) node s ↔ Refreshes nodeId ttl hist r node s
      ∨ (HeardAt nodeId ttl hist node s ∧ r ≠ .deregister node) := by
  constructor
  · rintro ⟨pre, r', post, hsplit, hrefresh, hpost⟩
    induction post using List.reverseRecOn with
    | nil =>
      obtain ⟨rfl, hr⟩ := append_inj' hsplit rfl
      cases hr
      exact .inl hrefresh
    | append_singleton post last _ =>
      rw [← cons_append, ← append_assoc] at hsplit
      obtain ⟨hhist, hlast⟩ := append_inj' hsplit rfl
      cases hlast
      rw [mem_append, mem_singleton, not_or] at hpost
      exact .inr ⟨⟨pre, r', post, hhist, hrefresh, hpost.1⟩, fun h => hpost.2 h.symm⟩
  · rintro (hrefresh | ⟨⟨pre, r', post, rfl, hrefresh, hpost⟩, hr⟩)
    · exact ⟨hist, r, [], rfl, hrefresh, not_mem_nil⟩
    · refine ⟨pre, r', post ++ [r], by rw [append_assoc, cons_append], hrefresh, ?_⟩
      rw [mem_append, mem_singleton, not_or]
      exact ⟨hpost, fun h => hr h.symm⟩

lemma lastInfo_snoc : lastInfo nodeId (hist ++ [r]) node
    = (r.info?.filter (fun info => nodeId info = node)).or (lastInfo nodeId hist node) := by
  rw [lastInfo, filterMap_append, filter_append, getLast?_append]
  cases hinfo : r.info? with
  | none => simp [hinfo, lastInfo]
  | some info => by_cases hid : nodeId info = node <;>
      simp [hinfo, hid, lastInfo, Option.filter_some]

/-- The table against the history up to the time `c`: an entry is that of the latest register, with a
    time the node was heard at; and a node heard at `s` has an entry that is not older, unless that is
    too long ago. -/
structure Tracks (nodeId : Info → String) (ttl : ℚ) (hist : List (Request Info)) (d : Table Info)
    (c : ℚ) : Prop where
  entry : ∀ node e, d.get? node = some e →
    nodeId e.1 = node ∧ lastInfo nodeId hist node = some e.1 ∧ HeardAt nodeId ttl hist node e.2
  heard : ∀ node s, HeardAt nodeId ttl hist node s →
    s ≤ c ∧ ((∃ e, d.get? node = some e ∧ s ≤ e.2) ∨ ttl < c - s)

lemma Tracks.later (h : Tracks nodeId ttl hist d c) (hc : c ≤ now) : Tracks nodeId ttl hist d now where
  entry := h.entry
  heard := by
    intro node s hs
    obtain ⟨hle, hkept⟩ := h.heard node s hs
    exact ⟨hle.trans hc, hkept.imp_right (fun hlate => by linarith)⟩

lemma Tracks.prune (h : Tracks nodeId ttl hist d now) : Tracks nodeId ttl hist (prune ttl now d) now where
  entry := fun node e he => h.entry node e (prune_eq_some.mp he).1
  heard := by
    intro node s hs
    obtain ⟨hle, hkept⟩ := h.heard node s hs
    refine ⟨hle, ?_⟩
    rcases hkept with ⟨e, he, hse⟩ | hlate
    · by_cases hold : now - e.2 ≤ ttl
      · exact .inl ⟨e, prune_eq_some.mpr ⟨he, hold⟩, hse⟩
      · exact .inr (by linarith)
    · exact .inr hlate

lemma Tracks.skip (h : Tracks nodeId ttl hist d c) (hr : ∀ node, r ≠ .deregister node)
    (hinfo : r.info? = none) (hnone : ∀ node s, ¬ Refreshes nodeId ttl hist r node s) :
    Tracks nodeId ttl (hist ++ [r]) d c where
  entry := by
    intro node e he
    obtain ⟨hid, hlast, hheard⟩ := h.entry node e he
    refine ⟨hid, ?_, heardAt_snoc.mpr (.inr ⟨hheard, hr node⟩)⟩
    rw [lastInfo_snoc, hinfo]
    exact hlast
  heard := fun node s hs =>
    h.heard node s ((heardAt_snoc.mp hs).resolve_left (hnone node s)).1

lemma Tracks.record {info : Info} (h : Tracks nodeId ttl hist d s)
    (hrefresh : ∀ m s', Refreshes nodeId ttl hist r m s' ↔ m = node ∧ s' = s)
    (hr : ∀ node, r ≠ .deregister node) (hid : nodeId info = node)
    (hlast : ∀ m, lastInfo nodeId (hist ++ [r]) m
      = if m = node then some info else lastInfo nodeId hist m) :
    Tracks nodeId ttl (hist ++ [r]) (d.set node (info, s)) s where
  entry := by
    intro m e he
    rw [get?_set] at he
    rw [hlast m, heardAt_snoc, hrefresh]
    split_ifs at he with hm
    · cases he; exact ⟨hid.trans hm.symm, if_pos hm, .inl ⟨hm, rfl⟩⟩
    · obtain ⟨hid, hlast, hheard⟩ := h.entry m e he
      exact ⟨hid, (if_neg hm).trans hlast, .inr ⟨hheard, hr m⟩⟩
  heard := by
    intro m s' hs
    rw [heardAt_snoc, hrefresh] at hs
    rw [get?_set]
    by_cases hm : m = node
    · have hle : s' ≤ s := hs.elim (fun hnew => hnew.2.le) (fun hold => (h.heard m s' hold.1).1)
      rw [if_pos hm]
      exact ⟨hle, .inl ⟨(info, s), rfl, hle⟩⟩
    · rw [if_neg hm]
      exact h.heard m s' (hs.resolve_left (fun hnew => hm hnew.1)).1

lemma Tracks.deregister (h : Tracks nodeId ttl hist d c) :
    Tracks nodeId ttl (hist ++ [.deregister node]) (d.erase node) c := by
  have hnone : ∀ m s', ¬ Refreshes nodeId ttl hist (.deregister node) m s' := by
    rintro m s' (⟨info, now, hreg, -⟩ | ⟨now, hbeat, -⟩)
    · cases hreg
    · cases hbeat
  refine ⟨?_, ?_⟩
  · intro m e he
    rw [get?_erase] at he
    split_ifs at he with hm
    obtain ⟨hid, hlast, hheard⟩ := h.entry m e he
    refine ⟨hid, lastInfo_snoc.trans hlast, heardAt_snoc.mpr (.inr ⟨hheard, ?_⟩)⟩
    intro hsame
    exact hm (Request.deregister.inj hsame).symm
  · intro m s' hs
    obtain ⟨hold, hm⟩ := (heardAt_snoc.mp hs).resolve_left (hnone m s')
    rw [get?_erase, if_neg (fun hsame => hm (by rw [hsame]))]
    exact h.heard m s' hold

end Tracks

/-! ## Whole histories -/

section History

variable {nodeId : Info → String} {ttl c : ℚ} {hist : List (Request Info)} {r : Request Info}

lemma after_snoc : after nodeId ttl (hist ++ [r]) = serve nodeId ttl (after nodeId ttl hist) r :=
  foldl_append

lemma refreshes_register {info : Info} {s now s' : ℚ} {m : String} :
    Refreshes nodeId ttl hist (.register info s now) m s' ↔ m = nodeId info ∧ s' = s := by
  constructor
  · rintro (⟨info', now', hreg, rfl⟩ | ⟨now', hbeat, -⟩)
    · cases hreg; exact ⟨rfl, rfl⟩
    · cases hbeat
  · rintro ⟨rfl, rfl⟩; exact .inl ⟨info, now, rfl, rfl⟩

lemma refreshes_heartbeat {node m : String} {s now s' : ℚ} :
    Refreshes nodeId ttl hist (.heartbeat node s now) m s'
      ↔ (m = node ∧ s' = s) ∧ node ∈ (after nodeId ttl hist).keys := by
  constructor
  · rintro (⟨info', now', hreg, -⟩ | ⟨now', hbeat, hmem⟩)
    · cases hreg
    · cases hbeat; exact ⟨⟨rfl, rfl⟩, hmem⟩
  · rintro ⟨⟨rfl, rfl⟩, hmem⟩; exact .inr ⟨now, rfl, hmem⟩

/-- **THE TABLE FOLLOWS THE HISTORY**, whenever `_prune` ran in it. -/
lemma tracks_after (hclock : (hist.flatMap Request.readings).Pairwise (· ≤ ·))
    (hc : ∀ x ∈ hist.flatMap Request.readings, x ≤ c) :
    Tracks nodeId ttl hist (after nodeId ttl hist) c := by
  induction hist using List.reverseRecOn generalizing c with
  | nil =>
    refine ⟨fun node e he => (nomatch he), ?_⟩
    rintro node s ⟨pre, r, post, hsplit, -⟩
    exact absurd hsplit (by simp)
  | append_singleton hist r ih =>
    rw [flatMap_append, pairwise_append] at hclock
    rw [flatMap_append] at hc
    obtain ⟨hpast, hlast, hcross⟩ := hclock
    have hbefore : ∀ x ∈ r.readings, Tracks nodeId ttl hist (after nodeId ttl hist) x := fun x hx =>
      ih hpast (fun y hy => hcross y hy x (by simpa using hx))
    have hnow : ∀ x ∈ r.readings, x ≤ c := fun x hx => hc x (by simp [hx])
    have hstep : ∀ {s : ℚ} (now : ℚ), r.readings = [s, now] → s ≤ now := by
      intro s now hr
      rw [flatMap_singleton, hr] at hlast
      exact rel_of_pairwise_cons hlast (.head _)
    rw [after_snoc]
    cases r with
    | register info s now =>
      refine Tracks.later ?_ (hnow now (by simp [Request.readings]))
      refine (((hbefore s (.head _)).record (fun m s' => refreshes_register)
        nofun rfl ?_).later (hstep now rfl)).prune
      intro m
      rw [lastInfo_snoc]
      by_cases hm : m = nodeId info
      · simp [Request.info?, hm]
      · simp [Request.info?, hm, Ne.symm hm, Option.filter_some]
    | heartbeat node s now =>
      have hs := hbefore s (.head _)
      refine Tracks.later ?_ (hnow now (by simp [Request.readings]))
      show Tracks nodeId ttl _ (onHeartbeat ttl node s now (after nodeId ttl hist)).2 now
      rw [onHeartbeat]
      cases hget : (after nodeId ttl hist).get? node with
      | none =>
        have hout := get?_eq_none.mp hget
        exact ((hs.skip (by rintro _ ⟨⟩) rfl
          (fun m s' h => hout (refreshes_heartbeat.mp h).2)).later (hstep now rfl)).prune
      | some e =>
        obtain ⟨hid, hlastinfo, -⟩ := hs.entry node e hget
        refine ((hs.record (fun m s' => refreshes_heartbeat.trans
          (and_iff_left (mem_keys.mpr ⟨e, hget⟩))) nofun hid ?_).later
          (hstep now rfl)).prune
        intro m
        split
        · next hm => exact lastInfo_snoc.trans (hm ▸ hlastinfo)
        · exact lastInfo_snoc
    | members now =>
      refine (((hbefore now (.head _)).skip (by rintro _ ⟨⟩) rfl ?_).prune).later
        (hnow now (.head _))
      rintro m s' (⟨info, now', hreg, -⟩ | ⟨now', hbeat, -⟩)
      · cases hreg
      · cases hbeat
    | deregister node => exact (ih hpast (fun x hx => hc x (by simp [hx]))).deregister

end History

/-- The reply to `members` at time `t`. -/
def membersAt (nodeId : Info → String) (ttl : ℚ) (hist : List (Request Info)) (t : ℚ) : List Info :=
  (onMembers ttl t (after nodeId ttl hist)).1

/-- **MEMBERS LISTS THE LIVE NODES**: for every history whose readings of the clock do not decrease, up
    to the reading `t` of a `members` request.  A node is listed exactly if it registered, or sent a
    heartbeat that was accepted, at most `ttl` before `t`, and did not deregister afterwards; what is
    listed is the info of its last register; and a heartbeat never adds a node. -/
theorem members_lists_live (nodeId : Info → String) (ttl : ℚ) (hist : List (Request Info)) (t : ℚ)
    (hclock : (hist.flatMap Request.readings ++ [t]).Pairwise (· ≤ ·)) :
    (∀ node, (∃ info ∈ membersAt nodeId ttl hist t, nodeId info = node)
        ↔ ∃ s, t - s ≤ ttl ∧ HeardAt nodeId ttl hist node s)
      ∧ (∀ info ∈ membersAt nodeId ttl hist t, lastInfo nodeId hist (nodeId info) = some info)
      ∧ ∀ node s now, node ∉ (after nodeId ttl hist).keys →
          (onHeartbeat ttl node s now (after nodeId ttl hist)).1 = false
            ∧ node ∉ (after nodeId ttl (hist ++ [.heartbeat node s now])).keys := by
  obtain ⟨hpast, -, hlast⟩ := List.pairwise_append.mp hclock
  have h : Tracks nodeId ttl hist (after nodeId ttl hist) t :=
    tracks_after hpast (fun x hx => hlast x hx t List.mem_cons_self)
  have hlisted : ∀ info, info ∈ membersAt nodeId ttl hist t
      ↔ ∃ node s, (after nodeId ttl hist).get? node = some (info, s) ∧ t - s ≤ ttl := by
    intro info
    simp only [membersAt, onMembers, List.mem_map, Prod.exists, ← OrderedDict.get?_eq_some, prune_eq_some]
    simp
  refine ⟨?_, ?_, ?_⟩
  · intro node
    constructor
    · rintro ⟨info, hinfo, rfl⟩
      obtain ⟨node, s, hget, hs⟩ := (hlisted info).mp hinfo
      obtain ⟨hid, -, hheard⟩ := h.entry node _ hget
      exact ⟨s, hs, hid ▸ hheard⟩
    · rintro ⟨s, hs, hheard⟩
      rcases (h.heard node s hheard).2 with ⟨⟨info, s'⟩, hget, hle⟩ | hlate
      · exact ⟨info, (hlisted info).mpr ⟨node, s', hget, by linarith⟩, (h.entry node _ hget).1⟩
      · exact absurd hs (not_le.mpr hlate)
  · intro info hinfo
    obtain ⟨node, s, hget, -⟩ := (hlisted info).mp hinfo
    obtain ⟨rfl, hinfo, -⟩ := h.entry node _ hget
    exact hinfo
  · intro node s now hout
    have hget := OrderedDict.get?_eq_none.mpr hout
    rw [after_snoc, serve, onHeartbeat, hget]
    refine ⟨rfl, OrderedDict.get?_eq_none.mp ?_⟩
    rw [get?_prune, hget]
    rfl

/-- Node `a` registers at 0 and is pruned by a request of `b` at 20; its heartbeat is not accepted. -/
def silentNode : List (Request (String × Nat)) :=
  [.register ("a", 1) 0 0, .register ("b", 1) 20 20, .heartbeat "a" 21 21]

theorem members_lists_live_silent_node :
    (silentNode.flatMap Request.readings ++ [22]).Pairwise (· ≤ ·)
      ∧ ¬ ∃ s, 22 - s ≤ 15 ∧ HeardAt Prod.fst 15 silentNode "a" s := by
  have hclock : (silentNode.flatMap Request.readings ++ [22]).Pairwise (· ≤ ·) := by decide +kernel
  refine ⟨hclock, fun hheard => ?_⟩
  obtain ⟨info, hinfo, hid⟩ := ((members_lists_live Prod.fst 15 silentNode 22 hclock).1 "a").mpr hheard
  have hreply : membersAt Prod.fst 15 silentNode 22 = [("b", 1)] := by decide +kernel
  rw [hreply, List.mem_singleton] at hinfo
  subst hinfo
  exact absurd hid (by decide)

end PeerCacheDiscovery
