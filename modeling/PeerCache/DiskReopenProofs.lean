import PeerCache.DiskReadableProofs

/-! # Closing a disk tier and opening it again

    When a store is used by one thread at a time and its queue is drained before `close`, the index at
    the end is the page files, and `index.json` is that index.  Then the two ways to load the index agree:
    a store opened from `index.json` and one opened by scanning the page files have the entries and the
    bytes that the store had at the end, and read the pages that were put (`reopened_same`). -/

namespace PeerCacheDiskStore

open PeerCacheDisk PeerCachePage Transition OrderedDict List

/-! ## One operation at a time -/

section InTurn

variable {json : Json}

/-- A `put`, `get` or `remove` starts when no other is under way and the store is not closed; `close`
    flushes when the queue is drained, and nothing changes the index under it; the store is opened again
    when it is closed.  The worker may be anywhere. -/
def inTurn (s : Store json.Text) : DiskAct json.Text → Bool
  | .put _ _ _ | .get _ | .remove _ => decide (s.putting = [] ∧ s.removing = [] ∧ s.closer = .no)
  | .close | .closeDump => decide s.Quiet
  | .closeFail => false
  | .crash _ => decide (s.closer = .done)
  | _ => true

/-- How far `close` is. -/
def Closing (s : Store json.Text) : Prop :=
  match s.closer with
  | .no => True
  | .flushing => s.Quiet
  | .dumped => s.Quiet ∧ s.dir.sidecarTmp = some (json.dump s.index)
  | .done => s.Quiet ∧ s.dir.sidecar = some (json.dump s.index)

variable {safeName : String → String} {s t : Store json.Text} {a : DiskAct json.Text}

lemma closing_no (h : s.closer = .no) : Closing s := by
  rw [Closing, h]
  trivial

lemma Closing.quiet (h : Closing s) (hcloser : s.closer ≠ .no) : s.Quiet := by
  rw [Closing] at h
  cases hc : s.closer <;> rw [hc] at h
  · exact absurd hc hcloser
  · exact h
  · exact h.1
  · exact h.1

lemma Closing.busy (h : Closing s) (hbusy : ¬ s.Quiet) : s.closer = .no := by
  by_contra hcloser
  exact hbusy (h.quiet hcloser)

lemma Store.Quiet.worker (h : s.Quiet) : s.worker = .idle := h.2.2.1

lemma closing_step (h : Closing s) (hok : inTurn s a = true) (hstep : diskStep safeName s a = some t) :
    Closing t := by
  cases stepped_of_step hstep with
  | refused | missed | absent => exact h
  | put | get | remove => exact closing_no (of_decide_eq_true hok).2.2
  | @enqueue n p hp =>
    refine closing_no (h.busy (fun hquiet => ?_))
    rw [hquiet.1] at hp
    cases hp
  | @unlink n p hp =>
    refine closing_no (h.busy (fun hquiet => ?_))
    rw [hquiet.2.2.2] at hp
    cases hp
  | take hworker hqueue =>
    refine closing_no (h.busy (fun hquiet => ?_))
    rw [hquiet.2.1] at hqueue
    cases hqueue
  | temp hworker | replace hworker | fail hworker | lock hworker | evict hworker | unlock hworker
  | flushTemp hworker | flushDump hworker | flushFail hworker | flushReplace hworker | onEvict hworker
  | discard hworker =>
    refine closing_no (h.busy (fun hquiet => ?_))
    rw [hquiet.worker] at hworker
    cases hworker
  | close =>
    have hquiet : s.Quiet := of_decide_eq_true hok
    exact hquiet
  | closeTemp hcloser =>
    have hquiet := h.quiet (by rw [hcloser]; exact Closer.noConfusion)
    unfold Closing
    simp only [hcloser]
    exact hquiet
  | closeDump =>
    have hquiet : s.Quiet := of_decide_eq_true hok
    exact ⟨hquiet, rfl⟩
  | closeFail => cases hok
  | closeReplace hcloser =>
    rw [Closing, hcloser] at h
    refine ⟨h.1, ?_⟩
    show s.dir.sidecarTmp.or s.dir.sidecar = _
    rw [h.2]
    rfl
  | crash => exact closing_no rfl

end InTurn

/-! ## What was accepted is what is written -/

/-- A page on its way is the last one accepted for its key, and no remove of the key is under way; an
    indexed page is the last one accepted. -/
structure Turns (accepted written : String → Option (List UInt8)) (index : Index)
    (waiting : List (String × List UInt8)) (worker : Worker) (removing : List (String × String)) :
    Prop where
  pending : ∀ p ∈ waiting, ∀ q ∈ removing, q.1 ≠ p.1
  waiting : ∀ p ∈ waiting, accepted p.1 = some p.2
  indexed : ∀ key ∈ index.keys, accepted key = written key
  replaced : ∀ key data, worker = .replaced key data → written key = some data

section Turns

variable {accepted written : String → Option (List UInt8)} {index : Index}
  {waiting : List (String × List UInt8)} {worker : Worker} {removing : List (String × String)}

variable {w : Worker} {data : List UInt8}

variable {index' : Index} {waiting' : List (String × List UInt8)}

lemma Turns.shrink (h : Turns accepted written index waiting worker removing)
    {removing' : List (String × String)} (hindex : ∀ key ∈ index'.keys, key ∈ index.keys)
    (hwaiting : ∀ p ∈ waiting', p ∈ waiting)
    (hw : ∀ key data, w = .replaced key data → worker = .replaced key data)
    (hremoving : ∀ q ∈ removing', q ∈ removing) :
    Turns accepted written index' waiting' w removing' where
  pending := fun p hp q hq => h.pending p (hwaiting p hp) q (hremoving q hq)
  waiting := fun p hp => h.waiting p (hwaiting p hp)
  indexed := fun key hkey => h.indexed key (hindex key hkey)
  replaced := fun key data heq => h.replaced key data (hw key data heq)

lemma Turns.idle {backlog : List (String × List UInt8)}
    (h : Turns accepted written index (backlog ++ worker.item) worker removing) (hw : w.item = [])
    (hw' : ∀ key data, w ≠ .replaced key data) :
    Turns accepted written index (backlog ++ w.item) w removing := by
  refine h.shrink (fun _ hk => hk) ?_ (fun key data heq => absurd heq (hw' key data)) (fun _ hq => hq)
  intro p hp
  rw [hw, append_nil] at hp
  exact mem_append_left _ hp

lemma Turns.put (h : Turns accepted written index waiting worker []) {key : String}
    (hindex : key ∉ index.keys) (hnew : ∀ p ∈ waiting, p.1 ≠ key) :
    Turns (Function.update accepted key (some data)) written index ((key, data) :: waiting) worker [] where
  pending := fun _ _ _ hq => absurd hq not_mem_nil
  waiting := by
    refine forall_mem_cons.mpr ⟨Function.update_self key _ _, fun p hp => ?_⟩
    rw [Function.update_of_ne (hnew p hp)]
    exact h.waiting p hp
  indexed := by
    intro k hk
    have hne : k ≠ key := by
      rintro rfl
      exact hindex hk
    rw [Function.update_of_ne hne]
    exact h.indexed k hk
  replaced := h.replaced

lemma Turns.remove (h : Turns accepted written index waiting worker removing)
    (hfresh : ∀ p ∈ waiting, p.1 ∉ index.keys) {key name : String} (hkey : key ∈ index.keys) :
    Turns accepted written (index.erase key) waiting worker (removing ++ [(key, name)]) where
  pending := by
    intro p hp q hq
    rcases mem_append.mp hq with hq | hq
    · exact h.pending p hp q hq
    · obtain rfl := mem_singleton.mp hq
      exact fun heq => hfresh p hp (heq ▸ hkey)
  waiting := h.waiting
  indexed := fun k hk => h.indexed k (mem_keys_erase.mp hk).2
  replaced := h.replaced

lemma Turns.replace (h : Turns accepted written index waiting worker removing) {key : String}
    (hnew : key ∉ index.keys) :
    Turns accepted (Function.update written key (some data)) index waiting (.replaced key data)
      removing where
  pending := h.pending
  waiting := h.waiting
  indexed := by
    intro k hk
    have hne : k ≠ key := by
      rintro rfl
      exact hnew hk
    rw [Function.update_of_ne hne]
    exact h.indexed k hk
  replaced := by
    intro key' data' heq
    obtain ⟨rfl, rfl⟩ := Worker.replaced.inj heq
    exact Function.update_self key _ _

lemma Turns.write {key : String}
    (h : Turns accepted written index waiting (.replaced key data) removing)
    (hmem : (key, data) ∈ waiting) (hkeys : index'.keys = index.keys ++ [key])
    (hwaiting : ∀ p ∈ waiting', p ∈ waiting) (hw : ∀ key data, w ≠ .replaced key data) :
    Turns accepted written index' waiting' w removing where
  pending := fun p hp => h.pending p (hwaiting p hp)
  waiting := fun p hp => h.waiting p (hwaiting p hp)
  indexed := by
    intro k hk
    rw [hkeys] at hk
    rcases mem_append.mp hk with hk | hk
    · exact h.indexed k hk
    · obtain rfl := mem_singleton.mp hk
      rw [h.waiting _ hmem, h.replaced _ _ rfl]
  replaced := fun key data heq => absurd heq (hw key data)

end Turns

/-! ## Along a run -/

section Orderly

variable {json : Json} {safeName : String → String} {keys : Set String} {s t : Store json.Text}
  {a : DiskAct json.Text}

/-- The store as its one user sees it. -/
structure Orderly (safeName : String → String) (keys : Set String) (s : Store json.Text) : Prop where
  accounts : Accounts safeName s
  covered : s.Covered
  readable : s.Readable safeName keys
  turns : Turns s.accepted s.written s.index (s.putting ++ s.queue ++ s.worker.item) s.worker s.removing
  closing : Closing s

lemma Orderly.exact (h : Orderly safeName keys s) (hquiet : s.Quiet) : Exact s.dir.pages s.index := by
  obtain ⟨-, -, hworker, hremoving⟩ := hquiet
  intro key name length
  constructor
  · intro hget
    obtain ⟨-, rfl, data, bs, -, hfile, hbytes, hlen⟩ := h.readable.indexed key name length hget
    exact ⟨data, bs, hfile, hbytes, hlen⟩
  · intro hpage
    rcases h.covered key name length hpage with hget | ⟨data, hreplaced, -⟩ | ⟨p, hp, -⟩
    · exact hget
    · rw [hworker] at hreplaced; cases hreplaced
    · rw [hremoving] at hp; cases hp

lemma Orderly.sidecar (h : Orderly safeName keys s) (hdone : s.closer = .done) :
    s.Quiet ∧ s.dir.sidecar.bind json.load = some s.index := by
  have hclosing := h.closing
  rw [Closing, hdone] at hclosing
  refine ⟨hclosing.1, ?_⟩
  rw [hclosing.2, Option.bind_some]
  exact json.load_dump s.index

lemma Orderly.listed (h : Orderly safeName keys s) (hdone : s.closer = .done) :
    Listed json s.dir := by
  obtain ⟨hquiet, hside⟩ := h.sidecar hdone
  intro d hd key name length
  obtain rfl := Option.some.inj (hside.symm.trans hd)
  have hexact := h.exact hquiet key name length
  exact ⟨hexact.mpr, fun hget _ => hexact.mp hget⟩

lemma exact_get? {pages : OrderedDict String (List UInt8)} {index index' : Index}
    (h : Exact pages index) (h' : Exact pages index') (key : String) :
    index.get? key = index'.get? key := by
  refine Option.ext (fun e => ?_)
  exact (h key e.1 e.2).trans (h' key e.1 e.2).symm

lemma turns_step (hacc : Accounts safeName s)
    (h : Turns s.accepted s.written s.index (s.putting ++ s.queue ++ s.worker.item) s.worker s.removing)
    (hok : inTurn s a = true)
    (hreopen : ∀ maxBytes, a = .crash maxBytes →
      ∀ key ∈ (loadIndex json s.dir).1.keys, key ∈ s.index.keys)
    (hstep : diskStep safeName s a = some t) :
    Turns t.accepted t.written t.index (t.putting ++ t.queue ++ t.worker.item) t.worker t.removing := by
  cases stepped_of_step hstep with
  | refused | missed | absent | temp | flushTemp | close | closeTemp | closeDump | closeFail
  | closeReplace => exact h
  | put hsmall hindex hinflight =>
    obtain ⟨-, hremoving, -⟩ := of_decide_eq_true hok
    rw [hremoving] at h
    refine (h.put hindex ?_).shrink (fun _ hk => hk) ?_ (fun _ _ heq => heq) ?_
    · rintro p hp rfl; exact hinflight (hacc.queued.mem_inflight hp)
    · exact fun p hp => ((backlog_put _ _ _).append_right _).mem_iff.mp hp
    · intro q hq
      rw [← hremoving]
      exact hq
  | enqueue hp =>
    refine h.shrink (fun _ hk => hk) ?_ (fun _ _ heq => heq) (fun _ hq => hq)
    exact fun p hmem => ((backlog_enqueue _ _ hp).append_right _).mem_iff.mp hmem
  | get =>
    refine h.shrink ?_ (fun _ hp => hp) (fun _ _ heq => heq) (fun _ hq => hq)
    exact fun key hkey => ((s.index.moveToEnd_perm _).map Prod.fst).mem_iff.mp hkey
  | remove hlock hget => exact h.remove hacc.queued.fresh (mem_keys.mpr ⟨_, hget⟩)
  | unlink hp =>
    exact h.shrink (fun _ hk => hk) (fun _ hp => hp) (fun _ _ heq => heq)
      (fun q hq => mem_of_mem_eraseIdx hq)
  | take hworker hqueue =>
    refine h.shrink (fun _ hk => hk) ?_ (fun _ _ heq => Worker.noConfusion heq) (fun _ hq => hq)
    intro p hp
    rw [hqueue]
    exact mem_append_left _ ((backlog_take _ _ _).mem_iff.mp hp)
  | replace hworker hbytes =>
    have hnew := hacc.item_fresh (p := (_, _)) (by rw [hworker]; exact mem_singleton.mpr rfl)
    rw [hworker] at h
    exact h.replace hnew
  | lock hworker =>
    have hnew := hacc.item_fresh (p := (_, _)) (by rw [hworker]; exact mem_singleton.mpr rfl)
    rw [hworker] at h
    refine h.write (mem_append_right _ (mem_singleton.mpr rfl)) (write_keys hnew _) ?_
      (fun _ _ => Worker.noConfusion)
    exact fun p hp => mem_append_left _ (append_nil (s.putting ++ s.queue) ▸ hp)
  | evict hworker hpop hover =>
    rw [hworker] at h
    refine h.shrink ?_ (fun _ hp => hp) (fun _ _ heq => Worker.noConfusion heq) (fun _ hq => hq)
    rw [OrderedDict.keys, OrderedDict.keys, popFirst_items hpop]
    exact fun key hkey => .tail _ hkey
  | unlock hworker hover hw =>
    rcases hw with rfl | rfl
    · exact h.idle rfl (fun _ _ => Worker.noConfusion)
    · exact h.idle rfl (fun _ _ => Worker.noConfusion)
  | fail | flushDump | flushFail | flushReplace | onEvict | discard =>
    exact h.idle rfl (fun _ _ => Worker.noConfusion)
  | crash =>
    refine h.shrink (hreopen _ rfl) ?_ (fun _ _ heq => Worker.noConfusion heq) ?_
    · exact forall_mem_nil _
    · exact forall_mem_nil _

lemma Orderly.noOverlap (h : Orderly safeName keys s) (a : DiskAct json.Text)
    (hstep : diskStep safeName s a = some t) : NoOverlap s a := by
  cases stepped_of_step hstep with
  | @replace key data bs hworker hbytes =>
    intro _ k hk q hq
    rw [hworker] at hk
    obtain rfl := mem_singleton.mp hk
    refine h.turns.pending (k, data) (mem_append_right _ ?_) q hq
    rw [hworker]
    exact mem_singleton.mpr rfl
  | _ => exact fun heq => Bool.noConfusion heq

lemma orderly_step (hinj : Set.InjOn safeName keys) (h : Orderly safeName keys s)
    (hkeys : ∀ key data early, a = .put key data early → key ∈ keys) (hok : inTurn s a = true)
    (hstep : diskStep safeName s a = some t) : Orderly safeName keys t := by
  have hlisted : ∀ maxBytes, a = .crash maxBytes → Listed json s.dir := by
    rintro maxBytes rfl
    exact h.listed (of_decide_eq_true hok)
  refine ⟨accounts_step h.accounts hstep, covered_step h.accounts h.covered hlisted hstep,
    readable_step hinj h.accounts h.readable hkeys (h.noOverlap a hstep) hlisted hstep,
    turns_step h.accounts h.turns hok ?_ hstep, closing_step h.closing hok hstep⟩
  -- the index loaded again is the index at the end
  rintro maxBytes rfl key hkey
  have hdone : s.closer = .done := of_decide_eq_true hok
  have hloaded := (exact_loadIndex h.accounts.pages).mpr (h.listed hdone)
  obtain ⟨e, hget⟩ := mem_keys.mp hkey
  rw [exact_get? hloaded (h.exact (h.sidecar hdone).1)] at hget
  exact mem_keys.mpr ⟨e, hget⟩

lemma orderly_new (safeName : String → String) (keys : Set String) (maxBytes : Nat) :
    Orderly safeName keys (Store.new json maxBytes) := by
  have hfiles : Files safeName keys (Directory.empty : Directory json.Text).pages (fun _ => none) := by
    intro name bs hget
    cases hget
  have hlisted : Listed json Directory.empty := by
    intro d hd
    cases hd
  refine ⟨accounts_open hfiles.pagesOk _ _ _, covered_open hfiles.pagesOk hlisted _ _ _,
    readable_open hfiles hlisted _ _, ⟨?_, ?_, ?_, ?_⟩, closing_no rfl⟩
  · exact forall_mem_nil _
  · exact forall_mem_nil _
  · exact fun key hkey => rfl
  · exact fun key data heq => Worker.noConfusion heq

end Orderly

/-! ## The result -/

section Reopen

variable {json : Json}

/-- A store opened from `index.json`. -/
def Store.reopen (s : Store json.Text) (maxBytes : Nat) : Store json.Text :=
  Store.open json s.dir maxBytes s.accepted s.written

/-- A store opened by scanning the page files. -/
def Store.rescan (s : Store json.Text) (maxBytes : Nat) : Store json.Text :=
  Store.open json { s.dir with sidecar := none } maxBytes s.accepted s.written

variable {safeName : String → String} {keys : Set String} {s : Store json.Text}

lemma Orderly.same (h : Orderly safeName keys s) (hquiet : s.Quiet) {t : Store json.Text}
    (hpages : t.dir.pages = s.dir.pages) (hindex : Exact s.dir.pages t.index)
    (hused : t.used = diskBytes t.index.items) :
    (∀ key, t.index.get? key = s.index.get? key) ∧ t.used = s.used
      ∧ ∀ key ∈ s.index.keys, ∃ data, s.accepted key = some data ∧ t.read key = some data := by
  have hexact := h.exact hquiet
  have hget := exact_get? hindex hexact
  refine ⟨hget, ?_, fun key hkey => ?_⟩
  · rw [hused, h.accounts.books.used, diskBytes_perm (exact_perm hindex hexact)]
  · obtain ⟨data, hwritten, hread⟩ := h.readable.read hkey
    refine ⟨data, (h.turns.indexed key hkey).trans hwritten, ?_⟩
    rw [Store.read, hget, hpages]
    exact hread

/-- **OPENED WITH OR WITHOUT ITS SIDECAR, A CLOSED STORE IS THE SAME**: after any sequence of operations,
    each started when the one before is over, and a `close` with the queue drained, `index.json` has the
    index; the store opened from it and the one opened by scanning the page files have the entries and
    the bytes that the store had, and `get` returns the page that was put. -/
theorem reopened_same (hinj : Set.InjOn safeName keys) (maxBytes : Nat)
    {acts : List (DiskAct json.Text)}
    (hkeys : ∀ a ∈ acts, ∀ key data early, a = .put key data early → key ∈ keys)
    (hturn : Guarded (diskStep safeName) (fun s a => inTurn s a = true) (Store.new json maxBytes) acts)
    (hrun : run (diskStep safeName) (Store.new json maxBytes) acts = some s)
    (hclosed : s.closer = .done) (maxBytes' : Nat) :
    s.dir.sidecar.bind json.load = some s.index
      ∧ ∀ t, t = s.reopen maxBytes' ∨ t = s.rescan maxBytes' →
          (∀ key, t.index.get? key = s.index.get? key) ∧ t.used = s.used
            ∧ ∀ key ∈ s.index.keys, ∃ data, s.accepted key = some data ∧ t.read key = some data := by
  have h : Orderly safeName keys s := by
    refine run_invariant ?_ (orderly_new safeName keys maxBytes) hturn hrun
    exact fun s a t ha h hok hstep => orderly_step hinj h (hkeys a ha) hok hstep
  obtain ⟨hquiet, hside⟩ := h.sidecar hclosed
  refine ⟨hside, ?_⟩
  have hpages := h.accounts.pages
  rintro t (rfl | rfl)
  · exact h.same hquiet rfl ((exact_loadIndex hpages).mpr (h.listed hclosed)) (loadIndex_used hpages)
  · refine h.same hquiet rfl ((exact_loadIndex (by exact hpages)).mpr ?_) (loadIndex_used hpages)
    intro d hd
    cases hd

/-- A page is removed and put again, empty; another one is dropped to make room for the third. -/
def session : List (DiskAct plainJson.Text) :=
  [.put "é" [1, 2] false, .enqueue 0, .take, .replace, .lock, .unlock, .onEvict, .discard,
    .put "b" [9] false, .enqueue 0, .take, .replace, .lock, .unlock, .onEvict, .discard,
    .get "é", .remove "é", .unlink 0,
    .put "é" [] false, .enqueue 0, .put "c" [4, 5, 6] false, .enqueue 0,
    .take, .replace, .lock, .unlock, .onEvict, .discard,
    .take, .replace, .lock, .evict, .unlock, .onEvict, .discard,
    .close, .closeDump, .closeReplace]

theorem reopened_same_session :
    ∃ s : Store plainJson.Text, run (diskStep id) (Store.new plainJson 3) session = some s
      ∧ s.index.keys = ["é", "c"]
      ∧ (s.reopen 3).read "é" = some [] ∧ (s.rescan 3).read "é" = some [] := by
  have hend : (run (diskStep id) (Store.new plainJson 3) session).map
      (fun s => (s.index.keys, s.closer, s.accepted "é")) = some (["é", "c"], .done, some []) := by
    decide +kernel
  obtain ⟨s, hrun, hs⟩ := Option.map_eq_some_iff.mp hend
  obtain ⟨hindex, hs⟩ := Prod.mk.inj hs
  obtain ⟨hclosed, haccepted⟩ := Prod.mk.inj hs
  have hmem : "é" ∈ s.index.keys := by rw [hindex]; exact List.mem_cons_self
  obtain ⟨-, hsame⟩ := reopened_same Function.injective_id.injOn 3
    (fun _ _ key _ _ _ => Set.mem_univ key) (by decide +kernel) hrun hclosed 3
  have hread : ∀ t, t = s.reopen 3 ∨ t = s.rescan 3 → t.read "é" = some [] := by
    intro t ht
    obtain ⟨data, hdata, hread⟩ := (hsame t ht).2.2 "é" hmem
    obtain rfl := Option.some.inj (haccepted.symm.trans hdata)
    exact hread
  exact ⟨s, hrun, hindex, hread _ (Or.inl rfl), hread _ (Or.inr rfl)⟩

end Reopen

end PeerCacheDiskStore
