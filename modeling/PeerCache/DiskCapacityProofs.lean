import PeerCache.DiskThreadsProofs
import PeerCache.RecencyProofs

/-! # The accounts and the capacity of the disk tier

    Whatever the threads of a disk tier do, `_used` is the bytes of the index (`Books`), and no key is
    queued or written twice at once (`Queued`).  A `put` takes only pages that fit and keys that the
    index does not have, so the entry that `_write` adds is new, the last one, and by itself within
    `max_bytes`: the capacity loop, which never drops the last entry, always gets there
    (`Evicting.within`). -/

namespace PeerCacheDiskStore

open PeerCacheDisk PeerCachePage Transition Recency OrderedDict List

/-! ## The index -/

/-- `_used` is the bytes of the index, and the index is in order of use. -/
structure Books (index : Index) (used : Int) (uses : List String) : Prop where
  used : used = diskBytes index.items
  order : InOrder uses index.keys

section Books

variable {index : Index} {used : Int} {uses : List String}

lemma Books.get (h : Books index used uses) {key : String} (hkey : key ∈ index.keys) :
    Books (index.moveToEnd key) used (uses ++ [key]) := by
  refine ⟨?_, h.order.moveToEnd hkey⟩
  rw [h.used, diskBytes_perm (index.moveToEnd_perm key)]

lemma diskBytes_cons (e : String × String × Nat) (l : List (String × String × Nat)) :
    (diskBytes (e :: l) : Int) = e.2.2 + diskBytes l := by
  rw [diskBytes, map_cons, sum_cons, Nat.cast_add]
  rfl

lemma Books.remove (h : Books index used uses) {key name : String} {length : Nat}
    (hget : index.get? key = some (name, length)) :
    Books (index.erase key) (used - length) uses := by
  refine ⟨?_, h.order.sublist (filter_sublist.map Prod.fst)⟩
  have hperm := items_perm_of_mem (get?_eq_some.mp hget)
  rw [h.used, diskBytes_perm hperm, diskBytes_cons, add_sub_cancel_left]

lemma Books.pop (h : Books index used uses) {e : String × String × Nat} {rest : Index}
    (hpop : index.popFirst = some (e, rest)) : Books rest (used - e.2.2) uses := by
  have hitems := popFirst_items hpop
  refine ⟨?_, h.order.sublist ?_⟩
  · rw [h.used, hitems, diskBytes_cons, add_sub_cancel_left]
  · rw [OrderedDict.keys, OrderedDict.keys, hitems]
    exact sublist_cons_self _ _

lemma write_items {key : String} (hnew : key ∉ index.keys) (value : String × Nat) :
    ((index.set key value).moveToEnd key).items = index.items ++ [(key, value)] := by
  have hset := set_items_of_not_mem (v := value) hnew
  rw [moveToEnd_of_last hset, hset]

lemma write_keys {key : String} (hnew : key ∉ index.keys) (value : String × Nat) :
    ((index.set key value).moveToEnd key).keys = index.keys ++ [key] := by
  rw [OrderedDict.keys, write_items hnew, map_append]
  rfl

lemma Books.write (h : Books index used uses) {key : String} (hnew : key ∉ index.keys)
    (name : String) (length : Nat) :
    Books ((index.set key (name, length)).moveToEnd key) (used + length) (uses ++ [key]) := by
  refine ⟨?_, ?_⟩
  · rw [h.used, write_items hnew, diskBytes_append]; simp [diskBytes]
  · rw [write_keys hnew]
    have huse := h.order.use key
    have hself : index.keys.filter (fun j => decide (j ≠ key)) = index.keys := by
      refine filter_eq_self.mpr ?_
      intro j hj
      exact decide_eq_true (fun hjk => hnew (hjk ▸ hj))
    rw [hself] at huse
    exact huse

end Books

/-! ## The queue -/

/-- The keys in flight are those of the pages on their way (to the queue or to the worker) and the
    worker's: each once, and not in the index before the worker puts it there. -/
structure Queued (maxBytes : Nat) (index : Index) (inflight : List String)
    (backlog : List (String × List UInt8)) (worker : Worker) : Prop where
  inflight : inflight.Perm (backlog.map Prod.fst ++ worker.keys)
  nodup : (backlog.map Prod.fst ++ worker.keys).Nodup
  fresh : ∀ p ∈ backlog ++ worker.item, p.1 ∉ index.keys
  small : ∀ p ∈ backlog ++ worker.item, p.2.length ≤ maxBytes

section Backlog

variable {A : Type} (putting queue : List A)

lemma backlog_put (p : A) : (putting ++ [p] ++ queue).Perm (p :: (putting ++ queue)) := by
  rw [append_assoc]
  exact perm_middle

lemma backlog_enqueue {n : Nat} {p : A} (hp : putting[n]? = some p) :
    (putting.eraseIdx n ++ (queue ++ [p])).Perm (putting ++ queue) := by
  obtain ⟨hn, rfl⟩ := List.getElem?_eq_some_iff.mp hp
  rw [← List.append_assoc]
  refine perm_append_comm.trans ?_
  exact (getElem_cons_eraseIdx_perm hn).append_right queue

lemma backlog_take (p : A) : (putting ++ queue ++ [p]).Perm (putting ++ p :: queue) :=
  (perm_append_singleton p _).trans perm_middle.symm

end Backlog

section Queued

variable {maxBytes : Nat} {index : Index} {inflight : List String}
  {backlog : List (String × List UInt8)} {worker : Worker}

variable {p : String × List UInt8} {w : Worker} {index' : Index}

lemma Worker.key_of_item (hp : p ∈ worker.item) : p.1 ∈ worker.keys := by
  cases worker with
  | writing key data | replaced key data =>
    obtain rfl := mem_singleton.mp hp
    exact mem_singleton.mpr rfl
  | _ => cases hp

lemma Queued.mem_inflight (h : Queued maxBytes index inflight backlog worker)
    (hp : p ∈ backlog ++ worker.item) : p.1 ∈ inflight := by
  refine h.inflight.mem_iff.mpr (mem_append.mpr ?_)
  rcases mem_append.mp hp with hp | hp
  · exact .inl (mem_map_of_mem hp)
  · exact .inr (Worker.key_of_item hp)

variable {data : List UInt8}

lemma Queued.put (h : Queued maxBytes index inflight backlog worker) {key : String}
    (hsmall : data.length ≤ maxBytes) (hindex : key ∉ index.keys) (hinflight : key ∉ inflight) :
    Queued maxBytes index (inflight ++ [key]) ((key, data) :: backlog) worker where
  inflight := List.perm_append_comm.trans (h.inflight.cons key)
  nodup := List.nodup_cons.mpr ⟨fun hmem => hinflight (h.inflight.mem_iff.mpr hmem), h.nodup⟩
  fresh := List.forall_mem_cons.mpr ⟨hindex, h.fresh⟩
  small := List.forall_mem_cons.mpr ⟨hsmall, h.small⟩

lemma Queued.perm (h : Queued maxBytes index inflight backlog worker)
    {backlog' : List (String × List UInt8)} (hperm : backlog'.Perm backlog) :
    Queued maxBytes index inflight backlog' worker := by
  have hkeys := (hperm.map Prod.fst).append_right worker.keys
  have hmem : ∀ p, p ∈ backlog' ++ worker.item → p ∈ backlog ++ worker.item :=
    fun p => (hperm.append_right _).mem_iff.mp
  exact ⟨h.inflight.trans hkeys.symm, hkeys.nodup_iff.mpr h.nodup, fun p hp => h.fresh p (hmem p hp),
    fun p hp => h.small p (hmem p hp)⟩

lemma Queued.take {key : String} (h : Queued maxBytes index inflight ((key, data) :: backlog) .idle) :
    Queued maxBytes index inflight backlog (.writing key data) := by
  have hkeys : (backlog.map Prod.fst ++ [key]).Perm (key :: backlog.map Prod.fst ++ []) := by
    rw [append_nil]
    exact perm_append_comm
  have hmem : ∀ p, p ∈ backlog ++ [(key, data)] → p ∈ (key, data) :: backlog ++ [] := by
    intro p hp
    rw [append_nil]
    exact perm_append_comm.mem_iff.mp hp
  exact ⟨h.inflight.trans hkeys.symm, hkeys.nodup_iff.mpr h.nodup, fun p hp => h.fresh p (hmem p hp),
    fun p hp => h.small p (hmem p hp)⟩

lemma Queued.stage (h : Queued maxBytes index inflight backlog worker)
    (hkeys : w.keys = worker.keys) (hitem : ∀ p ∈ w.item, p ∈ worker.item) :
    Queued maxBytes index inflight backlog w := by
  have hmem : ∀ p, p ∈ backlog ++ w.item → p ∈ backlog ++ worker.item := by
    intro p hp
    rcases mem_append.mp hp with hp | hp
    · exact mem_append_left _ hp
    · exact mem_append_right _ (hitem p hp)
  refine ⟨?_, ?_, fun p hp => h.fresh p (hmem p hp), fun p hp => h.small p (hmem p hp)⟩
  · rw [hkeys]; exact h.inflight
  · rw [hkeys]; exact h.nodup

lemma Queued.shrink (h : Queued maxBytes index inflight backlog worker)
    (hsub : ∀ key ∈ index'.keys, key ∈ index.keys) : Queued maxBytes index' inflight backlog worker :=
  ⟨h.inflight, h.nodup, fun p hp hmem => h.fresh p hp (hsub p.1 hmem), h.small⟩

lemma Queued.discard {key : String} (h : Queued maxBytes index inflight backlog worker)
    (hworker : worker.keys = [key]) : Queued maxBytes index (inflight.erase key) backlog .idle := by
  have hinflight := h.inflight
  have hnodup := h.nodup
  rw [hworker] at hinflight hnodup
  have hnot : key ∉ backlog.map Prod.fst := fun hmem =>
    (nodup_append.mp hnodup).2.2 key hmem key (mem_singleton.mpr rfl) rfl
  have hmem : ∀ p, p ∈ backlog ++ [] → p ∈ backlog ++ worker.item := by
    intro p hp
    rw [append_nil] at hp
    exact mem_append_left _ hp
  refine ⟨?_, ?_, fun p hp => h.fresh p (hmem p hp), fun p hp => h.small p (hmem p hp)⟩
  · have herase := hinflight.erase key
    rw [erase_append_right _ hnot, erase_cons_head] at herase
    exact herase
  · show (backlog.map Prod.fst ++ []).Nodup
    rw [append_nil]
    exact (nodup_append.mp hnodup).1

lemma Queued.write {key : String} (h : Queued maxBytes index inflight backlog (.replaced key data))
    (hkeys : index'.keys = index.keys ++ [key]) (hw : w.keys = [key]) (hitem : w.item = []) :
    Queued maxBytes index' inflight backlog w := by
  have hmem : ∀ p, p ∈ backlog ++ w.item → p ∈ backlog := by
    intro p hp
    rw [hitem, append_nil] at hp
    exact hp
  refine ⟨hw ▸ h.inflight, hw ▸ h.nodup, ?_, fun p hp => h.small p (mem_append_left _ (hmem p hp))⟩
  intro p hp hin
  rw [hkeys] at hin
  rcases mem_append.mp hin with hin | hin
  · exact h.fresh p (mem_append_left _ (hmem p hp)) hin
  · exact (nodup_append.mp h.nodup).2.2 p.1 (mem_map_of_mem (hmem p hp)) key
      (mem_singleton.mpr rfl) (mem_singleton.mp hin)

end Queued

/-! ## The lock section of a write -/

/-- A lock section of `_write` that did its work. -/
structure WriteRecord.Good (w : WriteRecord) : Prop where
  used : w.used ≤ w.maxBytes
  written : w.key ∈ w.kept
  dropped : w.start = w.evicted ++ w.kept
  once : w.start.Nodup
  order : w.start.Pairwise (UsedBefore w.uses)

/-- In the capacity loop: the keys popped so far were the first ones, and the entry just written is the
    last one. -/
structure Evicting (safeName : String → String) (maxBytes : Nat) (index : Index) (uses : List String)
    (key : String) (start evicted : List String) : Prop where
  dropped : start = evicted ++ index.keys
  once : start.Nodup
  order : start.Pairwise (UsedBefore uses)
  last : ∃ front length, index.items = front ++ [(key, safeName key, length)] ∧ length ≤ maxBytes

section Evicting

variable {safeName : String → String} {maxBytes : Nat} {index : Index} {used : Int}
  {uses : List String} {key : String} {start evicted : List String}

/-- **THE LOOP GETS THERE**: when it ends, the bytes are within the bound. -/
lemma Evicting.within (h : Evicting safeName maxBytes index uses key start evicted)
    (hbooks : Books index used uses) (hover : ¬ (used > maxBytes ∧ index.items.length > 1)) :
    used ≤ maxBytes := by
  obtain ⟨front, length, hlast, hsmall⟩ := h.last
  by_contra hmore
  refine hover ⟨not_le.mp hmore, ?_⟩
  cases front with
  | nil =>
    refine absurd ?_ hmore
    rw [hbooks.used, hlast]
    simpa [diskBytes] using hsmall
  | cons e front =>
    rw [hlast]
    simp

lemma Evicting.mem (h : Evicting safeName maxBytes index uses key start evicted) :
    key ∈ index.keys := by
  obtain ⟨front, length, hlast, -⟩ := h.last
  refine mem_map.mpr ⟨(key, safeName key, length), ?_, rfl⟩
  rw [hlast]
  simp

lemma Evicting.pop (h : Evicting safeName maxBytes index uses key start evicted)
    {e : String × String × Nat} {rest : Index} (hpop : index.popFirst = some (e, rest))
    (hmore : index.items.length > 1) :
    Evicting safeName maxBytes rest uses key start (evicted ++ [e.1]) := by
  have hitems := popFirst_items hpop
  refine ⟨?_, h.once, h.order, ?_⟩
  · rw [h.dropped, OrderedDict.keys, hitems, append_assoc]; rfl
  · obtain ⟨front, length, hlast, hsmall⟩ := h.last
    cases front with
    | nil =>
      rw [hlast] at hmore
      simp at hmore
    | cons e' front =>
      rw [hitems, cons_append] at hlast
      exact ⟨front, length, (cons.inj hlast).2, hsmall⟩

end Evicting

/-- What `on_evict` has still to be told. -/
def Worker.call : Worker → List (List String)
  | .flushing _ evicted | .dumped _ evicted | .calling _ evicted =>
      if evicted = [] then [] else [evicted]
  | _ => []

/-- The writes so far, and the one that has the lock. -/
structure Written (safeName : String → String) (maxBytes : Nat) (index : Index) (used : Int)
    (uses : List String) (worker : Worker) (writes : List WriteRecord)
    (evictCalls : List (List String)) : Prop where
  evicting : ∀ key start evicted, worker = .evicting key start evicted →
    Evicting safeName maxBytes index uses key start evicted
  good : ∀ w ∈ writes, w.Good
  within : writes ≠ [] → worker.locked = false → used ≤ maxBytes
  calls : evictCalls ++ worker.call
    = (writes.map WriteRecord.evicted).filter (fun evicted => decide (evicted ≠ []))

section Written

variable {safeName : String → String} {maxBytes : Nat} {index : Index} {used : Int}
  {uses : List String} {worker : Worker} {writes : List WriteRecord} {evictCalls : List (List String)}

lemma Worker.ne_evicting (hlock : worker.locked = false) (key : String) (start evicted : List String) :
    worker ≠ .evicting key start evicted := by
  rintro rfl
  cases hlock

lemma Written.stage (h : Written safeName maxBytes index used uses worker writes evictCalls)
    (hlock : worker.locked = false) {index' : Index} {used' : Int} {uses' : List String} {w : Worker}
    {calls : List (List String)} (hused : used' ≤ used) (hw : w.locked = false)
    (hcalls : calls ++ w.call = evictCalls ++ worker.call) :
    Written safeName maxBytes index' used' uses' w writes calls where
  evicting := fun key start evicted heq => absurd heq (Worker.ne_evicting hw key start evicted)
  good := h.good
  within := fun hwrites _ => hused.trans (h.within hwrites hlock)
  calls := hcalls.trans h.calls

end Written

/-! ## The whole store -/

section Accounts

variable {json : Json}

/-- The books are right. -/
structure Accounts (safeName : String → String) (s : Store json.Text) : Prop where
  pages : PagesOk safeName s.dir.pages
  books : Books s.index s.used s.uses
  queued : Queued s.maxBytes s.index s.inflight (s.putting ++ s.queue) s.worker
  written : Written safeName s.maxBytes s.index s.used s.uses s.worker s.writes s.evictCalls

variable {safeName : String → String} {s : Store json.Text}

lemma Accounts.item_fresh (h : Accounts safeName s) {p : String × List UInt8}
    (hp : p ∈ s.worker.item) : p.1 ∉ s.index.keys :=
  h.queued.fresh p (mem_append_right _ hp)

variable {dir : Directory json.Text} {data : List UInt8}

lemma loadIndex_used (h : PagesOk safeName dir.pages) :
    (loadIndex json dir).2 = diskBytes (loadIndex json dir).1.items := by
  rw [loadIndex]
  split
  · exact (loadSidecar_spec _ _).2
  · exact (rebuildFromScan_spec h).2.2

lemma accounts_open (h : PagesOk safeName dir.pages) (maxBytes : Nat)
    (accepted written : String → Option (List UInt8)) :
    Accounts safeName (Store.open json dir maxBytes accepted written) where
  pages := h
  books := ⟨loadIndex_used h, inOrder_self (nodup_keys _)⟩
  queued := ⟨List.Perm.refl _, List.nodup_nil, List.forall_mem_nil _,
    List.forall_mem_nil _⟩
  written := ⟨fun key start evicted => Worker.ne_evicting rfl key start evicted |>.elim,
    List.forall_mem_nil _, fun hwrites => absurd rfl hwrites, rfl⟩

lemma accounts_take (h : Accounts safeName s) {key : String} {queue : List (String × List UInt8)}
    (hworker : s.worker = .idle) (hqueue : s.queue = (key, data) :: queue) :
    Accounts safeName { s with queue := queue, worker := .writing key data } := by
  have hqueued := h.queued
  have hwritten := h.written
  rw [hworker] at hqueued hwritten
  rw [hqueue] at hqueued
  refine ⟨h.pages, h.books, (hqueued.perm ?_).take, hwritten.stage rfl le_rfl rfl rfl⟩
  exact perm_middle.symm

variable {w : Worker} {t : Store json.Text}

lemma Accounts.stage (h : Accounts safeName s) {w' : Worker} {calls : List (List String)}
    (hworker : s.worker = w) (hpages : PagesOk safeName dir.pages) (hlock : w.locked = false)
    (hlock' : w'.locked = false) (hkeys : w'.keys = w.keys) (hitem : ∀ p ∈ w'.item, p ∈ w.item)
    (hcalls : calls ++ w'.call = s.evictCalls ++ w.call) (written : String → Option (List UInt8)) :
    Accounts safeName
      { s with dir := dir, worker := w', evictCalls := calls, written := written } := by
  obtain rfl := hworker
  exact ⟨hpages, h.books, h.queued.stage hkeys hitem, h.written.stage hlock le_rfl hlock' hcalls⟩

lemma accounts_replace (h : Accounts safeName s) {key : String} {bs : List UInt8}
    (hworker : s.worker = .writing key data) (hbytes : pageBytes key data = some bs)
    (temps : OrderedDict String (List UInt8)) (written : String → Option (List UInt8)) :
    Accounts safeName { s with
      dir := { s.dir with pages := s.dir.pages.set (safeName key) bs, temps := temps }
      worker := .replaced key data
      written := written } := by
  refine h.stage hworker ?_ rfl (by rfl) (by rfl) ?_ (by rfl) _
  · intro f hf
    rcases mem_set.mp hf with rfl | ⟨hf, -⟩
    · exact ⟨key, data, rfl, hbytes⟩
    · exact h.pages f hf
  · exact fun p hp => hp

lemma accounts_lock (h : Accounts safeName s) {key : String}
    (hworker : s.worker = .replaced key data) (n : Nat) :
    Accounts safeName { s with
      used := if key ∈ s.index.keys then s.used else s.used + data.length
      index := (s.index.set key (safeName key, data.length)).moveToEnd key
      writesSinceFlush := n
      uses := s.uses ++ [key]
      worker := .evicting key
        ((s.index.set key (safeName key, data.length)).moveToEnd key).keys [] } := by
  have hqueued := h.queued
  have hcalls := h.written.calls
  rw [hworker] at hqueued hcalls
  have hitem : (key, data) ∈ s.putting ++ s.queue ++ [(key, data)] := by simp
  have hnew : key ∉ s.index.keys := hqueued.fresh _ hitem
  have hbooks := h.books.write hnew (safeName key) data.length
  rw [if_neg hnew]
  refine ⟨h.pages, hbooks, hqueued.write (write_keys hnew _) rfl rfl, ?_⟩
  refine ⟨?_, h.written.good, fun _ hlock => absurd hlock Bool.noConfusion, hcalls⟩
  intro key' start evicted heq
  obtain ⟨rfl, rfl, rfl⟩ := Worker.evicting.inj heq
  refine ⟨rfl, nodup_keys _, hbooks.order.order, s.index.items, data.length, ?_, ?_⟩
  · exact write_items hnew _
  · exact hqueued.small _ hitem

lemma accounts_evict (h : Accounts safeName s) {key oldKey oldName : String} {oldLen : Nat}
    {start evicted : List String} {rest : Index} (hworker : s.worker = .evicting key start evicted)
    (hpop : s.index.popFirst = some ((oldKey, oldName, oldLen), rest)) (hover : s.over) :
    Accounts safeName { s with
      index := rest
      used := s.used - oldLen
      dir := { s.dir with pages := s.dir.pages.erase oldName }
      worker := .evicting key start (evicted ++ [oldKey]) } := by
  have hqueued := h.queued
  have hcalls := h.written.calls
  rw [hworker] at hqueued hcalls
  have hsub : ∀ k ∈ rest.keys, k ∈ s.index.keys := by
    rw [OrderedDict.keys, OrderedDict.keys, popFirst_items hpop]
    exact fun k hk => .tail _ hk
  refine ⟨fun f hf => h.pages f (mem_erase.mp hf).1, h.books.pop hpop,
    (hqueued.shrink hsub).stage rfl (fun _ hp => hp), ?_⟩
  refine ⟨?_, h.written.good, fun _ hlock => absurd hlock Bool.noConfusion, hcalls⟩
  intro key' start' evicted' heq
  obtain ⟨rfl, rfl, rfl⟩ := Worker.evicting.inj heq
  exact (h.written.evicting _ _ _ hworker).pop hpop hover.2

lemma accounts_unlock (h : Accounts safeName s) {key : String} {start evicted : List String}
    (hworker : s.worker = .evicting key start evicted) (hover : ¬ s.over)
    (hw : w = .flushing key evicted ∨ w = .calling key evicted) (n : Nat) :
    Accounts safeName { s with
      writesSinceFlush := n
      worker := w
      writes := s.writes
        ++ [⟨key, s.maxBytes, start, evicted, s.index.keys, s.used, s.uses⟩] } := by
  have hevicting := h.written.evicting _ _ _ hworker
  have hwithin := hevicting.within h.books hover
  have hqueued := h.queued
  have hcalls := h.written.calls
  rw [hworker] at hqueued hcalls
  have hstage : w.keys = [key] ∧ w.item = [] ∧ w.locked = false
      ∧ w.call = if evicted = [] then [] else [evicted] := by
    rcases hw with rfl | rfl
    · exact ⟨rfl, rfl, rfl, rfl⟩
    · exact ⟨rfl, rfl, rfl, rfl⟩
  obtain ⟨hkeys, hitem, hlock, hcall⟩ := hstage
  refine ⟨h.pages, h.books, hqueued.stage hkeys (by rw [hitem]; exact fun _ hp => hp), ?_⟩
  refine ⟨fun key start evicted heq => absurd heq (Worker.ne_evicting hlock key start evicted), ?_,
    fun _ _ => hwithin, ?_⟩
  · intro r hr
    rcases mem_append.mp hr with hr | hr
    · exact h.written.good r hr
    · obtain rfl := mem_singleton.mp hr
      exact ⟨hwithin, hevicting.mem, hevicting.dropped, hevicting.once, hevicting.order⟩
  · rw [hcall, map_append, filter_append, ← hcalls]
    show _ = s.evictCalls ++ [] ++ _
    rw [append_nil]
    by_cases hnone : evicted = [] <;> simp [hnone]

lemma accounts_step {a : DiskAct json.Text} (h : Accounts safeName s)
    (hstep : diskStep safeName s a = some t) : Accounts safeName t := by
  cases stepped_of_step hstep with
  | put hsmall hindex hinflight =>
    exact ⟨h.pages, h.books, (h.queued.put hsmall hindex hinflight).perm (backlog_put _ _ _), h.written⟩
  | refused | missed | absent => exact h
  | enqueue hp => exact ⟨h.pages, h.books, h.queued.perm (backlog_enqueue _ _ hp), h.written⟩
  | get hlock hkey =>
    refine ⟨h.pages, h.books.get hkey, h.queued.shrink ?_, h.written.stage hlock le_rfl hlock rfl⟩
    exact fun k hk => ((s.index.moveToEnd_perm _).map Prod.fst).mem_iff.mp hk
  | remove hlock hget =>
    refine ⟨h.pages, h.books.remove hget, h.queued.shrink ?_, h.written.stage hlock ?_ hlock rfl⟩
    · exact fun k hk => (mem_keys_erase.mp hk).2
    · exact sub_le_self _ (Int.natCast_nonneg _)
  | unlink hp =>
    exact ⟨fun f hf => h.pages f (mem_erase.mp hf).1, h.books, h.queued, h.written⟩
  | take hworker hqueue => exact accounts_take h hworker hqueue
  | replace hworker hbytes => exact accounts_replace h hworker hbytes _ _
  | fail hworker | flushDump hworker | flushReplace hworker | flushFail hworker =>
    refine h.stage hworker (by exact h.pages) rfl (by rfl) (by rfl) ?_ (by rfl) _
    exact forall_mem_nil _
  | lock hworker => exact accounts_lock h hworker _
  | evict hworker hpop hover => exact accounts_evict h hworker hpop hover
  | unlock hworker hover hw => exact accounts_unlock h hworker hover hw _
  | onEvict hworker =>
    refine h.stage hworker (by exact h.pages) rfl (by rfl) (by rfl) ?_ ?_ _
    · exact forall_mem_nil _
    · simp only [Worker.call]
      split <;> simp
  | discard hworker =>
    have hqueued := h.queued
    have hwritten := h.written
    rw [hworker] at hqueued hwritten
    exact ⟨h.pages, h.books, hqueued.discard rfl, hwritten.stage rfl le_rfl rfl rfl⟩
  | temp | flushTemp | close | closeTemp | closeDump | closeFail | closeReplace =>
    exact ⟨h.pages, h.books, h.queued, h.written⟩
  | crash => exact accounts_open h.pages _ _ _

lemma accounts_run {acts : List (DiskAct json.Text)} (h : Accounts safeName s)
    (hrun : run (diskStep safeName) s acts = some t) : Accounts safeName t :=
  run_invariant (fun _ _ _ _ h _ hstep => accounts_step h hstep) h (guarded_trivial _ acts) hrun

end Accounts

/-! ## The result -/

/-- **ACCOUNTS AND CAPACITY**: from any directory of page files, whatever the threads do, `_used` is
    the bytes of the index and no key is queued or written twice at once.  Every write ends within
    `max_bytes`, with its key in the index; the keys it drops are the least recently used ones, and are
    what it passes to `on_evict`, each once and in that order. -/
theorem accounts_and_capacity {json : Json} {safeName : String → String}
    {dir : Directory json.Text} (hdir : PagesOk safeName dir.pages) (maxBytes : Nat)
    (accepted written : String → Option (List UInt8)) {acts : List (DiskAct json.Text)}
    {s : Store json.Text}
    (hrun : run (diskStep safeName) (Store.open json dir maxBytes accepted written) acts = some s) :
    s.used = diskBytes s.index.items
      ∧ ((s.putting ++ s.queue).map Prod.fst ++ s.worker.keys).Nodup
      ∧ (∀ w ∈ s.writes, w.used ≤ w.maxBytes ∧ w.key ∈ w.kept ∧ w.start = w.evicted ++ w.kept
          ∧ w.start.Nodup ∧ w.start.Pairwise (UsedBefore w.uses))
      ∧ (s.worker = .idle → s.evictCalls
          = (s.writes.map WriteRecord.evicted).filter (fun evicted => decide (evicted ≠ []))) := by
  have h := accounts_run (accounts_open hdir maxBytes accepted written) hrun
  refine ⟨h.books.used, h.queued.nodup, ?_, ?_⟩
  · intro w hw
    obtain ⟨hused, hkey, hdropped, honce, horder⟩ := h.written.good w hw
    exact ⟨hused, hkey, hdropped, honce, horder⟩
  · intro hidle
    have hcalls := h.written.calls
    rw [hidle] at hcalls
    rw [← hcalls]
    exact (append_nil _).symm

/-- Texts that are indexes themselves. -/
def plainJson : Json := ⟨Index, id, some, fun _ => rfl⟩

/-- One page of five bytes. -/
def oversized : Directory plainJson.Text :=
  { Directory.empty with pages := OrderedDict.empty.set "a" [0, 0, 0, 1, 97, 1, 2, 3, 4, 5] }

/-- A page is put and written, and the page of `oversized` has to go. -/
def makeRoom : List (DiskAct plainJson.Text) :=
  [.put "b" [6, 7] false, .enqueue 0, .take, .temp 5, .replace, .lock, .evict, .unlock, .onEvict, .discard]

theorem accounts_and_capacity_oversized :
    PagesOk id oversized.pages
      ∧ ∃ s : Store plainJson.Text,
          run (diskStep id) (Store.open plainJson oversized 3 (fun _ => none) (fun _ => none)) makeRoom
            = some s
          ∧ s.index.keys = ["b"] ∧ s.used = 2 ∧ s.used = diskBytes s.index.items
          ∧ s.evictCalls = [["a"]] := by
  have hdir : PagesOk id oversized.pages := by
    intro f hf
    obtain rfl := mem_singleton.mp hf
    exact ⟨"a", [1, 2, 3, 4, 5], rfl, by decide +kernel⟩
  have hend : (run (diskStep id) (Store.open plainJson oversized 3 (fun _ => none) (fun _ => none))
      makeRoom).map (fun s => (s.index.keys, s.used, s.worker, s.writes.map WriteRecord.evicted))
      = some (["b"], 2, .idle, [["a"]]) := by decide +kernel
  obtain ⟨s, hrun, hs⟩ := Option.map_eq_some_iff.mp hend
  obtain ⟨hkeys, hs⟩ := Prod.mk.inj hs
  obtain ⟨hused, hs⟩ := Prod.mk.inj hs
  obtain ⟨hidle, hwrites⟩ := Prod.mk.inj hs
  obtain ⟨hbytes, -, -, hcalls⟩ := accounts_and_capacity hdir 3 _ _ hrun
  refine ⟨hdir, s, hrun, hkeys, hused, hbytes, ?_⟩
  rw [hcalls hidle, hwrites]
  decide

end PeerCacheDiskStore
