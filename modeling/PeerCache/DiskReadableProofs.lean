import PeerCache.DiskCrashProofs

/-! # Indexed pages and their files

    `_write` replaces the file of a page and then enters the key in the index; `remove` takes the key
    out of the index and then unlinks the file.  Between the two halves of a `remove` the key can be put
    and written again, and then the unlink takes the new file (`removed_after_rewrite`). -/

namespace PeerCacheDiskStore

open PeerCacheDisk PeerCachePage Transition OrderedDict List

/-! ## Files and what was written -/

/-- The page files are those last written for their keys. -/
def Files (safeName : String → String) (keys : Set String) (pages : OrderedDict String (List UInt8))
    (written : String → Option (List UInt8)) : Prop :=
  ∀ name bs, pages.get? name = some bs →
    ∃ key data, key ∈ keys ∧ name = safeName key ∧ pageBytes key data = some bs
      ∧ written key = some data

/-- The file of a key has the page last written for it, of `length` bytes. -/
def LastWritten (safeName : String → String) (pages : OrderedDict String (List UInt8))
    (written : String → Option (List UInt8)) (key : String) (length : Nat) : Prop :=
  ∃ data bs, written key = some data ∧ pages.get? (safeName key) = some bs
    ∧ pageBytes key data = some bs ∧ length = data.length

section Files

variable {safeName : String → String} {keys : Set String} {pages : OrderedDict String (List UInt8)}
  {written : String → Option (List UInt8)} {key k : String} {length : Nat} {data bs : List UInt8}

lemma Files.pagesOk (h : Files safeName keys pages written) : PagesOk safeName pages := by
  intro f hf
  obtain ⟨key, data, -, hname, hbytes, -⟩ := h f.1 f.2 (get?_eq_some.mpr hf)
  exact ⟨key, data, hname, hbytes⟩

lemma Files.pageAt (h : Files safeName keys pages written) {name : String}
    (hpage : PageAt pages name key length) :
    key ∈ keys ∧ name = safeName key ∧ LastWritten safeName pages written key length := by
  obtain ⟨data, bs, hget, hbytes, hlen⟩ := hpage
  obtain ⟨key', data', hkey, rfl, hbytes', hwritten⟩ := h name bs hget
  obtain ⟨rfl, rfl⟩ := pageBytes_inj hbytes hbytes'
  exact ⟨hkey, rfl, data, bs, hwritten, hget, hbytes, hlen⟩

lemma Files.erase (h : Files safeName keys pages written) (name : String) :
    Files safeName keys (pages.erase name) written := by
  intro name' bs hget
  rw [get?_erase] at hget
  exact h name' bs (Option.ite_none_left_eq_some.mp hget).2

lemma Files.set (h : Files safeName keys pages written) (hk : k ∈ keys)
    (hbytes : pageBytes k data = some bs) :
    Files safeName keys (pages.set (safeName k) bs) (Function.update written k (some data)) := by
  intro name bs' hget
  rw [get?_set] at hget
  split_ifs at hget with heq
  · cases hget; exact ⟨k, data, hk, heq, hbytes, Function.update_self k _ _⟩
  · obtain ⟨key, data', hkey, rfl, hbytes', hwritten⟩ := h name bs' hget
    refine ⟨key, data', hkey, rfl, hbytes', ?_⟩
    rw [Function.update_of_ne (fun hkk => heq (congrArg safeName hkk))]
    exact hwritten

variable (hinj : Set.InjOn safeName keys)

include hinj

lemma LastWritten.erase (h : LastWritten safeName pages written key length) (hkey : key ∈ keys)
    (hk : k ∈ keys) (hne : key ≠ k) :
    LastWritten safeName (pages.erase (safeName k)) written key length := by
  obtain ⟨data, bs, hwritten, hget, hbytes⟩ := h
  refine ⟨data, bs, hwritten, ?_, hbytes⟩
  rw [get?_erase, if_neg (fun heq => hne (hinj hkey hk heq))]
  exact hget

lemma LastWritten.set (h : LastWritten safeName pages written key length) (hkey : key ∈ keys)
    (hk : k ∈ keys) (hne : key ≠ k) (bs : List UInt8) (page : Option (List UInt8)) :
    LastWritten safeName (pages.set (safeName k) bs) (Function.update written k page) key length := by
  obtain ⟨data, bs', hwritten, hget, hbytes⟩ := h
  refine ⟨data, bs', ?_, ?_, hbytes⟩
  · rw [Function.update_of_ne hne]; exact hwritten
  · rw [get?_set, if_neg (fun heq => hne (hinj hkey hk heq))]; exact hget

end Files

lemma lastWritten_self {safeName : String → String} {pages : OrderedDict String (List UInt8)}
    {written : String → Option (List UInt8)} {key : String} {data bs : List UInt8}
    (hbytes : pageBytes key data = some bs) :
    LastWritten safeName (pages.set (safeName key) bs) (Function.update written key (some data)) key
      data.length := by
  refine ⟨data, bs, Function.update_self key _ _, ?_, hbytes, rfl⟩
  rw [get?_set, if_pos rfl]

/-! ## The invariant -/

/-- Every indexed key, and the one the worker is about to enter, has its file; a key whose file is about to
    be unlinked is neither. -/
structure Readable (safeName : String → String) (keys : Set String)
    (pages : OrderedDict String (List UInt8)) (written : String → Option (List UInt8)) (index : Index)
    (backlog : List (String × List UInt8)) (worker : Worker) (removing : List (String × String)) :
    Prop where
  files : Files safeName keys pages written
  indexed : ∀ key name length, index.get? key = some (name, length) →
    key ∈ keys ∧ name = safeName key ∧ LastWritten safeName pages written key length
  waiting : ∀ p ∈ backlog ++ worker.item, p.1 ∈ keys
  replaced : ∀ key data, worker = .replaced key data →
    LastWritten safeName pages written key data.length ∧ ∀ p ∈ removing, p.1 ≠ key
  removed : ∀ p ∈ removing, p.1 ∈ keys ∧ p.2 = safeName p.1 ∧ p.1 ∉ index.keys

section Readable

variable {safeName : String → String} {keys : Set String} {pages : OrderedDict String (List UInt8)}
  {written : String → Option (List UInt8)} {index : Index}
  {backlog : List (String × List UInt8)} {worker : Worker} {removing : List (String × String)}

lemma Readable.get (h : Readable safeName keys pages written index backlog worker removing)
    (k : String) :
    Readable safeName keys pages written (index.moveToEnd k) backlog worker removing where
  files := h.files
  indexed := by
    intro key name length hget
    rw [get?_moveToEnd] at hget
    exact h.indexed key name length hget
  waiting := h.waiting
  replaced := h.replaced
  removed := by
    intro p hp
    obtain ⟨hkey, hname, hnot⟩ := h.removed p hp
    exact ⟨hkey, hname, fun hmem => hnot (((index.moveToEnd_perm k).map Prod.fst).mem_iff.mp hmem)⟩

variable {w : Worker}

lemma Readable.stage (h : Readable safeName keys pages written index backlog worker removing)
    {backlog' : List (String × List UInt8)} (hwaiting : ∀ p ∈ backlog' ++ w.item, p.1 ∈ keys)
    (hw : ∀ key data, w = .replaced key data → worker = .replaced key data) :
    Readable safeName keys pages written index backlog' w removing :=
  ⟨h.files, h.indexed, hwaiting, fun key data heq => h.replaced key data (hw key data heq), h.removed⟩

lemma Readable.idle (h : Readable safeName keys pages written index backlog worker removing)
    (hw : w.item = []) (hw' : ∀ key data, w ≠ .replaced key data) :
    Readable safeName keys pages written index backlog w removing := by
  refine h.stage ?_ (fun key data heq => absurd heq (hw' key data))
  intro p hp
  rw [hw, append_nil] at hp
  exact h.waiting p (mem_append_left _ hp)

lemma Readable.remove (h : Readable safeName keys pages written index backlog worker removing)
    (hfresh : ∀ p ∈ worker.item, p.1 ∉ index.keys) {k n : String} {l : Nat}
    (hget : index.get? k = some (n, l)) :
    Readable safeName keys pages written (index.erase k) backlog worker (removing ++ [(k, n)]) where
  files := h.files
  indexed := by
    intro key name length hget
    rw [get?_erase] at hget
    exact h.indexed key name length (Option.ite_none_left_eq_some.mp hget).2
  waiting := h.waiting
  replaced := by
    intro key data hworker
    obtain ⟨hlast, hnot⟩ := h.replaced key data hworker
    refine ⟨hlast, fun p hp => ?_⟩
    rcases mem_append.mp hp with hp | hp
    · exact hnot p hp
    · obtain rfl := mem_singleton.mp hp
      -- the worker's key is not in the index, and this one is
      rintro rfl
      refine hfresh (k, data) ?_ (mem_keys.mpr ⟨_, hget⟩)
      rw [hworker]
      exact mem_singleton.mpr rfl
  removed := by
    intro p hp
    rcases mem_append.mp hp with hp | hp
    · obtain ⟨hkey, hname, hnot⟩ := h.removed p hp
      exact ⟨hkey, hname, fun hmem => hnot (mem_keys_erase.mp hmem).2⟩
    · obtain rfl := mem_singleton.mp hp
      obtain ⟨hkey, hname, -⟩ := h.indexed k n l hget
      exact ⟨hkey, hname, fun hmem => (mem_keys_erase.mp hmem).1 rfl⟩

variable (hinj : Set.InjOn safeName keys)

include hinj

lemma Readable.unlink (h : Readable safeName keys pages written index backlog worker removing)
    {n : Nat} {p : String × String} (hp : removing[n]? = some p) :
    Readable safeName keys (pages.erase p.2) written index backlog worker (removing.eraseIdx n) := by
  have hmem := mem_of_getElem? hp
  obtain ⟨hpkey, hpname, hpnot⟩ := h.removed p hmem
  rw [hpname]
  refine ⟨h.files.erase _, ?_, h.waiting, ?_, fun q hq => h.removed q (mem_of_mem_eraseIdx hq)⟩
  · intro key name length hget
    obtain ⟨hkey, hname, hlast⟩ := h.indexed key name length hget
    refine ⟨hkey, hname, hlast.erase hinj hkey hpkey ?_⟩
    rintro rfl
    exact hpnot (mem_keys.mpr ⟨_, hget⟩)
  · intro key data hworker
    obtain ⟨hlast, hnot⟩ := h.replaced key data hworker
    have hkey : key ∈ keys := by
      refine h.waiting (key, data) (mem_append_right _ ?_)
      rw [hworker]
      exact mem_singleton.mpr rfl
    exact ⟨hlast.erase hinj hkey hpkey (hnot p hmem).symm,
      fun q hq => hnot q (mem_of_mem_eraseIdx hq)⟩

lemma Readable.replace {key : String} {data bs : List UInt8}
    (h : Readable safeName keys pages written index backlog (.writing key data) removing)
    (hnew : key ∉ index.keys) (hbytes : pageBytes key data = some bs)
    (hnot : ∀ p ∈ removing, p.1 ≠ key) :
    Readable safeName keys (pages.set (safeName key) bs) (Function.update written key (some data))
      index backlog (.replaced key data) removing := by
  have hkey : key ∈ keys :=
    h.waiting (key, data) (mem_append_right _ (mem_singleton.mpr rfl))
  refine ⟨h.files.set hkey hbytes, ?_, h.waiting, ?_, h.removed⟩
  · intro key' name length hget
    obtain ⟨hkey', hname, hlast⟩ := h.indexed key' name length hget
    refine ⟨hkey', hname, hlast.set hinj hkey' hkey ?_ bs _⟩
    rintro rfl
    exact hnew (mem_keys.mpr ⟨_, hget⟩)
  · intro key' data' heq
    obtain ⟨rfl, rfl⟩ := Worker.replaced.inj heq
    exact ⟨lastWritten_self hbytes, hnot⟩

lemma Readable.pop (h : Readable safeName keys pages written index backlog worker removing)
    (hworker : ∀ key data, worker ≠ .replaced key data) {oldKey oldName : String} {oldLen : Nat}
    {rest : Index} (hpop : index.popFirst = some ((oldKey, oldName, oldLen), rest)) :
    Readable safeName keys (pages.erase oldName) written rest backlog worker removing := by
  have hitems := popFirst_items hpop
  have hsub : ∀ e ∈ rest.items, e ∈ index.items := by
    rw [hitems]
    exact fun e he => .tail _ he
  have hold : index.get? oldKey = some (oldName, oldLen) := by
    rw [get?_eq_some, hitems]
    exact (.head _)
  obtain ⟨holdKey, rfl, -⟩ := h.indexed _ _ _ hold
  have hnodup := index.nodup
  rw [hitems, map_cons, nodup_cons] at hnodup
  refine ⟨h.files.erase _, ?_, h.waiting, fun key data heq => absurd heq (hworker key data), ?_⟩
  · intro key name length hget
    have he := get?_eq_some.mp hget
    obtain ⟨hkey, hname, hlast⟩ := h.indexed key name length (get?_eq_some.mpr (hsub _ he))
    refine ⟨hkey, hname, hlast.erase hinj hkey holdKey ?_⟩
    rintro rfl
    exact hnodup.1 (mem_map.mpr ⟨_, he, rfl⟩)
  · intro p hp
    obtain ⟨hkey, hname, hnot⟩ := h.removed p hp
    refine ⟨hkey, hname, fun hmem => hnot ?_⟩
    obtain ⟨e, he, hek⟩ := mem_map.mp hmem
    exact mem_map.mpr ⟨e, hsub e he, hek⟩

omit hinj

lemma Readable.write {key : String} {data : List UInt8}
    (h : Readable safeName keys pages written index backlog (.replaced key data) removing)
    (hw : w.item = []) (hw' : ∀ key data, w ≠ .replaced key data) :
    Readable safeName keys pages written
      ((index.set key (safeName key, data.length)).moveToEnd key) backlog w removing := by
  have hkey : key ∈ keys :=
    h.waiting (key, data) (mem_append_right _ (mem_singleton.mpr rfl))
  obtain ⟨hlast, hnot⟩ := h.replaced key data rfl
  refine ⟨h.files, ?_, (h.idle hw hw').waiting, (h.idle hw hw').replaced, ?_⟩
  · intro key' name length hget
    rw [get?_moveToEnd, get?_set] at hget
    split_ifs at hget with heq
    · cases hget
      rw [heq]
      exact ⟨hkey, rfl, hlast⟩
    · exact h.indexed key' name length hget
  · intro p hp
    obtain ⟨hpkey, hname, hpnot⟩ := h.removed p hp
    refine ⟨hpkey, hname, fun hmem => ?_⟩
    have hmem := ((moveToEnd_perm _ key).map Prod.fst).mem_iff.mp hmem
    rcases mem_keys_set.mp hmem with heq | hmem
    · exact hnot p hp heq
    · exact hpnot hmem

end Readable

/-! ## Along a run -/

section Run

variable {json : Json} {safeName : String → String} {keys : Set String} {s t : Store json.Text}
  {a : DiskAct json.Text}

def Store.Readable (safeName : String → String) (keys : Set String) (s : Store json.Text) : Prop :=
  PeerCacheDiskStore.Readable safeName keys s.dir.pages s.written s.index (s.putting ++ s.queue) s.worker
    s.removing

def DiskAct.isReplace {T : Type} : DiskAct T → Bool
  | .replace => true
  | _ => false

/-- No file is replaced while a remove of its key has still to unlink. -/
def NoOverlap (s : Store json.Text) (a : DiskAct json.Text) : Prop :=
  a.isReplace = true → ∀ key ∈ s.worker.keys, ∀ p ∈ s.removing, p.1 ≠ key

instance decidableNoOverlap (s : Store json.Text) (a : DiskAct json.Text) :
    Decidable (NoOverlap s a) := inferInstanceAs (Decidable (_ → _))

lemma readable_open {dir : Directory json.Text} {written : String → Option (List UInt8)}
    (hfiles : Files safeName keys dir.pages written) (hlisted : Listed json dir) (maxBytes : Nat)
    (accepted : String → Option (List UInt8)) :
    (Store.open json dir maxBytes accepted written).Readable safeName keys where
  files := hfiles
  indexed := fun key name length hget =>
    hfiles.pageAt (((exact_loadIndex hfiles.pagesOk).mpr hlisted key name length).mp hget)
  waiting := forall_mem_nil _
  replaced := fun _ _ heq => by cases heq
  removed := forall_mem_nil _

lemma readable_step (hinj : Set.InjOn safeName keys) (hacc : Accounts safeName s)
    (h : s.Readable safeName keys) (hkeys : ∀ key data early, a = .put key data early → key ∈ keys)
    (hok : NoOverlap s a) (hcrash : ∀ maxBytes, a = .crash maxBytes → Listed json s.dir)
    (hstep : diskStep safeName s a = some t) : t.Readable safeName keys := by
  unfold Store.Readable at h
  cases stepped_of_step hstep with
  | refused | missed | absent | temp | flushTemp | close | closeTemp | closeDump
  | closeFail | closeReplace => exact h
  | put hsmall hindex hinflight =>
    refine h.stage ?_ (fun _ _ heq => heq)
    intro p hp
    rcases mem_cons.mp (((backlog_put _ _ _).append_right _).mem_iff.mp hp) with rfl | hp
    · exact hkeys _ _ _ rfl
    · exact h.waiting p hp
  | enqueue hp =>
    refine h.stage ?_ (fun _ _ heq => heq)
    exact fun p hmem => h.waiting p (((backlog_enqueue _ _ hp).append_right _).mem_iff.mp hmem)
  | get => exact h.get _
  | remove hlock hget => exact h.remove (fun p hp => hacc.item_fresh hp) hget
  | unlink hp => exact h.unlink hinj hp
  | @take key data queue hworker hqueue =>
    refine h.stage ?_ (fun _ _ heq => Worker.noConfusion heq)
    intro p hp
    refine h.waiting p (mem_append_left _ ?_)
    rw [hqueue]
    exact (backlog_take _ _ _).mem_iff.mp hp
  | replace hworker hbytes =>
    have hnew := hacc.item_fresh (p := (_, _)) (by rw [hworker]; exact mem_singleton.mpr rfl)
    have hnot := hok rfl _ (by rw [hworker]; exact mem_singleton.mpr rfl)
    rw [hworker] at h
    exact h.replace hinj hnew hbytes hnot
  | lock hworker =>
    rw [hworker] at h
    exact h.write rfl (fun _ _ => Worker.noConfusion)
  | evict hworker hpop hover =>
    rw [hworker] at h
    exact (h.pop hinj (fun _ _ => Worker.noConfusion) hpop).idle rfl (fun _ _ => Worker.noConfusion)
  | unlock hworker hover hw =>
    rcases hw with rfl | rfl
    · exact h.idle rfl (fun _ _ => Worker.noConfusion)
    · exact h.idle rfl (fun _ _ => Worker.noConfusion)
  | fail | flushDump | flushFail | flushReplace | onEvict | discard =>
    exact h.idle rfl (fun _ _ => Worker.noConfusion)
  | crash => exact readable_open h.files (hcrash _ rfl) _ _

lemma Store.Readable.read (h : s.Readable safeName keys) {key : String} (hkey : key ∈ s.index.keys) :
    ∃ data, s.written key = some data ∧ s.read key = some data := by
  obtain ⟨⟨name, length⟩, hget⟩ := mem_keys.mp hkey
  obtain ⟨-, rfl, data, bs, hwritten, hfile, hbytes, rfl⟩ := h.indexed key name length hget
  refine ⟨data, hwritten, ?_⟩
  rw [Store.read, hget, Option.bind_some, hfile, Option.bind_some]
  exact readPage_pageBytes hbytes

end Run

/-! ## The result -/

/-- **AN INDEXED PAGE IS READABLE** in every state of a run that replaces no file while a remove of its key
    has still to unlink, from any directory whose page files are listed and were written last: `get`
    returns the page that was written last. -/
theorem indexed_readable {json : Json} {safeName : String → String} {keys : Set String}
    (hinj : Set.InjOn safeName keys) {dir : Directory json.Text}
    {accepted written : String → Option (List UInt8)}
    (hfiles : Files safeName keys dir.pages written) (hlisted : Listed json dir) (maxBytes : Nat)
    {acts : List (DiskAct json.Text)} {s : Store json.Text}
    (hacts : ∀ a ∈ acts, (∀ m, a ≠ .crash m) ∧ ∀ key data early, a = .put key data early → key ∈ keys)
    (hok : Guarded (diskStep safeName) NoOverlap (Store.open json dir maxBytes accepted written) acts)
    (hrun : run (diskStep safeName) (Store.open json dir maxBytes accepted written) acts = some s) :
    ∀ key ∈ s.index.keys, ∃ data, s.written key = some data ∧ s.read key = some data := by
  have hstep : ∀ s a t, a ∈ acts → Accounts safeName s ∧ s.Readable safeName keys → NoOverlap s a →
      diskStep safeName s a = some t → Accounts safeName t ∧ t.Readable safeName keys := by
    rintro s a t ha ⟨hacc, h⟩ hok hstep
    obtain ⟨hcrash, hkeys⟩ := hacts a ha
    refine ⟨accounts_step hacc hstep, readable_step hinj hacc h hkeys hok ?_ hstep⟩
    exact fun m heq => absurd heq (hcrash m)
  obtain ⟨-, hread⟩ := run_invariant hstep
    ⟨accounts_open hfiles.pagesOk _ _ _, readable_open hfiles hlisted _ _⟩ hok hrun
  exact fun key hkey => hread.read hkey

/-- A page is written, removed, put and written again, each after the other. -/
def writeAgain : List (DiskAct plainJson.Text) :=
  [.put "a" [1] false, .enqueue 0, .take, .replace, .lock, .unlock, .onEvict, .discard,
    .remove "a", .unlink 0,
    .put "a" [2] false, .enqueue 0, .take, .replace, .lock, .unlock, .onEvict, .discard]

theorem indexed_readable_again :
    ∃ s : Store plainJson.Text, run (diskStep id) (Store.new plainJson 8) writeAgain = some s
      ∧ "a" ∈ s.index.keys ∧ s.read "a" = some [2] := by
  have hend : (run (diskStep id) (Store.new plainJson 8) writeAgain).map
      (fun s => (s.index.keys, s.written "a")) = some (["a"], some [2]) := by decide +kernel
  obtain ⟨s, hrun, hs⟩ := Option.map_eq_some_iff.mp hend
  obtain ⟨hkeys, hwritten⟩ := Prod.mk.inj hs
  have hfiles : Files id Set.univ (Directory.empty : Directory plainJson.Text).pages (fun _ => none) := by
    intro name bs hget
    cases hget
  have hlisted : Listed plainJson Directory.empty := by
    intro d hd
    cases hd
  have hacts : ∀ a ∈ writeAgain, (∀ m, a ≠ .crash m)
      ∧ ∀ key data early, a = .put key data early → key ∈ (Set.univ : Set String) := by
    intro a ha
    refine ⟨?_, fun _ _ _ _ => Set.mem_univ _⟩
    rintro m rfl
    simp [writeAgain] at ha
  have hmem : "a" ∈ s.index.keys := by rw [hkeys]; exact List.mem_singleton.mpr rfl
  obtain ⟨data, hdata, hread⟩ := indexed_readable Function.injective_id.injOn hfiles hlisted 8 hacts
    (by decide +kernel) hrun "a" hmem
  rw [hwritten] at hdata
  obtain rfl := Option.some.inj hdata
  exact ⟨s, hrun, hmem, hread⟩

/-- The same, but the second write comes between the two halves of the remove. -/
def writeBetween : List (DiskAct plainJson.Text) :=
  [.put "a" [1] false, .enqueue 0, .take, .replace, .lock, .unlock, .onEvict, .discard,
    .remove "a",
    .put "a" [2] false, .enqueue 0, .take, .replace, .lock, .unlock, .onEvict, .discard,
    .unlink 0]

/-- **THE NEW FILE IS UNLINKED**: no operation is in progress, the key is in the index, and cannot be
    read. -/
theorem removed_after_rewrite :
    ∃ s : Store plainJson.Text, run (diskStep id) (Store.new plainJson 8) writeBetween = some s
      ∧ s.Quiet ∧ "a" ∈ s.index.keys ∧ s.written "a" = some [2] ∧ s.read "a" = none := by
  have hend : (run (diskStep id) (Store.new plainJson 8) writeBetween).map
      (fun s => (decide s.Quiet, s.index.keys, s.written "a", s.read "a"))
      = some (true, ["a"], some [2], none) := by decide +kernel
  obtain ⟨s, hrun, hs⟩ := Option.map_eq_some_iff.mp hend
  obtain ⟨hquiet, hs⟩ := Prod.mk.inj hs
  obtain ⟨hkeys, hs⟩ := Prod.mk.inj hs
  obtain ⟨hwritten, hread⟩ := Prod.mk.inj hs
  refine ⟨s, hrun, of_decide_eq_true hquiet, ?_, hwritten, hread⟩
  rw [hkeys]
  exact List.mem_singleton.mpr rfl

end PeerCacheDiskStore
