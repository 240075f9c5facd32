import PeerCache.DiskCapacityProofs

/-! # Opening a disk tier after a crash

    A crash can come between any two file-system steps.  Page files are replaced as a whole, so every
    page file that is there is complete, and a scan would find them all.  But `_load_index` trusts
    `index.json`, which is written every 256 writes and on `close`: a page written since is not
    listed, and then neither indexed nor counted nor ever evicted (`unlisted_page`). -/

namespace PeerCacheDiskStore

open PeerCacheDisk PeerCachePage Transition OrderedDict List

/-- The file `name` is complete, the page of `key` with `length` bytes. -/
def PageAt (pages : OrderedDict String (List UInt8)) (name key : String) (length : Nat) : Prop :=
  ∃ data bs, pages.get? name = some bs ∧ pageBytes key data = some bs ∧ length = data.length

/-- The index has the complete page files, each with its key and its length, and nothing else. -/
def Exact (pages : OrderedDict String (List UInt8)) (index : Index) : Prop :=
  ∀ key name length, index.get? key = some (name, length) ↔ PageAt pages name key length

/-- The sidecar, if it can be read, lists every page file that is there, and of the files that are there
    says what they are. -/
def Listed (json : Json) (dir : Directory json.Text) : Prop :=
  ∀ d, dir.sidecar.bind json.load = some d → ∀ key name length,
    (PageAt dir.pages name key length → d.get? key = some (name, length))
      ∧ (d.get? key = some (name, length) → name ∈ dir.pages.keys → PageAt dir.pages name key length)

section Directory

variable {json : Json} {safeName : String → String} {dir : Directory json.Text}
  {pages : OrderedDict String (List UInt8)} {index : Index}

variable {name : String} {length : Nat}

lemma PageAt.mem {key : String} (h : PageAt pages name key length) : name ∈ pages.keys := by
  obtain ⟨-, bs, hget, -⟩ := h
  exact mem_keys.mpr ⟨bs, hget⟩

lemma PageAt.name_eq (hpages : PagesOk safeName pages) {key : String}
    (h : PageAt pages name key length) : name = safeName key := by
  obtain ⟨data, bs, hget, hbytes, -⟩ := h
  obtain ⟨key', data', hname, hbytes'⟩ := hpages _ (get?_eq_some.mp hget)
  rw [(pageBytes_inj hbytes hbytes').1]
  exact hname

lemma get?_loadSidecar {d : Index} {key name : String} {length : Nat} :
    (loadSidecar pages d).1.get? key = some (name, length)
      ↔ d.get? key = some (name, length) ∧ name ∈ pages.keys := by
  rw [get?_eq_some, get?_eq_some, (loadSidecar_spec pages d).1,
    mem_filter, decide_eq_true_iff]

/-- **THE SIDECAR DECIDES**. -/
lemma exact_loadIndex (hpages : PagesOk safeName dir.pages) :
    Exact dir.pages (loadIndex json dir).1 ↔ Listed json dir := by
  unfold loadIndex Listed
  cases hside : dir.sidecar.bind json.load with
  | none =>
    refine ⟨fun _ d hd => (by cases hd), fun _ => ?_⟩
    exact (rebuildFromScan_spec hpages).1
  | some d =>
    constructor
    · intro h d' hd' key name length
      cases hd'
      refine ⟨fun hpage => ?_, fun hget hname => ?_⟩
      · exact (get?_loadSidecar.mp ((h key name length).mpr hpage)).1
      · exact (h key name length).mp (get?_loadSidecar.mpr ⟨hget, hname⟩)
    · intro h key name length
      obtain ⟨hlists, htrue⟩ := h d rfl key name length
      refine get?_loadSidecar.trans ⟨?_, fun hpage => ⟨hlists hpage, hpage.mem⟩⟩
      rintro ⟨hget, hname⟩
      exact htrue hget hname

lemma dataBytes_le (hpages : PagesOk safeName pages)
    (h : ∀ key name length, PageAt pages name key length → index.get? key = some (name, length)) :
    dataBytes pages ≤ diskBytes index.items := by
  obtain ⟨hget, hdata, hused⟩ := rebuildFromScan_spec hpages
  have hsub : (rebuildFromScan pages).1.items ⊆ index.items := by
    rintro ⟨key, name, length⟩ he
    have hpage := (hget key name length).mp (get?_eq_some.mpr he)
    exact get?_eq_some.mp (h key name length hpage)
  obtain ⟨l, hperm, hl⟩ := subperm_of_subset (items_nodup _) hsub
  have hle : diskBytes l ≤ diskBytes index.items := by
    rw [diskBytes, diskBytes]
    exact (hl.map _).sum_le_sum (fun _ _ => Nat.zero_le _)
  have heq : (dataBytes pages : Int) = diskBytes l := by
    rw [diskBytes_perm hperm, ← hused, hdata]
  omega

lemma exact_perm {index' : Index} (h : Exact pages index) (h' : Exact pages index') :
    index.items.Perm index'.items := by
  refine (perm_ext_iff_of_nodup index.items_nodup index'.items_nodup).mpr ?_
  rintro ⟨key, name, length⟩
  rw [← get?_eq_some, ← get?_eq_some]
  exact (h key name length).trans (h' key name length).symm

lemma exact_bytes (hpages : PagesOk safeName pages) (h : Exact pages index) :
    diskBytes index.items = dataBytes pages := by
  obtain ⟨hget, hdata, hused⟩ := rebuildFromScan_spec hpages
  have hbytes : (diskBytes index.items : Int) = dataBytes pages := by
    rw [diskBytes_perm (exact_perm h hget), ← hused, hdata]
  exact Int.ofNat_inj.mp hbytes

end Directory

/-! ## Page files and index along a run -/

section Covered

variable {pages : OrderedDict String (List UInt8)} {index : Index} {worker : Worker}
  {removing : List (String × String)}

/-- Every page file is indexed, or just put there by the worker, or about to be unlinked. -/
def Covered (pages : OrderedDict String (List UInt8)) (index : Index) (worker : Worker)
    (removing : List (String × String)) : Prop :=
  ∀ key name length, PageAt pages name key length →
    index.get? key = some (name, length)
      ∨ (∃ data, worker = .replaced key data ∧ length = data.length)
      ∨ ∃ p ∈ removing, p.2 = name

variable {name name' : String} {length : Nat} {data bs : List UInt8}

lemma PageAt.of_erase {key : String} (h : PageAt (pages.erase name') name key length) :
    name ≠ name' ∧ PageAt pages name key length := by
  obtain ⟨data, bs, hget, hbytes, hlen⟩ := h
  rw [get?_erase] at hget
  obtain ⟨hne, hget⟩ := Option.ite_none_left_eq_some.mp hget
  exact ⟨hne, data, bs, hget, hbytes, hlen⟩

lemma PageAt.of_set {key key' : String} (hbytes : pageBytes key' data = some bs)
    (h : PageAt (pages.set name' bs) name key length) :
    (key = key' ∧ length = data.length) ∨ PageAt pages name key length := by
  obtain ⟨data', bs', hget, hbytes', hlen⟩ := h
  rw [get?_set] at hget
  split_ifs at hget with heq
  · cases hget
    obtain ⟨hkey, hdata⟩ := pageBytes_inj hbytes' hbytes
    exact .inl ⟨hkey, hdata ▸ hlen⟩
  · exact .inr ⟨data', bs', hget, hbytes', hlen⟩

lemma Covered.stage (h : Covered pages index worker removing)
    (hworker : ∀ key data, worker ≠ .replaced key data) (w : Worker) :
    Covered pages index w removing := by
  intro key name length hpage
  rcases h key name length hpage with hget | ⟨data, hreplaced, -⟩ | hmem
  · exact .inl hget
  · exact absurd hreplaced (hworker key data)
  · exact .inr (.inr hmem)

lemma Covered.get (h : Covered pages index worker removing) (k : String) :
    Covered pages (index.moveToEnd k) worker removing := by
  intro key name length hpage
  rw [get?_moveToEnd]
  exact h key name length hpage

lemma Covered.remove (h : Covered pages index worker removing) {k n : String} {l : Nat}
    (hget : index.get? k = some (n, l)) :
    Covered pages (index.erase k) worker (removing ++ [(k, n)]) := by
  intro key name length hpage
  rcases h key name length hpage with hold | hreplaced | ⟨p, hp, hname⟩
  · by_cases hkey : key = k
    · subst hkey
      obtain ⟨rfl, -⟩ := Prod.mk.inj (Option.some.inj (hget.symm.trans hold))
      exact .inr (.inr ⟨_, mem_append_right _ (mem_singleton.mpr rfl), rfl⟩)
    · rw [get?_erase, if_neg hkey]; exact .inl hold
  · exact .inr (.inl hreplaced)
  · exact .inr (.inr ⟨p, List.mem_append_left _ hp, hname⟩)

lemma Covered.unlink (h : Covered pages index worker removing) {n : Nat} {p : String × String}
    (hp : removing[n]? = some p) :
    Covered (pages.erase p.2) index worker (removing.eraseIdx n) := by
  intro key name length hpage
  obtain ⟨hne, hpage⟩ := hpage.of_erase
  rcases h key name length hpage with hold | hreplaced | ⟨q, hq, hname⟩
  · exact .inl hold
  · exact .inr (.inl hreplaced)
  · obtain ⟨hn, rfl⟩ := List.getElem?_eq_some_iff.mp hp
    -- another file is to be unlinked, so by another thread
    rcases List.mem_cons.mp ((List.getElem_cons_eraseIdx_perm hn).mem_iff.mpr hq) with rfl | hq
    · exact absurd hname.symm hne
    · exact .inr (.inr ⟨q, hq, hname⟩)

lemma Covered.replace {key : String} (h : Covered pages index (.writing key data) removing)
    (hbytes : pageBytes key data = some bs) :
    Covered (pages.set name bs) index (.replaced key data) removing := by
  intro key' name' length hpage
  rcases hpage.of_set hbytes with ⟨rfl, hlen⟩ | hpage
  · exact .inr (.inl ⟨data, rfl, hlen⟩)
  · exact h.stage (fun _ _ => Worker.noConfusion) _ key' name' length hpage

lemma Covered.write {safeName : String → String} {key : String}
    (h : Covered pages index (.replaced key data) removing) (hpages : PagesOk safeName pages)
    (hnew : key ∉ index.keys) (w : Worker) :
    Covered pages ((index.set key (safeName key, data.length)).moveToEnd key) w removing := by
  intro key' name' length hpage
  rw [get?_moveToEnd, get?_set]
  rcases h key' name' length hpage with hold | ⟨data', hreplaced, hlen⟩ | hmem
  · have hne : key' ≠ key := by
      rintro rfl
      exact hnew (mem_keys.mpr ⟨_, hold⟩)
    rw [if_neg hne]
    exact .inl hold
  · obtain ⟨rfl, rfl⟩ := Worker.replaced.inj hreplaced
    rw [if_pos rfl, hpage.name_eq hpages, hlen]
    exact .inl rfl
  · exact .inr (.inr hmem)

lemma Covered.pop (h : Covered pages index worker removing)
    (hworker : ∀ key data, worker ≠ .replaced key data) {oldKey oldName : String} {oldLen : Nat}
    {rest : Index} (hpop : index.popFirst = some ((oldKey, oldName, oldLen), rest)) (w : Worker) :
    Covered (pages.erase oldName) rest w removing := by
  have hitems := popFirst_items hpop
  intro key name length hpage
  obtain ⟨hne, hpage⟩ := hpage.of_erase
  rcases h.stage hworker w key name length hpage with hold | hreplaced | hmem
  · rw [get?_eq_some, hitems, mem_cons] at hold
    rcases hold with heq | hold
    · exact absurd (congrArg (fun e => e.2.1) heq) hne
    · exact .inl (get?_eq_some.mpr hold)
  · exact .inr (.inl hreplaced)
  · exact .inr (.inr hmem)

end Covered

section Run

variable {json : Json} {safeName : String → String} {s t : Store json.Text}
  {a : DiskAct json.Text}

def Store.Covered (s : Store json.Text) : Prop :=
  PeerCacheDiskStore.Covered s.dir.pages s.index s.worker s.removing

lemma covered_open {dir : Directory json.Text} (hpages : PagesOk safeName dir.pages)
    (h : Listed json dir) (maxBytes : Nat) (accepted written : String → Option (List UInt8)) :
    (Store.open json dir maxBytes accepted written).Covered := fun key name length hpage =>
  .inl (((exact_loadIndex hpages).mpr h key name length).mpr hpage)

lemma covered_step (hacc : Accounts safeName s) (h : s.Covered)
    (hcrash : ∀ maxBytes, a = .crash maxBytes → Listed json s.dir)
    (hstep : diskStep safeName s a = some t) : t.Covered := by
  unfold Store.Covered at h
  cases stepped_of_step hstep with
  | put | refused | enqueue | missed | absent | temp | flushTemp | close | closeTemp | closeDump
  | closeFail | closeReplace => exact h
  | get => exact h.get _
  | remove hlock hget => exact h.remove hget
  | unlink hp => exact h.unlink hp
  | replace hworker hbytes =>
    rw [hworker] at h
    exact h.replace hbytes
  | lock hworker =>
    have hnew := hacc.item_fresh (p := (_, _)) (by rw [hworker]; exact mem_singleton.mpr rfl)
    rw [hworker] at h
    exact h.write hacc.pages hnew _
  | evict hworker hpop hover =>
    rw [hworker] at h
    exact h.pop (fun _ _ => Worker.noConfusion) hpop _
  | take hworker | fail hworker | unlock hworker | flushDump hworker | flushFail hworker
  | flushReplace hworker | onEvict hworker | discard hworker =>
    rw [hworker] at h
    exact h.stage (fun _ _ => Worker.noConfusion) _
  | crash => exact covered_open hacc.pages (hcrash _ rfl) _ _ _

end Run

/-! ## The result -/

/-- No write is between `os.replace` and the end of its lock section, and no remove between its lock
    section and its unlink. -/
def Store.Settled {T : Type} (s : Store T) : Prop :=
  (∀ key data, s.worker ≠ .replaced key data) ∧ s.worker.locked = false ∧ s.removing = []

/-- A store opened on the directory indexes the complete page files and counts their bytes, and once a
    write is done the page files are within `max_bytes`. -/
structure Recovers (json : Json) (safeName : String → String) (dir : Directory json.Text)
    (maxBytes : Nat) : Prop where
  index : Exact dir.pages (loadIndex json dir).1
  used : (loadIndex json dir).2 = dataBytes dir.pages
  bounded : ∀ accepted written acts t, (∀ a ∈ acts, ∀ m, a ≠ .crash m) →
    run (diskStep safeName) (Store.open json dir maxBytes accepted written) acts = some t →
    t.writes ≠ [] → t.Settled → dataBytes t.dir.pages ≤ t.maxBytes

lemma settled_bounded {json : Json} {safeName : String → String} {s : Store json.Text}
    (hacc : Accounts safeName s) (h : s.Covered) (hwrites : s.writes ≠ []) (hsettled : s.Settled) :
    dataBytes s.dir.pages ≤ s.maxBytes := by
  obtain ⟨hreplaced, hlock, hremoving⟩ := hsettled
  have hall : ∀ key name length, PageAt s.dir.pages name key length →
      s.index.get? key = some (name, length) := by
    intro key name length hpage
    rcases h key name length hpage with hget | ⟨data, hworker, -⟩ | ⟨p, hp, -⟩
    · exact hget
    · exact absurd hworker (hreplaced key data)
    · rw [hremoving] at hp; cases hp
  have hle := dataBytes_le hacc.pages hall
  have hwithin := hacc.written.within hwrites hlock
  rw [hacc.books.used] at hwithin
  omega

lemma recovers_of_listed {json : Json} {safeName : String → String} {dir : Directory json.Text}
    (hpages : PagesOk safeName dir.pages) (h : Listed json dir) (maxBytes : Nat) :
    Recovers json safeName dir maxBytes where
  index := (exact_loadIndex hpages).mpr h
  used := by
    rw [loadIndex_used hpages, exact_bytes hpages ((exact_loadIndex hpages).mpr h)]
  bounded := by
    intro accepted written acts t hacts hrun
    have hstep : ∀ s a t, a ∈ acts → Accounts safeName s ∧ s.Covered → True →
        diskStep safeName s a = some t → Accounts safeName t ∧ t.Covered := by
      rintro s a t ha ⟨hacc, hcov⟩ - hstep
      refine ⟨accounts_step hacc hstep, covered_step hacc hcov ?_ hstep⟩
      exact fun m heq => absurd heq (hacts a ha m)
    obtain ⟨hacc, hcov⟩ := run_invariant hstep
      ⟨accounts_open hpages _ _ _, covered_open hpages h _ _ _⟩ (guarded_trivial _ acts) hrun
    exact settled_bounded hacc hcov

lemma pagesOk_reached {json : Json} {safeName : String → String} {maxBytes : Nat}
    {acts : List (DiskAct json.Text)} {s : Store json.Text}
    (hrun : run (diskStep safeName) (Store.new json maxBytes) acts = some s) :
    PagesOk safeName s.dir.pages := by
  have hempty : PagesOk safeName (Directory.empty : Directory json.Text).pages :=
    forall_mem_nil _
  exact (accounts_run (accounts_open hempty maxBytes _ _) hrun).pages

/-- **A CRASH IS RECOVERED EXACTLY WHEN THE SIDECAR IS UP TO DATE**, or not there: whatever a disk tier
    has done, with crashes at any point, the store opened on the directory it leaves is right just when
    the sidecar lists the page files that are there. -/
theorem recovers_iff_listed {json : Json} {safeName : String → String} {maxBytes : Nat}
    {acts : List (DiskAct json.Text)} {s : Store json.Text}
    (hrun : run (diskStep safeName) (Store.new json maxBytes) acts = some s) (maxBytes' : Nat) :
    Recovers json safeName s.dir maxBytes' ↔ Listed json s.dir := by
  have hpages := pagesOk_reached hrun
  exact ⟨fun h => (exact_loadIndex hpages).mp h.index, fun h => recovers_of_listed hpages h maxBytes'⟩

/-- A crash right after `os.replace`, before any sidecar is written: the page is not indexed, and found
    by the scan. -/
theorem recovers_iff_listed_replaced :
    ∃ s : Store plainJson.Text,
      run (diskStep id) (Store.new plainJson 8) [.put "a" [1] false, .enqueue 0, .take, .replace] = some s
        ∧ s.dir.pages.keys = ["a"] ∧ s.index.keys = [] ∧ Recovers plainJson id s.dir 8 := by
  have hend : (run (diskStep id) (Store.new plainJson 8)
      [.put "a" [1] false, .enqueue 0, .take, .replace]).map
        (fun s => (s.dir.pages.keys, s.index.keys, s.dir.sidecar.isNone))
      = some (["a"], [], true) := by decide +kernel
  obtain ⟨s, hrun, hs⟩ := Option.map_eq_some_iff.mp hend
  obtain ⟨hpages, hs⟩ := Prod.mk.inj hs
  obtain ⟨hindex, hside⟩ := Prod.mk.inj hs
  refine ⟨s, hrun, hpages, hindex, (recovers_iff_listed hrun 8).mpr ?_⟩
  intro d hd
  rw [Option.isNone_iff_eq_none.mp hside] at hd
  cases hd

/-- A page is written and the store closed; opened again, it writes a second page and crashes. -/
def writeAfterFlush : List (DiskAct plainJson.Text) :=
  [.put "a" [1] false, .enqueue 0, .take, .replace, .lock, .unlock, .onEvict, .discard,
    .close, .closeDump, .closeReplace, .crash 8,
    .put "b" [2] false, .enqueue 0, .take, .replace, .lock, .unlock, .onEvict, .discard, .crash 8]

/-- **AN UNLISTED PAGE IS LOST**: its file is complete, but it is not indexed, and its bytes are not
    counted. -/
theorem unlisted_page :
    ∃ s : Store plainJson.Text,
      run (diskStep id) (Store.new plainJson 8) writeAfterFlush = some s
        ∧ PageAt s.dir.pages "b" "b" 1 ∧ (loadIndex plainJson s.dir).1.get? "b" = none
        ∧ (loadIndex plainJson s.dir).2 = 1 ∧ dataBytes s.dir.pages = 2
        ∧ ¬ Recovers plainJson id s.dir 8 := by
  have hend : (run (diskStep id) (Store.new plainJson 8) writeAfterFlush).map
        (fun s => (s.dir.pages.get? "b", (loadIndex plainJson s.dir).1.get? "b",
          (loadIndex plainJson s.dir).2, dataBytes s.dir.pages))
      = some (pageBytes "b" [2], none, 1, 2) := by decide +kernel
  obtain ⟨s, hrun, hs⟩ := Option.map_eq_some_iff.mp hend
  obtain ⟨hfile, hs⟩ := Prod.mk.inj hs
  obtain ⟨hget, hs⟩ := Prod.mk.inj hs
  obtain ⟨hused, hbytes⟩ := Prod.mk.inj hs
  have hpage : PageAt s.dir.pages "b" "b" 1 := by
    refine ⟨[2], [0, 0, 0, 1, 98, 2], ?_, by decide +kernel, rfl⟩
    rw [hfile]
    decide +kernel
  refine ⟨s, hrun, hpage, hget, hused, hbytes, fun h => ?_⟩
  have hindexed := (h.index "b" "b" 1).mpr hpage
  rw [hget] at hindexed
  cases hindexed

end PeerCacheDiskStore
