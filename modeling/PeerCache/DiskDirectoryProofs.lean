import PeerCache.DiskAccountsProofs
import PeerCache.PageFileProofs

/-! # The directory of a disk tier

    What `DiskStore` (`diskstore.py`) leaves in its directory: page files named by a digest of
    their key, temporary files, and the sidecar `index.json`.  `_load_index` reads the sidecar, and
    when there is none or it cannot be read, `_rebuild_from_scan` reads the page files. -/

namespace PeerCacheDiskStore

open PeerCacheDisk PeerCachePage List

/-- `_index`: key to file name and length, least recently used first. -/
abbrev Index := OrderedDict String (String × Nat)

/-- `json.dump` and `json.load` of the index: what was dumped is loaded unchanged. -/
structure Json where
  Text : Type
  dump : Index → Text
  load : Text → Option Index
  load_dump : ∀ d, load (dump d) = some d

/-- The page files (`*.bin`), the temporary files, `index.json` and `index.json.tmp`. -/
structure Directory (T : Type) where
  pages : OrderedDict String (List UInt8)
  temps : OrderedDict String (List UInt8)
  sidecar : Option T
  sidecarTmp : Option T

def Directory.empty {T : Type} : Directory T := ⟨OrderedDict.empty, OrderedDict.empty, none, none⟩

/-- `self._index[key] = (name, length)`, `self._used += length` -/
def addEntry (acc : Index × Int) (e : String × String × Nat) : Index × Int :=
  (acc.1.set e.1 e.2, acc.2 + e.2.2)

/-- The entries of the sidecar whose file exists. -/
def loadSidecar (pages : OrderedDict String (List UInt8)) (d : Index) : Index × Int :=
  (d.items.filter (fun e => e.2.1 ∈ pages.keys)).foldl addEntry (OrderedDict.empty, 0)

/-- The entry of a page file. -/
def scanEntry (f : String × List UInt8) : Option (String × String × Nat) :=
  (scanPage f.2).map (fun e => (e.1, f.1, e.2))

/-- `_rebuild_from_scan` -/
def rebuildFromScan (pages : OrderedDict String (List UInt8)) : Index × Int :=
  ((pages.items.insertionSort (fun f g => f.1 ≤ g.1)).filterMap scanEntry).foldl addEntry
    (OrderedDict.empty, 0)

/-- `_load_index` -/
def loadIndex (json : Json) (dir : Directory json.Text) : Index × Int :=
  match dir.sidecar.bind json.load with
  | some d => loadSidecar dir.pages d
  | none => rebuildFromScan dir.pages

/-! ## What is loaded -/

lemma foldl_addEntry (l : List (String × String × Nat)) (acc : Index × Int)
    (h : (acc.1.keys ++ l.map Prod.fst).Nodup) :
    (l.foldl addEntry acc).1.items = acc.1.items ++ l
      ∧ (l.foldl addEntry acc).2 = acc.2 + diskBytes l := by
  induction l generalizing acc with
  | nil => simp [diskBytes]
  | cons e l ih =>
    have hnot : e.1 ∉ acc.1.keys := by
      intro hmem
      exact (nodup_append.mp h).2.2 e.1 hmem e.1 (by simp) rfl
    have hset : (acc.1.set e.1 e.2).items = acc.1.items ++ [e] :=
      OrderedDict.set_items_of_not_mem hnot
    have hkeys : (acc.1.set e.1 e.2).keys = acc.1.keys ++ [e.1] := by
      rw [OrderedDict.keys, hset, map_append]
      rfl
    have hnext : ((addEntry acc e).1.keys ++ l.map Prod.fst).Nodup := by
      show ((acc.1.set e.1 e.2).keys ++ _).Nodup
      rw [hkeys, append_assoc]
      exact h
    obtain ⟨hitems, hused⟩ := ih (addEntry acc e) hnext
    rw [foldl_cons, hitems, hused]
    refine ⟨?_, ?_⟩
    · show (acc.1.set e.1 e.2).items ++ l = _
      rw [hset, append_assoc]
      rfl
    · show acc.2 + (e.2.2 : Int) + diskBytes l = acc.2 + diskBytes (e :: l)
      rw [diskBytes, diskBytes, map_cons, sum_cons]
      push_cast
      omega

lemma foldl_addEntry_empty (l : List (String × String × Nat)) (h : (l.map Prod.fst).Nodup) :
    (l.foldl addEntry (OrderedDict.empty, 0)).1.items = l
      ∧ (l.foldl addEntry (OrderedDict.empty, 0)).2 = diskBytes l := by
  obtain ⟨hitems, hused⟩ := foldl_addEntry l (OrderedDict.empty, 0) h
  exact ⟨hitems, by rw [hused]; simp⟩

/-- **THE SIDECAR IS TRUSTED**. -/
lemma loadSidecar_spec (pages : OrderedDict String (List UInt8)) (d : Index) :
    (loadSidecar pages d).1.items = d.items.filter (fun e => e.2.1 ∈ pages.keys)
      ∧ (loadSidecar pages d).2 = diskBytes (loadSidecar pages d).1.items := by
  have hnodup : ((d.items.filter (fun e => decide (e.2.1 ∈ pages.keys))).map Prod.fst).Nodup :=
    d.nodup.sublist (filter_sublist.map Prod.fst)
  obtain ⟨hitems, hused⟩ := foldl_addEntry_empty _ hnodup
  rw [loadSidecar, hitems, hused]
  exact ⟨rfl, rfl⟩

/-- Every page file is one that `_write` has written. -/
def PagesOk (safeName : String → String) (pages : OrderedDict String (List UInt8)) : Prop :=
  ∀ f ∈ pages.items, ∃ key data, f.1 = safeName key ∧ pageBytes key data = some f.2

section Scan

variable {safeName : String → String} {pages : OrderedDict String (List UInt8)}

variable {f : String × List UInt8} {e : String × String × Nat}

lemma mem_scanEntry (h : PagesOk safeName pages) (hf : f ∈ pages.items) :
    scanEntry f = some e ↔ ∃ data, pageBytes e.1 data = some f.2 ∧ e.2 = (f.1, data.length) := by
  obtain ⟨key, data, -, hbytes⟩ := h f hf
  rw [scanEntry, scanPage_pageBytes hbytes]
  constructor
  · intro he
    cases he
    exact ⟨data, hbytes, rfl⟩
  · rintro ⟨data', hbytes', hval⟩
    obtain ⟨hkey, hdata⟩ := pageBytes_inj hbytes hbytes'
    refine congrArg some (Prod.ext hkey ?_)
    rw [hval, hdata]

lemma name_of_scanEntry (h : PagesOk safeName pages) (hf : f ∈ pages.items)
    (he : scanEntry f = some e) : f.1 = safeName e.1 := by
  obtain ⟨key, data, hname, hbytes⟩ := h f hf
  obtain ⟨data', hbytes', -⟩ := (mem_scanEntry h hf).mp he
  rw [← (pageBytes_inj hbytes hbytes').1]
  exact hname

lemma scan_nodup (h : PagesOk safeName pages) (l : List (String × List UInt8))
    (hsub : ∀ f ∈ l, f ∈ pages.items) (hnames : (l.map Prod.fst).Nodup) :
    ((l.filterMap scanEntry).map Prod.fst).Nodup := by
  induction l with
  | nil => exact nodup_nil
  | cons f l ih =>
    rw [map_cons, nodup_cons] at hnames
    have htail := ih (fun g hg => hsub g (.tail _ hg)) hnames.2
    cases he : scanEntry f with
    | none => rw [filterMap_cons_none he]; exact htail
    | some e =>
      rw [filterMap_cons_some he, map_cons, nodup_cons]
      refine ⟨?_, htail⟩
      intro hmem
      obtain ⟨e', he', hkey⟩ := mem_map.mp hmem
      obtain ⟨g, hg, hge⟩ := mem_filterMap.mp he'
      have hname := name_of_scanEntry h (hsub g (.tail _ hg)) hge
      rw [hkey, ← name_of_scanEntry h (hsub f (.head _)) he] at hname
      exact hnames.1 (mem_map.mpr ⟨g, hg, hname⟩)

/-- The bytes of the pages in the page files. -/
def dataBytes (pages : OrderedDict String (List UInt8)) : Nat :=
  (pages.items.map (fun f => ((scanPage f.2).map Prod.snd).getD 0)).sum

lemma diskBytes_filterMap (l : List (String × List UInt8)) :
    diskBytes (l.filterMap scanEntry) = (l.map (fun f => ((scanPage f.2).map Prod.snd).getD 0)).sum := by
  induction l with
  | nil => rfl
  | cons f l ih =>
    rw [map_cons, sum_cons, ← ih]
    cases he : scanPage f.2 with
    | none =>
      rw [filterMap_cons_none (by rw [scanEntry, he]; rfl)]
      simp
    | some e =>
      rw [filterMap_cons_some (by rw [scanEntry, he]; rfl), diskBytes, map_cons,
        sum_cons]
      rfl

/-- **THE SCAN FINDS THE PAGES THAT ARE THERE**, and counts their bytes. -/
lemma rebuildFromScan_spec (h : PagesOk safeName pages) :
    (∀ key name length, (rebuildFromScan pages).1.get? key = some (name, length) ↔
        ∃ data bs, pages.get? name = some bs ∧ pageBytes key data = some bs ∧ length = data.length)
      ∧ (rebuildFromScan pages).2 = dataBytes pages
      ∧ (rebuildFromScan pages).2 = diskBytes (rebuildFromScan pages).1.items := by
  have hperm := perm_insertionSort (fun f g : String × List UInt8 => f.1 ≤ g.1) pages.items
  have hnodup := scan_nodup h _ (fun f hf => hperm.mem_iff.mp hf)
    ((hperm.map Prod.fst).nodup_iff.mpr pages.nodup)
  obtain ⟨hitems, hused⟩ := foldl_addEntry_empty _ hnodup
  refine ⟨?_, ?_, ?_⟩
  · intro key name length
    rw [OrderedDict.get?_eq_some, rebuildFromScan, hitems, mem_filterMap]
    constructor
    · rintro ⟨f, hf, he⟩
      have hf := hperm.mem_iff.mp hf
      obtain ⟨data, hbytes, hval⟩ := (mem_scanEntry h hf).mp he
      obtain ⟨rfl, hlen⟩ := Prod.mk.inj hval
      exact ⟨data, f.2, OrderedDict.get?_eq_some.mpr hf, hbytes, hlen⟩
    · rintro ⟨data, bs, hget, hbytes, rfl⟩
      have hf := OrderedDict.get?_eq_some.mp hget
      exact ⟨(name, bs), hperm.mem_iff.mpr hf, (mem_scanEntry h hf).mpr ⟨data, hbytes, rfl⟩⟩
  · rw [rebuildFromScan, hused, diskBytes_filterMap, dataBytes]
    exact congrArg Nat.cast ((hperm.map _).sum_eq)
  · rw [rebuildFromScan, hused, hitems]

end Scan

end PeerCacheDiskStore
