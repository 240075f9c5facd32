import PeerCache.ByteMemoryProofs

/-! # Pages of several buffers

    Some pools keep a page in several host buffers.  `batch_set_v2` concatenates the buffers of
    each page into one blob and publishes the blobs; `batch_get_v2` fetches into blobs of the same
    sizes and copies them back out.  Both regroup a flat list of buffers by division, and both
    walk a page with a running offset.  A pool with one buffer to a page is passed through. -/

namespace PeerCacheMultiBuffer

open List

/-! ## `_pack_multi_buffer` and `_scatter_multi_buffer` -/

/-- A packed pointer: into host memory, or to one of the blobs that `keepalive` holds. -/
inductive Target where
  | host (p : Nat)
  | blob (i : Nat)

/-- The pointers and sizes that `_pack_multi_buffer` returns, and the blobs it appended. -/
structure Packed where
  ptrs : List Target
  sizes : List Nat
  keepalive : List Bytes

/-- `l[i * nbuf:(i + 1) * nbuf]` -/
def chunk (l : List Nat) (i nbuf : Nat) : List Nat := (l.drop (i * nbuf)).take nbuf

/-- `memmove` into a blob, and the running offset. -/
def copyIn (mem : Mem) (acc : Bytes × Nat) (q : Nat × Nat) : Bytes × Nat :=
  (acc.1.take acc.2 ++ mem.read q.1 q.2 ++ acc.1.drop (acc.2 + q.2), acc.2 + q.2)

/-- The blob of one page. -/
def packPage (mem : Mem) (ptrs sizes : List Nat) : Bytes :=
  ((ptrs.zip sizes).foldl (copyIn mem) (List.replicate sizes.sum 0, 0)).1

/-- `_pack_multi_buffer`, with the empty `keepalive` of its callers. -/
def packMultiBuffer (mem : Mem) (compKeys : List String) (ptrs sizes : List Nat) :
    Except String Packed :=
  if ptrs.length = compKeys.length then .ok ⟨ptrs.map .host, sizes, []⟩
  else if compKeys.length = 0 then .error "integer modulo by zero"
  else if ptrs.length % compKeys.length ≠ 0 then
    .error ("multi-buffer meta mismatch: " ++ toString ptrs.length ++ " buffers for "
      ++ toString compKeys.length ++ " keys")
  else
    let nbuf := ptrs.length / compKeys.length
    .ok ⟨(List.range compKeys.length).map .blob,
      (List.range compKeys.length).map (fun i => (chunk sizes i nbuf).sum),
      (List.range compKeys.length).map (fun i => packPage mem (chunk ptrs i nbuf) (chunk sizes i nbuf))⟩

/-- `memmove` out of a blob, and the running offset. -/
def copyOut (src : Bytes) (acc : Mem × Nat) (q : Nat × Nat) : Mem × Nat :=
  (acc.1.write q.1 ((src.drop acc.2).take q.2), acc.2 + q.2)

/-- One turn of the loop of `_scatter_multi_buffer`. -/
def scatterPage (nbuf : Nat) (ptrs sizes : List Nat) (keepalive : List Bytes)
    (acc : Mem × List Bool) (i : Nat) : Mem × List Bool :=
  if acc.2.getD i false then
    match keepalive[i]? with
    | none => (acc.1, acc.2.set i false)
    | some src =>
        ((((chunk ptrs i nbuf).zip (chunk sizes i nbuf)).foldl (copyOut src) (acc.1, 0)).1, acc.2)
  else acc

/-- `_scatter_multi_buffer`: the host memory after it, and the results. -/
def scatterMultiBuffer (compKeys : List String) (ptrs sizes : List Nat)
    (keepalive : List Bytes) (results : List Bool) (mem : Mem) : Mem × List Bool :=
  if ptrs.length = compKeys.length then (mem, results)
  else
    (List.range compKeys.length).foldl
      (scatterPage (ptrs.length / compKeys.length) ptrs sizes keepalive) (mem, results)

/-! ## Between the two -/

/-- The bytes behind the `i`-th packed pointer: what `_publish` stores for the `i`-th key. -/
def Packed.bytes (p : Packed) (mem : Mem) (i : Nat) : Bytes :=
  match p.ptrs[i]? with
  | none => []
  | some (.host q) => mem.read q (p.sizes.getD i 0)
  | some (.blob j) => (p.keepalive.getD j []).take (p.sizes.getD i 0)

/-- What `_fetch` does: it fills the packed pointer of each key whose result is `True` with the
    published bytes, and writes nothing else.  Blobs keep their sizes. -/
structure Fetched (n : Nat) (results : List Bool) (published : Nat → Bytes)
    (mem : Mem) (target : Packed) (mem' : Mem) (keepalive' : List Bytes) : Prop where
  filled : ∀ i < n, Packed.bytes { target with keepalive := keepalive' } mem' i
    = if results.getD i false then published i else target.bytes mem i
  sizes : keepalive'.map List.length = target.keepalive.map List.length
  frame : ∀ a, (∀ i q, results.getD i false = true → target.ptrs[i]? = some (.host q) →
    ¬ (q ≤ a ∧ a < q + target.sizes.getD i 0)) → mem' a = mem a

/-- No two buffers overlap. -/
def Separate (ptrs sizes : List Nat) : Prop :=
  ∀ b b', b < sizes.length → b' < sizes.length → b ≠ b' →
    Mem.Apart (ptrs.getD b 0) (sizes.getD b 0) (ptrs.getD b' 0) (sizes.getD b' 0)

/-! ## One page -/

variable {l ptrs : List Nat}

lemma chunk_eq {i nbuf : Nat} (h : i * nbuf + nbuf ≤ l.length) :
    chunk l i nbuf = (List.range nbuf).map (fun j => l.getD (i * nbuf + j) 0) := by
  refine ext_getElem? ?_
  intro j
  rw [chunk, getElem?_take, getElem?_drop, getElem?_map]
  split_ifs with hj
  · have hlt : i * nbuf + j < l.length := by omega
    rw [getElem?_range hj, Option.map_some, getElem?_eq_getElem hlt,
      getD_eq_getElem _ _ hlt]
  · rw [getElem?_eq_none (by rw [length_range]; omega), Option.map_none]

lemma length_chunk {i nbuf : Nat} (h : i * nbuf + nbuf ≤ l.length) :
    (chunk l i nbuf).length = nbuf := by
  rw [chunk_eq h, length_map, length_range]

lemma page_le {i n : Nat} (nbuf : Nat) (hi : i < n) : i * nbuf + nbuf ≤ nbuf * n := by
  calc i * nbuf + nbuf = nbuf * (i + 1) := by ring
    _ ≤ nbuf * n := Nat.mul_le_mul_left nbuf hi

lemma getElem?_map_range {B : Type} {i n : Nat} (hi : i < n) (f : Nat → B) :
    ((List.range n).map f)[i]? = some (f i) := by
  rw [getElem?_map, getElem?_range hi]
  rfl

lemma chunk_zip {sizes : List Nat} {i nbuf : Nat} (hp : i * nbuf + nbuf ≤ ptrs.length)
    (hs : i * nbuf + nbuf ≤ sizes.length) :
    (chunk ptrs i nbuf).zip (chunk sizes i nbuf) = (List.range nbuf).map
          (fun j => (ptrs.getD (i * nbuf + j) 0, sizes.getD (i * nbuf + j) 0)) := by
  rw [chunk_eq hp, chunk_eq hs, zip_map']

lemma copyIn_eq (mem : Mem) (qs : List (Nat × Nat)) (done : Bytes) :
    (qs.foldl (copyIn mem) (done ++ List.replicate (qs.map Prod.snd).sum 0, done.length)).1
      = done ++ qs.flatMap (fun q => mem.read q.1 q.2) := by
  induction qs generalizing done with
  | nil => rfl
  | cons q qs ih =>
    have hstep : copyIn mem (done ++ List.replicate ((q :: qs).map Prod.snd).sum 0, done.length) q
        = ((done ++ mem.read q.1 q.2) ++ List.replicate (qs.map Prod.snd).sum 0,
          (done ++ mem.read q.1 q.2).length) := by
      rw [copyIn, map_cons, sum_cons, take_left, drop_append,
        drop_of_length_le (by omega), drop_replicate, length_append, Mem.length_read]
      simp only [nil_append, Nat.add_sub_cancel_left]
    rw [foldl_cons, hstep, ih, flatMap_cons, append_assoc]

/-- **PACK**: the blob of a page is its buffers' bytes, one after the other. -/
lemma packPage_eq (mem : Mem) {sizes : List Nat} (h : sizes.length ≤ ptrs.length) :
    packPage mem ptrs sizes = (ptrs.zip sizes).flatMap (fun q => mem.read q.1 q.2) := by
  have hsum : sizes.sum = ((ptrs.zip sizes).map Prod.snd).sum := by
    rw [map_snd_zip h]
  rw [packPage, hsum]
  exact copyIn_eq mem (ptrs.zip sizes) []

lemma length_packPage (mem : Mem) {sizes : List Nat} (h : sizes.length ≤ ptrs.length) :
    (packPage mem ptrs sizes).length = sizes.sum := by
  rw [packPage_eq mem h, length_flatMap]
  simp only [Mem.length_read]
  rw [map_snd_zip h]

/-- **SCATTER**: copying a concatenation out at running offsets writes its parts. -/
lemma copyOut_eq (ws : List (Nat × Bytes)) (pre : Bytes) (mem : Mem) :
    ((ws.map (fun w => (w.1, w.2.length))).foldl (copyOut (pre ++ ws.flatMap Prod.snd))
      (mem, pre.length)).1 = mem.writes ws := by
  induction ws generalizing pre mem with
  | nil => rfl
  | cons w ws ih =>
    have hstep : copyOut (pre ++ (w :: ws).flatMap Prod.snd) (mem, pre.length) (w.1, w.2.length)
        = (mem.write w.1 w.2, (pre ++ w.2).length) := by
      rw [copyOut, drop_left, flatMap_cons, take_left, length_append]
    have hsrc : pre ++ (w :: ws).flatMap Prod.snd = (pre ++ w.2) ++ ws.flatMap Prod.snd := by
      rw [flatMap_cons, append_assoc]
    rw [map_cons, foldl_cons, hstep, hsrc]
    exact ih (pre ++ w.2) (mem.write w.1 w.2)

/-! ## All pages -/

section

variable {n nbuf : Nat} {wptrs rptrs sizes : List Nat} {wmem : Mem}

/-- What the writer has in its `b`-th buffer. -/
def bufferBytes (wmem : Mem) (wptrs sizes : List Nat) (b : Nat) : Bytes :=
  wmem.read (wptrs.getD b 0) (sizes.getD b 0)

lemma length_bufferBytes (b : Nat) : (bufferBytes wmem wptrs sizes b).length = sizes.getD b 0 :=
  Mem.length_read _ _ _

/-- The writes that bring the `i`-th page back. -/
def pageWrites (wmem : Mem) (wptrs rptrs sizes : List Nat) (nbuf i : Nat) :
    List (Nat × Bytes) :=
  (List.range nbuf).map (fun j =>
    (rptrs.getD (i * nbuf + j) 0, bufferBytes wmem wptrs sizes (i * nbuf + j)))

variable {i : Nat}

lemma packPage_chunk (rptrs : List Nat) (hw : i * nbuf + nbuf ≤ wptrs.length)
    (hs : i * nbuf + nbuf ≤ sizes.length) :
    packPage wmem (chunk wptrs i nbuf) (chunk sizes i nbuf)
      = (pageWrites wmem wptrs rptrs sizes nbuf i).flatMap Prod.snd := by
  have hlen : (chunk sizes i nbuf).length ≤ (chunk wptrs i nbuf).length := by
    rw [length_chunk hw, length_chunk hs]
  rw [packPage_eq wmem hlen, chunk_zip hw hs, pageWrites, flatMap_map, flatMap_map]
  rfl

lemma scatter_chunk (hr : i * nbuf + nbuf ≤ rptrs.length) (hs : i * nbuf + nbuf ≤ sizes.length)
    (mem : Mem) :
    (((chunk rptrs i nbuf).zip (chunk sizes i nbuf)).foldl
        (copyOut ((pageWrites wmem wptrs rptrs sizes nbuf i).flatMap Prod.snd)) (mem, 0)).1
      = mem.writes (pageWrites wmem wptrs rptrs sizes nbuf i) := by
  have hbufs : (chunk rptrs i nbuf).zip (chunk sizes i nbuf)
      = (pageWrites wmem wptrs rptrs sizes nbuf i).map (fun w => (w.1, w.2.length)) := by
    rw [chunk_zip hr hs, pageWrites, map_map]
    refine map_congr_left ?_
    intro j _
    exact congrArg (Prod.mk _) (length_bufferBytes _).symm
  rw [hbufs]
  exact copyOut_eq (pageWrites wmem wptrs rptrs sizes nbuf i) [] mem

lemma scatter_pages (results : List Bool) (keepalive : List Bytes)
    (hr : rptrs.length = nbuf * n) (hs : sizes.length = nbuf * n)
    (hblob : ∀ i < n, results.getD i false = true →
      keepalive[i]? = some ((pageWrites wmem wptrs rptrs sizes nbuf i).flatMap Prod.snd))
    (idxs : List Nat) (hidxs : ∀ i ∈ idxs, i < n) (mem : Mem) :
    idxs.foldl (scatterPage nbuf rptrs sizes keepalive) (mem, results)
      = (mem.writes (idxs.flatMap (fun i =>
          if results.getD i false then pageWrites wmem wptrs rptrs sizes nbuf i else [])), results) := by
  induction idxs generalizing mem with
  | nil => rfl
  | cons i idxs ih =>
    obtain ⟨hi, hidxs⟩ := forall_mem_cons.mp hidxs
    have hroom : i * nbuf + nbuf ≤ nbuf * n := page_le nbuf hi
    have hstep : scatterPage nbuf rptrs sizes keepalive (mem, results) i
        = (mem.writes (if results.getD i false then pageWrites wmem wptrs rptrs sizes nbuf i
            else []), results) := by
      unfold scatterPage
      by_cases hres : results.getD i false = true
      · rw [if_pos hres, if_pos hres, hblob i hi hres]
        exact congrArg (fun m => (m, results)) (scatter_chunk (hr ▸ hroom) (hs ▸ hroom) mem)
      · rw [if_neg hres, if_neg hres]; rfl
    rw [foldl_cons, hstep, ih hidxs, flatMap_cons]
    exact congrArg (fun m => (m, results)) foldl_append.symm

variable {results : List Bool} {j : Nat} {ptrs : List Nat}

lemma mem_pages {w : Nat × Bytes} :
    w ∈ (List.range n).flatMap (fun i =>
        if results.getD i false then pageWrites wmem wptrs rptrs sizes nbuf i else [])
      ↔ ∃ i < n, results.getD i false = true ∧ ∃ j < nbuf,
          w = (rptrs.getD (i * nbuf + j) 0, bufferBytes wmem wptrs sizes (i * nbuf + j)) := by
  rw [mem_flatMap]
  constructor
  · rintro ⟨i, hi, hw⟩
    split_ifs at hw with hres
    · obtain ⟨j, hj, rfl⟩ := mem_map.mp hw
      exact ⟨i, mem_range.mp hi, hres, j, mem_range.mp hj, rfl⟩
    · cases hw
  · rintro ⟨i, hi, hres, j, hj, rfl⟩
    refine ⟨i, mem_range.mpr hi, ?_⟩
    rw [if_pos hres]
    exact mem_map_of_mem (mem_range.mpr hj)

lemma buffer_index {i' j' : Nat} (hj : j < nbuf) (hj' : j' < nbuf)
    (h : i * nbuf + j = i' * nbuf + j') : i = i' ∧ j = j' := by
  have hdiv : ∀ {i j : Nat}, j < nbuf → (i * nbuf + j) / nbuf = i := by
    intro i j hj
    rw [Nat.mul_comm, Nat.mul_add_div (by omega), Nat.div_eq_of_lt hj, Nat.add_zero]
  have hi : i = i' := (hdiv hj).symm.trans ((congrArg (· / nbuf) h).trans (hdiv hj'))
  subst hi
  exact ⟨rfl, by omega⟩

lemma read_pages (hsep : Separate rptrs sizes) (hs : sizes.length = nbuf * n) (results : List Bool)
    (mem : Mem) (hi : i < n) (hj : j < nbuf) :
    (mem.writes ((List.range n).flatMap (fun i =>
        if results.getD i false then pageWrites wmem wptrs rptrs sizes nbuf i else []))).read
        (rptrs.getD (i * nbuf + j) 0) (sizes.getD (i * nbuf + j) 0)
      = if results.getD i false then bufferBytes wmem wptrs sizes (i * nbuf + j)
        else mem.read (rptrs.getD (i * nbuf + j) 0) (sizes.getD (i * nbuf + j) 0) := by
  have hlt : ∀ {i j : Nat}, i < n → j < nbuf → i * nbuf + j < sizes.length := by
    intro i j hi hj
    have hroom : i * nbuf + nbuf ≤ nbuf * n := page_le nbuf hi
    omega
  have hother : ∀ {i' j' : Nat}, i' < n → j' < nbuf → i * nbuf + j ≠ i' * nbuf + j' →
      Mem.Apart (rptrs.getD (i * nbuf + j) 0) (sizes.getD (i * nbuf + j) 0)
        (rptrs.getD (i' * nbuf + j') 0) (bufferBytes wmem wptrs sizes (i' * nbuf + j')).length := by
    intro i' j' hi' hj' hne
    rw [length_bufferBytes]
    exact hsep _ _ (hlt hi hj) (hlt hi' hj') hne
  by_cases hres : results.getD i false = true
  · have hlen : sizes.getD (i * nbuf + j) 0
        = (bufferBytes wmem wptrs sizes (i * nbuf + j)).length := (length_bufferBytes _).symm
    rw [if_pos hres, hlen]
    refine Mem.read_writes mem (mem_pages.mpr ⟨i, hi, hres, j, hj, rfl⟩) ?_
    intro w hw
    obtain ⟨i', hi', -, j', hj', rfl⟩ := mem_pages.mp hw
    by_cases hsame : i * nbuf + j = i' * nbuf + j'
    · exact .inl (by rw [hsame])
    · rw [length_bufferBytes]; exact .inr (hother hi' hj' hsame)
  · rw [if_neg hres]
    refine Mem.read_writes_apart mem ?_
    intro w hw
    obtain ⟨i', hi', hres', j', hj', rfl⟩ := mem_pages.mp hw
    refine hother hi' hj' ?_
    intro hsame
    exact hres ((buffer_index hj hj' hsame).1 ▸ hres')

/-! ## There and back -/

lemma pack_eq {keys : List String} (hkeys : keys ≠ []) (hp : ptrs.length = nbuf * keys.length)
    (hone : nbuf ≠ 1) (mem : Mem) (sizes : List Nat) :
    ptrs.length ≠ keys.length ∧ ptrs.length / keys.length = nbuf
      ∧ packMultiBuffer mem keys ptrs sizes = .ok ⟨(List.range keys.length).map .blob,
            (List.range keys.length).map (fun i => (chunk sizes i nbuf).sum),
            (List.range keys.length).map (fun i =>
              packPage mem (chunk ptrs i nbuf) (chunk sizes i nbuf))⟩ := by
  have hpos : 0 < keys.length := length_pos_iff.mpr hkeys
  have hdiv : ptrs.length / keys.length = nbuf := by
    rw [hp]
    exact Nat.mul_div_cancel nbuf hpos
  have hne : ptrs.length ≠ keys.length := by
    intro he
    rw [he, Nat.div_self hpos] at hdiv
    exact hone hdiv.symm
  refine ⟨hne, hdiv, ?_⟩
  unfold packMultiBuffer
  rw [if_neg hne, if_neg hpos.ne', if_neg (not_not.mpr (by rw [hp, Nat.mul_mod_left])), hdiv]

lemma bytes_blob (hi : i < n) (hp : i * nbuf + nbuf ≤ ptrs.length)
    (hs : i * nbuf + nbuf ≤ sizes.length) (mem : Mem) :
    Packed.bytes ⟨(List.range n).map .blob, (List.range n).map (fun i => (chunk sizes i nbuf).sum),
        (List.range n).map (fun i => packPage mem (chunk ptrs i nbuf) (chunk sizes i nbuf))⟩ mem i
      = packPage mem (chunk ptrs i nbuf) (chunk sizes i nbuf) := by
  have hlen : (chunk sizes i nbuf).length ≤ (chunk ptrs i nbuf).length := by
    rw [length_chunk hp, length_chunk hs]
  unfold Packed.bytes
  simp only [getElem?_map_range hi, getD_eq_getElem?_getD, Option.getD_some]
  exact take_of_length_le (length_packPage mem hlen).le

lemma fetched_blob {rmem mem : Mem} {keepalive : List Bytes} (hw : wptrs.length = nbuf * n)
    (hr : rptrs.length = nbuf * n) (hs : sizes.length = nbuf * n) {published : Nat → Bytes}
    (hpub : ∀ i < n, published i = packPage wmem (chunk wptrs i nbuf) (chunk sizes i nbuf))
    (h : Fetched n results published rmem
      ⟨(List.range n).map .blob, (List.range n).map (fun i => (chunk sizes i nbuf).sum),
        (List.range n).map (fun i => packPage rmem (chunk rptrs i nbuf) (chunk sizes i nbuf))⟩
      mem keepalive) (hi : i < n) (hres : results.getD i false = true) :
    keepalive[i]? = some ((pageWrites wmem wptrs rptrs sizes nbuf i).flatMap Prod.snd) := by
  have hroom : i * nbuf + nbuf ≤ nbuf * n := page_le nbuf hi
  have hlen : (chunk sizes i nbuf).length ≤ (chunk rptrs i nbuf).length := by
    rw [length_chunk (l := rptrs) (hr ▸ hroom), length_chunk (l := sizes) (hs ▸ hroom)]
  -- the blob is there, with the size it was allocated with
  have hsize : (keepalive[i]?).map List.length = some (chunk sizes i nbuf).sum := by
    rw [← getElem?_map, h.sizes, getElem?_map, getElem?_map_range hi, Option.map_some,
      length_packPage rmem hlen]
  obtain ⟨blob, hblob, hbloblen⟩ := Option.map_eq_some_iff.mp hsize
  have hfilled := h.filled i hi
  rw [if_pos hres, hpub i hi, packPage_chunk rptrs (hw ▸ hroom) (hs ▸ hroom)] at hfilled
  rw [hblob, ← hfilled]
  unfold Packed.bytes
  simp only [getElem?_map_range hi, getD_eq_getElem?_getD, Option.getD_some, hblob]
  exact congrArg some (take_of_length_le hbloblen.le).symm

end

/-- **SCATTER UNDOES PACK**: on both nodes the buffers pack; and if then `_fetch` fills the reader's
    packed pages that were found with what the writer published, after `_scatter_multi_buffer`
    every buffer of a page that was found holds the bytes of the writer's buffer, and every buffer
    of another page the bytes it held before. -/
theorem scatter_undoes_pack (keys : List String) (hkeys : keys ≠ []) (nbuf : Nat)
    (wptrs rptrs sizes : List Nat) (hw : wptrs.length = nbuf * keys.length)
    (hr : rptrs.length = nbuf * keys.length) (hs : sizes.length = nbuf * keys.length)
    (hsep : Separate rptrs sizes) (wmem rmem : Mem) :
    ∃ packed target, packMultiBuffer wmem keys wptrs sizes = .ok packed
      ∧ packMultiBuffer rmem keys rptrs sizes = .ok target
      ∧ ∀ results mem keepalive,
          Fetched keys.length results (packed.bytes wmem) rmem target mem keepalive →
          let done := scatterMultiBuffer keys rptrs sizes keepalive results mem
          done.2 = results ∧ ∀ i < keys.length, ∀ j < nbuf,
            done.1.read (rptrs.getD (i * nbuf + j) 0) (sizes.getD (i * nbuf + j) 0)
              = if results.getD i false then
                  wmem.read (wptrs.getD (i * nbuf + j) 0) (sizes.getD (i * nbuf + j) 0)
                else rmem.read (rptrs.getD (i * nbuf + j) 0) (sizes.getD (i * nbuf + j) 0) := by
  have hroom : ∀ i < keys.length, i * nbuf + nbuf ≤ nbuf * keys.length :=
    fun i hi => page_le nbuf hi
  by_cases hone : nbuf = 1
  · -- the packed pointers are the buffers themselves
    subst hone
    rw [Nat.one_mul] at hw hr hs
    refine ⟨_, _, if_pos hw, if_pos hr, ?_⟩
    intro results mem keepalive hfetched done
    have hdone : done = (mem, results) := if_pos hr
    rw [hdone]
    refine ⟨rfl, ?_⟩
    intro i hi j hj
    obtain rfl : j = 0 := by omega
    rw [Nat.mul_one, Nat.add_zero]
    have hfilled := hfetched.filled i hi
    have hget : ∀ {l : List Nat}, l.length = keys.length →
        (l.map Target.host)[i]? = some (.host (l.getD i 0)) := by
      intro l hl
      have hil : i < l.length := hl ▸ hi
      rw [List.getElem?_map, List.getElem?_eq_getElem hil, List.getD_eq_getElem _ _ hil]
      rfl
    unfold Packed.bytes at hfilled
    simp only [hget hw, hget hr] at hfilled
    exact hfilled
  · obtain ⟨-, -, hpackw⟩ := pack_eq hkeys hw hone wmem sizes
    obtain ⟨hne, hdiv, hpackr⟩ := pack_eq hkeys hr hone rmem sizes
    refine ⟨_, _, hpackw, hpackr, ?_⟩
    intro results mem keepalive hfetched done
    have hblob := fun i (hi : i < keys.length) (hres : results.getD i false = true) =>
      fetched_blob hw hr hs
        (fun i hi => bytes_blob hi (hw ▸ hroom i hi) (hs ▸ hroom i hi) wmem) hfetched hi hres
    have hdone : done = (mem.writes ((List.range keys.length).flatMap (fun i =>
        if results.getD i false then pageWrites wmem wptrs rptrs sizes nbuf i else [])), results) := by
      show scatterMultiBuffer keys rptrs sizes keepalive results mem = _
      rw [scatterMultiBuffer, if_neg hne, hdiv]
      exact scatter_pages results keepalive hr hs hblob _ (fun i hi => List.mem_range.mp hi) mem
    -- no packed pointer is into host memory, so `_fetch` leaves all of it alone
    have hmem : mem = rmem := by
      funext a
      refine hfetched.frame a ?_
      intro i q _ hq
      rw [List.getElem?_map] at hq
      obtain ⟨_, -, hno⟩ := Option.map_eq_some_iff.mp hq
      cases hno
    rw [hdone]
    refine ⟨rfl, ?_⟩
    intro i hi j hj
    rw [read_pages hsep hs results mem hi hj, hmem]
    rfl

/-- Two pages of two buffers each, of which the reader finds the first. -/
theorem scatter_undoes_pack_two_pages :
    let wmem : Mem := fun a => UInt8.ofNat a
    let rmem : Mem := fun _ => 0
    let done := scatterMultiBuffer ["k0", "k1"] [100, 110, 120, 130] [1, 2, 2, 1]
      [[10, 20, 21], [0, 0, 0]] [true, false] rmem
    done.1.read 110 2 = wmem.read 20 2 ∧ done.1.read 120 2 = rmem.read 120 2 := by
  intro wmem rmem done
  have hsep : Separate [100, 110, 120, 130] [1, 2, 2, 1] := by
    have hrows : ∀ b < 4, 100 + 10 * b = [100, 110, 120, 130].getD b 0
        ∧ [1, 2, 2, 1].getD b 0 ≤ 2 := by decide
    intro b b' hb hb' hne a h1 h2
    have hrow := hrows b hb
    have hrow' := hrows b' hb'
    omega
  obtain ⟨packed, target, hpacked, htarget, h⟩ :=
    scatter_undoes_pack ["k0", "k1"] (by decide) 2 [10, 20, 30, 40] [100, 110, 120, 130] [1, 2, 2, 1]
      rfl rfl rfl hsep wmem rmem
  obtain rfl : _ = packed := Except.ok.inj hpacked
  obtain rfl : _ = target := Except.ok.inj htarget
  have hfetched := h [true, false] rmem [[10, 20, 21], [0, 0, 0]] ⟨by decide, rfl, fun _ _ => rfl⟩
  exact ⟨hfetched.2 0 (by decide) 1 (by decide), hfetched.2 1 (by decide) 0 (by decide)⟩

end PeerCacheMultiBuffer
