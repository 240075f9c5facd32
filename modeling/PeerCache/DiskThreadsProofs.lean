import PeerCache.DiskDirectoryProofs
import PeerCache.TransitionProofs

/-! # The disk tier, one file-system step at a time

    `DiskStore` (`diskstore.py`) with any number of threads in `put`, `get` and `remove`, its worker
    thread in `_run` and `_write`, and `close`.  A lock section is one step, except that of `_write`,
    which removes files on its way: there each eviction is a step, during which no other thread
    gets the lock.  Everything outside the lock (the queue, the files, the index flush) interleaves
    freely.  A crash leaves the directory and opens a new store on it. -/

namespace PeerCacheDiskStore

open PeerCacheDisk PeerCachePage Transition Option

/-! ## The machine -/

/-- Where the worker is. -/
inductive Worker where
  | idle
  /-- in `_write`, before `os.replace` -/
  | writing (key : String) (data : List UInt8)
  /-- the file is in place, the index does not know yet -/
  | replaced (key : String) (data : List UInt8)
  /-- in the lock section: the keys at its start and those popped so far -/
  | evicting (key : String) (start evicted : List String)
  /-- in `_flush_index` -/
  | flushing (key : String) (evicted : List String)
  | dumped (key : String) (evicted : List String)
  /-- before `on_evict` -/
  | calling (key : String) (evicted : List String)
  | discarding (key : String)
deriving DecidableEq

/-- Where `close` is. -/
inductive Closer where
  | no
  | flushing
  | dumped
  | done
deriving DecidableEq

/-- The key that the worker is at. -/
def Worker.keys : Worker → List String
  | .idle => []
  | .writing key _ | .replaced key _ | .evicting key _ _ | .flushing key _ | .dumped key _
  | .calling key _ | .discarding key => [key]

/-- The page that is on its way to the index. -/
def Worker.item : Worker → List (String × List UInt8)
  | .writing key data | .replaced key data => [(key, data)]
  | _ => []

/-- The worker has the lock. -/
def Worker.locked : Worker → Bool
  | .evicting _ _ _ => true
  | _ => false

/-- A lock section of `_write` that is over: the keys at its start and at its end, those dropped, and
    all uses of keys so far. -/
structure WriteRecord where
  key : String
  maxBytes : Nat
  start : List String
  evicted : List String
  kept : List String
  used : Int
  uses : List String

/-- A `DiskStore`.  `putting` and `removing` are threads that have left the lock section of `put` or
    `remove`, and have still to enqueue or to unlink.  The last five fields are histories: which
    key was used when, what was last accepted and last written for each key, the writes, and the
    calls of `on_evict`. -/
structure Store (T : Type) where
  maxBytes : Nat
  dir : Directory T
  index : Index
  used : Int
  inflight : List String
  putting : List (String × List UInt8)
  queue : List (String × List UInt8)
  worker : Worker
  removing : List (String × String)
  writesSinceFlush : Nat
  running : Bool
  closer : Closer
  uses : List String
  accepted : String → Option (List UInt8)
  written : String → Option (List UInt8)
  writes : List WriteRecord
  evictCalls : List (List String)

inductive DiskAct (T : Type) where
  /-- `early`: `put` has looked at `_running` before `close` -/
  | put (key : String) (data : List UInt8) (early : Bool)
  | enqueue (n : Nat)
  | get (key : String)
  | remove (key : String)
  | unlink (n : Nat)
  | take
  /-- the temporary file has its first `k` bytes -/
  | temp (k : Nat)
  | replace
  /-- `struct.pack` raises -/
  | fail
  | lock
  | evict
  | unlock
  /-- the temporary file of the index so far -/
  | flushTemp (text : T)
  | flushDump
  /-- the dump raises, because the index changed under it -/
  | flushFail
  | flushReplace
  | onEvict
  | discard
  | close
  | closeTemp (text : T)
  | closeDump
  | closeFail
  | closeReplace
  | crash (maxBytes : Nat)

section Step

variable (json : Json) (safeName : String → String)

/-- `__init__` on a directory. -/
def Store.open (dir : Directory json.Text) (maxBytes : Nat)
    (accepted written : String → Option (List UInt8)) : Store json.Text where
  maxBytes := maxBytes
  dir := dir
  index := (loadIndex json dir).1
  used := (loadIndex json dir).2
  inflight := []
  putting := []
  queue := []
  worker := .idle
  removing := []
  writesSinceFlush := 0
  running := true
  closer := .no
  uses := (loadIndex json dir).1.keys
  accepted := accepted
  written := written
  writes := []
  evictCalls := []

/-- A store on a new directory. -/
def Store.new (maxBytes : Nat) : Store json.Text :=
  Store.open json Directory.empty maxBytes (fun _ => none) (fun _ => none)

variable {json}

/-- The condition of the capacity loop. -/
def Store.over (s : Store json.Text) : Prop := s.used > s.maxBytes ∧ s.index.items.length > 1

instance (s : Store json.Text) : Decidable s.over := inferInstanceAs (Decidable (_ ∧ _))

/-- `os.replace(tmp, self._index_path())`, which raises when there is no temporary file. -/
def Directory.replaceSidecar {T : Type} (dir : Directory T) : Directory T :=
  { dir with sidecar := dir.sidecarTmp.or dir.sidecar, sidecarTmp := none }

def diskStep (s : Store json.Text) : DiskAct json.Text → Option (Store json.Text)
  | .put key data early =>
      if s.worker.locked then none
      else if ¬ (s.running ∨ early) ∨ data.length > s.maxBytes then some s
      else if key ∈ s.index.keys ∨ key ∈ s.inflight then some s
      else
        some { s with
          inflight := s.inflight ++ [key]
          putting := s.putting ++ [(key, data)]
          accepted := Function.update s.accepted key (some data) }
  | .enqueue n =>
      (s.putting[n]?).map (fun p =>
        { s with putting := s.putting.eraseIdx n, queue := s.queue ++ [p] })
  | .get key =>
      if s.worker.locked then none
      else if key ∈ s.index.keys then
        some { s with index := s.index.moveToEnd key, uses := s.uses ++ [key] }
      else some s
  | .remove key =>
      if s.worker.locked then none
      else
        match s.index.get? key with
        | none => some s
        | some (name, length) =>
            some { s with
              index := s.index.erase key
              used := s.used - length
              removing := s.removing ++ [(key, name)] }
  | .unlink n =>
      (s.removing[n]?).map (fun p =>
        { s with
          removing := s.removing.eraseIdx n
          dir := { s.dir with pages := s.dir.pages.erase p.2 } })
  | .take =>
      match s.worker, s.queue with
      | .idle, (key, data) :: queue => some { s with queue := queue, worker := .writing key data }
      | _, _ => none
  | .temp k =>
      match s.worker with
      | .writing key data =>
          (pageBytes key data).map (fun bs =>
            { s with dir := { s.dir with temps := s.dir.temps.set (safeName key) (bs.take k) } })
      | _ => none
  | .replace =>
      match s.worker with
      | .writing key data =>
          (pageBytes key data).map (fun bs =>
            { s with
              dir := { s.dir with
                pages := s.dir.pages.set (safeName key) bs
                temps := s.dir.temps.erase (safeName key) }
              worker := .replaced key data
              written := Function.update s.written key (some data) })
      | _ => none
  | .fail =>
      match s.worker with
      | .writing key data =>
          if pageBytes key data = none then
            some { s with
              dir := { s.dir with temps := s.dir.temps.set (safeName key) [] }
              worker := .discarding key }
          else none
      | _ => none
  | .lock =>
      match s.worker with
      | .replaced key data =>
          let index := (s.index.set key (safeName key, data.length)).moveToEnd key
          some { s with
            used := if key ∈ s.index.keys then s.used else s.used + data.length
            index := index
            writesSinceFlush := s.writesSinceFlush + 1
            uses := s.uses ++ [key]
            worker := .evicting key index.keys [] }
      | _ => none
  | .evict =>
      match s.worker, s.index.popFirst with
      | .evicting key start evicted, some ((oldKey, oldName, oldLen), rest) =>
          if s.over then
            some { s with
              index := rest
              used := s.used - oldLen
              dir := { s.dir with pages := s.dir.pages.erase oldName }
              worker := .evicting key start (evicted ++ [oldKey]) }
          else none
      | _, _ => none
  | .unlock =>
      match s.worker with
      | .evicting key start evicted =>
          if s.over then none
          else
            some { s with
              writesSinceFlush := if s.writesSinceFlush ≥ 256 then 0 else s.writesSinceFlush
              worker := if s.writesSinceFlush ≥ 256 then .flushing key evicted else .calling key evicted
              writes := s.writes
                ++ [⟨key, s.maxBytes, start, evicted, s.index.keys, s.used, s.uses⟩] }
      | _ => none
  | .flushTemp text =>
      match s.worker with
      | .flushing _ _ => some { s with dir := { s.dir with sidecarTmp := some text } }
      | _ => none
  | .flushDump =>
      match s.worker with
      | .flushing key evicted =>
          some { s with
            dir := { s.dir with sidecarTmp := some (json.dump s.index) }
            worker := .dumped key evicted }
      | _ => none
  | .flushFail =>
      match s.worker with
      | .flushing key evicted => some { s with worker := .calling key evicted }
      | _ => none
  | .flushReplace =>
      match s.worker with
      | .dumped key evicted =>
          some { s with dir := s.dir.replaceSidecar, worker := .calling key evicted }
      | _ => none
  | .onEvict =>
      match s.worker with
      | .calling key evicted =>
          some { s with
            worker := .discarding key
            evictCalls := if evicted = [] then s.evictCalls else s.evictCalls ++ [evicted] }
      | _ => none
  | .discard =>
      match s.worker with
      | .discarding key => some { s with worker := .idle, inflight := s.inflight.erase key }
      | _ => none
  | .close =>
      if s.closer = .no ∨ s.closer = .done then
        some { s with running := false, closer := .flushing }
      else none
  | .closeTemp text =>
      if s.closer = .flushing then some { s with dir := { s.dir with sidecarTmp := some text } }
      else none
  | .closeDump =>
      if s.closer = .flushing then
        some { s with
          dir := { s.dir with sidecarTmp := some (json.dump s.index) }
          closer := .dumped }
      else none
  | .closeFail => if s.closer = .flushing then some { s with closer := .done } else none
  | .closeReplace =>
      if s.closer = .dumped then some { s with dir := s.dir.replaceSidecar, closer := .done } else none
  | .crash maxBytes => some (Store.open json s.dir maxBytes s.accepted s.written)

/-- `get(key)`, once the lock section has found the entry. -/
def Store.read (s : Store json.Text) (key : String) : Option (List UInt8) :=
  (s.index.get? key).bind (fun e => (s.dir.pages.get? e.1).bind (readPage e.2))

/-- No operation is in progress, and the queue is empty. -/
def Store.Quiet (s : Store json.Text) : Prop :=
  s.putting = [] ∧ s.queue = [] ∧ s.worker = .idle ∧ s.removing = []

instance (s : Store json.Text) : Decidable s.Quiet := inferInstanceAs (Decidable (_ ∧ _))

/-! ## What a step does -/

/-- The steps, with what each finds. -/
inductive Stepped (s : Store json.Text) : DiskAct json.Text → Store json.Text → Prop where
  | put {key : String} {data : List UInt8} {early : Bool} (hsmall : data.length ≤ s.maxBytes)
      (hindex : key ∉ s.index.keys) (hinflight : key ∉ s.inflight) :
      Stepped s (.put key data early) { s with
        inflight := s.inflight ++ [key]
        putting := s.putting ++ [(key, data)]
        accepted := Function.update s.accepted key (some data) }
  | refused {key : String} {data : List UInt8} {early : Bool} : Stepped s (.put key data early) s
  | enqueue {n : Nat} {p : String × List UInt8} (hp : s.putting[n]? = some p) :
      Stepped s (.enqueue n) { s with
        putting := s.putting.eraseIdx n
        queue := s.queue ++ [p] }
  | get {key : String} (hlock : s.worker.locked = false) (hkey : key ∈ s.index.keys) :
      Stepped s (.get key) { s with
        index := s.index.moveToEnd key
        uses := s.uses ++ [key] }
  | missed {key : String} : Stepped s (.get key) s
  | remove {key name : String} {length : Nat} (hlock : s.worker.locked = false)
      (hget : s.index.get? key = some (name, length)) :
      Stepped s (.remove key) { s with
        index := s.index.erase key
        used := s.used - length
        removing := s.removing ++ [(key, name)] }
  | absent {key : String} : Stepped s (.remove key) s
  | unlink {n : Nat} {p : String × String} (hp : s.removing[n]? = some p) :
      Stepped s (.unlink n) { s with
        removing := s.removing.eraseIdx n
        dir := { s.dir with pages := s.dir.pages.erase p.2 } }
  | take {key : String} {data : List UInt8} {queue : List (String × List UInt8)}
      (hworker : s.worker = .idle) (hqueue : s.queue = (key, data) :: queue) :
      Stepped s .take { s with queue := queue, worker := .writing key data }
  | temp {k : Nat} {key : String} {data bs : List UInt8} (hworker : s.worker = .writing key data) :
      Stepped s (.temp k) { s with
        dir := { s.dir with temps := s.dir.temps.set (safeName key) (bs.take k) } }
  | replace {key : String} {data bs : List UInt8} (hworker : s.worker = .writing key data)
      (hbytes : pageBytes key data = some bs) :
      Stepped s .replace { s with
        dir := { s.dir with
          pages := s.dir.pages.set (safeName key) bs
          temps := s.dir.temps.erase (safeName key) }
        worker := .replaced key data
        written := Function.update s.written key (some data) }
  | fail {key : String} {data : List UInt8} (hworker : s.worker = .writing key data) :
      Stepped s .fail { s with
        dir := { s.dir with temps := s.dir.temps.set (safeName key) [] }
        worker := .discarding key }
  | lock {key : String} {data : List UInt8} (hworker : s.worker = .replaced key data) :
      Stepped s .lock { s with
        used := if key ∈ s.index.keys then s.used else s.used + data.length
        index := (s.index.set key (safeName key, data.length)).moveToEnd key
        writesSinceFlush := s.writesSinceFlush + 1
        uses := s.uses ++ [key]
        worker := .evicting key
          ((s.index.set key (safeName key, data.length)).moveToEnd key).keys [] }
  | evict {key oldKey oldName : String} {oldLen : Nat} {start evicted : List String} {rest : Index}
      (hworker : s.worker = .evicting key start evicted)
      (hpop : s.index.popFirst = some ((oldKey, oldName, oldLen), rest)) (hover : s.over) :
      Stepped s .evict { s with
        index := rest
        used := s.used - oldLen
        dir := { s.dir with pages := s.dir.pages.erase oldName }
        worker := .evicting key start (evicted ++ [oldKey]) }
  | unlock {key : String} {start evicted : List String} {w : Worker} {n : Nat}
      (hworker : s.worker = .evicting key start evicted) (hover : ¬ s.over)
      (hw : w = .flushing key evicted ∨ w = .calling key evicted) :
      Stepped s .unlock { s with
        writesSinceFlush := n
        worker := w
        writes := s.writes
          ++ [⟨key, s.maxBytes, start, evicted, s.index.keys, s.used, s.uses⟩] }
  | flushTemp {text : json.Text} {key : String} {evicted : List String}
      (hworker : s.worker = .flushing key evicted) :
      Stepped s (.flushTemp text) { s with dir := { s.dir with sidecarTmp := some text } }
  | flushDump {key : String} {evicted : List String} (hworker : s.worker = .flushing key evicted) :
      Stepped s .flushDump { s with
        dir := { s.dir with sidecarTmp := some (json.dump s.index) }
        worker := .dumped key evicted }
  | flushFail {key : String} {evicted : List String} (hworker : s.worker = .flushing key evicted) :
      Stepped s .flushFail { s with worker := .calling key evicted }
  | flushReplace {key : String} {evicted : List String} (hworker : s.worker = .dumped key evicted) :
      Stepped s .flushReplace { s with
        dir := s.dir.replaceSidecar
        worker := .calling key evicted }
  | onEvict {key : String} {evicted : List String} (hworker : s.worker = .calling key evicted) :
      Stepped s .onEvict { s with
        worker := .discarding key
        evictCalls := if evicted = [] then s.evictCalls else s.evictCalls ++ [evicted] }
  | discard {key : String} (hworker : s.worker = .discarding key) :
      Stepped s .discard { s with worker := .idle, inflight := s.inflight.erase key }
  | close : Stepped s .close { s with running := false, closer := .flushing }
  | closeTemp {text : json.Text} (hcloser : s.closer = .flushing) :
      Stepped s (.closeTemp text) { s with dir := { s.dir with sidecarTmp := some text } }
  | closeDump :
      Stepped s .closeDump { s with
        dir := { s.dir with sidecarTmp := some (json.dump s.index) }
        closer := .dumped }
  | closeFail : Stepped s .closeFail { s with closer := .done }
  | closeReplace (hcloser : s.closer = .dumped) :
      Stepped s .closeReplace { s with dir := s.dir.replaceSidecar, closer := .done }
  | crash {maxBytes : Nat} :
      Stepped s (.crash maxBytes) (Store.open json s.dir maxBytes s.accepted s.written)

variable {safeName}

lemma stepped_of_step {s t : Store json.Text} {a : DiskAct json.Text}
    (h : diskStep safeName s a = some t) : Stepped safeName s a t := by
  cases a with
  | put key data early =>
    obtain ⟨-, h⟩ := ite_none_left_eq_some.mp h
    split_ifs at h with hsmall hknown
    · exact some.inj h ▸ .refused
    · exact some.inj h ▸ .refused
    · cases h
      rw [not_or] at hsmall hknown
      exact .put (not_lt.mp hsmall.2) hknown.1 hknown.2
  | enqueue n =>
    obtain ⟨p, hp, rfl⟩ := map_eq_some_iff.mp h
    exact .enqueue hp
  | get key =>
    obtain ⟨hlock, h⟩ := ite_none_left_eq_some.mp h
    split_ifs at h with hkey
    · exact some.inj h ▸ .get (Bool.eq_false_iff.mpr hlock) hkey
    · exact some.inj h ▸ .missed
  | remove key =>
    obtain ⟨hlock, h⟩ := ite_none_left_eq_some.mp h
    cases hget : s.index.get? key with
    | none =>
      rw [hget] at h
      exact some.inj h ▸ .absent
    | some e =>
      rw [hget] at h
      exact some.inj h ▸ .remove (Bool.eq_false_iff.mpr hlock) hget
  | unlink n =>
    obtain ⟨p, hp, rfl⟩ := map_eq_some_iff.mp h
    exact .unlink hp
  | temp k =>
    simp only [diskStep] at h
    split at h
    · rename_i key data hworker
      obtain ⟨bs, -, rfl⟩ := map_eq_some_iff.mp h
      exact .temp hworker
    · cases h
  | replace =>
    simp only [diskStep] at h
    split at h
    · rename_i key data hworker
      obtain ⟨bs, hbytes, rfl⟩ := map_eq_some_iff.mp h
      exact .replace hworker hbytes
    · cases h
  | fail =>
    simp only [diskStep] at h
    split at h
    · rename_i key data hworker
      obtain ⟨-, h⟩ := ite_none_right_eq_some.mp h
      exact some.inj h ▸ .fail hworker
    · cases h
  | take | lock | flushTemp | flushDump | flushFail | flushReplace | onEvict | discard =>
    -- one state of the worker, from which the step goes on
    simp only [diskStep] at h
    split at h
    · cases h
      constructor <;> assumption
    · cases h
  | evict =>
    simp only [diskStep] at h
    split at h
    · rename_i key start evicted oldKey oldName oldLen rest hworker hpop
      obtain ⟨hover, h⟩ := ite_none_right_eq_some.mp h
      exact some.inj h ▸ .evict hworker hpop hover
    · cases h
  | unlock =>
    simp only [diskStep] at h
    split at h
    · rename_i key start evicted hworker
      obtain ⟨hover, h⟩ := ite_none_left_eq_some.mp h
      refine some.inj h ▸ .unlock hworker hover ?_
      split
      · exact .inl rfl
      · exact .inr rfl
    · cases h
  | close =>
    obtain ⟨-, h⟩ := ite_none_right_eq_some.mp h
    exact some.inj h ▸ .close
  | closeTemp text =>
    obtain ⟨hcloser, h⟩ := ite_none_right_eq_some.mp h
    exact some.inj h ▸ .closeTemp hcloser
  | closeDump =>
    obtain ⟨-, h⟩ := ite_none_right_eq_some.mp h
    exact some.inj h ▸ .closeDump
  | closeFail =>
    obtain ⟨-, h⟩ := ite_none_right_eq_some.mp h
    exact some.inj h ▸ .closeFail
  | closeReplace =>
    obtain ⟨hcloser, h⟩ := ite_none_right_eq_some.mp h
    exact some.inj h ▸ .closeReplace hcloser
  | crash maxBytes => exact some.inj h ▸ .crash

end Step

end PeerCacheDiskStore
