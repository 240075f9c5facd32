import PeerCache.DirectoryClientProofs
import PeerCache.RpcProofs

/-! # The JSON fallback of the control plane

    JSON has no bytes.  `_BytesEncoder` writes them as a dictionary with the one key `__b64__`, and
    `_json_hook` turns every dictionary of that shape back into bytes, whatever it was before.  So the
    codec returns what was put in exactly if no dictionary in it has `__b64__` as its only key.  The
    keys of `dir_put` entries are page keys, and one of them may be just that. -/

namespace PeerCacheJson

/-- What the control plane sends. -/
inductive Value where
  | none
  | bool (b : Bool)
  | int (n : Int)
  | str (s : String)
  | bytes (raw : Bytes)
  | list (items : List Value)
  | dict (entries : List (String × Value))

/-- What JSON can say. -/
inductive Json where
  | null
  | bool (b : Bool)
  | num (n : Int)
  | str (s : String)
  | arr (items : List Json)
  | obj (entries : List (String × Json))

/-- The standard library: `base64`, and `json` with the encoding of its text; `none` is an exception.
    A text is read back as what it was written for, and so are bytes in base64. -/
structure Stdlib where
  b64encode : Bytes → String
  b64decodeStr : String → Option Bytes
  b64decodeBytes : Bytes → Option Bytes
  b64decode_b64encode : ∀ raw, b64decodeStr (b64encode raw) = some raw
  Text : Type
  dump : Json → Text
  load : Text → Option Json
  load_dump : ∀ j, load (dump j) = some j

lemma latin1_byte (b : UInt8) : UInt8.ofNat (Char.ofNat b.toNat).toNat = b := by
  have hvalid : b.toNat.isValidChar := .inl (by have := b.toNat_lt; omega)
  rw [Char.toNat_ofNat, if_pos hvalid, UInt8.ofNat_toNat]

/-- A library that writes trees as they are, and a byte as the character of that number. -/
instance : Inhabited Stdlib :=
  ⟨{ b64encode := fun raw => String.ofList (raw.map (fun b => Char.ofNat b.toNat))
     b64decodeStr := fun s => some (s.toList.map (fun c => UInt8.ofNat c.toNat))
     b64decodeBytes := some
     b64decode_b64encode := fun raw => by simp [Function.comp_def, latin1_byte]
     Text := Json
     dump := id
     load := some
     load_dump := fun _ => rfl }⟩

def tag : String := "__b64__"

section Codec

variable (lib : Stdlib)

mutual

/-- What `json.dumps` writes; bytes go through `_BytesEncoder.default`. -/
def encode : Value → Json
  | .none => .null
  | .bool b => .bool b
  | .int n => .num n
  | .str s => .str s
  | .bytes raw => .obj [(tag, .str (lib.b64encode raw))]
  | .list items => .arr (encodeList items)
  | .dict entries => .obj (encodeEntries entries)

def encodeList : List Value → List Json
  | [] => []
  | x :: items => encode x :: encodeList items

def encodeEntries : List (String × Value) → List (String × Json)
  | [] => []
  | (key, x) :: entries => (key, encode x) :: encodeEntries entries

end

/-- `base64.b64decode`; what is neither a string nor bytes raises `TypeError`. -/
def b64decode : Value → Option Bytes
  | .str s => lib.b64decodeStr s
  | .bytes raw => lib.b64decodeBytes raw
  | _ => none

/-- `set(obj.keys()) == {"__b64__"}` -/
def Tagged (entries : List (String × Value)) : Prop := entries.map Prod.fst = [tag]

instance (entries : List (String × Value)) : Decidable (Tagged entries) :=
  inferInstanceAs (Decidable (_ = _))

/-- `_json_hook` -/
def jsonHook (entries : List (String × Value)) : Option Value :=
  if Tagged entries then ((entries.lookup tag).bind (b64decode lib)).map .bytes
  else some (.dict entries)

mutual

/-- `json.loads`, which calls the hook for every dictionary, the inner ones first. -/
def decode : Json → Option Value
  | .null => some .none
  | .bool b => some (.bool b)
  | .num n => some (.int n)
  | .str s => some (.str s)
  | .arr items => (decodeList items).map .list
  | .obj entries => (decodeEntries entries).bind (jsonHook lib)

def decodeList : List Json → Option (List Value)
  | [] => some []
  | j :: items => (decode j).bind (fun x => (decodeList items).map (x :: ·))

def decodeEntries : List (String × Json) → Option (List (String × Value))
  | [] => some []
  | (key, j) :: entries => (decode j).bind (fun x => (decodeEntries entries).map ((key, x) :: ·))

end

/-- `_dumps` -/
def dumps (x : Value) : lib.Text := lib.dump (encode lib x)

/-- `_loads` -/
def loads (buf : lib.Text) : Option Value := (lib.load buf).bind (decode lib)

end Codec

mutual

/-- No dictionary in the value has `__b64__` as its only key. -/
def Plain : Value → Prop
  | .list items => PlainList items
  | .dict entries => ¬ Tagged entries ∧ PlainEntries entries
  | _ => True

def PlainList : List Value → Prop
  | [] => True
  | x :: items => Plain x ∧ PlainList items

def PlainEntries : List (String × Value) → Prop
  | [] => True
  | (_, x) :: entries => Plain x ∧ PlainEntries entries

end

section RoundTrip

variable (lib : Stdlib)

lemma jsonHook_eq_dict {entries entries' : List (String × Value)} :
    jsonHook lib entries' = some (.dict entries) ↔ entries' = entries ∧ ¬ Tagged entries := by
  rw [jsonHook]
  split
  · next htag =>
      refine iff_of_false ?_ (fun h => h.2 (h.1 ▸ htag))
      rw [Option.map_eq_some_iff]
      rintro ⟨raw, -, h⟩
      cases h
  · next htag =>
      rw [Option.some.injEq, Value.dict.injEq]
      exact ⟨fun h => ⟨h, h ▸ htag⟩, And.left⟩

lemma jsonHook_bytes (raw : Bytes) :
    jsonHook lib [(tag, .str (lib.b64encode raw))] = some (.bytes raw) := by
  have htag : Tagged [(tag, .str (lib.b64encode raw))] := rfl
  rw [jsonHook, if_pos htag]
  show (lib.b64decodeStr (lib.b64encode raw)).map Value.bytes = _
  rw [lib.b64decode_b64encode]
  rfl

mutual

lemma decode_encode : ∀ x, decode lib (encode lib x) = some x ↔ Plain x
  | .none => iff_of_true rfl trivial
  | .bool _ => iff_of_true rfl trivial
  | .int _ => iff_of_true rfl trivial
  | .str _ => iff_of_true rfl trivial
  | .bytes raw => iff_of_true (jsonHook_bytes lib raw) trivial
  | .list items => by
      rw [encode, decode, Plain, ← decodeList_encodeList items]
      simp
  | .dict entries => by
      rw [encode, decode, Plain, ← decodeEntries_encodeEntries entries, Option.bind_eq_some_iff]
      simp only [jsonHook_eq_dict]
      constructor
      · rintro ⟨entries', hentries, rfl, htag⟩; exact ⟨htag, hentries⟩
      · rintro ⟨htag, hentries⟩; exact ⟨entries, hentries, rfl, htag⟩

lemma decodeList_encodeList : ∀ items, decodeList lib (encodeList lib items) = some items ↔ PlainList items
  | [] => iff_of_true rfl trivial
  | x :: items => by
      rw [encodeList, decodeList, PlainList, ← decode_encode x, ← decodeList_encodeList items,
        Option.bind_eq_some_iff]
      simp only [Option.map_eq_some_iff, List.cons.injEq]
      constructor
      · rintro ⟨x', hx, items', hitems, rfl, rfl⟩; exact ⟨hx, hitems⟩
      · rintro ⟨hx, hitems⟩; exact ⟨x, hx, items, hitems, rfl, rfl⟩

lemma decodeEntries_encodeEntries :
    ∀ entries, decodeEntries lib (encodeEntries lib entries) = some entries ↔ PlainEntries entries
  | [] => iff_of_true rfl trivial
  | (key, x) :: entries => by
      rw [encodeEntries, decodeEntries, PlainEntries, ← decode_encode x,
        ← decodeEntries_encodeEntries entries, Option.bind_eq_some_iff]
      simp only [Option.map_eq_some_iff, List.cons.injEq, Prod.mk.injEq, true_and]
      constructor
      · rintro ⟨x', hx, entries', hentries, rfl, rfl⟩; exact ⟨hx, hentries⟩
      · rintro ⟨hx, hentries⟩; exact ⟨x, hx, entries, hentries, rfl, rfl⟩

end

end RoundTrip

/-- **LOSSLESS UP TO THE TAG**: for every value, `_loads(_dumps(x))` is `x` exactly if no dictionary in
    `x`, at any depth, has `__b64__` as its only key. -/
theorem fallback_lossless_iff (lib : Stdlib) (x : Value) :
    loads lib (dumps lib x) = some x ↔ Plain x := by
  rw [loads, dumps, lib.load_dump]
  exact decode_encode lib x

/-- A field of an encoded location. -/
def ofField : PeerCacheDirectoryClient.Value → Value
  | .str s => .str s
  | .int n => .int n
  | .bool b => .bool b
  | .strs l => .list (l.map .str)
  | .ints l => .list (l.map .int)

/-- The request of `DirectoryClient.put`: `["dir_put", {"entries": …}]`. -/
def dirPut (entries : List (String × PeerCacheDirectoryClient.DataLocation)) : Value :=
  let locations := entries.map (fun e =>
    (e.1, .dict ((PeerCacheDirectoryClient.toDict e.2).items.map (fun f => (f.1, ofField f.2)))))
  .list [.str "dir_put", .dict [("entries", .dict locations)]]

lemma plain_ofField (f : PeerCacheDirectoryClient.Value) : Plain (ofField f) := by
  have hlist : ∀ {α : Type} (g : α → Value) (l : List α), (∀ a, Plain (g a)) → PlainList (l.map g) := by
    intro α g l hg
    induction l with
    | nil => exact trivial
    | cons a l ih => exact ⟨hg a, ih⟩
  cases f with
  | str s => exact trivial
  | int n => exact trivial
  | bool b => exact trivial
  | strs l => exact hlist Value.str l (fun _ => trivial)
  | ints l => exact hlist Value.int l (fun _ => trivial)

/-- A `dir_put` of one page whose key is `__b64__` cannot be read: its location is no base64. -/
lemma loads_dirPut_tag (lib : Stdlib) (loc : PeerCacheDirectoryClient.DataLocation) :
    loads lib (dumps lib (dirPut [(tag, loc)])) = none := by
  obtain ⟨fields, hfields⟩ : ∃ fields, fields
      = (PeerCacheDirectoryClient.toDict loc).items.map (fun f => (f.1, ofField f.2)) := ⟨_, rfl⟩
  have hplain : Plain (.dict fields) := by
    rw [hfields]
    refine ⟨fun h => absurd (congrArg List.length h) (show (9 : Nat) ≠ 1 by decide), ?_⟩
    simp [PeerCacheDirectoryClient.toDict, PlainEntries, plain_ofField]
  have hloc := (decode_encode lib (.dict fields)).mpr hplain
  rw [loads, dumps, lib.load_dump, dirPut]
  simp only [List.map_cons, List.map_nil, ← hfields, encode, encodeList, encodeEntries, decode] at hloc ⊢
  simp [decodeList, decode, decodeEntries, hloc, jsonHook, Tagged, b64decode]

/-- A dictionary that does hold base64 under the tag comes back as bytes. -/
lemma loads_dict_tag (lib : Stdlib) (raw : Bytes) :
    loads lib (dumps lib (.dict [(tag, .str (lib.b64encode raw))])) = some (.bytes raw) := by
  rw [loads, dumps, lib.load_dump]
  exact jsonHook_bytes lib raw

/-- A `dir_put` of a page whose key is `__b64__` is an exception for its reader, and a dictionary
    from `__b64__` to the base64 of `abc` is the bytes `abc`. -/
theorem tagged_dictionaries_lost :
    loads default (dumps default
        (dirPut [("__b64__", ⟨"a", "a:1", 4096, 7, 64, true, [], []⟩)])) = none
      ∧ loads default (dumps default
          (.dict [("__b64__", .str ((default : Stdlib).b64encode [97, 98, 99]))]))
        = some (.bytes [97, 98, 99]) :=
  ⟨loads_dirPut_tag default _, loads_dict_tag default _⟩

/-! ## Requests and responses -/

section ControlPlane

variable (lib : Stdlib) (utf8 : lib.Text → Bytes) (ofUtf8 : Bytes → Option lib.Text)

/-- The fallback as the codec of the RPC layer: a request is `[method, args]`, a response
    `[ok, result]`, and a text is sent in UTF-8. -/
def rpcCodec : PeerCacheRpc.Codec Value Value where
  noArgs := .dict []
  dumpsRequest := fun r => some (utf8 (dumps lib (.list [.str r.1, r.2])))
  loadsRequest := fun b => match (ofUtf8 b).bind (loads lib) with
    | some (.list [.str method, args]) => some (method, args)
    | _ => none
  dumpsReply := fun r => match r with
    | .result v => some (utf8 (dumps lib (.list [.bool true, v])))
    | .error text => some (utf8 (dumps lib (.list [.bool false, .str text])))
  loadsReply := fun b => match (ofUtf8 b).bind (loads lib) with
    | some (.list [.bool true, v]) => some (.result v)
    | some (.list [.bool false, .str text]) => some (.error text)
    | _ => none

/-- **ERRORS STAY ERRORS** under the fallback, whatever it does to bytes. -/
lemma rpcCodec_keepsFlag (hutf8 : ∀ t, ofUtf8 (utf8 t) = some t) :
    (rpcCodec lib utf8 ofUtf8).KeepsFlag := by
  intro text v b hdump
  obtain rfl := Option.some.inj hdump
  have hload : (ofUtf8 (utf8 (dumps lib (.list [.bool false, .str text])))).bind (loads lib)
      = some (.list [.bool false, .str text]) := by
    rw [hutf8]
    show (lib.load (lib.dump _)).bind (decode lib) = _
    rw [lib.load_dump]
    rfl
  simp [rpcCodec, hload]

end ControlPlane

end PeerCacheJson
