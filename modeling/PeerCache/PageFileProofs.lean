import PeerCache.StructCodecProofs

/-! # Page files

    A page file of the disk tier is `[4-byte big-endian keylen][key utf-8][raw page bytes]`
    (`diskstore.py`).  Two readers take it apart: the scan of a directory reads the key and infers
    the length of the page from the size of the file, `get` skips the key and reads so many bytes as
    the index says.  Both invert the writer, for every key and every page, empty ones included. -/

namespace PeerCachePage

open StructCodec

/-- `key.encode("utf-8")` -/
def utf8 (key : String) : List UInt8 := key.toUTF8.data.toList

/-- `bytes.decode("utf-8")` -/
def decodeUtf8 (bs : List UInt8) : Option String := String.fromUTF8? ⟨bs.toArray⟩

lemma decodeUtf8_utf8 (key : String) : decodeUtf8 (utf8 key) = some key := by
  rw [decodeUtf8, utf8, Array.toArray_toList]
  exact dif_pos key.isValidUTF8

/-- What `_write` writes; `struct.pack` raises when the key is too long. -/
def pageBytes (key : String) (data : List UInt8) : Option (List UInt8) :=
  if (utf8 key).length < 256 ^ 4 then some (toBE 4 (utf8 key).length ++ utf8 key ++ data) else none

/-- `_rebuild_from_scan` on one file: its key and the length of its page. -/
def scanPage (bs : List UInt8) : Option (String × Nat) :=
  if bs.length < 4 then none
  else
    let klen := ofBE (bs.take 4)
    (decodeUtf8 ((bs.drop 4).take klen)).bind (fun key =>
      if 4 + klen ≤ bs.length then some (key, bs.length - 4 - klen) else none)

/-- `get` on one file: `length` bytes after the key; `struct.unpack` raises on a shorter header. -/
def readPage (length : Nat) (bs : List UInt8) : Option (List UInt8) :=
  if bs.length < 4 then none
  else some ((bs.drop (4 + ofBE (bs.take 4))).take length)

variable {data bs : List UInt8}

lemma pageBytes_eq {key : String} (h : pageBytes key data = some bs) :
    (utf8 key).length < 256 ^ 4 ∧ bs = toBE 4 (utf8 key).length ++ utf8 key ++ data := by
  rw [pageBytes] at h
  split_ifs at h with hlen
  exact ⟨hlen, (Option.some.inj h).symm⟩

lemma pageBytes_parts {key : String} (h : pageBytes key data = some bs) :
    bs.length = 4 + (utf8 key).length + data.length ∧ ofBE (bs.take 4) = (utf8 key).length
      ∧ (bs.drop 4).take (utf8 key).length = utf8 key ∧ bs.drop (4 + (utf8 key).length) = data := by
  obtain ⟨hlen, rfl⟩ := pageBytes_eq h
  refine ⟨by simp [Nat.add_assoc], ?_, ?_, ?_⟩
  · rw [List.append_assoc, List.take_left' (length_toBE 4 _), ofBE_toBE hlen]
  · rw [List.append_assoc, List.drop_left' (length_toBE 4 _), List.take_left]
  · exact List.drop_left' (by simp)

/-- **THE SCAN INVERTS THE WRITER**. -/
lemma scanPage_pageBytes {key : String} (h : pageBytes key data = some bs) :
    scanPage bs = some (key, data.length) := by
  obtain ⟨hlen, hkey, hutf8, -⟩ := pageBytes_parts h
  rw [scanPage, if_neg (by omega)]
  simp only [hkey, hutf8, decodeUtf8_utf8, Option.bind_some]
  rw [if_pos (by omega), hlen]
  congr 2
  omega

/-- **`get` INVERTS THE WRITER**. -/
lemma readPage_pageBytes {key : String} (h : pageBytes key data = some bs) :
    readPage data.length bs = some data := by
  obtain ⟨hlen, hkey, -, hdata⟩ := pageBytes_parts h
  rw [readPage, if_neg (by omega), hkey, hdata, List.take_length]

lemma pageBytes_inj {key key' : String} {data' : List UInt8} (h : pageBytes key data = some bs)
    (h' : pageBytes key' data' = some bs) : key = key' ∧ data = data' := by
  have hscan := scanPage_pageBytes h
  rw [scanPage_pageBytes h'] at hscan
  obtain ⟨hkey, hlen⟩ := Prod.mk.inj (Option.some.inj hscan)
  refine ⟨hkey.symm, ?_⟩
  have hread := readPage_pageBytes h
  rw [← hlen, readPage_pageBytes h'] at hread
  exact (Option.some.inj hread).symm

/-- An empty page of a key outside ASCII. -/
example : (pageBytes "aé" []).bind scanPage = some ("aé", 0) := by decide +kernel

end PeerCachePage
