import CascadeSearch.Lib.Memory

/-!
# Text files

A Python `str` is a list of characters; a text file holds its UTF-8 encoding.
Writing in text mode on POSIX translates nothing. Reading decodes strictly and
then turns every `\r\n` and every lone `\r` into `\n` (universal newlines).
-/
namespace CascadeSearch.Lib.TextFile

open Lib.Memory (Byte)

abbrev Text := List Char

def encodeChar (c : Char) : List Byte := (String.utf8EncodeChar c).map UInt8.toFin

def encode (text : Text) : List Byte := text.flatMap encodeChar

/-- Strict decoding; `none` is `UnicodeDecodeError`. -/
def decode (bytes : List Byte) : Option Text :=
  (bytes.map UInt8.ofFin).toByteArray.utf8Decode?.map Array.toList

def universalNewlines : Text → Text
  | [] => []
  | '\r' :: '\n' :: text => '\n' :: universalNewlines text
  | '\r' :: text => '\n' :: universalNewlines text
  | c :: text => c :: universalNewlines text

/-- `Path.write_text`: the bytes of the file. -/
def writeText (text : Text) : List Byte := encode text

/-- `Path.read_text`. -/
def readText (bytes : List Byte) : Option Text := (decode bytes).map universalNewlines

theorem encode_append (text text' : Text) : encode (text ++ text') = encode text ++ encode text' :=
  List.flatMap_append

theorem encode_cons (c : Char) (text : Text) : encode (c :: text) = encodeChar c ++ encode text :=
  List.flatMap_cons

theorem encode_flatten (texts : List Text) : encode texts.flatten = (texts.map encode).flatten := by
  induction texts with
  | nil => rfl
  | cons text texts ih => rw [List.flatten_cons, encode_append, ih, List.map_cons, List.flatten_cons]

theorem decode_encode (text : Text) : decode (encode text) = some text := by
  have hbytes : (encode text).map UInt8.ofFin = text.flatMap String.utf8EncodeChar := by
    rw [encode, List.map_flatMap]
    congr 1
    funext c
    rw [encodeChar, List.map_map]
    exact List.map_id _
  rw [decode, hbytes]
  change text.utf8Encode.utf8Decode?.map Array.toList = some text
  rw [List.utf8Decode?_utf8Encode]
  rfl

theorem encode_of_decode {bytes : List Byte} {text : Text} (h : decode bytes = some text) :
    encode text = bytes := by
  obtain ⟨chars, hchars, rfl⟩ := Option.map_eq_some_iff.mp h
  obtain ⟨valid, hvalid⟩ := ByteArray.isSome_utf8Decode?_iff.mp (Option.isSome_of_eq_some hchars)
  rw [hvalid, List.utf8Decode?_utf8Encode] at hchars
  cases hchars
  have hbytes := List.toByteArray_inj.mp hvalid
  calc encode valid = (valid.flatMap String.utf8EncodeChar).map UInt8.toFin := List.map_flatMap.symm
    _ = (bytes.map UInt8.ofFin).map UInt8.toFin := by rw [hbytes]
    _ = bytes := by
      rw [List.map_map]
      exact List.map_id _

/-- A text that was read is what the file's characters become. -/
theorem readText_eq_some {bytes : List Byte} {text : Text} (h : readText bytes = some text) :
    ∃ chars, bytes = encode chars ∧ text = universalNewlines chars := by
  obtain ⟨chars, hchars, rfl⟩ := Option.map_eq_some_iff.mp h
  exact ⟨chars, (encode_of_decode hchars).symm, rfl⟩

theorem readText_encode (text : Text) : readText (encode text) = some (universalNewlines text) := by
  rw [readText, decode_encode]
  rfl

theorem encode_injective : Function.Injective encode := fun text text' h => by
  have hd := congrArg decode h
  rw [decode_encode, decode_encode] at hd
  exact Option.some.inj hd

theorem encodeChar_ne_nil (c : Char) : encodeChar c ≠ [] := mt List.map_eq_nil_iff.mp String.utf8EncodeChar_ne_nil

/-- The byte of an ASCII character. -/
def asciiByte (c : Char) : Byte := Fin.ofNat 256 c.toNat

theorem encodeChar_ascii {c : Char} (h : c.toNat < 0x80) : encodeChar c = [asciiByte c] := by
  have hle : c.val.toNat ≤ 0x7f := Nat.lt_succ_iff.mp h
  rw [encodeChar, String.utf8EncodeChar]
  simp only [if_pos hle]
  rfl

/-- Every byte of a character beyond ASCII has its high bit set. -/
theorem encodeChar_high {c : Char} (h : 0x80 ≤ c.toNat) {b : Byte} (hb : b ∈ encodeChar c) :
    0x80 ≤ b.val := by
  have hgt : ¬c.val.toNat ≤ 0x7f := Nat.not_le_of_lt (Nat.lt_of_succ_le h)
  rw [encodeChar, String.utf8EncodeChar] at hb
  simp only [if_neg hgt] at hb
  obtain ⟨x, hx, rfl⟩ := List.mem_map.mp hb
  have hval : ∀ n, (UInt8.ofNat n).toFin.val = n % 256 := fun n => rfl
  split at hx
  · simp only [List.mem_cons, List.not_mem_nil, or_false] at hx
    rcases hx with rfl | rfl <;> rw [hval] <;> omega
  · split at hx
    · simp only [List.mem_cons, List.not_mem_nil, or_false] at hx
      rcases hx with rfl | rfl | rfl <;> rw [hval] <;> omega
    · simp only [List.mem_cons, List.not_mem_nil, or_false] at hx
      rcases hx with rfl | rfl | rfl | rfl <;> rw [hval] <;> omega

theorem asciiByte_mem_encodeChar {c d : Char} (h : c.toNat < 0x80) :
    asciiByte c ∈ encodeChar d ↔ c = d := by
  have hval : (asciiByte c).val = c.toNat := Nat.mod_eq_of_lt (by omega)
  constructor
  · intro hmem
    have hd : d.toNat < 0x80 := by
      by_contra hge
      have hhigh := encodeChar_high (Nat.le_of_not_lt hge) hmem
      omega
    rw [encodeChar_ascii hd, List.mem_singleton] at hmem
    have hv := congrArg Fin.val hmem
    rw [hval] at hv
    have hdval : (asciiByte d).val = d.toNat := Nat.mod_eq_of_lt (by omega)
    rw [hdval] at hv
    exact Char.toNat_inj.mp hv
  · intro hcd
    rw [← hcd, encodeChar_ascii h]
    exact List.mem_singleton_self _

theorem mem_encode_ascii {c : Char} (h : c.toNat < 0x80) {text : Text} :
    asciiByte c ∈ encode text ↔ c ∈ text := by
  rw [encode, List.mem_flatMap]
  constructor
  · intro hmem
    obtain ⟨d, hd, hb⟩ := hmem
    rw [(asciiByte_mem_encodeChar h).mp hb]
    exact hd
  · intro hc
    exact ⟨c, hc, (asciiByte_mem_encodeChar h).mpr rfl⟩

theorem universalNewlines_of_notMem {text : Text} (h : '\r' ∉ text) : universalNewlines text = text := by
  induction text using universalNewlines.induct with
  | case1 => rfl
  | case2 text ih => exact absurd List.mem_cons_self h
  | case3 text _ ih => exact absurd List.mem_cons_self h
  | case4 c text _ hr ih =>
    rw [universalNewlines, ih fun hmem => h (List.mem_cons_of_mem _ hmem)]
    all_goals assumption

theorem notMem_universalNewlines (text : Text) : '\r' ∉ universalNewlines text := by
  induction text using universalNewlines.induct with
  | case1 => exact List.not_mem_nil
  | case2 text ih =>
    rw [universalNewlines]
    exact List.not_mem_cons_of_ne_of_not_mem (by decide) ih
  | case3 text hn ih =>
    rw [universalNewlines]
    · exact List.not_mem_cons_of_ne_of_not_mem (by decide) ih
    · assumption
  | case4 c text hn hr ih =>
    rw [universalNewlines]
    · exact List.not_mem_cons_of_ne_of_not_mem (fun h => hr h.symm) ih
    all_goals assumption

end CascadeSearch.Lib.TextFile
