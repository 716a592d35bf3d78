import CascadeSearch.Lib.TextFile
import Mathlib.Data.List.TakeWhile

/-!
# JSON objects of strings

What `json.dumps` writes for a dictionary of strings, and what `json.loads` reads:
the output is in ASCII, on one line, and reads back as the same items.
-/
namespace CascadeSearch.Lib.Json

open Lib.TextFile

def hexDigit (n : Nat) : Char := if n < 10 then Char.ofNat (0x30 + n) else Char.ofNat (0x57 + n)

def hex4 (n : Nat) : Text := [hexDigit (n / 4096 % 16), hexDigit (n / 256 % 16), hexDigit (n / 16 % 16), hexDigit (n % 16)]

/-- A code unit of UTF-16. -/
def escapeUnit (n : Nat) : Text := '\\' :: 'u' :: hex4 n

/-- The letters of the short escapes. -/
def shortEscapes : List (Char × Char) :=
  [('"', '"'), ('\\', '\\'), ('\n', 'n'), ('\r', 'r'), ('\t', 't'), ('\x08', 'b'), ('\x0c', 'f')]

/-- One character with `ensure_ascii`. -/
def escapeChar (c : Char) : Text :=
  match shortEscapes.lookup c with
  | some letter => ['\\', letter]
  | none =>
      if 0x20 ≤ c.toNat ∧ c.toNat ≤ 0x7E then [c]
      else if c.toNat < 0x10000 then escapeUnit c.toNat
      else escapeUnit (0xD800 + (c.toNat - 0x10000) / 0x400) ++ escapeUnit (0xDC00 + (c.toNat - 0x10000) % 0x400)

def dumpString (text : Text) : Text := '"' :: text.flatMap escapeChar ++ ['"']

def dumpMember (member : Text × Text) : Text := dumpString member.1 ++ [':', ' '] ++ dumpString member.2

def dumpObject (members : List (Text × Text)) : Text :=
  '{' :: [',', ' '].intercalate (members.map dumpMember) ++ ['}']

def hexValue (c : Char) : Option Nat :=
  if 0x30 ≤ c.toNat ∧ c.toNat ≤ 0x39 then some (c.toNat - 0x30)
  else if 0x61 ≤ c.toNat ∧ c.toNat ≤ 0x66 then some (c.toNat - 0x57)
  else if 0x41 ≤ c.toNat ∧ c.toNat ≤ 0x46 then some (c.toNat - 0x37)
  else none

def readHex4 : Text → Option (Nat × Text)
  | a :: b :: c :: d :: rest =>
      (hexValue a).bind fun a => (hexValue b).bind fun b => (hexValue c).bind fun c => (hexValue d).map fun d =>
        (a * 4096 + b * 256 + c * 16 + d, rest)
  | _ => none

/-- What follows `\u`. A lone surrogate is no character here. -/
def readUnit (text : Text) : Option (Char × Text) :=
  (readHex4 text).bind fun (n, rest) =>
    if 0xD800 ≤ n ∧ n < 0xDC00 then
      match rest with
      | '\\' :: 'u' :: rest =>
          (readHex4 rest).bind fun (low, rest) =>
            if 0xDC00 ≤ low ∧ low < 0xE000 then
              some (Char.ofNat (0x10000 + (n - 0xD800) * 0x400 + (low - 0xDC00)), rest)
            else none
      | _ => none
    else if 0xDC00 ≤ n ∧ n < 0xE000 then none
    else some (Char.ofNat n, rest)

/-- The short escapes read back; `/` may be escaped too. -/
def unescape (letter : Char) : Option Char :=
  (('/', '/') :: shortEscapes.map fun entry => (entry.2, entry.1)).lookup letter

/-- One character of a string. -/
def readChar : Text → Option (Char × Text)
  | [] => none
  | '\\' :: rest =>
      match rest with
      | [] => none
      | 'u' :: rest => readUnit rest
      | letter :: rest => (unescape letter).map fun c => (c, rest)
  | c :: rest => if c.toNat < 0x20 then none else some (c, rest)

/-- The rest of a string after its opening quote. -/
def scanString : Nat → Text → Option (Text × Text)
  | 0, _ => none
  | rounds + 1, text =>
      match text with
      | '"' :: rest => some ([], rest)
      | text => (readChar text).bind fun (c, rest) => (scanString rounds rest).map fun (value, rest) => (c :: value, rest)

def isBlank (c : Char) : Bool := c = ' ' || c = '\t' || c = '\n' || c = '\r'

def skip (text : Text) : Text := text.dropWhile isBlank

/-- The next token, if it is this character. -/
def expect (c : Char) (text : Text) : Option Text :=
  match skip text with
  | [] => none
  | d :: rest => if d = c then some rest else none

def readString (text : Text) : Option (Text × Text) := (expect '"' text).bind fun rest => scanString (rest.length + 1) rest

/-- A comma and more members, or the closing brace. -/
def afterMember (more : Text → Option (List (Text × Text) × Text)) (member : Text × Text) (text : Text) :
    Option (List (Text × Text) × Text) :=
  match expect ',' text with
  | some rest => (more rest).map fun (members, rest) => (member :: members, rest)
  | none => (expect '}' text).map fun rest => ([member], rest)

/-- The members of an object; `none` also where a value is no string. -/
def readMembers : Nat → Text → Option (List (Text × Text) × Text)
  | 0, _ => none
  | rounds + 1, text =>
      (readString text).bind fun (key, rest) => (expect ':' rest).bind fun rest => (readString rest).bind fun (value, rest) =>
        afterMember (readMembers rounds) (key, value) rest

/-- `json.loads` of an object of strings: its items as they stand, and nothing but
blanks after it. -/
def loadObject (text : Text) : Option (List (Text × Text)) :=
  (expect '{' text).bind fun rest =>
    (match expect '}' rest with
      | some rest => some ([], rest)
      | none => readMembers (rest.length + 1) rest).bind fun (members, rest) => if skip rest = [] then some members else none

theorem hexValue_hexDigit {n : Nat} (h : n < 16) : hexValue (hexDigit n) = some n := by
  have hall : ∀ n < 16, hexValue (hexDigit n) = some n := by decide
  exact hall n h

theorem readHex4_hex4 {n : Nat} (h : n < 0x10000) (rest : Text) : readHex4 (hex4 n ++ rest) = some (n, rest) := by
  have hmod : ∀ m, m % 16 < 16 := fun m => Nat.mod_lt m (by decide)
  simp only [hex4, List.cons_append, List.nil_append, readHex4, hexValue_hexDigit (hmod _), Option.bind_some, Option.map_some]
  congr 2
  omega

theorem toNat_cases (c : Char) : c.toNat < 0xD800 ∨ 0xE000 ≤ c.toNat ∧ c.toNat < 0x110000 := by
  have hvalid := c.valid
  simp only [UInt32.isValidChar, Nat.isValidChar] at hvalid
  change c.val.toNat < 0xD800 ∨ 0xE000 ≤ c.val.toNat ∧ c.val.toNat < 0x110000
  omega

theorem readUnit_bmp {c : Char} (h : c.toNat < 0x10000) (rest : Text) : readUnit (hex4 c.toNat ++ rest) = some (c, rest) := by
  have hcases := toNat_cases c
  rw [readUnit, readHex4_hex4 h, Option.bind_some]
  dsimp only
  rw [if_neg (by omega), if_neg (by omega), Char.ofNat_toNat]

/-- The two halves of a surrogate pair. -/
theorem readUnit_pair {c : Char} (h : 0x10000 ≤ c.toNat) (rest : Text) :
    readUnit (hex4 (0xD800 + (c.toNat - 0x10000) / 0x400) ++ (escapeUnit (0xDC00 + (c.toNat - 0x10000) % 0x400) ++ rest)) =
      some (c, rest) := by
  have hcases := toNat_cases c
  have hhigh : (c.toNat - 0x10000) / 0x400 < 0x400 := by omega
  have hlow : (c.toNat - 0x10000) % 0x400 < 0x400 := Nat.mod_lt _ (by decide)
  have hwhole := Nat.div_add_mod (c.toNat - 0x10000) 0x400
  generalize (c.toNat - 0x10000) / 0x400 = high at *
  generalize (c.toNat - 0x10000) % 0x400 = low at *
  rw [readUnit, readHex4_hex4 (by omega), Option.bind_some]
  dsimp only
  rw [if_pos (by omega), escapeUnit]
  change (readHex4 (hex4 (0xDC00 + low) ++ rest)).bind _ = _
  rw [readHex4_hex4 (by omega), Option.bind_some]
  dsimp only
  rw [if_pos (by omega)]
  have hvalue : 0x10000 + (0xD800 + high - 0xD800) * 0x400 + (0xDC00 + low - 0xDC00) = c.toNat := by omega
  rw [hvalue, Char.ofNat_toNat]

theorem readChar_plain {c : Char} (hquote : c ≠ '\\') (rest : Text) :
    readChar (c :: rest) = if c.toNat < 0x20 then none else some (c, rest) := by
  rw [readChar]
  exact hquote

theorem readChar_escapeChar (c : Char) (rest : Text) : readChar (escapeChar c ++ rest) = some (c, rest) := by
  rw [escapeChar]
  cases hlookup : shortEscapes.lookup c with
  | some letter =>
    obtain ⟨before, after, hsplit, -⟩ := List.lookup_eq_some_iff.mp hlookup
    have hmem : (c, letter) ∈ shortEscapes := by
      rw [hsplit]
      exact List.mem_append_right _ List.mem_cons_self
    simp only [shortEscapes, List.mem_cons, List.not_mem_nil, or_false, Prod.mk.injEq] at hmem
    rcases hmem with h | h | h | h | h | h | h <;> obtain ⟨rfl, rfl⟩ := h <;> rfl
  | none =>
    have hquote : c ≠ '\\' := by
      rintro rfl
      cases hlookup
    dsimp only
    split
    · rename_i hplain
      rw [List.singleton_append, readChar_plain hquote, if_neg (by omega)]
    · split
      · rename_i hbmp
        exact readUnit_bmp hbmp rest
      · rename_i hpair
        rw [List.append_assoc]
        exact readUnit_pair (Nat.le_of_not_lt hpair) rest

/-- No character is written as a quote alone. -/
theorem escapeChar_head (c : Char) : ∃ d rest, escapeChar c = d :: rest ∧ d ≠ '"' := by
  rw [escapeChar]
  cases hlookup : shortEscapes.lookup c with
  | some letter => exact ⟨_, _, rfl, by decide⟩
  | none =>
    dsimp only
    split
    · refine ⟨c, [], rfl, ?_⟩
      rintro rfl
      cases hlookup
    · split <;> exact ⟨_, _, rfl, by decide⟩

theorem scanString_escaped (text rest : Text) (rounds : Nat) (h : text.length < rounds) :
    scanString rounds (text.flatMap escapeChar ++ '"' :: rest) = some (text, rest) := by
  induction text generalizing rounds with
  | nil =>
    obtain ⟨rounds, rfl⟩ := Nat.exists_eq_succ_of_ne_zero (Nat.ne_of_gt h)
    rfl
  | cons c text ih =>
    obtain ⟨rounds, rfl⟩ := Nat.exists_eq_succ_of_ne_zero (Nat.ne_of_gt (Nat.zero_lt_of_lt h))
    obtain ⟨d, tail, hhead, hquote⟩ := escapeChar_head c
    have hread := readChar_escapeChar c (text.flatMap escapeChar ++ '"' :: rest)
    rw [List.flatMap_cons, List.append_assoc]
    rw [hhead, List.cons_append] at hread ⊢
    rw [scanString]
    · rw [hread, Option.bind_some]
      dsimp only
      rw [ih rounds (Nat.lt_of_succ_lt_succ h)]
      rfl
    · exact fun _ heq => hquote (List.cons.inj heq).1

theorem expect_self {c : Char} (h : isBlank c = false) (rest : Text) : expect c (c :: rest) = some rest := by
  rw [expect, skip, List.dropWhile_cons_of_neg (by simp [h])]
  exact if_pos rfl

theorem expect_ne {c d : Char} (hd : isBlank d = false) (h : d ≠ c) (rest : Text) : expect c (d :: rest) = none := by
  rw [expect, skip, List.dropWhile_cons_of_neg (by simp [hd])]
  exact if_neg h

theorem expect_space (c : Char) (rest : Text) : expect c (' ' :: rest) = expect c rest := by
  rw [expect, skip, List.dropWhile_cons_of_pos (by decide)]
  rfl

theorem readString_dumpString (text rest : Text) : readString (dumpString text ++ rest) = some (text, rest) := by
  have hshape : dumpString text ++ rest = '"' :: (text.flatMap escapeChar ++ '"' :: rest) := by
    rw [dumpString, List.append_assoc, List.cons_append]
    rfl
  have hlength : text.length ≤ (text.flatMap escapeChar).length := by
    rw [List.length_flatMap]
    have hone : ∀ c ∈ text, 1 ≤ (escapeChar c).length := by
      intro c _
      obtain ⟨d, tail, heq, -⟩ := escapeChar_head c
      rw [heq, List.length_cons]
      exact Nat.le_add_left 1 _
    have hsum := List.sum_le_sum hone
    rwa [List.map_const', List.sum_replicate, smul_eq_mul, mul_one] at hsum
  rw [readString, hshape, expect_self (by decide), Option.bind_some]
  refine scanString_escaped text rest _ ?_
  rw [List.length_append]
  omega

theorem readString_space (text rest : Text) : readString (' ' :: (dumpString text ++ rest)) = some (text, rest) := by
  rw [readString, expect_space, ← readString, readString_dumpString]

theorem afterMember_comma (more : Text → Option (List (Text × Text) × Text)) (member : Text × Text) (rest : Text) :
    afterMember more member (',' :: rest) = (more rest).map fun result => (member :: result.1, result.2) := by
  rw [afterMember, expect_self (by decide)]

theorem afterMember_brace (more : Text → Option (List (Text × Text) × Text)) (member : Text × Text) (rest : Text) :
    afterMember more member ('}' :: rest) = some ([member], rest) := by
  rw [afterMember, expect_ne (by decide) (by decide)]
  dsimp only
  rw [expect_self (by decide)]
  rfl

/-- A member after an opening brace or, with a blank before it, after a comma. -/
theorem readMembers_member (member : Text × Text) {blank : Text} (hblank : blank = [] ∨ blank = [' ']) (rounds : Nat)
    (rest : Text) : readMembers (rounds + 1) (blank ++ (dumpMember member ++ rest)) =
      afterMember (readMembers rounds) member rest := by
  have hshape : dumpMember member ++ rest = dumpString member.1 ++ ':' :: ' ' :: (dumpString member.2 ++ rest) := by
    rw [dumpMember, List.append_assoc, List.append_assoc]
    rfl
  have hkey : readString (blank ++ (dumpMember member ++ rest)) =
      some (member.1, ':' :: ' ' :: (dumpString member.2 ++ rest)) := by
    rw [hshape]
    rcases hblank with rfl | rfl
    · exact readString_dumpString _ _
    · exact readString_space _ _
  rw [readMembers, hkey, Option.bind_some]
  dsimp only
  rw [expect_self (by decide), Option.bind_some, readString_space, Option.bind_some]

theorem readMembers_dump (members : List (Text × Text)) (rest : Text) : ∀ (member : Text × Text) (blank : Text) (rounds : Nat),
    blank = [] ∨ blank = [' '] → members.length < rounds →
    readMembers rounds (blank ++ ([',', ' '].intercalate ((member :: members).map dumpMember) ++ '}' :: rest)) =
      some (member :: members, rest) := by
  induction members with
  | nil =>
    intro member blank rounds hblank hrounds
    obtain ⟨rounds, rfl⟩ := Nat.exists_eq_succ_of_ne_zero (Nat.ne_of_gt hrounds)
    rw [List.map_singleton, List.intercalate_singleton, readMembers_member member hblank, afterMember_brace]
  | cons next members ih =>
    intro member blank rounds hblank hrounds
    obtain ⟨rounds, rfl⟩ := Nat.exists_eq_succ_of_ne_zero (Nat.ne_of_gt (Nat.zero_lt_of_lt hrounds))
    rw [List.map_cons, List.map_cons, List.intercalate_cons_cons, ← List.map_cons, List.append_assoc, List.append_assoc,
      readMembers_member member hblank]
    have hrest := ih next [' '] rounds (Or.inr rfl) (Nat.lt_of_succ_lt_succ hrounds)
    exact (afterMember_comma _ _ _).trans (congrArg (Option.map fun result => (member :: result.1, result.2)) hrest)

theorem length_members_le (members : List (Text × Text)) (member : Text × Text) :
    members.length < ([',', ' '].intercalate ((member :: members).map dumpMember)).length := by
  have hpos : ∀ m : Text × Text, 0 < (dumpMember m).length := fun m => by
    rw [dumpMember, dumpString]
    exact Nat.succ_pos _
  induction members generalizing member with
  | nil =>
    rw [List.map_singleton, List.intercalate_singleton]
    exact hpos member
  | cons next members ih =>
    rw [List.map_cons, List.map_cons, List.intercalate_cons_cons, ← List.map_cons, List.length_append, List.length_append,
      List.length_cons]
    have hnext := ih next
    have hmember := hpos member
    omega

/-- What is written reads back, also with blanks after it. -/
theorem loadObject_dumpObject (members : List (Text × Text)) {blanks : Text} (hblanks : ∀ c ∈ blanks, isBlank c = true) :
    loadObject (dumpObject members ++ blanks) = some members := by
  have hskip : skip blanks = [] := List.dropWhile_eq_nil_iff.mpr hblanks
  rw [loadObject, dumpObject, List.cons_append, List.cons_append, expect_self (by decide), Option.bind_some, List.append_assoc,
    List.singleton_append]
  cases members with
  | nil =>
    rw [List.map_nil, List.intercalate_nil, List.nil_append, expect_self (by decide)]
    exact if_pos hskip
  | cons member members =>
    have hquote : ∃ tail, [',', ' '].intercalate ((member :: members).map dumpMember) ++ '}' :: blanks = '"' :: tail := by
      cases members with
      | nil => exact ⟨_, rfl⟩
      | cons next members => exact ⟨_, rfl⟩
    obtain ⟨tail, htail⟩ := hquote
    have hbrace : expect '}' ([',', ' '].intercalate ((member :: members).map dumpMember) ++ '}' :: blanks) = none := by
      rw [htail]
      exact expect_ne (by decide) (by decide) tail
    rw [hbrace]
    dsimp only
    have hrounds : members.length <
        ([',', ' '].intercalate ((member :: members).map dumpMember) ++ '}' :: blanks).length + 1 := by
      have hlength := length_members_le members member
      rw [List.length_append]
      omega
    have hread := readMembers_dump members blanks member [] _ (Or.inl rfl) hrounds
    rw [List.nil_append] at hread
    rw [hread, Option.bind_some]
    exact if_pos hskip

/-- A printable character of ASCII. -/
def IsPlain (c : Char) : Prop := 0x20 ≤ c.toNat ∧ c.toNat ≤ 0x7E

theorem isPlain_escapeUnit (n : Nat) : ∀ d ∈ escapeUnit n, IsPlain d := by
  have hdigit : ∀ m, IsPlain (hexDigit (m % 16)) := by
    have hall : ∀ m < 16, 0x20 ≤ (hexDigit m).toNat ∧ (hexDigit m).toNat ≤ 0x7E := by decide
    exact fun m => hall _ (Nat.mod_lt m (by decide))
  intro d hd
  simp only [escapeUnit, hex4, List.mem_cons, List.not_mem_nil, or_false] at hd
  rcases hd with rfl | rfl | rfl | rfl | rfl | rfl
  · exact ⟨by decide, by decide⟩
  · exact ⟨by decide, by decide⟩
  all_goals exact hdigit _

theorem isPlain_escapeChar (c : Char) : ∀ d ∈ escapeChar c, IsPlain d := by
  rw [escapeChar]
  cases hlookup : shortEscapes.lookup c with
  | some letter =>
    obtain ⟨before, after, hsplit, -⟩ := List.lookup_eq_some_iff.mp hlookup
    have hmem : letter ∈ shortEscapes.map Prod.snd := by
      rw [hsplit, List.map_append]
      exact List.mem_append_right _ List.mem_cons_self
    intro d hd
    rcases List.mem_pair.mp hd with rfl | rfl
    · exact ⟨by decide, by decide⟩
    · simp only [shortEscapes, List.map_cons, List.map_nil, List.mem_cons, List.not_mem_nil, or_false] at hmem
      rcases hmem with rfl | rfl | rfl | rfl | rfl | rfl | rfl <;> exact ⟨by decide, by decide⟩
  | none =>
    dsimp only
    split
    · rename_i hplain
      exact List.forall_mem_singleton.mpr hplain
    · split
      · exact isPlain_escapeUnit _
      · exact List.forall_mem_append.mpr ⟨isPlain_escapeUnit _, isPlain_escapeUnit _⟩

theorem isPlain_dumpString (text : Text) : ∀ d ∈ dumpString text, IsPlain d := by
  have hquote : IsPlain '"' := ⟨by decide, by decide⟩
  rw [dumpString]
  refine List.forall_mem_append.mpr ⟨List.forall_mem_cons.mpr ⟨hquote, fun d hd => ?_⟩, List.forall_mem_singleton.mpr hquote⟩
  obtain ⟨c, -, hd⟩ := List.mem_flatMap.mp hd
  exact isPlain_escapeChar c d hd

theorem isPlain_dumpMember (member : Text × Text) : ∀ d ∈ dumpMember member, IsPlain d := by
  rw [dumpMember]
  refine List.forall_mem_append.mpr ⟨List.forall_mem_append.mpr ⟨isPlain_dumpString _, ?_⟩, isPlain_dumpString _⟩
  exact List.forall_mem_cons.mpr ⟨⟨by decide, by decide⟩, List.forall_mem_singleton.mpr ⟨by decide, by decide⟩⟩

theorem isPlain_members (members : List (Text × Text)) :
    ∀ d ∈ [',', ' '].intercalate (members.map dumpMember), IsPlain d := by
  induction members with
  | nil => exact fun d hd => absurd hd List.not_mem_nil
  | cons member members ih =>
    cases members with
    | nil =>
      rw [List.map_singleton, List.intercalate_singleton]
      exact isPlain_dumpMember member
    | cons next members =>
      rw [List.map_cons, List.map_cons, List.intercalate_cons_cons, ← List.map_cons]
      refine List.forall_mem_append.mpr ⟨List.forall_mem_append.mpr ⟨isPlain_dumpMember member, ?_⟩, ih⟩
      exact List.forall_mem_cons.mpr ⟨⟨by decide, by decide⟩, List.forall_mem_singleton.mpr ⟨by decide, by decide⟩⟩

/-- Whatever its strings hold, an object is written on one line and in ASCII. -/
theorem isPlain_dumpObject (members : List (Text × Text)) : ∀ d ∈ dumpObject members, IsPlain d := by
  rw [dumpObject]
  refine List.forall_mem_append.mpr ⟨List.forall_mem_cons.mpr ⟨⟨by decide, by decide⟩, isPlain_members members⟩, ?_⟩
  exact List.forall_mem_singleton.mpr ⟨by decide, by decide⟩

end CascadeSearch.Lib.Json
