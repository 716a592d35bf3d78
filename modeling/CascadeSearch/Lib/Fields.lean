import CascadeSearch.Lib.TextFile

/-!
# Fields of a line

`str.split` without arguments, the lines of a text file, and what a file written
line by line reads back as.
-/
namespace CascadeSearch.Lib.Fields

open Lib.TextFile

/-- `str.isspace` of one character. -/
def isSpace (c : Char) : Bool :=
  (0x09 ≤ c.toNat && c.toNat ≤ 0x0D) || (0x1C ≤ c.toNat && c.toNat ≤ 0x20) || c.toNat == 0x85 || c.toNat == 0xA0 ||
    c.toNat == 0x1680 || (0x2000 ≤ c.toNat && c.toNat ≤ 0x200A) || c.toNat == 0x2028 || c.toNat == 0x2029 ||
    c.toNat == 0x202F || c.toNat == 0x205F || c.toNat == 0x3000

/-- `str.split()`. -/
def split (text : Text) : List Text := (text.splitOnP isSpace).filter (· ≠ [])

/-- The lines of a file as it is iterated over, without the newline that ends each. -/
def fileLines (text : Text) : List Text := text.splitOn '\n'

/-- The lines there are: a newline at the end starts no other. -/
def lines (text : Text) : List Text :=
  let pieces := fileLines text
  if pieces.getLast? = some [] then pieces.dropLast else pieces

/-- A non-empty text without whitespace. -/
structure Word (word : Text) : Prop where
  nonempty : word ≠ []
  solid : ∀ c ∈ word, isSpace c = false

instance (word : Text) : Decidable (Word word) :=
  decidable_of_iff ((!word.isEmpty && word.all fun c => !isSpace c) = true) <| by
    rw [Bool.and_eq_true, Bool.not_eq_true', List.isEmpty_eq_false_iff, List.all_eq_true]
    simp only [Bool.not_eq_true']
    exact ⟨fun h => ⟨h.1, h.2⟩, fun h => ⟨h.nonempty, h.solid⟩⟩

theorem isSpace_of_isDigit {c : Char} (h : c.isDigit = true) : isSpace c = false := by
  have hval : 0x30 ≤ c.toNat ∧ c.toNat ≤ 0x39 := by
    simp only [Char.isDigit, Bool.and_eq_true, decide_eq_true_iff] at h
    exact ⟨UInt32.le_iff_toNat_le.mp h.1, UInt32.le_iff_toNat_le.mp h.2⟩
  simp only [isSpace, Bool.or_eq_false_iff, Bool.and_eq_false_iff, decide_eq_false_iff_not, beq_eq_false_iff_ne]
  omega

/-- The words of a line with one blank between them. -/
def joinWords (words : List Text) : Text := [' '].intercalate words

theorem Word.notMem {word : Text} (h : Word word) {c : Char} (hc : isSpace c = true) : c ∉ word := fun hmem => by
  rw [h.solid c hmem] at hc
  cases hc

theorem split_word {word : Text} (h : Word word) : split word = [word] := by
  rw [split, List.splitOnP_eq_singleton h.solid, List.filter_cons_of_pos (by simpa using h.nonempty)]
  rfl

theorem split_append_space {word : Text} (h : Word word) (text : Text) : split (word ++ ' ' :: text) = word :: split text := by
  rw [split, List.splitOnP_append_cons _ _ (by decide), List.filter_append]
  exact congrArg (· ++ split text) (split_word h)

theorem split_joinWords {words : List Text} (h : ∀ word ∈ words, Word word) : split (joinWords words) = words := by
  induction words with
  | nil => rfl
  | cons word words ih =>
    obtain ⟨hword, hwords⟩ := List.forall_mem_cons.mp h
    cases words with
    | nil => rw [joinWords, List.intercalate_singleton, split_word hword]
    | cons next words =>
      rw [joinWords, List.intercalate_cons_cons, List.append_assoc, List.singleton_append, split_append_space hword]
      exact congrArg _ (ih hwords)

theorem notMem_joinWords {words : List Text} (h : ∀ word ∈ words, Word word) {c : Char} (hc : isSpace c = true)
    (hblank : c ≠ ' ') : c ∉ joinWords words := by
  induction words with
  | nil => exact List.not_mem_nil
  | cons word words ih =>
    obtain ⟨hword, hwords⟩ := List.forall_mem_cons.mp h
    cases words with
    | nil =>
      rw [joinWords, List.intercalate_singleton]
      exact hword.notMem hc
    | cons next words =>
      rw [joinWords, List.intercalate_cons_cons, List.append_assoc, List.mem_append, List.mem_append,
        List.mem_singleton, not_or, not_or]
      exact ⟨hword.notMem hc, hblank, ih hwords⟩

/-- A file written line by line is iterated over line by line, with an empty rest. -/
theorem fileLines_unlines {lines : List Text} (h : ∀ line ∈ lines, '\n' ∉ line) :
    fileLines (lines.flatMap (· ++ ['\n'])) = lines ++ [[]] := by
  induction lines with
  | nil => rfl
  | cons line lines ih =>
    obtain ⟨hline, hlines⟩ := List.forall_mem_cons.mp h
    rw [List.flatMap_cons, List.append_assoc, List.singleton_append, fileLines, List.splitOn_append_cons_self,
      List.splitOn_eq_singleton hline]
    exact congrArg (line :: ·) (ih hlines)

theorem lines_unlines {rows : List Text} (h : ∀ row ∈ rows, '\n' ∉ row) : lines (rows.flatMap (· ++ ['\n'])) = rows := by
  simp only [lines, fileLines_unlines h, List.getLast?_concat, List.dropLast_concat, if_true]

/-- The fields of a file of lines of words. -/
theorem fields_of_file {rows : List (List Text)} (h : ∀ row ∈ rows, ∀ word ∈ row, Word word) :
    (readText (writeText (rows.flatMap fun row => joinWords row ++ ['\n']))).map (fun text => (fileLines text).map split) =
      some (rows ++ [[]]) := by
  have hlines : rows.flatMap (fun row => joinWords row ++ ['\n']) = (rows.map joinWords).flatMap (· ++ ['\n']) := by
    rw [List.flatMap_map]
  have hnone : ∀ c, isSpace c = true → c ≠ ' ' → ∀ line ∈ rows.map joinWords, c ∉ line := by
    intro c hc hblank line hline
    obtain ⟨row, hrow, rfl⟩ := List.mem_map.mp hline
    exact notMem_joinWords (h row hrow) hc hblank
  have hreturn : '\r' ∉ (rows.map joinWords).flatMap (· ++ ['\n']) := by
    rw [List.mem_flatMap]
    rintro ⟨line, hline, hmem⟩
    rcases List.mem_append.mp hmem with hmem | hmem
    · exact hnone '\r' (by decide) (by decide) line hline hmem
    · exact absurd hmem (by decide)
  rw [hlines, writeText, readText_encode, universalNewlines_of_notMem hreturn, Option.map_some,
    fileLines_unlines (hnone '\n' (by decide) (by decide)), List.map_append, List.map_map]
  have hrows : rows.map (split ∘ joinWords) = rows :=
    (List.map_congr_left fun row hrow => split_joinWords (h row hrow)).trans (List.map_id rows)
  rw [hrows]
  rfl

end CascadeSearch.Lib.Fields
