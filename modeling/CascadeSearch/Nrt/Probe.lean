import CascadeSearch.Lib.Fields
import CascadeSearch.Nrt.BoundSearch
import Mathlib.Data.List.MinMax

/-!
# Probes (`lag_experiment.py`)

A probe for a document is the longest word of its text. Python's words end at
every Unicode space, the analyzer's only at the ones in ASCII: with no other
spaces in the text every term of a word is a term of the document.
-/
namespace CascadeSearch.Nrt.Probe

open Lib.Fields Lib.TextFile
open Lib.Fallible (mapM_eq_map)
open Index.Format Index.Porter Index.Corpus Index.Inverted
open Index.Analyzer (Splits analyze tokenize_split)
open Query.Retrieval
open Tsv BoundSearch

/-- `line.split("\t", 1)`; `none` if it has one field only. -/
def parse (line : Text) : Option (Text × Text) :=
  match line.dropWhile (· ≠ '\t') with
  | [] => none
  | _ :: text => some (line.takeWhile (· ≠ '\t'), text)

/-- `_read_tsv_slice`. -/
def readTsvSlice (file : Str) (start count : Nat) : Option (List (Text × Text)) :=
  (readText file).bind fun text => (((lines text).drop start).take count).mapM parse

/-- `_longest_token`: the first of the longest. -/
def longestToken (text : Text) : Option Text := (split text).argmax List.length

/-- The spaces of the text are in ASCII. -/
def PlainSpaces (text : Text) : Prop := ∀ c ∈ text, isSpace c = true → c.toNat < 0x80

theorem parse_line {d : Text × Text} (htab : '\t' ∉ d.1) : parse (d.1 ++ '\t' :: d.2) = some d := by
  have hid : ∀ c ∈ d.1, decide (c ≠ '\t') = true := fun c hc => decide_eq_true fun heq => htab (heq ▸ hc)
  rw [parse, List.dropWhile_append_of_pos hid, List.takeWhile_append_of_pos hid, List.dropWhile_cons_of_neg (by simp),
    List.takeWhile_cons_of_neg (by simp), List.append_nil]

theorem readTsvSlice_corpus {corpus : List (Text × Text)} (h : ∀ d ∈ corpus, WellFormed d ∧ '\r' ∉ d.2)
    (start count : Nat) : readTsvSlice (flushTsv corpus) start count = some ((corpus.drop start).take count) := by
  have hrows : corpus.flatMap tsvLine = (corpus.map fun d => d.1 ++ '\t' :: d.2).flatMap (· ++ ['\n']) := by
    rw [List.flatMap_map]
    rfl
  have hnewline : ∀ row ∈ corpus.map fun d => d.1 ++ '\t' :: d.2, '\n' ∉ row := by
    intro row hrow
    obtain ⟨d, hd, rfl⟩ := List.mem_map.mp hrow
    simp [(h d hd).1.idNewline, (h d hd).1.textNewline]
  have hreturn : '\r' ∉ corpus.flatMap tsvLine := by
    rw [List.mem_flatMap]
    intro hmem
    obtain ⟨d, hd, hmem⟩ := hmem
    simp [tsvLine, (h d hd).1.idReturn, (h d hd).2] at hmem
  rw [readTsvSlice, flushTsv, writeText, readText_encode, universalNewlines_of_notMem hreturn, Option.bind_some, hrows,
    lines_unlines hnewline, ← List.map_drop, ← List.map_take, List.mapM_map]
  have hparse : ∀ d ∈ (corpus.drop start).take count, (parse ∘ fun d => d.1 ++ '\t' :: d.2) d = some (id d) := fun d hd =>
    parse_line (h d (List.mem_of_mem_drop (List.mem_of_mem_take hd))).1.idTab
  rw [mapM_eq_map hparse, List.map_id]

theorem splits_asciiByte {c : Char} (hspace : isSpace c = true) (hascii : c.toNat < 0x80) : Splits (asciiByte c) := by
  have hall : ∀ n < 0x80, 9 ≤ n ∧ n ≤ 13 ∨ 28 ≤ n ∧ n ≤ 32 → Splits (Fin.ofNat 256 n) := by
    unfold Splits
    decide
  apply hall c.toNat hascii
  simp only [isSpace, Bool.or_eq_true, Bool.and_eq_true, decide_eq_true_iff, beq_iff_eq] at hspace
  omega

/-- At a space the analysis of a text comes apart. -/
theorem analyze_space {c : Char} (hspace : isSpace c = true) (hascii : c.toNat < 0x80) (front back : Text) :
    analyze (encode (front ++ c :: back)) = analyze (encode front) ++ analyze (encode back) := by
  rw [encode_append, encode_cons, encodeChar_ascii hascii, List.singleton_append, analyze,
    tokenize_split (splits_asciiByte hspace hascii), List.filterMap_append]
  rfl

/-- Every term of a word is a term of its text. -/
theorem analyze_word {text word : Text} (hspaces : PlainSpaces text) (hword : word ∈ split text) :
    analyze (encode word) ⊆ analyze (encode text) := by
  replace hword := (List.mem_filter.mp hword).1
  induction hlength : text.length using Nat.strong_induction_on generalizing text with
  | _ n ih =>
    by_cases hsolid : ∀ c ∈ text, isSpace c = false
    · rw [List.splitOnP_eq_singleton hsolid, List.mem_singleton] at hword
      rw [hword]
      exact List.Subset.refl _
    · push Not at hsolid
      obtain ⟨c, hc, hspace⟩ := hsolid
      obtain ⟨front, back, rfl⟩ := List.append_of_mem hc
      have hcspace : isSpace c = true := eq_true_of_ne_false hspace
      rw [List.splitOnP_append_cons _ _ hcspace, List.mem_append] at hword
      rw [List.length_append, List.length_cons] at hlength
      rw [analyze_space hcspace (hspaces c hc hcspace)]
      rcases hword with hword | hword
      · have hfront := ih front.length (by omega) (fun d hd => hspaces d (List.mem_append_left _ hd)) hword rfl
        exact fun term hterm => List.mem_append_left _ (hfront hterm)
      · have hback := ih back.length (by omega)
          (fun d hd => hspaces d (List.mem_append_right _ (List.mem_cons_of_mem _ hd))) hword rfl
        exact fun term hterm => List.mem_append_right _ (hback hterm)

/-- A probe matches its document exactly if it has a term. -/
theorem shares_probe {d : Text × Text} {probe : Text} (hspaces : PlainSpaces d.2) (hprobe : longestToken d.2 = some probe) :
    shares (encode probe) (encodeDocument d) = true ↔ analyze (encode probe) ≠ [] := by
  have hsub := analyze_word hspaces (List.argmax_mem hprobe)
  rw [shares, List.any_eq_true]
  constructor
  · intro hshares hnil
    obtain ⟨term, hterm, -⟩ := hshares
    rw [hnil] at hterm
    exact absurd hterm List.not_mem_nil
  · intro hne
    obtain ⟨term, hterm⟩ := List.exists_mem_of_ne_nil _ hne
    exact ⟨term, hterm, decide_eq_true (hsub hterm)⟩

/-- A word beside a no-break space is no term of its text. -/
example : longestToken ['c', 'a', 't', '\u00A0', 's', 'l', 'e', 'e', 'p', 's'] = some ['s', 'l', 'e', 'e', 'p', 's'] ∧
    shares (encode ['s', 'l', 'e', 'e', 'p', 's'])
      (encodeDocument (['7'], ['c', 'a', 't', '\u00A0', 's', 'l', 'e', 'e', 'p', 's'])) = false := by
  decide +kernel

end CascadeSearch.Nrt.Probe
