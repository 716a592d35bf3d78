import CascadeSearch.Harness.Metrics
import CascadeSearch.Lib.Fields
import CascadeSearch.Nrt.MergePolicy
import Mathlib.Analysis.SpecialFunctions.Log.Base
import Mathlib.Data.Char
import Mathlib.Data.List.Lex

/-!
# Run files (`runfile.py`)

One line for each retrieved document, best first, cut at a depth. How a score is
printed and parsed is a parameter. A file reads back as the run with each query
cut at that depth and in ranking order; a query of which nothing was kept is not
in the file.
-/
namespace CascadeSearch.Harness.RunFile

open Metrics
open Lib.Mapping Lib.Sorted Lib.TextFile Lib.Fields
open Nrt.MergePolicy (sliceTo)

variable {S : Type}

/-- `str(n)`. -/
def decimalText (n : Nat) : Text := Nat.toDigits 10 n

theorem decimalText_injective : Function.Injective decimalText := by
  intro m n h
  have hread := congrArg (Nat.ofDigitChars 10 · 0) h
  rwa [decimalText, decimalText, Nat.ofDigitChars_ten_toDigits, Nat.ofDigitChars_ten_toDigits] at hread

section Write

variable [LT S] [DecidableLT S]

/-- The keys `(score, docid)` compared. -/
def keyLt (a b : Text × S) : Prop := pairLt (· < ·) (· < ·) (a.2, a.1) (b.2, b.1)

instance : DecidableRel (keyLt (S := S)) := fun _ _ => inferInstanceAs (Decidable (pairLt _ _ _ _))

/-- `sorted(docs.items(), key=lambda kv: (kv[1], kv[0]), reverse=True)`. -/
def ranked (docs : Dict Text S) : List (Text × S) := sortedReverse keyLt docs.items

/-- `ranked[:depth]`, or all of it. -/
def truncated (depth : Option Int) (docs : List (Text × S)) : List (Text × S) :=
  match depth with
  | none => docs
  | some depth => sliceTo docs depth

def row (print : S → Text) (tag qid : Text) (rank : Nat) (doc : Text × S) : List Text :=
  [qid, ['Q', '0'], doc.1, decimalText rank, print doc.2, tag]

def rows (print : S → Text) (run : Run Text Text S) (tag : Text) (depth : Option Int) : List (List Text) :=
  run.items.flatMap fun entry =>
    ((truncated depth (ranked entry.2)).zipIdx 1).map fun doc => row print tag entry.1 doc.2 doc.1

/-- `write_run`: the bytes of the file. -/
def writeRun (print : S → Text) (run : Run Text Text S) (tag : Text) (depth : Option Int) : List Lib.Memory.Byte :=
  writeText ((rows print run tag depth).flatMap fun row => joinWords row ++ ['\n'])

end Write

section Read

variable (parse : Text → Option S)

/-- The fields of each line of a file. -/
def readFields (bytes : List Lib.Memory.Byte) : Option (List (List Text)) :=
  (readText bytes).map fun text => (fileLines text).map split

/-- The body of the loop of `read_run`; `none` is `ValueError`. -/
def readRow (run : Run Text Text S) (fields : List Text) : Option (Run Text Text S) :=
  match fields with
  | [] => some run
  | qid :: _ :: docid :: _ :: score :: _ => do
    let score ← parse score
    some (run.set qid ((run.getD qid Dict.empty).set docid score))
  | _ => none

def readRun (bytes : List Lib.Memory.Byte) : Option (Run Text Text S) := do
  let lines ← readFields bytes
  lines.foldlM (readRow parse) Dict.empty

end Read

/-- Ids and tag are words, and scores print and parse back exactly. -/
structure Printable (print : S → Text) (parse : Text → Option S) (run : Run Text Text S) (tag : Text) : Prop where
  tag : Word tag
  qids : ∀ qid ∈ run, Word qid
  docids : ∀ docs ∈ run.values, ∀ docid ∈ docs, Word docid
  scores : ∀ docs ∈ run.values, ∀ score ∈ docs.values, Word (print score) ∧ parse (print score) = some score

/-- Blank lines change nothing, and a row adds its document to the documents of its query. -/
structure ReadsRows (print : S → Text) (parse : Text → Option S)
    (step : Run Text Text S → List Text → Option (Run Text Text S))
    (add : Dict Text S → Text × S → Dict Text S) : Prop where
  blank : ∀ run, step run [] = some run
  row : ∀ run tag qid rank doc, parse (print doc.2) = some doc.2 →
    step run (row print tag qid rank doc) = some (run.set qid (add (run.getD qid Dict.empty) doc))

section Rows

variable {print : S → Text} {parse : Text → Option S} {tag : Text}
  {step : Run Text Text S → List Text → Option (Run Text Text S)}
  {add : Dict Text S → Text × S → Dict Text S}

theorem readsRows_readRow : ReadsRows print parse (readRow parse) fun docs doc => docs.set doc.1 doc.2 where
  blank _ := rfl
  row run tag qid rank doc h := by
    rw [RunFile.row, readRow, h]
    rfl

/-- The rows of one query. -/
theorem ReadsRows.foldlM_block (h : ReadsRows print parse step add) (qid : Text) {docs : List (Text × S)}
    (hparse : ∀ doc ∈ docs, parse (print doc.2) = some doc.2) (rank : Nat) (run : Run Text Text S) :
    ((docs.zipIdx rank).map fun doc => RunFile.row print tag qid doc.2 doc.1).foldlM step run =
      some (if docs.isEmpty then run else run.set qid (docs.foldl add (run.getD qid Dict.empty))) := by
  induction docs generalizing rank run with
  | nil => rfl
  | cons doc docs ih =>
    obtain ⟨hdoc, hdocs⟩ := List.forall_mem_cons.mp hparse
    rw [List.zipIdx_cons, List.map_cons, List.foldlM_cons, h.row _ _ _ _ _ hdoc]
    change List.foldlM step _ _ = _
    rw [ih hdocs, Dict.getD_set_self, Dict.set_set, List.isEmpty_cons, if_neg Bool.false_ne_true, List.foldl_cons]
    cases docs with
    | nil => rfl
    | cons _ _ => rfl

/-- What reading leaves of the blocks of a file: those that are not empty. -/
def gathered (add : Dict Text S → Text × S → Dict Text S) (blocks : List (Text × List (Text × S))) :
    List (Text × Dict Text S) :=
  (blocks.filter (!·.2.isEmpty)).map fun block => (block.1, block.2.foldl add Dict.empty)

theorem ReadsRows.foldlM_blocks (h : ReadsRows print parse step add) (tag : Text) {blocks : List (Text × List (Text × S))}
    (hparse : ∀ block ∈ blocks, ∀ doc ∈ block.2, parse (print doc.2) = some doc.2) {run : Run Text Text S}
    (hkeys : (run.keys ++ blocks.map Prod.fst).Nodup) :
    ∃ file, (blocks.flatMap fun block =>
        (block.2.zipIdx 1).map fun doc => RunFile.row print tag block.1 doc.2 doc.1).foldlM step run = some file ∧
      file.items = run.items ++ gathered add blocks := by
  induction blocks generalizing run with
  | nil => exact ⟨run, rfl, (List.append_nil _).symm⟩
  | cons block blocks ih =>
    obtain ⟨hblock, hblocks⟩ := List.forall_mem_cons.mp hparse
    have hnew : block.1 ∉ run := Dict.notMem_of_nodup hkeys
    rw [List.flatMap_cons, List.foldlM_append, h.foldlM_block block.1 hblock, Dict.getD_of_not_mem hnew]
    change ∃ file, List.foldlM step _ _ = _ ∧ _
    cases hempty : block.2.isEmpty with
    | true =>
      rw [if_pos rfl, gathered, List.filter_cons_of_neg (by simp [hempty])]
      exact ih hblocks (hkeys.sublist ((List.sublist_cons_self _ _).append_left _))
    | false =>
      rw [if_neg Bool.false_ne_true, gathered, List.filter_cons_of_pos (by simp [hempty])]
      have hitems := Dict.items_set_of_new (v := block.2.foldl add Dict.empty) hnew
      obtain ⟨file, hfile, hread⟩ := ih hblocks (Dict.nodup_keys_set hkeys _)
      refine ⟨file, hfile, ?_⟩
      rw [hread, Dict.items_set_of_new hnew, List.append_assoc]
      rfl

end Rows

theorem truncated_eq_take (depth : Option Int) (docs : List (Text × S)) : ∃ n, truncated depth docs = docs.take n := by
  cases depth with
  | none => exact ⟨docs.length, List.take_length.symm⟩
  | some depth =>
    rw [truncated, sliceTo]
    split
    · exact ⟨_, rfl⟩
    · exact ⟨_, rfl⟩

/-- As deep as the file, cutting the ranking at the depth of the file changes nothing. -/
theorem take_truncated {k : Nat} (h : ∀ d ∈ depth, (k : Int) ≤ d) (docs : List (Text × S)) :
    (truncated depth docs).take k = docs.take k := by
  cases depth with
  | none => rfl
  | some depth =>
    have hk := h depth rfl
    rw [truncated, sliceTo, if_pos (by omega), List.take_take, min_eq_left (by omega)]

section ReadBack

variable [LT S] [DecidableLT S] {print : S → Text} {parse : Text → Option S} {run : Run Text Text S} {tag : Text}
  {depth : Option Int}

theorem word_decimalText (n : Nat) : Word (decimalText n) where
  nonempty := Nat.toDigits_ne_nil
  solid _ hc := isSpace_of_isDigit (Nat.isDigit_of_mem_toDigits (by decide) (by decide) hc)

theorem word_q0 : Word ['Q', '0'] where
  nonempty := List.cons_ne_nil _ _
  solid := by simp [isSpace]

theorem mem_of_mem_truncated {docs : Dict Text S} {doc : Text × S} (h : doc ∈ truncated depth (ranked docs)) :
    doc ∈ docs.items := by
  obtain ⟨n, hn⟩ := truncated_eq_take depth (ranked docs)
  rw [hn] at h
  exact sortedReverse_perm.mem_iff.mp (List.mem_of_mem_take h)

/-- The documents of each query as they are written. -/
def blocks (run : Run Text Text S) (depth : Option Int) : List (Text × List (Text × S)) :=
  run.items.map fun entry => (entry.1, truncated depth (ranked entry.2))

theorem Printable.word_of_mem_rows (h : Printable print parse run tag) :
    ∀ row ∈ rows print run tag depth, ∀ word ∈ row, Word word := by
  intro row hrow word hword
  obtain ⟨⟨qid, docs⟩, hentry, hrow⟩ := List.mem_flatMap.mp hrow
  obtain ⟨⟨doc, rank⟩, hdoc, rfl⟩ := List.mem_map.mp hrow
  have hmem := mem_of_mem_truncated (List.fst_mem_of_mem_zipIdx hdoc)
  have hdocs : docs ∈ run.values := List.mem_map_of_mem hentry
  simp only [RunFile.row, List.mem_cons, List.not_mem_nil, or_false] at hword
  rcases hword with rfl | rfl | rfl | rfl | rfl | rfl
  · exact h.qids _ (Dict.mem_iff.mpr ⟨docs, hentry⟩)
  · exact word_q0
  · exact h.docids docs hdocs _ (Dict.mem_iff.mpr ⟨doc.2, hmem⟩)
  · exact word_decimalText _
  · exact (h.scores docs hdocs _ (List.mem_map_of_mem hmem)).1
  · exact h.tag

theorem Printable.readFields (h : Printable print parse run tag) :
    readFields (writeRun print run tag depth) = some (rows print run tag depth ++ [[]]) :=
  fields_of_file h.word_of_mem_rows

/-- Every reader of rows gathers the blocks that were written. -/
theorem Printable.foldlM_written (h : Printable print parse run tag)
    {step : Run Text Text S → List Text → Option (Run Text Text S)} {add : Dict Text S → Text × S → Dict Text S}
    (hreads : ReadsRows print parse step add) (depth : Option Int) :
    ∃ file, (RunFile.readFields (writeRun print run tag depth)).bind (·.foldlM step Dict.empty) = some file ∧
      file.items = gathered add (blocks run depth) := by
  have hparse : ∀ block ∈ blocks run depth, ∀ doc ∈ block.2, parse (print doc.2) = some doc.2 := by
    intro block hblock doc hdoc
    obtain ⟨entry, hentry, rfl⟩ := List.mem_map.mp hblock
    exact (h.scores entry.2 (List.mem_map_of_mem hentry) _ (List.mem_map_of_mem (mem_of_mem_truncated hdoc))).2
  have hkeys : ((Dict.empty : Run Text Text S).keys ++ (blocks run depth).map Prod.fst).Nodup := by
    rw [blocks, List.map_map]
    exact run.nodup
  obtain ⟨file, hfile, hitems⟩ := hreads.foldlM_blocks tag hparse hkeys
  refine ⟨file, ?_, hitems⟩
  rw [blocks, List.flatMap_map] at hfile
  rw [h.readFields, Option.bind_some, List.foldlM_append, rows, hfile]
  change List.foldlM step file [[]] = some file
  rw [List.foldlM_cons, hreads.blank]
  rfl

/-- The documents of a query as the file keeps them. -/
def cut (depth : Option Int) (docs : Dict Text S) : Dict Text S := Dict.ofList (truncated depth (ranked docs))

theorem items_cut (depth : Option Int) (docs : Dict Text S) : (cut depth docs).items = truncated depth (ranked docs) := by
  refine Dict.items_ofList ?_
  obtain ⟨n, hn⟩ := truncated_eq_take depth (ranked docs)
  have hnodup : ((ranked docs).map Prod.fst).Nodup := (sortedReverse_perm.map Prod.fst).nodup_iff.mpr docs.nodup
  rw [hn]
  exact hnodup.sublist ((List.take_sublist n _).map Prod.fst)

theorem gathered_blocks : gathered (fun docs doc => docs.set doc.1 doc.2) (blocks run depth) =
    (run.items.filter fun entry => !(cut depth entry.2).items.isEmpty).map fun entry => (entry.1, cut depth entry.2) := by
  rw [gathered, blocks, List.filter_map, List.map_map]
  simp only [items_cut]
  rfl

theorem readRun_writeRun (h : Printable print parse run tag) (depth : Option Int) :
    ∃ file, readRun parse (writeRun print run tag depth) = some file ∧
      file.items = (run.items.filter fun entry => !(cut depth entry.2).items.isEmpty).map fun entry =>
        (entry.1, cut depth entry.2) := by
  obtain ⟨file, hfile, hitems⟩ := h.foldlM_written readsRows_readRow depth
  exact ⟨file, hfile, hitems.trans gathered_blocks⟩

/-- Looked up in the file, a query has its documents cut; it has none if it is not there. -/
theorem getD_of_items {file : Run Text Text S}
    (h : file.items = (run.items.filter fun entry => !(cut depth entry.2).items.isEmpty).map fun entry =>
      (entry.1, cut depth entry.2)) (qid : Text) :
    file.getD qid Dict.empty = cut depth (run.getD qid Dict.empty) := by
  have hmem : ∀ {docs}, (qid, docs) ∈ file.items ↔
      ∃ docs', (qid, docs') ∈ run.items ∧ (cut depth docs').items.isEmpty = false ∧ cut depth docs' = docs := by
    intro docs
    simp [h, and_assoc]
  by_cases hqid : qid ∈ run
  · obtain ⟨docs, hdocs⟩ := Dict.mem_iff.mp hqid
    rw [Dict.getD_of_mem hdocs]
    cases hempty : (cut depth docs).items.isEmpty with
    | false => exact Dict.getD_of_mem (hmem.mpr ⟨docs, hdocs, hempty, rfl⟩) _
    | true =>
      have hnot : qid ∉ file := by
        rw [Dict.mem_iff]
        rintro ⟨docs', hdocs'⟩
        obtain ⟨docs'', hdocs'', hsome, -⟩ := hmem.mp hdocs'
        rw [← Dict.getD_of_mem hdocs'' Dict.empty, Dict.getD_of_mem hdocs, hempty] at hsome
        cases hsome
      rw [Dict.getD_of_not_mem hnot]
      exact Dict.ext (List.isEmpty_iff.mp hempty).symm
  · have hnot : qid ∉ file := by
      rw [Dict.mem_iff]
      rintro ⟨docs, hdocs⟩
      obtain ⟨docs', hdocs', -⟩ := hmem.mp hdocs
      exact hqid (Dict.mem_iff.mpr ⟨docs', hdocs'⟩)
    rw [Dict.getD_of_not_mem hnot, Dict.getD_of_not_mem hqid]
    refine Dict.ext ?_
    obtain ⟨n, hn⟩ := truncated_eq_take depth (ranked (Dict.empty : Dict Text S))
    rw [items_cut, hn]
    exact List.take_nil.symm

variable [IsStrictWeakOrder S (· < ·)]

instance keyWeakOrder : IsStrictWeakOrder (Text × S) keyLt :=
  inferInstanceAs (IsStrictWeakOrder (Text × S) (Function.onFun (pairLt (· < ·) (· < ·)) fun doc => (doc.2, doc.1)))

theorem ranked_cut (depth : Option Int) (docs : Dict Text S) : ranked (cut depth docs) = truncated depth (ranked docs) := by
  obtain ⟨n, hn⟩ := truncated_eq_take depth (ranked docs)
  rw [ranked, items_cut, hn]
  exact sortedReverse_take n

variable [Neg S]

omit [DecidableLT S] [IsStrictWeakOrder S (· < ·)] in
/-- The key of the metrics orders as the key of the writer does, the other way round. -/
theorem ranksLt_iff_keyLt (hneg : ∀ a b : S, -a < -b ↔ b < a) (a b : Text × S) : ranksLt a b ↔ keyLt b a := by
  rw [ranksLt, keyLt, pairLt, pairLt, hneg, hneg]
  rfl

theorem take_rankedDocids_cut (hneg : ∀ a b : S, -a < -b ↔ b < a) {k : Nat} (h : ∀ d ∈ depth, (k : Int) ≤ d)
    (docs : Dict Text S) : (rankedDocids (cut depth docs)).take k = (rankedDocids docs).take k := by
  have hranked : ∀ docs : Dict Text S, rankedDocids docs = (ranked docs).map Prod.fst := fun docs => by
    rw [rankedDocids, sorted_eq_sortedReverse (ranksLt_iff_keyLt hneg)]
    rfl
  rw [hranked, hranked, ranked_cut, ← List.map_take, ← List.map_take, take_truncated h]

/-- A file that is deep enough has the metrics of the run, for every judged query. -/
theorem metrics_readRun {R : Type*} [Zero R] [One R] [Add R] [Div R] [IntCast R] [NatCast R] [DecidableEq R]
    (log2 : Nat → R) (hneg : ∀ a b : S, -a < -b ↔ b < a) (h : Printable print parse run tag) (depth : Option Int) :
    ∃ file, readRun parse (writeRun print run tag depth) = some file ∧
      ∀ (qrels : Qrels Text Text) (relThreshold : Int) (k : Nat), (∀ d ∈ depth, (k : Int) ≤ d) →
        ndcgAtK log2 qrels file k = ndcgAtK log2 qrels run k ∧
        (mrrAtK qrels file k relThreshold : Dict Text R) = mrrAtK qrels run k relThreshold ∧
        (recallAtK qrels file k relThreshold : Dict Text R) = recallAtK qrels run k relThreshold := by
  obtain ⟨file, hfile, hitems⟩ := readRun_writeRun h depth
  refine ⟨file, hfile, fun qrels relThreshold k hk => ?_⟩
  have htake : ∀ qid, (rankedDocids (file.getD qid Dict.empty)).take k =
      (rankedDocids (run.getD qid Dict.empty)).take k := fun qid => by
    rw [getD_of_items hitems, take_rankedDocids_cut hneg hk]
  refine ⟨?_, ?_, ?_⟩
  · simp only [ndcgAtK, ndcgOf, htake]
  · simp only [mrrAtK, mrrOf, htake]
  · simp only [recallAtK, recallOf, htake]

end ReadBack

/-- `str(score)` and `float(text)` on whole scores from 0 to below the exponents. -/
def printWhole (score : Int) : Text := decimalText score.toNat ++ ['.', '0']

def parseWhole (text : Text) : Option Int :=
  match text.reverse with
  | '0' :: '.' :: digits => if digits.all Char.isDigit then some (Nat.ofDigitChars 10 digits.reverse 0) else none
  | _ => none

/-- Two documents with equal scores. -/
def tied : Run Text Text Int := ⟨[(['q'], ⟨[(['a'], 2), (['b'], 2)], by decide⟩)], by decide⟩

theorem printable_tied : Printable printWhole parseWhole tied ['t'] where
  tag := by decide
  qids := by decide
  docids := by decide
  scores := by decide

/-- Of two equal scores the file keeps the one that the metrics rank first. -/
theorem metrics_readRun_tied :
    (∀ a b : Int, -a < -b ↔ b < a) ∧ Printable printWhole parseWhole tied ['t'] ∧
      ∃ file, readRun parseWhole (writeRun printWhole tied ['t'] (some 1)) = some file ∧
        ∀ qrels : Qrels Text Text, ndcgAtK (fun n => Real.logb 2 n) qrels file 1 =
          ndcgAtK (fun n => Real.logb 2 n) qrels tied 1 := by
  have hneg : ∀ a b : Int, -a < -b ↔ b < a := fun a b => neg_lt_neg_iff
  obtain ⟨file, hfile, hmetrics⟩ := metrics_readRun (R := ℝ) (fun n => Real.logb 2 n) hneg printable_tied (some 1)
  exact ⟨hneg, printable_tied, file, hfile, fun qrels => (hmetrics qrels 1 1 (by decide)).1⟩

end CascadeSearch.Harness.RunFile
