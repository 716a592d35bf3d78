import CascadeSearch.Harness.RunFile
import CascadeSearch.Lib.Fallible
import CascadeSearch.Lib.Json
import Mathlib.Data.List.Dedup
import Mathlib.Data.Finset.Card

/-!
# The passage subset (`subset.py`)

Every judged document and a random fill. The corpus is streamed once: the files
list what was selected in corpus order, and a selected docid that the corpus
does not have is noticed at the end.
-/
namespace CascadeSearch.Dense.Subset

open Lib.Fields Lib.Json Lib.Mapping Lib.TextFile
open Lib.Fallible (mapM_eq_map exists_of_mapM)
open Harness.Metrics (Qrels)
open Harness.RunFile (decimalText)

/-- `int(text)` of decimal digits. -/
def parseInt (text : Text) : Option Nat :=
  if text ≠ [] ∧ text.all Char.isDigit = true then some (Nat.ofDigitChars 10 text 0) else none

/-- `qrels_docid_union`, of the qrels of the query sets. -/
def qrelsDocidUnion (sets : List (Qrels Text Text)) : Option (Finset Nat) :=
  ((sets.flatMap fun qrels => qrels.values.flatMap Dict.keys).mapM parseInt).map List.toFinset

inductive SelectError where
  | exceeds (judged subsetSize : Nat)
  | population

/-- `np.setdiff1d` of the row numbers and the judged docids. -/
def candidatePool (qrelsIds : Finset Nat) (totalDocs : Nat) : List Nat := (List.range totalDocs).filter (· ∉ qrelsIds)

/-- `select_subset_ids`; `choice` is the seeded generator's, without replacement. -/
def selectSubsetIds (choice : List Nat → Nat → Option (List Nat)) (qrelsIds : Finset Nat) (totalDocs subsetSize : Nat) :
    Except SelectError (Finset Nat) :=
  if subsetSize < qrelsIds.card then .error (.exceeds qrelsIds.card subsetSize)
  else
    match choice (candidatePool qrelsIds totalDocs) (subsetSize - qrelsIds.card) with
    | none => .error .population
    | some fill => .ok (qrelsIds ∪ fill.toFinset)

inductive WriteError where
  | notInteger (docid : Text)
  | unseen (written selected : Nat)

/-- The two files and the count. -/
structure Written where
  jsonl : Text
  docids : Text
  written : Nat

def Written.empty : Written := ⟨[], [], 0⟩

def docidKey : Text := ['d', 'o', 'c', 'i', 'd']

def textKey : Text := ['t', 'e', 'x', 't']

/-- `json.dumps({"docid": docid, "text": text})`. -/
def jsonLine (row : Text × Text) : Text := dumpObject [(docidKey, row.1), (textKey, row.2)]

def Written.add (w : Written) (row : Text × Text) : Written where
  jsonl := w.jsonl ++ (jsonLine row ++ ['\n'])
  docids := w.docids ++ (row.1 ++ ['\n'])
  written := w.written + 1

/-- One document of the stream. -/
def writeRow (subsetIds : Finset Nat) (w : Written) (row : Text × Text) : Except WriteError Written :=
  match parseInt row.1 with
  | none => .error (.notInteger row.1)
  | some docid => .ok (if docid ∈ subsetIds then w.add row else w)

/-- `write_subset`, with the rows of `iter_docs`. -/
def writeSubset (subsetIds : Finset Nat) (rows : List (Text × Text)) : Except WriteError Written :=
  (rows.foldlM (writeRow subsetIds) Written.empty).bind fun w =>
    if w.written = subsetIds.card then .ok w else .error (.unseen w.written subsetIds.card)

/-- One line of the file in `load_subset_texts`: the text and the docid. -/
def loadRow (line : Text) : Option (Text × Nat) :=
  (loadObject line).bind fun members =>
    let row := Dict.ofList members
    (row.get? docidKey).bind fun docid => (parseInt docid).bind fun docid => (row.get? textKey).map fun text => (text, docid)

/-- `load_subset_texts`. -/
def loadSubsetTexts (file : List Lib.Memory.Byte) : Option (List Text × List Nat) :=
  ((readText file).bind fun text => (lines text).mapM loadRow).map List.unzip

/-- The docids of the corpus are its row numbers. -/
def Sequential (rows : List (Text × Text)) : Prop := ∀ i row, rows[i]? = some row → row.1 = decimalText i

theorem parseInt_decimalText (n : Nat) : parseInt (decimalText n) = some n := by
  have hdigits : (decimalText n).all Char.isDigit = true :=
    List.all_eq_true.mpr fun c hc => Nat.isDigit_of_mem_toDigits (by decide) (by decide) hc
  rw [parseInt, if_pos ⟨Nat.toDigits_ne_nil, hdigits⟩, decimalText, Nat.ofDigitChars_ten_toDigits]

theorem Sequential.docids {rows : List (Text × Text)} (h : Sequential rows) :
    rows.map Prod.fst = (List.range rows.length).map decimalText := by
  refine List.ext_getElem? fun i => ?_
  rw [List.getElem?_map, List.getElem?_map]
  cases hrow : rows[i]? with
  | none => rw [List.getElem?_eq_none (by rw [List.length_range]; exact List.getElem?_eq_none_iff.mp hrow)]; rfl
  | some row =>
    rw [List.getElem?_range (List.getElem?_eq_some_iff.mp hrow).1]
    exact congrArg some (h i row hrow)

/-- The rows of a docid among the selected. -/
def selectedRows (subsetIds : Finset Nat) (rows : List (Text × Text)) : List (Text × Text) :=
  rows.filter fun row => (parseInt row.1).any (· ∈ subsetIds)

theorem foldlM_writeRow (subsetIds : Finset Nat) {rows : List (Text × Text)} (h : ∀ row ∈ rows, (parseInt row.1).isSome)
    (w : Written) : rows.foldlM (writeRow subsetIds) w = .ok ((selectedRows subsetIds rows).foldl Written.add w) := by
  induction rows generalizing w with
  | nil => rfl
  | cons row rows ih =>
    obtain ⟨hrow, hrows⟩ := List.forall_mem_cons.mp h
    obtain ⟨docid, hdocid⟩ := Option.isSome_iff_exists.mp hrow
    rw [List.foldlM_cons, writeRow, hdocid, selectedRows, List.filter_cons, hdocid, Option.any_some]
    by_cases hmem : docid ∈ subsetIds
    · simp only [hmem, decide_true, if_true, List.foldl_cons]
      exact ih hrows _
    · simp only [hmem, decide_false, if_false, Bool.false_eq_true]
      exact ih hrows _

theorem foldl_add (rows : List (Text × Text)) (w : Written) :
    rows.foldl Written.add w = {
      jsonl := w.jsonl ++ (rows.map jsonLine).flatMap (· ++ ['\n'])
      docids := w.docids ++ (rows.map Prod.fst).flatMap (· ++ ['\n'])
      written := w.written + rows.length } := by
  induction rows generalizing w with
  | nil => simp
  | cons row rows ih =>
    rw [List.foldl_cons, ih]
    simp [Written.add, Nat.add_assoc, Nat.add_comm 1]

/-- The selected docids of a corpus of `total` documents, in its order. -/
def keptDocids (subsetIds : Finset Nat) (total : Nat) : List Nat := (List.range total).filter (· ∈ subsetIds)

theorem mem_keptDocids {subsetIds : Finset Nat} {total docid : Nat} :
    docid ∈ keptDocids subsetIds total ↔ docid < total ∧ docid ∈ subsetIds := by
  rw [keptDocids, List.mem_filter, List.mem_range, decide_eq_true_iff]

theorem toFinset_keptDocids (subsetIds : Finset Nat) (total : Nat) :
    (keptDocids subsetIds total).toFinset = subsetIds ∩ Finset.range total := by
  ext docid
  rw [List.mem_toFinset, mem_keptDocids, Finset.mem_inter, Finset.mem_range, and_comm]

theorem length_keptDocids (subsetIds : Finset Nat) (total : Nat) :
    (keptDocids subsetIds total).length = (subsetIds ∩ Finset.range total).card := by
  have hnodup : (keptDocids subsetIds total).Nodup := List.nodup_range.filter _
  rw [← toFinset_keptDocids, List.toFinset_card_of_nodup hnodup]

/-- The row of a docid. -/
def rowAt (rows : List (Text × Text)) (docid : Nat) : Text × Text := rows.getD docid ([], [])

theorem Sequential.rowAt {rows : List (Text × Text)} (h : Sequential rows) {docid : Nat} (hlt : docid < rows.length) :
    rows[docid]? = some (rowAt rows docid) ∧ (rowAt rows docid).1 = decimalText docid := by
  have hrow : rows[docid]? = some (Subset.rowAt rows docid) := by
    rw [Subset.rowAt, List.getD_eq_getElem?_getD, List.getElem?_eq_getElem hlt, Option.getD_some]
  exact ⟨hrow, h docid _ hrow⟩

/-- The selected rows are those of the selected docids. -/
theorem selectedRows_eq (subsetIds : Finset Nat) {rows : List (Text × Text)} (h : Sequential rows) :
    selectedRows subsetIds rows = (keptDocids subsetIds rows.length).map (rowAt rows) := by
  have hrows : rows = (List.range rows.length).map (rowAt rows) := by
    refine List.ext_getElem (by rw [List.length_map, List.length_range]) fun i hi hi' => ?_
    rw [List.getElem_map, List.getElem_range, rowAt, List.getD_eq_getElem?_getD, List.getElem?_eq_getElem hi,
      Option.getD_some]
  have hfilter : selectedRows subsetIds rows = ((List.range rows.length).map (rowAt rows)).filter fun row =>
      (parseInt row.1).any (· ∈ subsetIds) := by
    rw [← hrows]
    rfl
  rw [hfilter, List.filter_map, keptDocids]
  refine congrArg _ (List.filter_congr fun docid hdocid => ?_)
  rw [Function.comp_apply, (h.rowAt (List.mem_range.mp hdocid)).2, parseInt_decimalText, Option.any_some]

/-- What the pass has written when the corpus ends. -/
def streamed (subsetIds : Finset Nat) (rows : List (Text × Text)) : Written :=
  (selectedRows subsetIds rows).foldl Written.add Written.empty

theorem writeSubset_eq (subsetIds : Finset Nat) {rows : List (Text × Text)} (h : Sequential rows) :
    writeSubset subsetIds rows =
      if subsetIds ⊆ Finset.range rows.length then .ok (streamed subsetIds rows)
      else .error (.unseen (subsetIds ∩ Finset.range rows.length).card subsetIds.card) := by
  have hparse : ∀ row ∈ rows, (parseInt row.1).isSome := by
    intro row hrow
    obtain ⟨i, hi⟩ := List.mem_iff_getElem?.mp hrow
    rw [h i row hi, parseInt_decimalText]
    rfl
  have hwritten : (streamed subsetIds rows).written = (subsetIds ∩ Finset.range rows.length).card := by
    rw [streamed, foldl_add, selectedRows_eq subsetIds h, List.length_map, length_keptDocids]
    exact Nat.zero_add _
  have hall : (subsetIds ∩ Finset.range rows.length).card = subsetIds.card ↔ subsetIds ⊆ Finset.range rows.length := by
    refine ⟨fun hcard => ?_, fun hsubset => congrArg _ (Finset.inter_eq_left.mpr hsubset)⟩
    exact Finset.inter_eq_left.mp (Finset.eq_of_subset_of_card_le Finset.inter_subset_left (Nat.le_of_eq hcard.symm))
  rw [writeSubset, foldlM_writeRow subsetIds hparse, ← streamed]
  change (if (streamed subsetIds rows).written = subsetIds.card then _ else _) = _
  rw [hwritten]
  simp only [hall]

theorem loadRow_jsonLine {row : Text × Text} {docid : Nat} (h : row.1 = decimalText docid) :
    loadRow (jsonLine row) = some (row.2, docid) := by
  have hload := loadObject_dumpObject [(docidKey, row.1), (textKey, row.2)] (fun c hc => absurd hc List.not_mem_nil)
  rw [List.append_nil] at hload
  have hne : docidKey ≠ textKey := by decide
  rw [loadRow, jsonLine, hload, Option.bind_some]
  change (((Dict.empty.set docidKey row.1).set textKey row.2).get? docidKey).bind _ = _
  rw [Dict.get?_set_of_ne hne, Dict.get?_set_self, Option.bind_some, h, parseInt_decimalText, Option.bind_some]
  change (((Dict.empty.set docidKey row.1).set textKey row.2).get? textKey).map _ = _
  rw [Dict.get?_set_self, Option.map_some]

/-- A file of plain lines is read as it was written. -/
theorem lines_written {rows : List Text} (h : ∀ row ∈ rows, ∀ c ∈ row, IsPlain c) :
    (readText (writeText (rows.flatMap (· ++ ['\n'])))).map lines = some rows := by
  have hnone : ∀ c, ¬ IsPlain c → ∀ row ∈ rows, c ∉ row := fun c hc row hrow hmem => hc (h row hrow c hmem)
  have hreturn : '\r' ∉ rows.flatMap (· ++ ['\n']) := by
    rw [List.mem_flatMap]
    rintro ⟨row, hrow, hmem⟩
    rcases List.mem_append.mp hmem with hmem | hmem
    · exact hnone '\r' (fun hplain => absurd hplain.1 (by decide)) row hrow hmem
    · exact absurd hmem (by decide)
  rw [writeText, readText_encode, universalNewlines_of_notMem hreturn, Option.map_some,
    lines_unlines (hnone '\n' fun hplain => absurd hplain.1 (by decide))]

theorem loadSubsetTexts_streamed (subsetIds : Finset Nat) {rows : List (Text × Text)} (h : Sequential rows) :
    loadSubsetTexts (writeText (streamed subsetIds rows).jsonl) =
      some ((keptDocids subsetIds rows.length).map fun docid => (rowAt rows docid).2, keptDocids subsetIds rows.length) := by
  have hjsonl : (streamed subsetIds rows).jsonl =
      ((keptDocids subsetIds rows.length).map (jsonLine ∘ rowAt rows)).flatMap (· ++ ['\n']) := by
    rw [streamed, foldl_add, selectedRows_eq subsetIds h, List.map_map]
    exact List.nil_append _
  have hplain : ∀ line ∈ (keptDocids subsetIds rows.length).map (jsonLine ∘ rowAt rows), ∀ c ∈ line, IsPlain c := by
    intro line hline
    obtain ⟨docid, -, rfl⟩ := List.mem_map.mp hline
    exact isPlain_dumpObject _
  have hload : ∀ docid ∈ keptDocids subsetIds rows.length,
      (loadRow ∘ jsonLine ∘ rowAt rows) docid = some ((rowAt rows docid).2, docid) := fun docid hdocid =>
    loadRow_jsonLine (h.rowAt (mem_keptDocids.mp hdocid).1).2
  have hlines := lines_written hplain
  rw [Option.map_eq_some_iff] at hlines
  obtain ⟨text, htext, hlines⟩ := hlines
  rw [loadSubsetTexts, hjsonl, htext, Option.bind_some, hlines, List.mapM_map, mapM_eq_map hload, Option.map_some,
    List.unzip_eq_map, List.map_map, List.map_map]
  exact congrArg (fun docids => some (_, docids)) (List.map_id _)

theorem docids_streamed (subsetIds : Finset Nat) {rows : List (Text × Text)} (h : Sequential rows) :
    (readText (writeText (streamed subsetIds rows).docids)).map lines =
      some ((keptDocids subsetIds rows.length).map decimalText) := by
  have hdocids : (streamed subsetIds rows).docids =
      ((keptDocids subsetIds rows.length).map decimalText).flatMap (· ++ ['\n']) := by
    rw [streamed, foldl_add, selectedRows_eq subsetIds h]
    refine (List.nil_append _).trans (congrArg _ (List.map_map.trans (List.map_congr_left fun docid hdocid => ?_)))
    exact (h.rowAt (mem_keptDocids.mp hdocid).1).2
  rw [hdocids]
  refine lines_written fun line hline => ?_
  obtain ⟨docid, -, rfl⟩ := List.mem_map.mp hline
  intro c hc
  have hdigit := Nat.isDigit_of_mem_toDigits (by decide) (by decide) hc
  simp only [Char.isDigit, Bool.and_eq_true, decide_eq_true_iff] at hdigit
  have hlow := UInt32.le_iff_toNat_le.mp hdigit.1
  have hhigh := UInt32.le_iff_toNat_le.mp hdigit.2
  exact ⟨Nat.le_trans (by decide) hlow, Nat.le_trans hhigh (by decide)⟩

/-- A sample without replacement: `none` for one larger than the population. -/
structure Draws (choice : List Nat → Nat → Option (List Nat)) : Prop where
  draws : ∀ pool size, pool.Nodup → size ≤ pool.length →
    ∃ fill, choice pool size = some fill ∧ fill.length = size ∧ fill.Nodup ∧ ∀ docid ∈ fill, docid ∈ pool
  refuses : ∀ pool size, pool.length < size → choice pool size = none

theorem toFinset_candidatePool (qrelsIds : Finset Nat) (totalDocs : Nat) :
    (candidatePool qrelsIds totalDocs).toFinset = Finset.range totalDocs \ qrelsIds := by
  ext docid
  simp [candidatePool]

theorem length_candidatePool (qrelsIds : Finset Nat) (totalDocs : Nat) :
    qrelsIds.card + (candidatePool qrelsIds totalDocs).length = (qrelsIds ∪ Finset.range totalDocs).card := by
  have hnodup : (candidatePool qrelsIds totalDocs).Nodup := List.nodup_range.filter _
  rw [← List.toFinset_card_of_nodup hnodup, toFinset_candidatePool, Nat.add_comm, Finset.card_sdiff_add_card,
    Finset.union_comm]

/-- The judged docids and as many others as are missing. -/
structure Selected (qrelsIds : Finset Nat) (totalDocs subsetSize : Nat) (ids : Finset Nat) : Prop where
  judged : qrelsIds ⊆ ids
  size : ids.card = subsetSize
  known : ids ⊆ qrelsIds ∪ Finset.range totalDocs

theorem selectSubsetIds_cases {choice : List Nat → Nat → Option (List Nat)} (h : Draws choice) (qrelsIds : Finset Nat)
    (totalDocs subsetSize : Nat) :
    subsetSize < qrelsIds.card ∧
      selectSubsetIds choice qrelsIds totalDocs subsetSize = .error (.exceeds qrelsIds.card subsetSize) ∨
    qrelsIds.card ≤ subsetSize ∧ (qrelsIds ∪ Finset.range totalDocs).card < subsetSize ∧
      selectSubsetIds choice qrelsIds totalDocs subsetSize = .error .population ∨
    qrelsIds.card ≤ subsetSize ∧ subsetSize ≤ (qrelsIds ∪ Finset.range totalDocs).card ∧
      ∃ ids, selectSubsetIds choice qrelsIds totalDocs subsetSize = .ok ids ∧ Selected qrelsIds totalDocs subsetSize ids := by
  have hpool := length_candidatePool qrelsIds totalDocs
  have hpoolNodup : (candidatePool qrelsIds totalDocs).Nodup := List.nodup_range.filter _
  rw [selectSubsetIds]
  rcases Nat.lt_or_ge subsetSize qrelsIds.card with hexceeds | hjudged
  · exact Or.inl ⟨hexceeds, if_pos hexceeds⟩
  rw [if_neg (Nat.not_lt.mpr hjudged)]
  rcases Nat.lt_or_ge (candidatePool qrelsIds totalDocs).length (subsetSize - qrelsIds.card) with hfew | henough
  · refine Or.inr (Or.inl ⟨hjudged, by omega, ?_⟩)
    rw [h.refuses _ _ hfew]
  · obtain ⟨fill, hfill, hlength, hnodup, hmem⟩ := h.draws _ _ hpoolNodup henough
    have hfresh : fill.toFinset ⊆ Finset.range totalDocs \ qrelsIds := by
      rw [← toFinset_candidatePool]
      exact fun docid hdocid => List.mem_toFinset.mpr (hmem docid (List.mem_toFinset.mp hdocid))
    have hdisjoint : Disjoint qrelsIds fill.toFinset :=
      Finset.disjoint_of_subset_right hfresh Finset.disjoint_sdiff
    refine Or.inr (Or.inr ⟨hjudged, by omega, qrelsIds ∪ fill.toFinset, ?_, ?_⟩)
    · rw [hfill]
    · refine ⟨Finset.subset_union_left, ?_, Finset.union_subset_union_right (hfresh.trans Finset.sdiff_subset)⟩
      rw [Finset.card_union_of_disjoint hdisjoint, List.toFinset_card_of_nodup hnodup, hlength]
      omega

theorem mem_qrelsDocidUnion {sets : List (Qrels Text Text)} {qrelsIds : Finset Nat} (h : qrelsDocidUnion sets = some qrelsIds)
    {qrels : Qrels Text Text} (hqrels : qrels ∈ sets) {judgments : Dict Text Int} (hjudgments : judgments ∈ qrels.values)
    {docid : Text} (hdocid : docid ∈ judgments) : ∃ id ∈ qrelsIds, parseInt docid = some id := by
  obtain ⟨ids, hids, rfl⟩ := Option.map_eq_some_iff.mp h
  have hmem : docid ∈ sets.flatMap fun qrels => qrels.values.flatMap Dict.keys :=
    List.mem_flatMap.mpr ⟨qrels, hqrels, List.mem_flatMap.mpr ⟨judgments, hjudgments, hdocid⟩⟩
  obtain ⟨id, hid, hparse⟩ := exists_of_mapM hids hmem
  exact ⟨id, List.mem_toFinset.mpr hid, hparse⟩

/-- What the files read back as. -/
structure SubsetFiles (ids : Finset Nat) (rows : List (Text × Text)) (w : Written) (texts : List Text)
    (docids : List Nat) : Prop where
  loads : loadSubsetTexts (writeText w.jsonl) = some (texts, docids)
  listed : (readText (writeText w.docids)).map lines = some (docids.map decimalText)
  ascending : docids.Pairwise (· < ·)
  whole : docids.toFinset = ids
  aligned : List.Forall₂ (fun docid text => rows[docid]? = some (decimalText docid, text)) docids texts

theorem subsetFiles_streamed {ids : Finset Nat} {rows : List (Text × Text)} (h : Sequential rows)
    (hknown : ids ⊆ Finset.range rows.length) :
    SubsetFiles ids rows (streamed ids rows) ((keptDocids ids rows.length).map fun docid => (rowAt rows docid).2)
      (keptDocids ids rows.length) where
  loads := loadSubsetTexts_streamed ids h
  listed := docids_streamed ids h
  ascending := List.pairwise_lt_range.filter _
  whole := (toFinset_keptDocids ids rows.length).trans (Finset.inter_eq_left.mpr hknown)
  aligned := by
    rw [List.forall₂_map_right_iff, List.forall₂_same]
    intro docid hdocid
    obtain ⟨hrow, hid⟩ := h.rowAt (mem_keptDocids.mp hdocid).1
    rw [hrow, ← hid]

/-- What is selected is in the corpus if what is judged is. -/
theorem Selected.subset_range_iff {qrelsIds ids : Finset Nat} {totalDocs subsetSize : Nat}
    (h : Selected qrelsIds totalDocs subsetSize ids) :
    ids ⊆ Finset.range totalDocs ↔ ∀ docid ∈ qrelsIds, docid < totalDocs := by
  refine ⟨fun hsubset docid hdocid => Finset.mem_range.mp (hsubset (h.judged hdocid)), fun hjudged => ?_⟩
  exact h.known.trans (Finset.union_subset (fun docid hdocid => Finset.mem_range.mpr (hjudged docid hdocid)) subset_rfl)

theorem subset_keeps_judged {choice : List Nat → Nat → Option (List Nat)} (hchoice : Draws choice)
    {rows : List (Text × Text)} (hrows : Sequential rows) (qrelsIds : Finset Nat) (subsetSize : Nat) :
    ((∃ ids, selectSubsetIds choice qrelsIds rows.length subsetSize = .ok ids) ↔
      qrelsIds.card ≤ subsetSize ∧ subsetSize ≤ (qrelsIds ∪ Finset.range rows.length).card) ∧
    ∀ ids, selectSubsetIds choice qrelsIds rows.length subsetSize = .ok ids →
      qrelsIds ⊆ ids ∧ ids.card = subsetSize ∧
      ((∃ docid ∈ qrelsIds, rows.length ≤ docid) →
        ∃ written < subsetSize, writeSubset ids rows = .error (.unseen written subsetSize)) ∧
      ((∀ docid ∈ qrelsIds, docid < rows.length) →
        ∃ w texts docids, writeSubset ids rows = .ok w ∧ SubsetFiles ids rows w texts docids) := by
  have hcases := selectSubsetIds_cases hchoice qrelsIds rows.length subsetSize
  refine ⟨?_, fun ids hids => ?_⟩
  · rcases hcases with ⟨hexceeds, herror⟩ | ⟨-, hfew, herror⟩ | ⟨hjudged, hfit, ids, hids, -⟩
    · rw [herror]
      exact ⟨fun ⟨_, h⟩ => (nomatch h), fun h => absurd h.1 (Nat.not_le.mpr hexceeds)⟩
    · rw [herror]
      exact ⟨fun ⟨_, h⟩ => (nomatch h), fun h => absurd h.2 (Nat.not_le.mpr hfew)⟩
    · exact ⟨fun _ => ⟨hjudged, hfit⟩, fun _ => ⟨ids, hids⟩⟩
  have hselected : Selected qrelsIds rows.length subsetSize ids := by
    rcases hcases with ⟨-, herror⟩ | ⟨-, -, herror⟩ | ⟨-, -, ids', hids', hselected⟩
    · rw [herror] at hids
      cases hids
    · rw [herror] at hids
      cases hids
    · rwa [Except.ok.inj (hids.symm.trans hids')]
  refine ⟨hselected.judged, hselected.size, fun ⟨docid, hdocid, hunknown⟩ => ?_, fun hjudged => ?_⟩
  · have hnot : ¬ ids ⊆ Finset.range rows.length := fun hsubset =>
      Nat.not_lt.mpr hunknown (hselected.subset_range_iff.mp hsubset docid hdocid)
    refine ⟨(ids ∩ Finset.range rows.length).card, ?_, ?_⟩
    · rw [← hselected.size]
      refine Finset.card_lt_card (Finset.inter_subset_left.ssubset_of_ne fun heq => ?_)
      exact hnot (Finset.inter_eq_left.mp heq)
    · rw [writeSubset_eq ids hrows, if_neg hnot, hselected.size]
  · have hknown := hselected.subset_range_iff.mpr hjudged
    exact ⟨streamed ids rows, _, _, by rw [writeSubset_eq ids hrows, if_pos hknown], subsetFiles_streamed hrows hknown⟩

/-- The first ones of the pool. -/
def firstOnes (pool : List Nat) (size : Nat) : Option (List Nat) := if size ≤ pool.length then some (pool.take size) else none

theorem draws_firstOnes : Draws firstOnes where
  draws pool size hnodup hsize :=
    ⟨pool.take size, if_pos hsize, List.length_take_of_le hsize, hnodup.sublist (List.take_sublist _ _),
      fun _ hdocid => List.mem_of_mem_take hdocid⟩
  refuses _ _ hsize := if_neg (Nat.not_le.mpr hsize)

def threePassages : List (Text × Text) := [(['0'], ['a', '"']), (['1'], ['\n']), (['2'], ['é'])]

theorem sequential_threePassages : Sequential threePassages := by
  intro i row hrow
  obtain ⟨hi, rfl⟩ := List.getElem?_eq_some_iff.mp hrow
  have hall : ∀ i : Fin threePassages.length, (threePassages.get i).1 = decimalText i.val := by decide
  exact hall ⟨i, hi⟩

theorem subset_keeps_judged_three :
    Draws firstOnes ∧ Sequential threePassages ∧
    ∃ ids, selectSubsetIds firstOnes {2} threePassages.length 2 = .ok ids ∧
      ∃ w texts docids, writeSubset ids threePassages = .ok w ∧ SubsetFiles ids threePassages w texts docids := by
  obtain ⟨hselect, hfiles⟩ := subset_keeps_judged draws_firstOnes sequential_threePassages {2} 2
  obtain ⟨ids, hids⟩ := hselect.mpr ⟨by decide, by decide⟩
  exact ⟨draws_firstOnes, sequential_threePassages, ids, hids, (hfiles ids hids).2.2.2 (by decide)⟩

end CascadeSearch.Dense.Subset
