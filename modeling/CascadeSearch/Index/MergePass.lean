import CascadeSearch.Index.FirstPass

/-!
# What pass 2 makes of the segments

The readers stand for sorted tables, and the merge loop writes the terms of the
merged table one by one. On a corpus that fits the format that table is the
inverted index of the corpus, so the split into segments leaves no trace.
-/
namespace CascadeSearch.Index.MergePass

open Lib.Memory Lib.KWayMerge
open Format Analyzer Corpus Inverted Segment Blocks Builder FirstPass

variable {readers : List SegmentReader} {tables : List (Table Str Posting)} {term : Str}

theorem smallestTerm_step : ∃ step : Option Str → SegmentReader → Option Str,
    (∀ readers, smallestTerm readers = readers.foldl step none) ∧
      (∀ acc reader, reader.exhausted = true → step acc reader = acc) ∧
      (∀ reader, reader.exhausted = false → step none reader = some reader.term) ∧
      ∀ term reader, reader.exhausted = false →
        step (some term) reader = if reader.term < term then some reader.term else some term := by
  refine ⟨_, fun _ => rfl, fun acc reader h => if_pos h, fun reader h => ?_, fun term reader h => ?_⟩
  · rw [h]
    rfl
  · rw [h]
    rfl

theorem smallestTerm_eq (h : List.Forall₂ SegmentReader.Holds readers tables) :
    smallestTerm readers = smallest tables := by
  obtain ⟨step, hsmallest, hend, hfirst, hlater⟩ := smallestTerm_step
  have hfrom : ∀ acc : Option Str, readers.foldl step acc =
      (acc.toList ++ tables.filterMap fun table => table.head?.map Prod.fst).min? := by
    induction h with
    | nil =>
      intro acc
      cases acc with
      | none => rfl
      | some term => rfl
    | @cons reader table readers tables hr _ ih =>
      intro acc
      rw [List.foldl_cons]
      cases table with
      | nil =>
        rw [hend acc reader hr, ih]
        rfl
      | cons e table =>
        obtain ⟨hlive, hterm, -, -⟩ := hr
        cases acc with
        | none =>
          rw [hfirst reader hlive, hterm]
          exact ih (some e.1)
        | some term =>
          have hmin : (if e.1 < term then some e.1 else some term) = some (min term e.1) := by
            split
            · rename_i hlt
              rw [min_eq_right hlt.le]
            · rename_i hge
              rw [min_eq_left (not_lt.mp hge)]
          rw [hlater term reader hlive, hterm, hmin, ih]
          rfl
  rw [hsmallest]
  exact hfrom none

theorem standsOn_cons {reader : SegmentReader} {e : Str × List Posting} {table : Table Str Posting}
    (h : reader.Holds (e :: table)) : standsOn term reader = true ↔ e.1 = term := by
  obtain ⟨hlive, hterm, -, -⟩ := h
  rw [standsOn, hlive, hterm]
  exact beq_iff_eq

theorem standsOn_nil {reader : SegmentReader} (h : reader.Holds []) : standsOn term reader = false := by
  have hend : reader.exhausted = true := h
  rw [standsOn, hend]
  rfl

theorem merged_eq (h : List.Forall₂ SegmentReader.Holds readers tables) :
    (readers.filter (standsOn term)).flatMap (·.postings) = tables.flatMap (headValues term) := by
  induction h with
  | nil => rfl
  | @cons reader table readers tables hr _ ih =>
    rw [List.filter_cons, List.flatMap_cons]
    cases table with
    | nil =>
      rw [standsOn_nil hr]
      exact ih
    | cons e table =>
      rw [headValues]
      by_cases hterm : e.1 = term
      · obtain ⟨-, -, hpostings, -⟩ := id hr
        rw [if_pos ((standsOn_cons hr).mpr hterm), if_pos hterm, List.flatMap_cons, ih, hpostings]
      · rw [if_neg (mt (standsOn_cons hr).mp hterm), if_neg hterm, ih]
        rfl

theorem advanced (h : List.Forall₂ SegmentReader.Holds readers tables)
    (hfits : ∀ table ∈ tables, ∀ e ∈ table, EntryFits e) :
    List.Forall₂ SegmentReader.Holds
      (readers.map fun reader => if standsOn term reader then reader.advance else reader)
      (tables.map (advance term)) := by
  induction h with
  | nil => exact List.Forall₂.nil
  | @cons reader table readers tables hr _ ih =>
    apply List.Forall₂.cons _ (ih fun table htable => hfits table (List.mem_cons_of_mem _ htable))
    dsimp only
    cases table with
    | nil =>
      rw [standsOn_nil hr]
      exact hr
    | cons e table =>
      rw [advance]
      by_cases hterm : e.1 = term
      · obtain ⟨hlive, -, -, hinput⟩ := id hr
        rw [if_pos ((standsOn_cons hr).mpr hterm), if_pos hterm]
        exact SegmentReader.advance_holds hlive hinput fun e he =>
          hfits _ List.mem_cons_self e (List.mem_cons_of_mem _ he)
      · rw [if_neg (mt (standsOn_cons hr).mp hterm), if_neg hterm]
        exact hr

theorem mem_of_mem_advance {table : Table Str Posting} {e : Str × List Posting}
    (he : e ∈ advance term table) : e ∈ table := by
  cases table with
  | nil => cases he
  | cons first table =>
    rw [advance] at he
    split at he
    · exact List.mem_cons_of_mem _ he
    · exact he

variable {S : Type} [LinearOrder S] [Zero S]

def writeTerms (st : CorpusStats S) (out : Output S) (entries : Table Str Posting) : Output S :=
  entries.foldl (fun out e => writeTerm st out e.1 e.2) out

/-- The loop writes the merged table. -/
theorem mergeSegments_eq (st : CorpusStats S) :
    ∀ {rounds : Nat} {readers : List SegmentReader} {tables : List (Table Str Posting)} {out : Output S},
      List.Forall₂ SegmentReader.Holds readers tables → (∀ table ∈ tables, ∀ e ∈ table, EntryFits e) →
      mergeSegments st rounds readers out = writeTerms st out (mergeRounds rounds tables) := by
  intro rounds
  induction rounds with
  | zero => exact fun _ _ => rfl
  | succ rounds ih =>
    intro readers tables out h hfits
    rw [mergeSegments, mergeRounds, smallestTerm_eq h]
    cases smallest tables with
    | none => rfl
    | some term =>
      dsimp only
      rw [merged_eq h, ih (advanced h hfits)]
      · rfl
      · intro moved hmoved e he
        obtain ⟨table, htable, rfl⟩ := List.mem_map.mp hmoved
        exact hfits table htable e (mem_of_mem_advance he)

theorem open_holds (hfits : ∀ table ∈ tables, ∀ e ∈ table, EntryFits e) :
    List.Forall₂ SegmentReader.Holds ((tables.map flushSegment).map SegmentReader.open) tables := by
  induction tables with
  | nil => exact List.Forall₂.nil
  | cons table tables ih =>
    apply List.Forall₂.cons _ (ih fun table htable => hfits table (List.mem_cons_of_mem _ htable))
    exact SegmentReader.advance_holds rfl rfl (hfits table List.mem_cons_self)

theorem length_table_le (table : Table Str Posting) : table.length ≤ (flushSegment table).length := by
  induction table with
  | nil => exact le_rfl
  | cons e table ih =>
    have hentry : 4 ≤ (putEntry e).length := by
      rw [putEntry, List.length_append, length_putInt]
      exact Nat.le_add_right _ _
    rw [flushSegment, List.flatMap_cons, List.length_append]
    change table.length + 1 ≤ _ + (flushSegment table).length
    omega

theorem totalLength_le (tables : List (Table Str Posting)) :
    totalLength tables ≤ ((tables.map flushSegment).map List.length).sum := by
  rw [totalLength, List.map_map]
  exact List.sum_le_sum fun table _ => length_table_le table

variable {docs : List Document}

theorem mergeRounds_eq (h : Holds docs tables ∅) {rounds : Nat} (hrounds : totalLength tables ≤ rounds) :
    mergeRounds rounds tables = (vocabulary docs).map fun term => (term, (postings docs term).map wrap) := by
  obtain ⟨hasc, hmem⟩ := mergeRounds_spec h.ascending hrounds
  refine hasc.ext (List.pairwise_map.mpr (vocabulary_ascending docs)) ?_
  rintro ⟨term, values⟩
  rw [hmem, h.values_eq, List.mem_map]
  constructor
  · rintro ⟨⟨table, htable, e, he, rfl⟩, rfl⟩
    exact ⟨e.1, h.mem_vocabulary htable he, rfl⟩
  · rintro ⟨t, ht, heq⟩
    cases heq
    refine ⟨?_, rfl⟩
    have hne : tables.flatMap (valuesAt term) ≠ [] := by
      rw [h.values_eq]
      exact mt List.map_eq_nil_iff.mp (postings_ne_nil_iff.mpr ht)
    obtain ⟨p, hp⟩ := List.exists_mem_of_ne_nil _ hne
    obtain ⟨table, htable, hp⟩ := List.mem_flatMap.mp hp
    obtain ⟨values, he, -⟩ := mem_valuesAt.mp hp
    exact ⟨table, htable, _, he, rfl⟩

/-- The bytes `writeTerm` adds to `index.post`. -/
def payloadSize (ps : List Posting) : Nat := (encode (fun _ => (0 : Nat)) ps).2.length

def termSize (ps : List Posting) : Nat := 16 * (encode (fun _ => (0 : Nat)) ps).1.length + payloadSize ps

/-- Every count and offset stays within its field: 32 bits for documents, terms
and offsets into a payload, 64 bits for offsets into a file. -/
structure FitsFormat (docs : List Document) : Prop where
  docCount : docs.length < 2 ^ 32
  docLength : ∀ d ∈ docs, (termsOf d).length < 2 ^ 32
  termCount : (vocabulary docs).length < 2 ^ 32
  payload : ∀ term ∈ vocabulary docs, payloadSize (postings docs term) ≤ 2 ^ 32
  postOffset : ((vocabulary docs).map fun term => termSize (postings docs term)).sum < 2 ^ 64
  docidOffset : (docs.flatMap Document.externalId).length < 2 ^ 64

theorem FitsFormat.posting_lt (h : FitsFormat docs) {p : Posting} (hp : p ∈ postings docs term) :
    p.docid < docs.length ∧ p.tf < 2 ^ 32 := by
  obtain ⟨d, hd, -, htf⟩ := mem_postings.mp hp
  have hle : p.tf ≤ (termsOf d).length := htf ▸ List.count_le_length
  exact ⟨docid_lt hp, hle.trans_lt (h.docLength d (List.mem_of_getElem? hd))⟩

theorem FitsFormat.map_wrap (h : FitsFormat docs) (term : Str) : (postings docs term).map wrap = postings docs term := by
  rw [← List.map_id' (postings docs term), List.map_map]
  apply List.map_congr_left
  intro p hp
  obtain ⟨hdocid, htf⟩ := h.posting_lt hp
  exact wrap_of_lt (hdocid.trans h.docCount) htf

variable (bm25 : Bm25 S)

/-- The statistics of a corpus, none of them wrapped. -/
def statsOf (docs : List Document) : CorpusStats S where
  bm25 := bm25
  docLengths := docs.map fun d => (termsOf d).length
  docCount := docs.length
  avgDl := bm25.avgDl (docs.map fun d => (termsOf d).length).sum docs.length

/-- The files that hold the inverted index of a corpus. -/
def indexOf (docs : List Document) : IndexFiles S :=
  writeFiles (statsOf bm25 docs) ((List.range (docs.length + 1)).map (idOffset docs))
    (docs.flatMap Document.externalId) (writeTerms (statsOf bm25 docs) {} (invertedIndex docs))

variable {capacity : Nat} {corpus : Str}

theorem noDocuments_iff (hcapacity : 0 < capacity) (corpus : Str) :
    buildIndex bm25 capacity 0 corpus = .error .noDocumentsRead ↔ u32 (documents corpus).length = 0 := by
  obtain ⟨hcounts, -⟩ := pass1_spec hcapacity (documents corpus)
  rw [buildIndex, hcounts.docid]
  split
  · rename_i hzero
    exact iff_of_true rfl hzero
  · rename_i hzero
    exact iff_of_false (fun h => nomatch h) hzero

/-- The statistics the builder works with, after the wraps. -/
def wrappedStats (docs : List Document) : CorpusStats S where
  bm25 := bm25
  docLengths := docs.map fun d => u32 (termsOf d).length
  docCount := u32 docs.length
  avgDl := bm25.avgDl (docs.map fun d => u32 (termsOf d).length).sum (u32 docs.length)

/-- The files of any corpus, while no segment has a term in `2 ^ 32` documents. -/
theorem buildIndex_wrapped (hcapacity : 0 < capacity) (hcount : u32 (documents corpus).length ≠ 0)
    (hsegment : capacity < 2 ^ 32 ∨ (documents corpus).length < 2 ^ 32) :
    buildIndex bm25 capacity 0 corpus = .ok (writeFiles (wrappedStats bm25 (documents corpus))
      ((List.range ((documents corpus).length + 1)).map (idOffset (documents corpus)))
      ((documents corpus).flatMap Document.externalId)
      (writeTerms (wrappedStats bm25 (documents corpus)) {} ((vocabulary (documents corpus)).map fun term =>
        (term, (postings (documents corpus) term).map wrap)))) := by
  obtain ⟨hcounts, tables, hsegments, hholds, hbounded⟩ := pass1_spec hcapacity (documents corpus)
  have hdf : ∀ table ∈ tables, ∀ e ∈ table, e.2.length < 2 ^ 32 := by
    intro table htable e he
    rcases hsegment with hlt | hlt
    · exact (hbounded table htable e he).trans_lt hlt
    · exact (hholds.length_le htable he).trans_lt hlt
  have hentries : ∀ table ∈ tables, ∀ e ∈ table, EntryFits e := fun table htable e he =>
    hholds.entryFits hdf htable he
  have hmerged := mergeRounds_eq hholds (totalLength_le tables)
  rw [buildIndex, hcounts.docid]
  dsimp only
  rw [if_neg hcount, hsegments, mergeSegments_eq _ (open_holds hentries) hentries, hmerged, hcounts.docLengths,
    hcounts.docidOffsets, hcounts.docidsBlob]
  rfl

/-- The builder writes the inverted index of the corpus, whatever the capacity. -/
theorem buildIndex_eq (hcapacity : 0 < capacity) (hfits : FitsFormat (documents corpus))
    (hne : documents corpus ≠ []) :
    buildIndex bm25 capacity 0 corpus = .ok (indexOf bm25 (documents corpus)) := by
  have hcount : u32 (documents corpus).length = (documents corpus).length := u32_of_lt hfits.docCount
  have hpos : u32 (documents corpus).length ≠ 0 := by
    rw [hcount]
    exact mt List.length_eq_zero_iff.mp hne
  have hlengths : ((documents corpus).map fun d => u32 (termsOf d).length) =
      (documents corpus).map fun d => (termsOf d).length :=
    List.map_congr_left fun d hd => u32_of_lt (hfits.docLength d hd)
  have hstats : wrappedStats bm25 (documents corpus) = statsOf bm25 (documents corpus) := by
    rw [wrappedStats, hlengths, hcount]
    rfl
  rw [buildIndex_wrapped bm25 hcapacity hpos (Or.inr hfits.docCount), hstats]
  simp only [hfits.map_wrap]
  rfl

end CascadeSearch.Index.MergePass
