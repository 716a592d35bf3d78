import CascadeSearch.Query.EndToEnd

/-!
# The split into segments leaves no trace

Whatever the capacity of a segment, the merge writes the files of the inverted
index, and the opened index says of the corpus what its text says.
-/
namespace CascadeSearch.Query.SplitInvariance

open Lib.Memory Lib.KWayMerge
open Index.Format Index.Analyzer Index.Corpus Index.Inverted Index.Porter
open Index.Builder Index.FirstPass Index.MergePass Index.Layout Index.Fits
open Cursor Reader Search Opened Dictionary Retrieval EndToEnd

section Invariance

variable {S : Type} [LinearOrder S] [Zero S]

/-- What the text of a corpus says of its index. -/
structure Inverts (docs : List Document) (ix : Index S) : Prop where
  strings : StringsAscend ix
  found : ∀ term, (ix.findTerm term).isSome ↔ ∃ d ∈ docs, term ∈ termsOf d
  ascending : ∀ term record, ix.findTerm term = some record →
    (sourceFor ix record 0).all.Pairwise fun p q => p.docid < q.docid
  members : ∀ term record, ix.findTerm term = some record → ∀ p, p ∈ (sourceFor ix record 0).all ↔
    ∃ d, docs[p.docid]? = some d ∧ term ∈ termsOf d ∧ p.tf = (termsOf d).count term
  df : ∀ term record, ix.findTerm term = some record → record.df = (sourceFor ix record 0).all.length
  externalId : ∀ docid d, docs[docid]? = some d → ix.externalId docid = d.externalId

variable {bm25 : Bm25 S} {docs : List Document} {ix : Index S}

/-- The record of a term leads to its postings. -/
theorem all_of_found (hfits : FitsFormat docs) (hix : Represents bm25 docs ix) {term : Str}
    {record : TermRecord S} (hfound : ix.findTerm term = some record) :
    (sourceFor ix record 0).all = postings docs term ∧ record.df = (postings docs term).length := by
  have hterm : term ∈ vocabulary docs := by
    apply (findTerm_isSome hix).mp
    rw [hfound]
    rfl
  obtain ⟨record', hfound', hpoints⟩ := findTerm_of_mem hix hterm
  rw [hfound] at hfound'
  cases hfound'
  exact ⟨(sourceOf_pointsAt hfits hix hterm hpoints 0).all, hpoints.df⟩

theorem inverts_of_represents (hfits : FitsFormat docs) (hix : Represents bm25 docs ix) : Inverts docs ix where
  strings := stringsAscend hix
  found term := (findTerm_isSome hix).trans mem_vocabulary
  ascending term record hfound := by
    rw [(all_of_found hfits hix hfound).1]
    exact postings_ascending
  members term record hfound p := by
    rw [(all_of_found hfits hix hfound).1]
    exact mem_postings
  df term record hfound := by
    obtain ⟨hall, hdf⟩ := all_of_found hfits hix hfound
    rw [hall, hdf]
  externalId := hix.externalId

/-- An index that opened has a term. -/
theorem vocabulary_ne_nil_of_open (hopen : Reader.open bm25 (indexOf bm25 docs) = .ok ix) :
    vocabulary docs ≠ [] := by
  have hpost := (open_writeFiles_iff bm25 _ _ _ _).mp ⟨ix, hopen⟩
  intro hnil
  apply hpost
  rw [invertedIndex, hnil]
  rfl

/-- Split invariance, and what the merged index says. -/
theorem build_invariant (bm25 : Bm25 S) (corpus : Str) (hfits : FitsFormat (documents corpus)) (capacity : Nat)
    (hcapacity : 1 ≤ capacity) :
    (∀ whole, 1 ≤ whole → (documents corpus).length ≤ whole →
        buildIndex bm25 capacity 0 corpus = buildIndex bm25 whole 0 corpus) ∧
      (documents corpus ≠ [] → ∃ files, buildIndex bm25 capacity 0 corpus = .ok files ∧
        ((∃ d ∈ documents corpus, termsOf d ≠ []) → ∃ ix, Reader.open bm25 files = .ok ix) ∧
        ∀ ix, Reader.open bm25 files = .ok ix → Inverts (documents corpus) ix) := by
  constructor
  · intro whole hwhole _
    by_cases hne : documents corpus = []
    · have herror : ∀ c, 1 ≤ c → buildIndex bm25 c 0 corpus = .error .noDocumentsRead := by
        intro c hc
        apply (noDocuments_iff bm25 hc corpus).mpr
        rw [hne]
        rfl
      rw [herror capacity hcapacity, herror whole hwhole]
    · rw [buildIndex_eq bm25 hcapacity hfits hne, buildIndex_eq bm25 hwhole hfits hne]
  · intro hne
    refine ⟨_, buildIndex_eq bm25 hcapacity hfits hne, ?_, ?_⟩
    · intro hterm
      exact ⟨_, open_indexOf hfits (vocabulary_ne_nil_iff.mpr hterm)⟩
    · intro ix hopen
      have hix := openedOn_represents bm25 hfits
      rw [open_indexOf hfits (vocabulary_ne_nil_of_open hopen)] at hopen
      cases hopen
      exact inverts_of_represents hfits hix

end Invariance

/-- Three documents in segments of two. -/
theorem build_invariant_three :
    (∀ whole, 1 ≤ whole → (documents (lit "a\tcats\nb\ta dog\nc\tcat\n")).length ≤ whole →
        buildIndex (Bm25.exact id BM25Params.default) 2 0 (lit "a\tcats\nb\ta dog\nc\tcat\n") =
          buildIndex (Bm25.exact id BM25Params.default) whole 0 (lit "a\tcats\nb\ta dog\nc\tcat\n")) ∧
      (documents (lit "a\tcats\nb\ta dog\nc\tcat\n") ≠ [] → ∃ files,
        buildIndex (Bm25.exact id BM25Params.default) 2 0 (lit "a\tcats\nb\ta dog\nc\tcat\n") = .ok files ∧
        ((∃ d ∈ documents (lit "a\tcats\nb\ta dog\nc\tcat\n"), termsOf d ≠ []) →
          ∃ ix, Reader.open (Bm25.exact id BM25Params.default) files = .ok ix) ∧
        ∀ ix, Reader.open (Bm25.exact id BM25Params.default) files = .ok ix →
          Inverts (documents (lit "a\tcats\nb\ta dog\nc\tcat\n")) ix) :=
  build_invariant (Bm25.exact id BM25Params.default) _ (fitsFormat_of_length_lt (by decide)) 2 (by decide)

theorem idOffset_replicate {n i : Nat} (hi : i ≤ n) : idOffset (List.replicate n ⟨lit "a", lit "cat"⟩) i = i := by
  rw [idOffset, List.take_replicate, List.flatMap_replicate, List.length_flatten, List.map_replicate,
    List.sum_replicate, Nat.min_eq_left hi]
  exact Nat.mul_one i

/-- An id table read as two entries long: the id of the first document is the
low byte of the third entry. -/
theorem externalId_of_short_table {S : Type} {ix : Index S} {offsets : List Nat} {blob : List (Cell S)}
    (hoffsets : ∀ i, ix.docidOffsets i = readInt 8 ((offsets.flatMap (putInt 8) ++ blob).drop (8 * i)))
    (hblob : ix.docidBlob = (offsets.flatMap (putInt 8) ++ blob).drop (8 * 2))
    (h0 : offsets[0]? = some 0) (h1 : offsets[1]? = some 1) (h2 : offsets[2]? = some 2) :
    ix.externalId 0 = [2] := by
  have hstart : ix.docidOffsets 0 = 0 := by
    rw [hoffsets]
    exact readInt_flatMap h0 (by decide) blob
  have hend : ix.docidOffsets (0 + 1) = 1 := by
    rw [hoffsets]
    exact readInt_flatMap h1 (by decide) blob
  rw [Index.externalId, hstart, hend, hblob, drop_flatMap_get (length_putInt 8) h2]
  rfl

/-- A count of one in front of a longer id table opens without complaint. -/
theorem open_short_table {S : Type} [Zero S] (bm25 : Bm25 S) {st : CorpusStats S} {offsets : List Nat} (blob : Str)
    {out : Output S} (hcount : st.docCount = 1) (hpost : out.postOut ≠ []) (h0 : offsets[0]? = some 0)
    (h1 : offsets[1]? = some 1) (h2 : offsets[2]? = some 2) :
    ∃ ix, Reader.open bm25 (writeFiles st offsets blob out) = .ok ix ∧ ix.externalId 0 = [2] := by
  have hids : (writeFiles st offsets blob out).docids =
      putInt 4 1 ++ (offsets.flatMap (putInt 8) ++ putBytes blob) := by
    rw [writeFiles, hcount]
  have hread : readInt 4 (writeFiles st offsets blob out).docids = 1 := by
    rw [hids]
    exact readInt_putInt_of_lt (by decide) _
  have hdrop : (writeFiles st offsets blob out).docids.drop 4 = offsets.flatMap (putInt 8) ++ putBytes blob := by
    rw [hids]
    exact List.drop_left' (length_putInt 4 1)
  refine ⟨_, open_of_pos (Nat.succ_pos _) (Nat.succ_pos _) (List.length_pos_of_ne_nil hpost) (Nat.succ_pos _), ?_⟩
  refine @externalId_of_short_table S _ offsets (putBytes blob) (fun i => ?_) ?_ h0 h1 h2
  · dsimp only
    rw [hdrop]
  · dsimp only
    rw [hread, ← hdrop, List.drop_drop]

/-- One document more than the count holds: the reader takes the table of id
offsets for two entries long. -/
theorem wrong_external_id :
    ∃ files ix, buildIndex (Bm25.exact id BM25Params.default) kSegmentDocs 0 (equalLines (2 ^ 32 + 1)) = .ok files ∧
      Reader.open (Bm25.exact id BM25Params.default) files = .ok ix ∧
      (documents (equalLines (2 ^ 32 + 1)))[0]? = some ⟨lit "a", lit "cat"⟩ ∧ ix.externalId 0 ≠ lit "a" := by
  have hdocs := documents_equalLines (2 ^ 32 + 1)
  have hlen : (documents (equalLines (2 ^ 32 + 1))).length = 2 ^ 32 + 1 := by
    rw [hdocs, List.length_replicate]
  have hcount : u32 (documents (equalLines (2 ^ 32 + 1))).length = 1 := by
    rw [hlen]
    rfl
  have hfirst : (documents (equalLines (2 ^ 32 + 1)))[0]? = some ⟨lit "a", lit "cat"⟩ := by
    rw [hdocs]
    exact List.getElem?_replicate_of_lt (by decide)
  have hterm : lit "cat" ∈ vocabulary (documents (equalLines (2 ^ 32 + 1))) :=
    mem_vocabulary.mpr ⟨_, List.mem_of_getElem? hfirst, by decide +kernel⟩
  have hpost : (writeTerms (wrappedStats (Bm25.exact id BM25Params.default) (documents (equalLines (2 ^ 32 + 1)))) {}
      ((vocabulary (documents (equalLines (2 ^ 32 + 1)))).map fun term =>
        (term, (postings (documents (equalLines (2 ^ 32 + 1))) term).map wrap))).postOut ≠ [] := by
    apply mt (postOut_eq_nil_iff _ _).mp
    · exact List.ne_nil_of_mem (List.mem_map_of_mem hterm)
    · intro e he
      obtain ⟨term, hmem, rfl⟩ := List.mem_map.mp he
      exact mt List.map_eq_nil_iff.mp (postings_ne_nil_iff.mpr hmem)
  have hoffset : ∀ i ≤ 2, ((List.range ((documents (equalLines (2 ^ 32 + 1))).length + 1)).map
      (idOffset (documents (equalLines (2 ^ 32 + 1)))))[i]? = some i := by
    intro i hi
    have hle : i ≤ 2 ^ 32 + 1 := hi.trans (by decide)
    rw [List.getElem?_map, List.getElem?_range (by rw [hlen]; exact Nat.lt_succ_of_le hle), Option.map_some, hdocs,
      idOffset_replicate hle]
  have hstats : (wrappedStats (Bm25.exact id BM25Params.default) (documents (equalLines (2 ^ 32 + 1)))).docCount = 1 :=
    hcount
  obtain ⟨ix, hopen, hid⟩ := open_short_table (Bm25.exact id BM25Params.default)
    ((documents (equalLines (2 ^ 32 + 1))).flatMap Document.externalId) hstats hpost
    (hoffset 0 (by decide)) (hoffset 1 (by decide)) (hoffset 2 (by decide))
  have hcapacity : kSegmentDocs < 2 ^ 32 := by
    norm_num [kSegmentDocs]
  have hne : u32 (documents (equalLines (2 ^ 32 + 1))).length ≠ 0 := by
    rw [hcount]
    exact one_ne_zero
  refine ⟨_, ix, buildIndex_wrapped _ (by decide) hne (Or.inl hcapacity), hopen, hfirst, ?_⟩
  rw [hid]
  decide

end CascadeSearch.Query.SplitInvariance
