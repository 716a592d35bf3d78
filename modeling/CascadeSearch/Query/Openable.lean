import CascadeSearch.Query.EndToEnd
import CascadeSearch.Query.ResultCount
import CascadeSearch.Index.Codec

/-!
# Which built indexes open and answer

The builder succeeds on a corpus whose documents have no term, with an
`index.post` of no bytes, and the reader cannot map it. On any other corpus the
index opens, and a search returns unless it asks for no results of terms the
index has: the heap is then full and empty.
-/
namespace CascadeSearch.Query.Openable

open Lib.Loop Lib.RoundedSum Lib.Memory Lib.KWayMerge
open Index.Format Index.Analyzer Index.Corpus Index.Inverted
open Index.Builder Index.Codec Index.FirstPass Index.MergePass Index.Layout
open Cursor Heap Reader Evaluate Pruning PruningSafety Search Opened Retrieval EndToEnd ResultCount

section Opening

variable {S : Type} [LinearOrder S] [Zero S] {bm25 : Bm25 S} {corpus : Str} {files : IndexFiles S}

theorem docs_ne_nil_of_count {docs : List Document} (h : u32 docs.length ≠ 0) : docs ≠ [] := by
  rintro rfl
  exact h rfl

/-- A corpus is refused only when its count of documents is zero, or wraps to it. -/
theorem buildIndex_isOk_iff : (∃ files, buildIndex bm25 kSegmentDocs 0 corpus = .ok files) ↔
    u32 (documents corpus).length ≠ 0 := by
  have hcapacity : 0 < kSegmentDocs := by decide
  rw [ne_eq, ← noDocuments_iff bm25 hcapacity corpus]
  cases hbuild : buildIndex bm25 kSegmentDocs 0 corpus with
  | error e =>
    cases e
    exact iff_of_false (fun ⟨_, h⟩ => nomatch h) fun h => h rfl
  | ok files => exact iff_of_true ⟨files, rfl⟩ fun h => nomatch h

/-- What the builder wrote opens exactly if the corpus has a term. -/
theorem open_iff (hbuild : buildIndex bm25 kSegmentDocs 0 corpus = .ok files) :
    (∃ ix, Reader.open bm25 files = .ok ix) ↔ ∃ d ∈ documents corpus, termsOf d ≠ [] := by
  have hsegment : kSegmentDocs < 2 ^ 32 := by
    norm_num [kSegmentDocs]
  have hcount := buildIndex_isOk_iff.mp ⟨files, hbuild⟩
  rw [buildIndex_wrapped bm25 (by decide) hcount (Or.inl hsegment)] at hbuild
  cases hbuild
  have hentries : ∀ e ∈ (vocabulary (documents corpus)).map (fun term =>
      (term, (postings (documents corpus) term).map wrap)), e.2 ≠ [] := by
    intro e he
    obtain ⟨term, hterm, rfl⟩ := List.mem_map.mp he
    exact mt List.map_eq_nil_iff.mp (postings_ne_nil_iff.mpr hterm)
  rw [open_writeFiles_iff, ne_eq, postOut_eq_nil_iff _ hentries, List.map_eq_nil_iff]
  exact vocabulary_ne_nil_iff

end Opening

section Bounds

variable {log : ℚ → ℚ} {docs : List Document} {ix : Index ℚ}

variable {t : PostingSource ℚ} {term : Str}

/-- The impact the builder computed is the score the reader computes. -/
theorem impact_eq_postingScore {bm25 : Bm25 ℚ} (hix : Represents bm25 docs ix) (hsource : SourceOf bm25 docs t term)
    {p : Posting} (hp : p ∈ t.all) :
    postingScore ix t p = impact (statsOf bm25 docs) (postings docs term).length p := by
  rw [hsource.all] at hp
  obtain ⟨d, hd, -, -⟩ := mem_postings.mp hp
  have hlen : ix.docLengths p.docid = (statsOf bm25 docs).docLengths.getD p.docid 0 := by
    rw [hix.docLengths _ d hd, List.getD_eq_getElem?_getD]
    change _ = ((docs.map fun d => (termsOf d).length)[p.docid]?).getD 0
    rw [List.getElem?_map, hd]
    rfl
  rw [postingScore, impact, hix.scoring, hsource.idf, hlen, hix.avgDl]
  rfl

theorem postingScore_nonneg (hlog : ∀ x, 1 ≤ x → 0 ≤ log x)
    (hix : Represents (Bm25.exact log BM25Params.default) docs ix)
    (hsource : SourceOf (Bm25.exact log BM25Params.default) docs t term) (p : Posting) :
    0 ≤ postingScore ix t p := by
  rw [postingScore, hix.scoring, hix.avgDl, hsource.idf]
  apply bm25TermScore_nonneg (bm25Idf_nonneg hlog (length_postings_le docs term))
  exact div_nonneg (Nat.cast_nonneg _) (Nat.cast_nonneg _)

/-- The bounds on file are bounds of the scores the reader computes. -/
theorem validBounds (hlog : ∀ x, 1 ≤ x → 0 ≤ log x) (hfits : FitsFormat docs)
    (hix : Represents (Bm25.exact log BM25Params.default) docs ix) (query : Str) :
    ValidBounds ix (sourcesFor ix query) where
  nonneg t ht p _ := by
    obtain ⟨term, -, hsource⟩ := exists_term (sourcesFor_of hfits hix query) ht
    exact postingScore_nonneg hlog hix hsource p
  block t ht i hi p hp := by
    obtain ⟨term, -, hsource⟩ := exists_term (sourcesFor_of hfits hix query) ht
    have hall : p ∈ t.all := List.mem_flatMap.mpr ⟨i, List.mem_range'_1.mpr ⟨Nat.zero_le _, by omega⟩, hp⟩
    rw [impact_eq_postingScore hix hsource hall]
    exact hsource.block i hi p hp
  term t ht := by
    obtain ⟨term, -, hsource⟩ := exists_term (sourcesFor_of hfits hix query) ht
    exact hsource.term

end Bounds

section Searching

variable {S : Type} [LinearOrder S] [Zero S] {bm25 : Bm25 S} {docs : List Document} {ix : Index S} {query : Str}

/-- Every term the index has occurs in a document. -/
theorem all_ne_nil (hfits : FitsFormat docs) (hix : Represents bm25 docs ix) {t : PostingSource S}
    (ht : t ∈ sourcesFor ix query) : t.all ≠ [] := by
  obtain ⟨term, hterm, hsource⟩ := exists_term (sourcesFor_of hfits hix query) ht
  rw [hsource.all]
  exact postings_ne_nil_iff.mpr (of_decide_eq_true (List.mem_filter.mp hterm).2)

theorem openCursors_eq_nil_iff (hfits : FitsFormat docs) (hix : Represents bm25 docs ix) :
    openCursors ix query = [] ↔ ∀ d ∈ docs, shares query d = false := by
  have hmatching : openCursors ix query = [] ↔ matching (sourcesFor ix query) = [] := by
    rw [openCursors, List.map_eq_nil_iff]
    constructor
    · intro hnil
      rw [hnil]
      rfl
    · intro hnil
      apply List.eq_nil_iff_forall_not_mem.mpr
      intro t ht
      obtain ⟨p, hp⟩ := List.exists_mem_of_ne_nil _ (all_ne_nil hfits hix ht)
      exact List.eq_nil_iff_forall_not_mem.mp hnil _ (mem_matching.mpr ⟨t, ht, p, hp, rfl⟩)
  rw [hmatching, List.eq_nil_iff_forall_not_mem]
  constructor
  · intro hnone d hd
    obtain ⟨docid, hdocid⟩ := List.mem_iff_getElem?.mp hd
    by_contra hshares
    exact hnone docid ((mem_matching_iff hfits hix).mpr ⟨d, hdocid, eq_true_of_ne_false hshares⟩)
  · intro hnone docid hmem
    obtain ⟨d, hd, hshares⟩ := (mem_matching_iff hfits hix).mp hmem
    rw [hnone d (List.mem_of_getElem? hd)] at hshares
    cases hshares

variable [One S] [Neg S] [Add S]

/-- Asked for no results, the first pass of every loop reads the top of an empty heap. -/
theorem search_zero_faults (hfits : FitsFormat docs) (hix : Represents bm25 docs ix)
    (hne : openCursors ix query ≠ []) (algorithm : Algorithm) (results : List (Result S)) :
    ¬ SearchReturns ix query 0 algorithm results := by
  intro hreturns
  have hwf := sources_wellFormed hfits hix query
  have hsources : sourcesFor ix query ≠ [] := fun hnil => hne (List.map_eq_nil_iff.mpr hnil)
  have hmatching : matching (sourcesFor ix query) ≠ [] := by
    obtain ⟨t, ht⟩ := List.exists_mem_of_ne_nil _ hsources
    obtain ⟨p, hp⟩ := List.exists_mem_of_ne_nil _ (all_ne_nil hfits hix ht)
    exact List.ne_nil_of_mem (mem_matching.mpr ⟨t, ht, p, hp, rfl⟩)
  obtain ⟨hdaat, hwand, hblock⟩ := faults_at_zero ix hwf hmatching
  obtain ⟨stats, hret⟩ := (searchReturns_iff_loop hsources).mp hreturns
  cases algorithm with
  | daatOr => cases Returns.unique hret (returns_done hdaat)
  | wand => cases Returns.unique hret (returns_done hwand)
  | blockMaxWand => cases Returns.unique hret (returns_done hblock)

end Searching

/-- Asked for some results, every algorithm returns the first ones of the ranking. -/
theorem searchReturns_ranked {log : ℚ → ℚ} (hlog : ∀ x, 1 ≤ x → 0 ≤ log x) {docs : List Document} {ix : Index ℚ}
    (hfits : FitsFormat docs) (hix : Represents (Bm25.exact log BM25Params.default) docs ix) (query : Str) {k : Nat}
    (hk : 0 < k) (algorithm : Algorithm) : SearchReturns ix query k algorithm (ranked ix (sourcesFor ix query) k) := by
  by_cases hnone : openCursors ix query = []
  · exact searchReturns_of_no_cursors hnone k algorithm
  · have hwf := sources_wellFormed hfits hix query
    have hv := validBounds hlog hfits hix query
    have hn : ∀ e, (containing (sourcesFor ix query) e).length ≤ (sourcesFor ix query).length :=
      fun e => List.filter_sublist.length_le
    cases algorithm with
    | daatOr => exact daatOr_returns_ranked hfits hix query hk
    | wand =>
      obtain ⟨stats, fuel, hrun⟩ := wand_returns hwf hv (noScoreBetween_rat _) hn hk
      exact ⟨fuel, stats, by rw [search, if_neg hnone]; exact hrun⟩
    | blockMaxWand =>
      obtain ⟨stats, fuel, hrun⟩ := blockMaxWand_returns hwf hv (noScoreBetween_rat _) hn hk
      exact ⟨fuel, stats, by rw [search, if_neg hnone]; exact hrun⟩

/-- A search on an opened index returns unless it asks for no results of a term that occurs. -/
theorem searchReturns_iff {log : ℚ → ℚ} (hlog : ∀ x, 1 ≤ x → 0 ≤ log x) {docs : List Document} {ix : Index ℚ}
    (hfits : FitsFormat docs) (hix : Represents (Bm25.exact log BM25Params.default) docs ix) (query : Str) (k : Nat)
    (algorithm : Algorithm) :
    (∃ results, SearchReturns ix query k algorithm results) ↔ (k = 0 → ∀ d ∈ docs, shares query d = false) := by
  rw [← openCursors_eq_nil_iff hfits hix]
  constructor
  · rintro ⟨results, hreturns⟩ rfl
    by_contra hne
    exact search_zero_faults hfits hix hne algorithm results hreturns
  · intro hk
    by_cases hnone : openCursors ix query = []
    · exact ⟨_, searchReturns_of_no_cursors hnone k algorithm⟩
    · exact ⟨_, searchReturns_ranked hlog hfits hix query (Nat.pos_of_ne_zero (mt hk hnone)) algorithm⟩

end CascadeSearch.Query.Openable
