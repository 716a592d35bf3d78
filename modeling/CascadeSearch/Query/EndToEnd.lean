import CascadeSearch.Index.Fits
import CascadeSearch.Query.Retrieval

/-!
# From the corpus file to the answer

Building, opening and searching in a row. The counters of the builder are 32
bits wide: a corpus of `2 ^ 32` accepted lines is taken for an empty one.
-/
namespace CascadeSearch.Query.EndToEnd

open Lib.Loop Lib.RoundedSum
open Index.Format Index.Analyzer Index.Corpus Index.Inverted Index.Porter
open Index.Builder Index.MergePass Index.Fits
open Cursor Heap Reader Evaluate Pruning PruningSafety Search Opened Retrieval

section Search

variable {S : Type} [LinearOrder S] [Zero S] [One S] [Neg S] [Add S] {bm25 : Bm25 S} {docs : List Document}
  {ix : Index S}

/-- Without cursors there is nothing to rank. -/
theorem searchReturns_of_no_cursors {query : Str} (hnone : openCursors ix query = []) (k : Nat) (algorithm : Algorithm) :
    SearchReturns ix query k algorithm (ranked ix (sourcesFor ix query) k) := by
  have hsources : sourcesFor ix query = [] := List.map_eq_nil_iff.mp hnone
  have hnil : ranked ix [] k = [] := List.take_nil
  refine ⟨0, {}, ?_⟩
  rw [hsources, hnil]
  exact if_pos hnone

theorem daatOr_returns_ranked (hfits : FitsFormat docs) (hix : Represents bm25 docs ix) (query : Str) {k : Nat}
    (hk : 0 < k) : SearchReturns ix query k .daatOr (ranked ix (sourcesFor ix query) k) := by
  by_cases hnone : openCursors ix query = []
  · exact searchReturns_of_no_cursors hnone k .daatOr
  · obtain ⟨stats, fuel, hrun⟩ := daatOr_returns ix (sources_wellFormed hfits hix query) hk
    refine ⟨fuel, stats, ?_⟩
    rw [search, if_neg hnone]
    exact hrun

/-- Exhaustive search returns the answer, in whatever arithmetic. -/
theorem daatOr_returns_answer (hfits : FitsFormat docs) (hix : Represents bm25 docs ix) (query : Str) {k : Nat}
    (hk : 0 < k) : SearchReturns ix query k .daatOr (answer (accumulated bm25 docs query) docs query k) := by
  rw [← ranked_eq_answer hfits hix]
  exact daatOr_returns_ranked hfits hix query hk

end Search

theorem accumulated_eq_exactScore (bm25 : Bm25 ℚ) (docs : List Document) (query : Str) :
    accumulated bm25 docs query = exactScore bm25 docs query := by
  funext d
  have hnodup : ((queryTerms query).filter (· ∈ termsOf d)).Nodup :=
    ((queryTerms_ascending query).imp fun h => h.ne).filter _
  have hset : ((queryTerms query).filter (· ∈ termsOf d)).toFinset =
      (analyze query).toFinset.filter (· ∈ termsOf d) := by
    ext term
    rw [List.mem_toFinset, List.mem_filter, Finset.mem_filter, List.mem_toFinset, mem_queryTerms, decide_eq_true_iff]
  rw [accumulated, exactScore, ← hset, List.sum_toFinset _ hnodup, sum, List.sum_eq_foldl]

/-- End-to-end retrieval on every corpus that fits the format and has a term. -/
theorem search_eq_answer (log : ℚ → ℚ) (p : BM25Params ℚ) (corpus : Str) (hfits : FitsFormat (documents corpus))
    (hterm : ∃ d ∈ documents corpus, termsOf d ≠ []) (query : Str) (k : Nat) (hk : 1 ≤ k) :
    ∃ files ix, buildIndex (Bm25.exact log p) kSegmentDocs 0 corpus = .ok files ∧
      Reader.open (Bm25.exact log p) files = .ok ix ∧
      SearchReturns ix query k .daatOr
        (answer (exactScore (Bm25.exact log p) (documents corpus) query) (documents corpus) query k) := by
  have hvoc : vocabulary (documents corpus) ≠ [] := vocabulary_ne_nil_iff.mpr hterm
  obtain ⟨d, hd, -⟩ := hterm
  have hix := openedOn_represents (Bm25.exact log p) hfits
  refine ⟨_, _, buildIndex_eq _ (by decide) hfits (List.ne_nil_of_mem hd), open_indexOf hfits hvoc, ?_⟩
  rw [← accumulated_eq_exactScore]
  exact daatOr_returns_answer hfits hix query hk

/-- Two documents and a query that both share a term with. -/
theorem search_eq_answer_cats :
    ∃ files ix, buildIndex (Bm25.exact id BM25Params.default) kSegmentDocs 0 (lit "a\tcats\nb\ta cat\n") = .ok files ∧
      Reader.open (Bm25.exact id BM25Params.default) files = .ok ix ∧
      SearchReturns ix (lit "Cat") 1 .daatOr
        (answer (exactScore (Bm25.exact id BM25Params.default) (documents (lit "a\tcats\nb\ta cat\n")) (lit "Cat"))
          (documents (lit "a\tcats\nb\ta cat\n")) (lit "Cat") 1) :=
  search_eq_answer id BM25Params.default _ (fitsFormat_of_length_lt (by decide))
    ⟨⟨lit "a", lit "cats"⟩, by decide +kernel, by decide +kernel⟩ _ 1 le_rfl

/-- A corpus of `n` equal lines. -/
def equalLines (n : Nat) : Str := (List.replicate n (lit "a\tcat\n")).flatten

theorem documents_equalLines (n : Nat) : documents (equalLines n) = List.replicate n ⟨lit "a", lit "cat"⟩ := by
  have hline : documents (lit "a\tcat\n") = [⟨lit "a", lit "cat"⟩] := by decide +kernel
  have hterminated : ∀ line ∈ List.replicate n (lit "a\tcat\n"), Terminated line := by
    intro line hmem
    rw [List.eq_of_mem_replicate hmem]
    exact terminated_concat (lit "a\tcat")
  rw [equalLines, documents_flatten hterminated, List.flatMap_replicate, hline]
  exact List.flatten_replicate_singleton

/-- With `2 ^ 32` documents there is no index to search. -/
theorem no_index_of_two_pow :
    (∃ d ∈ documents (equalLines (2 ^ 32)), termsOf d ≠ []) ∧
      buildIndex (Bm25.exact id BM25Params.default) kSegmentDocs 0 (equalLines (2 ^ 32)) =
        .error .noDocumentsRead := by
  constructor
  · refine ⟨⟨lit "a", lit "cat"⟩, ?_, by decide +kernel⟩
    rw [documents_equalLines]
    exact List.mem_replicate.mpr ⟨by decide, rfl⟩
  · apply (noDocuments_iff _ (by decide) _).mpr
    rw [documents_equalLines, List.length_replicate]
    exact Nat.mod_self _

end CascadeSearch.Query.EndToEnd
