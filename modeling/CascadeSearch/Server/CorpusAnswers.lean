import CascadeSearch.Query.Openable
import CascadeSearch.Server.Answered

/-!
# From the corpus file to the response

The index is built from a corpus file, opened and served. Whatever algorithm is
configured and however the calls interleave, a response is the answer that the
text of the corpus gives.
-/
namespace CascadeSearch.Server.CorpusAnswers

open Index.Format Index.Analyzer Index.Corpus Index.Inverted Index.Builder Index.Porter Index.Fits Index.MergePass
open Query Query.Reader Query.Search Query.Opened Query.Retrieval Query.EndToEnd Query.Openable
open SearchService Rpc

section Search

variable {log : ℚ → ℚ} {docs : List Document} {ix : Index ℚ}

/-- Every algorithm returns the answer, or reads the top of an empty heap. -/
theorem searchReturns_iff_answer (hlog : ∀ x, 1 ≤ x → 0 ≤ log x) (hfits : FitsFormat docs)
    (hix : Represents (Bm25.exact log BM25Params.default) docs ix) (query : Str) (k : Nat) (algorithm : Algorithm)
    (results : List (Heap.Result ℚ)) :
    SearchReturns ix query k algorithm results ↔
      (k = 0 → ∀ d ∈ docs, shares query d = false) ∧
        results = answer (exactScore (Bm25.exact log BM25Params.default) docs query) docs query k := by
  rw [← searchReturns_iff hlog hfits hix query k algorithm, ← accumulated_eq_exactScore,
    ← ranked_eq_answer hfits hix]
  have hranked : (∃ results, SearchReturns ix query k algorithm results) →
      SearchReturns ix query k algorithm (Pruning.ranked ix (sourcesFor ix query) k) := by
    intro hreturns
    rcases Nat.eq_zero_or_pos k with rfl | hk
    · have hnone := (openCursors_eq_nil_iff hfits hix).mpr ((searchReturns_iff hlog hfits hix query 0 algorithm).mp
        hreturns rfl)
      exact searchReturns_of_no_cursors hnone 0 algorithm
    · exact searchReturns_ranked hlog hfits hix query hk algorithm
  constructor
  · intro hreturns
    exact ⟨⟨results, hreturns⟩, hreturns.unique (hranked ⟨results, hreturns⟩)⟩
  · rintro ⟨hreturns, rfl⟩
    exact hranked hreturns

end Search

/-- `answer` in the scoring of the builder. -/
def corpusAnswer (log : ℚ → ℚ) (corpus : Str) (request : SearchRequest) : List (Heap.Result ℚ) :=
  answer (exactScore (Bm25.exact log BM25Params.default) (documents corpus) request.query) (documents corpus)
    request.query request.k

/-- Built, opened and served: whatever the order of steps, a call that returns
OK has the answer of the corpus, and as long as every call asks for a result
none is left waiting. -/
theorem served_from_corpus {ι : Type} [DecidableEq ι] (log : ℚ → ℚ) (hlog : ∀ x, 1 ≤ x → 0 ≤ log x) (corpus : Str)
    (hfits : FitsFormat (documents corpus)) (hterm : ∃ d ∈ documents corpus, termsOf d ≠ []) :
    ∃ files ix, buildIndex (Bm25.exact log BM25Params.default) kSegmentDocs 0 corpus = .ok files ∧
      Reader.open (Bm25.exact log BM25Params.default) files = .ok ix ∧
      ∀ (algorithm : Algorithm) (n queueDepth cacheCapacity : Nat) (requests : ι → SearchRequest) (s : State ℚ ι n),
        (server ix algorithm n queueDepth cacheCapacity requests).Reachable s →
          (∀ i, s.handlers i = .returned .ok →
            (s.service.calls i).response.results = corpusAnswer log corpus (requests i)) ∧
          (0 < n → s.pool.queue.shuttingDown = false → (∀ i, 1 ≤ (requests i).k) →
            Stuck ix algorithm requests s → ∀ i, s.handlers i ≠ .waiting) := by
  have hvoc : vocabulary (documents corpus) ≠ [] := vocabulary_ne_nil_iff.mpr hterm
  obtain ⟨d, hd, -⟩ := hterm
  have hix := openedOn_represents (Bm25.exact log BM25Params.default) hfits
  refine ⟨_, _, buildIndex_eq _ (by decide) hfits (List.ne_nil_of_mem hd), open_indexOf hfits hvoc, ?_⟩
  intro algorithm n queueDepth cacheCapacity requests s hs
  constructor
  · intro i hok
    rcases returned_of_reachable hs hok with ⟨hfull, -⟩ | ⟨-, -, hreturns⟩
    · exact absurd hfull.symm Status.queueFull_ne_ok
    · exact ((searchReturns_iff_answer hlog hfits hix _ _ algorithm _).mp hreturns).2
  · intro hn hup hk hstuck
    have hsearch : ∀ i, ∃ results, SearchReturns (openedOn (Bm25.exact log BM25Params.default) (documents corpus))
        (requests i).query (requests i).k algorithm results := fun i =>
      (searchReturns_iff hlog hfits hix _ _ algorithm).mpr fun hzero => absurd hzero (Nat.ne_of_gt (hk i))
    exact not_waiting_of_stuck hn hsearch hs hup hstuck

/-- Two documents, served to the calls of `foxRequests`. -/
theorem served_from_corpus_fox :
    ∃ files ix, buildIndex (Bm25.exact (fun x => x - 1) BM25Params.default) kSegmentDocs 0 (lit "a\tfox\nb\ta fox\n") = .ok files ∧
      Reader.open (Bm25.exact (fun x => x - 1) BM25Params.default) files = .ok ix ∧
      ∀ s, (server ix .blockMaxWand 2 1 1 foxRequests).Reachable s → s.handlers true = .returned .ok →
        (s.service.calls true).response.results =
          corpusAnswer (fun x => x - 1) (lit "a\tfox\nb\ta fox\n") (foxRequests true) := by
  obtain ⟨files, ix, hbuild, hopen, hserved⟩ := served_from_corpus (ι := Bool) (fun x => x - 1)
    (fun x hx => sub_nonneg.mpr hx) (lit "a\tfox\nb\ta fox\n") (fitsFormat_of_length_lt (by decide))
    ⟨⟨lit "a", lit "fox"⟩, by decide +kernel, by decide +kernel⟩
  exact ⟨files, ix, hbuild, hopen, fun s hs => (hserved .blockMaxWand 2 1 1 foxRequests s hs).1 true⟩

end CascadeSearch.Server.CorpusAnswers
