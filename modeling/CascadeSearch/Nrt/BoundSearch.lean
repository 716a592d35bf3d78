import CascadeSearch.Lib.Fallible
import CascadeSearch.Nrt.Publish

/-!
# Searching one segment (`module.cc`, `segment.py`)

An opened index next to the documents it was built from. The bound
`Index.search` answers with external ids, as text, in place of docids.
-/
namespace CascadeSearch.Nrt.BoundSearch

open Lib.TextFile
open Lib.Fallible (mapM_eq_map)
open Index.Format Index.Porter Index.Corpus Index.Inverted Index.Builder Index.MergePass Index.Fits
open Query Query.Heap Query.Reader Query.Search Query.Evaluate Query.Opened Query.Retrieval Query.Openable
open Tsv WriteSide Publish

/-- An index within the limits of the format, with the corpus it stands for. -/
structure OpenIndex (bm25 : Bm25 ℚ) where
  docs : List Document
  index : Index ℚ
  fits : FitsFormat docs
  represents : Represents bm25 docs index
  ids : ∀ d ∈ docs, ∃ id, d.externalId = encode id

variable {bm25 : Bm25 ℚ}

/-- `build_segment`, for corpora within the limits of the format. -/
def openBuilder (bm25 : Bm25 ℚ) : BuildSegment (OpenIndex bm25) where
  returns tsv ix := ix.docs = documents tsv ∧ buildSegment bm25 tsv = some ix.index
  docCount ix := ix.index.docCount

theorem openBuilder_docs (tsv : Str) (ix : OpenIndex bm25) (hreturns : (openBuilder bm25).returns tsv ix) :
    OpenIndex.docs ix = documents tsv := hreturns.1

theorem buildSegment_eq {tsv : Str} (hfits : FitsFormat (documents tsv)) (h : (buildSegment bm25 tsv).isSome) :
    buildSegment bm25 tsv = some (openedOn bm25 (documents tsv)) := by
  obtain ⟨hcount, hterm⟩ := buildSegment_isSome_iff.mp h
  have hbuild := buildIndex_eq bm25 (by decide : 0 < kSegmentDocs) hfits (docs_ne_nil_of_count hcount)
  rw [buildSegment, hbuild]
  dsimp only
  rw [open_indexOf hfits (vocabulary_ne_nil_iff.mpr hterm)]
  rfl

/-- On every file that a flush or a merge writes. -/
theorem openBuilder_returns_iff {text : Text} (hfits : FitsFormat (documents (encode text))) :
    (∃ ix, (openBuilder bm25).returns (encode text) ix) ↔ (buildSegment bm25 (encode text)).isSome := by
  constructor
  · intro h
    obtain ⟨ix, -, hbuilt⟩ := h
    simp [hbuilt]
  · intro h
    have hids : ∀ d ∈ documents (encode text), ∃ id, d.externalId = encode id := by
      intro d hd
      obtain ⟨e, rfl⟩ := documents_encode hd
      exact ⟨e.1, rfl⟩
    exact ⟨⟨_, _, hfits, openedOn_represents bm25 hfits, hids⟩, rfl, buildSegment_eq hfits h⟩

/-- The external id as Python sees it. -/
@[irreducible] def idText (externalId : Str) : Text := (decode externalId).getD []

/-- The bound `Index.search` without its statistics. It takes a 32-bit `k`, and
raises if an id is no text. -/
def IndexSearch (ix : Index ℚ) (query : Text) (k : Nat) (algorithm : Algorithm) (pairs : List (Text × ℚ)) : Prop :=
  k < 2 ^ 32 ∧ ∃ results, SearchReturns ix (encode query) k algorithm results ∧
    results.mapM (fun r => (decode (ix.externalId r.docid)).map fun id => (id, r.score)) = some pairs

namespace OpenIndex

/-- The matching documents, with their scores. -/
def scored (ix : OpenIndex bm25) (query : Text) : List (Result ℚ) :=
  (ix.docs.zipIdx.filter fun (d, _) => shares (encode query) d).map fun (d, docid) =>
    ⟨docid, accumulated bm25 ix.docs (encode query) d⟩

/-- All matching documents, the best score first. -/
def ranking (ix : OpenIndex bm25) (query : Text) : List (Text × ℚ) :=
  ((ix.scored query).insertionSort Result.Ranks).map fun r => (idText (ix.index.externalId r.docid), r.score)

/-- The ids of the scored results are those of the matching documents. -/
theorem scored_ids (ix : OpenIndex bm25) (query : Text) :
    (ix.scored query).map (fun r => idText (ix.index.externalId r.docid)) =
      (ix.docs.filter (shares (encode query))).map fun d => idText d.externalId := by
  have hpairs : (ix.docs.zipIdx.filter fun (d, _) => shares (encode query) d) =
      ix.docs.zipIdx.filter (shares (encode query) ∘ Prod.fst) := by
    apply List.filter_congr
    intro e _
    obtain ⟨d, docid⟩ := e
    rfl
  have hdocs : (ix.docs.zipIdx.filter (shares (encode query) ∘ Prod.fst)).map Prod.fst =
      ix.docs.filter (shares (encode query)) := by
    rw [← List.filter_map, List.zipIdx_map_fst]
  rw [← hdocs, scored, hpairs, List.map_map, List.map_map]
  apply List.map_congr_left
  intro e he
  obtain ⟨d, docid⟩ := e
  have hget : ix.docs[docid]? = some d := List.mem_zipIdx_iff_getElem?.mp (List.mem_filter.mp he).1
  have hid := ix.represents.externalId docid d hget
  rw [Function.comp_apply, Function.comp_apply]
  exact congrArg idText hid

theorem ranking_perm (ix : OpenIndex bm25) (query : Text) :
    ((ix.ranking query).map Prod.fst).Perm
      ((ix.docs.filter (shares (encode query))).map fun d => idText d.externalId) := by
  rw [← scored_ids, ranking, List.map_map]
  exact (List.perm_insertionSort Result.Ranks (ix.scored query)).map fun r => idText (ix.index.externalId r.docid)

/-- The ids of the index are text. -/
theorem decode_externalId (ix : OpenIndex bm25) (query : Text) {r : Result ℚ} (hr : r ∈ ix.scored query) :
    decode (ix.index.externalId r.docid) = some (idText (ix.index.externalId r.docid)) := by
  obtain ⟨⟨d, docid⟩, he, rfl⟩ := List.mem_map.mp hr
  have hget := List.mem_zipIdx_iff_getElem?.mp (List.mem_filter.mp he).1
  obtain ⟨id, hid⟩ := ix.ids d (List.mem_of_getElem? hget)
  simp [idText, ix.represents.externalId docid d hget, hid, decode_encode]

end OpenIndex

/-- Whatever the algorithm, a search returns the head of the ranking. -/
theorem indexSearch_iff {log : ℚ → ℚ} (hlog : ∀ x, 1 ≤ x → 0 ≤ log x)
    (ix : OpenIndex (Bm25.exact log BM25Params.default)) (query : Text) {k : Nat} (hk : 0 < k) (algorithm : Algorithm)
    (pairs : List (Text × ℚ)) :
    IndexSearch ix.index query k algorithm pairs ↔ k < 2 ^ 32 ∧ pairs = (ix.ranking query).take k := by
  have hreturns := searchReturns_ranked hlog ix.fits ix.represents (encode query) hk algorithm
  rw [ranked_eq_answer ix.fits ix.represents] at hreturns
  have hpairs : (((ix.scored query).insertionSort Result.Ranks).take k).mapM
      (fun r => (decode (ix.index.externalId r.docid)).map fun id => (id, r.score)) =
        some ((ix.ranking query).take k) := by
    rw [OpenIndex.ranking, ← List.map_take]
    apply mapM_eq_map
    intro r hr
    have hmem := (List.perm_insertionSort Result.Ranks (ix.scored query)).subset (List.mem_of_mem_take hr)
    rw [ix.decode_externalId query hmem]
    rfl
  constructor
  · intro h
    obtain ⟨hlt, results, hsearch, hmap⟩ := h
    rw [hsearch.unique hreturns] at hmap
    exact ⟨hlt, Option.some.inj (hmap.symm.trans hpairs)⟩
  · intro h
    exact ⟨h.1, _, hreturns, h.2 ▸ hpairs⟩

end CascadeSearch.Nrt.BoundSearch
