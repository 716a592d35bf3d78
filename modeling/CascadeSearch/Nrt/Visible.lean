import CascadeSearch.Nrt.Merging
import CascadeSearch.Nrt.ResultPage

/-!
# What a search over a changing index sees (`index.py`, `segment.py`)

As long as no id is added twice, every search of a run returns the head of one
ranking, of exactly the documents that were flushed, match the query and are
not deleted. Flushes and merges decide only which scores the documents carry.
-/
namespace CascadeSearch.Nrt.Visible

open Lib.StableSort Lib.TextFile Lib.Transition
open Index.Format Index.Porter Index.Corpus Index.Inverted Index.Builder Index.MergePass Index.Fits
open Query.Heap Query.Reader Query.Search Query.Opened Query.Retrieval
open FanOut Tsv WriteSide Conservation Merging Publish BoundSearch ResultPage

variable {Ix : Type} {bm25 : Bm25 ℚ}

/-- The ids a run has passed to `delete`. -/
def deleted (trace : List (Action Ix)) : Finset Text :=
  (trace.filterMap fun
    | .delete externalId => some externalId
    | _ => none).toFinset

/-- A document that a search for the query may return. -/
def matchesLive (tombstones : Finset Text) (query : Text) (d : Document) : Bool :=
  decide (idText d.externalId ∉ tombstones) && shares (encode query) d

def visible (docs : List Document) (tombstones : Finset Text) (query : Text) : List Text :=
  (docs.filter (matchesLive tombstones query)).map fun d => idText d.externalId

/-- The same for one segment, with the scores its own statistics give. -/
def segmentMatches (tombstones : Finset Text) (query : Text) (seg : Segment (OpenIndex bm25)) : List (Text × ℚ) :=
  (seg.index.docs.filter (matchesLive tombstones query)).map fun d =>
    (idText d.externalId, accumulated bm25 seg.index.docs (encode query) d)

theorem deleted_concat (trace : List (Action Ix)) (action : Action Ix) :
    deleted (trace ++ [action]) = deleted trace ∪ deleted [action] := by
  rw [deleted, List.filterMap_append, List.toFinset_append]
  rfl

theorem flushLocked_tombstones (cfg : Config) (builder : BuildSegment Ix) (built : Option Ix) (now : ℚ)
    (s : NrtIndex Ix) : (flushLocked cfg builder built now s).tombstones = s.tombstones := by
  obtain ⟨-, heq⟩ | ⟨-, ⟨-, heq⟩ | ⟨index, -, heq⟩⟩ := flushLocked_cases cfg builder built now s
  · rw [heq]
  · rw [heq]
    rfl
  · obtain ⟨flag, next, queue, hframe⟩ := maybeScheduleMergeLocked_frame cfg (published cfg builder index now s)
    rw [heq, hframe]
    rfl

theorem swapMerged_tombstones (cfg : Config) (job : Job Ix) (merged : Segment Ix) (s : NrtIndex Ix) :
    (swapMerged cfg job merged s).tombstones = s.tombstones := by
  obtain ⟨flag, next, queue, hframe⟩ := maybeScheduleMergeLocked_frame cfg (swapped job merged s)
  rw [swapMerged_eq, hframe]
  split <;> rfl

/-- Only `delete` adds a tombstone. -/
theorem tombstones_step {cfg : Config} {builder : BuildSegment Ix} {s s' : NrtIndex Ix} {action : Action Ix}
    (h : Step cfg builder s action s') : s'.tombstones = s.tombstones ∪ deleted [action] := by
  cases h with
  | add d clock built now returns =>
    rw [WriteSide.add]
    split
    · exact (flushLocked_tombstones cfg builder built now _).trans (Finset.union_empty _).symm
    · exact (Finset.union_empty _).symm
  | flush built now returns => exact (flushLocked_tombstones cfg builder built now s).trans (Finset.union_empty _).symm
  | delete externalId => exact (Finset.union_singleton _ _).symm
  | swap worker => exact (swapMerged_tombstones cfg _ _ s).trans (Finset.union_empty _).symm
  | search => exact (Finset.union_empty _).symm
  | startMerge worker jobs => exact (Finset.union_empty _).symm
  | buildMerge worker read returns => exact (Finset.union_empty _).symm
  | mergeRaises worker => exact (Finset.union_empty _).symm
  | buildRaises worker read => exact (Finset.union_empty _).symm
  | mergeFailed worker => exact (Finset.union_empty _).symm
  | removeFiles worker => exact (Finset.union_empty _).symm
  | cleaned worker => exact (Finset.union_empty _).symm
  | close => exact (Finset.union_empty _).symm

theorem tombstones_of_run {cfg : Config} {builder : BuildSegment Ix} {initial : List (Segment Ix)}
    {files : Path → Option Str} {trace : List (Action Ix)} {s : NrtIndex Ix}
    (hrun : (nrtIndex cfg builder initial files).Run trace s) : s.tombstones = deleted trace := by
  apply hrun.invariant fun trace s => s.tombstones = deleted trace
  · intro s hinit
    obtain ⟨ident, now, -, rfl⟩ := hinit
    rfl
  · intro trace s action s' ih hstep
    rw [tombstones_step hstep, ih, deleted_concat]

theorem scored_pairs (ix : OpenIndex bm25) (query : Text) :
    (ix.scored query).map (fun r => (idText (ix.index.externalId r.docid), r.score)) =
      (ix.docs.filter (shares (encode query))).map fun d =>
        (idText d.externalId, accumulated bm25 ix.docs (encode query) d) := by
  have hscored : ix.scored query = (ix.docs.zipIdx.filter (shares (encode query) ∘ Prod.fst)).map fun e =>
      ⟨e.2, accumulated bm25 ix.docs (encode query) e.1⟩ := rfl
  have hdocs : (ix.docs.zipIdx.filter (shares (encode query) ∘ Prod.fst)).map Prod.fst =
      ix.docs.filter (shares (encode query)) := by
    rw [← List.filter_map, List.zipIdx_map_fst]
  rw [← hdocs, hscored, List.map_map, List.map_map]
  apply List.map_congr_left
  intro e he
  obtain ⟨d, docid⟩ := e
  have hget : ix.docs[docid]? = some d := List.mem_zipIdx_iff_getElem?.mp (List.mem_filter.mp he).1
  rw [Function.comp_apply, Function.comp_apply]
  simp only [ix.represents.externalId docid d hget]

/-- The best score first. -/
theorem ranking_sorted (ix : OpenIndex bm25) (query : Text) :
    (ix.ranking query).Pairwise fun a b => b.2 ≤ a.2 := by
  rw [OpenIndex.ranking, List.pairwise_map]
  refine (List.pairwise_insertionSort Result.Ranks (ix.scored query)).imp fun {a b} h => ?_
  rcases h with h | h
  · exact h.le
  · exact h.1.ge

theorem live_ranking_perm (ix : OpenIndex bm25) (tombstones : Finset Text) (query : Text) :
    (live tombstones (ix.ranking query)).Perm ((ix.docs.filter (matchesLive tombstones query)).map fun d =>
      (idText d.externalId, accumulated bm25 ix.docs (encode query) d)) := by
  have hranking : (ix.ranking query).Perm ((ix.docs.filter (shares (encode query))).map fun d =>
      (idText d.externalId, accumulated bm25 ix.docs (encode query) d)) := by
    rw [← scored_pairs]
    exact (List.perm_insertionSort Result.Ranks (ix.scored query)).map _
  have hlive := hranking.filter fun r => r.1 ∉ tombstones
  rw [List.filter_map, List.filter_filter] at hlive
  exact hlive

/-- All live matches of all segments, the best score first and ties in segment
order. -/
def wholeRanking (s : NrtIndex (OpenIndex bm25)) (query : Text) : List (Text × ℚ) :=
  sortByScore ((rankings s query).flatMap (live s.tombstones))

theorem wholeRanking_perm (s : NrtIndex (OpenIndex bm25)) (query : Text) :
    (wholeRanking s query).Perm (s.segments.flatMap (segmentMatches s.tombstones query)) := by
  have hsort : (wholeRanking s query).Perm ((rankings s query).flatMap (live s.tombstones)) :=
    List.perm_insertionSort _ _
  refine hsort.trans ?_
  rw [rankings, List.flatMap_map]
  exact List.Perm.flatMap_left _ fun seg _ => live_ranking_perm seg.index s.tombstones query

theorem segmentMatches_ids (tombstones : Finset Text) (query : Text) (segments : List (Segment (OpenIndex bm25))) :
    (segments.flatMap (segmentMatches tombstones query)).map Prod.fst =
      visible (held OpenIndex.docs segments) tombstones query := by
  rw [visible, held, List.filter_flatMap, List.map_flatMap, List.map_flatMap]
  refine List.flatMap_congr fun seg _ => ?_
  rw [segmentMatches, List.map_map]
  rfl

/-- No page is short where no segment holds an id twice. -/
theorem take_merged (s : NrtIndex (OpenIndex bm25)) (query : Text) (k : Nat)
    (hids : ∀ ranking ∈ rankings s query, (ranking.map Prod.fst).Nodup) :
    (sortByScore (merged s.tombstones k (rankings s query))).take k = (wholeRanking s query).take k := by
  have hcut : List.Forall₂ (CutAt (fun a b : Text × ℚ => b.2 ≤ a.2) k)
      ((rankings s query).map (live s.tombstones))
      ((rankings s query).map fun ranking => live s.tombstones (fetched s.tombstones k ranking)) := by
    rw [List.forall₂_map_left_iff, List.forall₂_map_right_iff, List.forall₂_same]
    intro ranking hranking
    obtain ⟨seg, -, rfl⟩ := List.mem_map.mp hranking
    exact cutAt_overFetch (ranking_sorted seg.index query) (hids _ hranking) s.tombstones k
  have htake := take_insertionSort_flatten hcut
  rw [← List.flatMap_def, ← List.flatMap_def] at htake
  exact htake.symm

/-- The ids of a segment's ranking are ids of documents it holds. -/
theorem rankings_nodup {s : NrtIndex (OpenIndex bm25)}
    (hids : ((held OpenIndex.docs s.segments).map fun d => idText d.externalId).Nodup) (query : Text) :
    ∀ ranking ∈ rankings s query, (ranking.map Prod.fst).Nodup := by
  intro ranking hranking
  obtain ⟨seg, hseg, rfl⟩ := List.mem_map.mp hranking
  refine (seg.index.ranking_perm query).nodup_iff.mpr (hids.sublist ?_)
  refine (List.filter_sublist.trans ?_).map _
  exact List.sublist_flatten_of_mem (List.mem_map_of_mem hseg)

/-- In every state of a run that adds no id twice, some of the added documents
are flushed, and every search returns the head of one ranking: of the initial
and the flushed documents that match and are not deleted, each with the score of
its segment. -/
theorem nrt_search_exact (log : ℚ → ℚ) (hlog : ∀ x, 1 ≤ x → 0 ≤ log x) (cfg : Config)
    (initial : List (Segment (OpenIndex (Bm25.exact log BM25Params.default)))) (files : Path → Option Str)
    (hprepared : Prepared OpenIndex.docs cfg initial files)
    {trace : List (Action (OpenIndex (Bm25.exact log BM25Params.default)))}
    {s : NrtIndex (OpenIndex (Bm25.exact log BM25Params.default))}
    (hrun : (nrtIndex cfg (openBuilder (Bm25.exact log BM25Params.default)) initial files).Run trace s)
    (hplain : ∀ d ∈ added trace, Plain d)
    (hids : ((held OpenIndex.docs initial ++ (added trace).map encodeDocument).map
      fun d => idText d.externalId).Nodup) :
    ∃ flushed, added trace = flushed ++ s.buffer ∧ ∀ query, ∃ ranking : List (Text × ℚ),
      ranking.Perm (s.segments.flatMap (segmentMatches (deleted trace) query)) ∧
      ranking.Pairwise (fun a b => b.2 ≤ a.2) ∧
      (ranking.map Prod.fst).Perm
        (visible (held OpenIndex.docs initial ++ flushed.map encodeDocument) (deleted trace) query) ∧
      (ranking.map Prod.fst).Nodup ∧
      ∀ k algorithm page, 1 ≤ k → k + (deleted trace).card < 2 ^ 32 →
        (SearchReturnsPage s query k algorithm page ↔ page = ranking.take k) := by
  obtain ⟨flushed, hadded, hheld⟩ := (inv_of_run openBuilder_docs hprepared hrun hplain).conserved
  have hflushed : ((held OpenIndex.docs s.segments).map fun d => idText d.externalId).Nodup := by
    refine (hheld.map _).nodup_iff.mpr (hids.sublist (List.Sublist.map _ ?_))
    rw [hadded, List.map_append, ← List.append_assoc]
    exact List.sublist_append_left _ _
  have htombstones := tombstones_of_run hrun
  refine ⟨flushed, hadded, fun query => ⟨wholeRanking s query, ?_, ?_, ?_, ?_, ?_⟩⟩
  · rw [← htombstones]
    exact wholeRanking_perm s query
  · exact List.pairwise_insertionSort _ _
  · refine ((wholeRanking_perm s query).map Prod.fst).trans ?_
    rw [segmentMatches_ids, htombstones]
    exact (hheld.filter _).map _
  · refine ((wholeRanking_perm s query).map Prod.fst).nodup_iff.mpr ?_
    rw [segmentMatches_ids]
    exact hflushed.sublist (List.filter_sublist.map _)
  · intro k algorithm page hk hcount
    rw [searchReturnsPage_iff hlog s query hk, take_merged s query k (rankings_nodup hflushed query)]
    exact ⟨fun h => h.2, fun h => ⟨Or.inr (htombstones ▸ hcount), h⟩⟩

def pair : List (Text × Text) := [catDocument ['a'], catDocument ['b']]

theorem documents_pair : documents (flushTsv pair) = pair.map encodeDocument := by decide +kernel

theorem pair_returns : ∃ ix, (openBuilder (Bm25.exact nearOne BM25Params.default)).returns (flushTsv pair) ix := by
  refine (openBuilder_returns_iff (fitsFormat_of_length_lt (by decide +kernel))).mpr (buildSegment_isSome_iff.mpr ?_)
  have hdocs : documents (encode (pair.flatMap tsvLine)) = pair.map encodeDocument := documents_pair
  rw [hdocs]
  exact ⟨by decide, _, List.mem_cons_self, by decide +kernel⟩

/-- Both added and flushed, and the first one deleted. -/
def pairTrace : List (Action (OpenIndex (Bm25.exact nearOne BM25Params.default))) :=
  [.add (catDocument ['a']), .add (catDocument ['b']), .flush, .delete ['a']]

theorem pairTrace_run : ∃ s, (nrtIndex batchConfig (openBuilder _) [] fun _ => none).Run pairTrace s ∧ s.buffer = [] := by
  obtain ⟨ix, hreturns⟩ := pair_returns
  have hstart : (nrtIndex batchConfig (openBuilder (Bm25.exact nearOne BM25Params.default)) [] fun _ => none).Run []
      (bufferedState []) := .init ⟨0, 0, fun seg hseg => absurd hseg List.not_mem_nil, rfl⟩
  have hbuffered := (hstart.step (add_buffered (by decide) (catDocument ['a']))).step
    (add_buffered (by decide) (catDocument ['b']))
  have hflush : Step batchConfig (openBuilder _) (bufferedState pair) .flush
      (flushLocked batchConfig (openBuilder _) (some ix) 0 (bufferedState pair)) :=
    .flush (some ix) 0 fun index hindex => by
      cases hindex
      exact hreturns
  exact ⟨_, (hbuffered.step hflush).step (.delete ['a']), rfl⟩

/-- The search returns the other one. -/
theorem nrt_search_exact_pair : ∃ s, (nrtIndex batchConfig (openBuilder _) [] fun _ => none).Run pairTrace s ∧
    ∀ algorithm page, SearchReturnsPage s ['c', 'a', 't'] 5 algorithm page → page.map Prod.fst = [['b']] := by
  obtain ⟨s, hrun, hbuffer⟩ := pairTrace_run
  refine ⟨s, hrun, fun algorithm page hreturns => ?_⟩
  have hida : idText (encodeDocument (catDocument ['a'])).externalId = ['a'] := idText_encode ['a']
  have hidb : idText (encodeDocument (catDocument ['b'])).externalId = ['b'] := idText_encode ['b']
  have hplain : ∀ d ∈ added pairTrace, Plain d := by
    intro d hd
    rcases List.mem_cons.mp hd with rfl | hd
    · exact ⟨by constructor <;> decide, by decide⟩
    · rw [List.mem_singleton.mp hd]
      exact ⟨by constructor <;> decide, by decide⟩
  obtain ⟨flushed, hadded, hsearch⟩ := nrt_search_exact nearOne nearOne_nonneg batchConfig [] (fun _ => none)
    ⟨List.nodup_nil, by simp, by simp⟩ hrun hplain (by
      change (([catDocument ['a'], catDocument ['b']].map encodeDocument).map fun d => idText d.externalId).Nodup
      simp only [List.map_cons, List.map_nil, hida, hidb]
      decide)
  have hflushed : flushed = pair := by
    rw [hbuffer, List.append_nil] at hadded
    exact hadded.symm
  obtain ⟨ranking, -, -, hids, -, hpage⟩ := hsearch ['c', 'a', 't']
  have hvisible : visible (pair.map encodeDocument) {['a']} ['c', 'a', 't'] = [['b']] := by
    have hshares : ∀ d ∈ pair.map encodeDocument, shares (encode ['c', 'a', 't']) d = true := by decide +kernel
    have hshared := hshares (encodeDocument (catDocument ['b'])) (by decide)
    simp [visible, pair, matchesLive, hida, hidb, hshared]
  have hone : ranking.map Prod.fst = [['b']] := by
    rw [hflushed] at hids
    exact List.perm_singleton.mp (hids.trans (List.Perm.of_eq hvisible))
  have hall := (hpage 5 algorithm page (by decide) (by decide)).mp hreturns
  rw [hall, List.map_take, hone]
  rfl

end CascadeSearch.Nrt.Visible
