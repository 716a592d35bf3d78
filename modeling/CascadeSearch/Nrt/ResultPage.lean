import CascadeSearch.Nrt.BoundSearch
import CascadeSearch.Nrt.Conservation

/-!
# How long a result page is (`segment.py`)

Every segment is asked for `k` matches and as many more as there are deleted
ids. The deleted ones among them leave room for `k` others as long as a segment
holds no id more than once.
-/
namespace CascadeSearch.Nrt.ResultPage

open Lib.TextFile Lib.Transition
open Index.Format Index.Porter Index.Corpus Index.Inverted Index.Builder Index.MergePass Index.Fits
open Query.Heap Query.Reader Query.Search Query.Opened Query.Retrieval
open FanOut Tsv WriteSide Conservation Publish BoundSearch

section Rankings

variable {S : Type} (tombstones : Finset Text) (k : Nat)

def live (pairs : List (Text × S)) : List (Text × S) := pairs.filter fun r => r.1 ∉ tombstones

def dead (pairs : List (Text × S)) : List (Text × S) := pairs.filter fun r => r.1 ∈ tombstones

/-- What a segment with this ranking is asked for. -/
def fetched (ranking : List (Text × S)) : List (Text × S) := ranking.take (k + tombstones.card)

def unfetched (ranking : List (Text × S)) : List (Text × S) := ranking.drop (k + tombstones.card)

def merged (rankings : List (List (Text × S))) : List (Text × S) :=
  rankings.flatMap fun ranking => live tombstones (fetched tombstones k ranking)

/-- A ranking goes on with live matches below the fetched ones, and the deleted
ones among these outnumber the tombstones by more than all other segments have
to offer. -/
def Overflows (rankings : List (List (Text × S))) : Prop :=
  ∃ front ranking back, rankings = front ++ ranking :: back ∧ live tombstones (unfetched tombstones k ranking) ≠ [] ∧
    tombstones.card + (merged tombstones k (front ++ back)).length < (dead tombstones (fetched tombstones k ranking)).length

theorem live_split (ranking : List (Text × S)) : live tombstones (fetched tombstones k ranking) ++
    live tombstones (unfetched tombstones k ranking) = live tombstones ranking := by
  rw [live, live, ← List.filter_append, fetched, unfetched, List.take_append_drop]
  rfl

theorem merged_append (front back : List (List (Text × S))) :
    merged tombstones k (front ++ back) = merged tombstones k front ++ merged tombstones k back := List.flatMap_append

theorem merged_sublist (rankings : List (List (Text × S))) :
    (merged tombstones k rankings).Sublist (rankings.flatMap (live tombstones)) := by
  induction rankings with
  | nil => exact List.Sublist.slnil
  | cons ranking rankings ih =>
    rw [merged, List.flatMap_cons, List.flatMap_cons, ← live_split tombstones k ranking]
    exact (List.sublist_append_left _ _).append ih

variable {tombstones k}

/-- The live and the deleted of a full answer. -/
theorem length_fetched {ranking : List (Text × S)} (h : live tombstones (unfetched tombstones k ranking) ≠ []) :
    (live tombstones (fetched tombstones k ranking)).length + (dead tombstones (fetched tombstones k ranking)).length =
      k + tombstones.card := by
  have hlonger : k + tombstones.card < ranking.length := by
    by_contra hshort
    have hnil : unfetched tombstones k ranking = [] := List.drop_eq_nil_of_le (Nat.le_of_not_lt hshort)
    rw [hnil] at h
    exact h rfl
  have hfetched : (fetched tombstones k ranking).length = k + tombstones.card := by
    rw [fetched, List.length_take, Nat.min_eq_left hlonger.le]
  rw [← hfetched]
  exact length_live_add_tombstoned _ _

/-- Both short of `k` and short of the live matches. -/
theorem length_merged_of_overflows {rankings : List (List (Text × S))} (h : Overflows tombstones k rankings) :
    (merged tombstones k rankings).length < k ∧
      (merged tombstones k rankings).length < (rankings.flatMap (live tombstones)).length := by
  obtain ⟨front, ranking, back, rfl, hmore, hdead⟩ := h
  have hsum := length_fetched hmore
  have hsplit := congrArg List.length (live_split tombstones k ranking)
  have hpos := List.length_pos_iff.mpr hmore
  have hfront := (merged_sublist tombstones k front).length_le
  have hback := (merged_sublist tombstones k back).length_le
  have hcons : merged tombstones k (ranking :: back) =
      live tombstones (fetched tombstones k ranking) ++ merged tombstones k back := List.flatMap_cons
  rw [merged_append, List.length_append] at hdead
  rw [List.length_append] at hsplit
  rw [merged_append, hcons, List.flatMap_append, List.flatMap_cons]
  simp only [List.length_append]
  omega

/-- All live matches, or enough of them. -/
theorem merged_of_not_overflows {rankings : List (List (Text × S))} (h : ¬ Overflows tombstones k rankings) :
    merged tombstones k rankings = rankings.flatMap (live tombstones) ∨ k ≤ (merged tombstones k rankings).length := by
  by_cases hall : ∀ ranking ∈ rankings, live tombstones (unfetched tombstones k ranking) = []
  · refine Or.inl (List.flatMap_congr fun ranking hmem => ?_)
    rw [← live_split tombstones k ranking, hall ranking hmem, List.append_nil]
  · refine Or.inr (Nat.le_of_not_lt fun hshort => h ?_)
    push Not at hall
    obtain ⟨ranking, hmem, hmore⟩ := hall
    obtain ⟨front, back, rfl⟩ := List.append_of_mem hmem
    have hsum := length_fetched hmore
    have hcons : merged tombstones k (ranking :: back) =
        live tombstones (fetched tombstones k ranking) ++ merged tombstones k back := List.flatMap_cons
    rw [merged_append, hcons] at hshort
    refine ⟨front, ranking, back, rfl, hmore, ?_⟩
    rw [merged_append]
    simp only [List.length_append] at hshort ⊢
    omega

/-- A segment that holds no id twice has at most one deleted document for each
tombstone. -/
theorem not_overflows_of_nodup {rankings : List (List (Text × S))}
    (h : ∀ ranking ∈ rankings, (ranking.map Prod.fst).Nodup) : ¬ Overflows tombstones k rankings := by
  intro hover
  obtain ⟨front, ranking, back, rfl, -, hdead⟩ := hover
  have hids := h ranking (List.mem_append_right _ List.mem_cons_self)
  have hle := length_tombstoned_le (hids.sublist ((List.take_sublist (k + tombstones.card) ranking).map Prod.fst)) tombstones
  exact absurd hdead (Nat.not_lt.mpr (hle.trans (Nat.le_add_right _ _)))

theorem not_overflows_of_short {rankings : List (List (Text × S))}
    (h : ∀ ranking ∈ rankings, ranking.length ≤ k + tombstones.card) : ¬ Overflows tombstones k rankings := by
  intro hover
  obtain ⟨front, ranking, back, rfl, hmore, -⟩ := hover
  have hnil : unfetched tombstones k ranking = [] :=
    List.drop_eq_nil_of_le (h ranking (List.mem_append_right _ List.mem_cons_self))
  rw [hnil] at hmore
  exact hmore rfl

end Rankings

variable {bm25 : Bm25 ℚ}

/-- The flushed documents that match the query and are not deleted. -/
def liveMatches (s : NrtIndex (OpenIndex bm25)) (query : Text) : List Document :=
  (held OpenIndex.docs s.segments).filter fun d =>
    decide (idText d.externalId ∉ s.tombstones) && shares (encode query) d

/-- The page has `k` results, or all there are. -/
def Full (s : NrtIndex (OpenIndex bm25)) (query : Text) (k : Nat) (page : List (Text × ℚ)) : Prop :=
  (k ≤ (liveMatches s query).length → page.length = k) ∧
  ((liveMatches s query).length < k →
    (page.map Prod.fst).Perm ((liveMatches s query).map fun d => idText d.externalId))

/-- `NrtIndex.search` on a snapshot returns this page. -/
def SearchReturnsPage (s : NrtIndex (OpenIndex bm25)) (query : Text) (k : Nat) (algorithm : Algorithm)
    (page : List (Text × ℚ)) : Prop :=
  ∃ indexSearch : OpenIndex bm25 → Text → Nat → Algorithm → List (Text × ℚ),
    (∀ seg ∈ s.segments, IndexSearch seg.index.index query (k + s.tombstones.card) algorithm
      (indexSearch seg.index query (k + s.tombstones.card) algorithm)) ∧
    page = SegmentSet.search ⟨s.segments, s.tombstones⟩ indexSearch query k algorithm

def rankings (s : NrtIndex (OpenIndex bm25)) (query : Text) : List (List (Text × ℚ)) :=
  s.segments.map fun seg => seg.index.ranking query

theorem search_eq_merged (set : SegmentSet (OpenIndex bm25))
    (indexSearch : OpenIndex bm25 → Text → Nat → Algorithm → List (Text × ℚ)) (query : Text) (k : Nat)
    (algorithm : Algorithm) (h : ∀ seg ∈ set.segments, indexSearch seg.index query (k + set.tombstones.card) algorithm =
      fetched set.tombstones k (seg.index.ranking query)) :
    set.search indexSearch query k algorithm =
      (sortByScore (merged set.tombstones k (set.segments.map fun seg => seg.index.ranking query))).take k := by
  by_cases hempty : set.segments = []
  · rw [SegmentSet.search, if_pos hempty, hempty]
    exact List.take_nil.symm
  · rw [SegmentSet.search, if_neg hempty]
    have hmerged : merged set.tombstones k (set.segments.map fun seg => seg.index.ranking query) =
        (set.segments.map fun seg => indexSearch seg.index query (k + set.tombstones.card) algorithm).flatMap
          fun pairs => pairs.filter fun r => r.1 ∉ set.tombstones := by
      rw [merged, List.flatMap_map, List.flatMap_map]
      apply List.flatMap_congr
      intro seg hseg
      rw [h seg hseg]
      rfl
    rw [hmerged]

/-- The live matches of the rankings are those of the documents. -/
theorem live_rankings_perm (s : NrtIndex (OpenIndex bm25)) (query : Text) :
    (((rankings s query).flatMap (live s.tombstones)).map Prod.fst).Perm
      ((liveMatches s query).map fun d => idText d.externalId) := by
  rw [rankings, liveMatches]
  induction s.segments with
  | nil => exact List.Perm.refl _
  | cons seg segments ih =>
    have hheld : held OpenIndex.docs (seg :: segments) = seg.index.docs ++ held OpenIndex.docs segments :=
      List.flatMap_cons
    rw [List.map_cons, List.flatMap_cons, List.map_append, hheld, List.filter_append, List.map_append]
    refine List.Perm.append ?_ ih
    have hlive := (seg.index.ranking_perm query).filter fun externalId => externalId ∉ s.tombstones
    rw [List.filter_map, List.filter_map, List.filter_filter] at hlive
    exact hlive

theorem full_iff (s : NrtIndex (OpenIndex bm25)) (query : Text) (k : Nat) :
    Full s query k ((sortByScore (merged s.tombstones k (rankings s query))).take k) ↔
      ¬ Overflows s.tombstones k (rankings s query) := by
  have hperm := live_rankings_perm s query
  have hcount := hperm.length_eq
  rw [List.length_map, List.length_map] at hcount
  have hpage : ((sortByScore (merged s.tombstones k (rankings s query))).take k).length =
      min k (merged s.tombstones k (rankings s query)).length := by
    rw [List.length_take, sortByScore, List.length_insertionSort]
  constructor
  · intro hfull hover
    obtain ⟨hshort, hless⟩ := length_merged_of_overflows hover
    by_cases hk : k ≤ (liveMatches s query).length
    · have hlength := hfull.1 hk
      omega
    · have hall := (hfull.2 (Nat.lt_of_not_le hk)).length_eq
      rw [List.length_map, List.length_map] at hall
      omega
  · intro hfits
    obtain hall | henough := merged_of_not_overflows hfits
    · rw [hall] at hpage ⊢
      refine ⟨fun hk => by omega, fun hk => ?_⟩
      have hsort : (sortByScore ((rankings s query).flatMap (live s.tombstones))).Perm
          ((rankings s query).flatMap (live s.tombstones)) := List.perm_insertionSort _ _
      rw [List.take_of_length_le (by rw [hsort.length_eq]; omega)]
      exact (hsort.map Prod.fst).trans hperm
    · have hle := (merged_sublist s.tombstones k (rankings s query)).length_le
      exact ⟨fun _ => by omega, fun hk => by omega⟩

theorem searchReturnsPage_iff {log : ℚ → ℚ} (hlog : ∀ x, 1 ≤ x → 0 ≤ log x)
    (s : NrtIndex (OpenIndex (Bm25.exact log BM25Params.default))) (query : Text) {k : Nat} (hk : 0 < k)
    (algorithm : Algorithm) (page : List (Text × ℚ)) :
    SearchReturnsPage s query k algorithm page ↔ (s.segments = [] ∨ k + s.tombstones.card < 2 ^ 32) ∧
      page = (sortByScore (merged s.tombstones k (rankings s query))).take k := by
  have hpos : 0 < k + s.tombstones.card := Nat.add_pos_left hk _
  constructor
  · intro hreturns
    obtain ⟨indexSearch, hanswers, rfl⟩ := hreturns
    refine ⟨?_, search_eq_merged _ indexSearch query k algorithm fun seg hseg => ?_⟩
    · cases hsegments : s.segments with
      | nil => exact Or.inl rfl
      | cons seg segments =>
        have hseg : seg ∈ s.segments := hsegments ▸ List.mem_cons_self
        exact Or.inr ((indexSearch_iff hlog seg.index query hpos algorithm _).mp (hanswers seg hseg)).1
    · exact ((indexSearch_iff hlog seg.index query hpos algorithm _).mp (hanswers seg hseg)).2
  · intro hpage
    obtain ⟨hcount, rfl⟩ := hpage
    refine ⟨fun ix query m _ => (ix.ranking query).take m, fun seg hseg => ?_, ?_⟩
    · have hlt : k + s.tombstones.card < 2 ^ 32 := hcount.resolve_left (List.ne_nil_of_mem hseg)
      exact (indexSearch_iff hlog seg.index query hpos algorithm _).mpr ⟨hlt, rfl⟩
    · exact (search_eq_merged ⟨s.segments, s.tombstones⟩ _ query k algorithm fun _ _ => rfl).symm

/-- In every state of a run a result page is full exactly if the count fits 32
bits and no segment overflows with deleted documents. If all added documents are
plain then the segments hold what was flushed. -/
theorem page_full_iff (log : ℚ → ℚ) (hlog : ∀ x, 1 ≤ x → 0 ≤ log x) (cfg : Config)
    (initial : List (Segment (OpenIndex (Bm25.exact log BM25Params.default)))) (files : Path → Option Str)
    {trace : List (Action (OpenIndex (Bm25.exact log BM25Params.default)))}
    {s : NrtIndex (OpenIndex (Bm25.exact log BM25Params.default))}
    (hrun : (nrtIndex cfg (openBuilder (Bm25.exact log BM25Params.default)) initial files).Run trace s) :
    (∀ query k algorithm, 1 ≤ k →
      ((∃ page, SearchReturnsPage s query k algorithm page ∧ Full s query k page) ↔
        (s.segments = [] ∨ k + s.tombstones.card < 2 ^ 32) ∧ ¬ Overflows s.tombstones k (rankings s query))) ∧
    (Prepared OpenIndex.docs cfg initial files → (∀ d ∈ added trace, Plain d) →
      ∃ flushed, added trace = flushed ++ s.buffer ∧
        (held OpenIndex.docs s.segments).Perm (held OpenIndex.docs initial ++ flushed.map encodeDocument)) := by
  constructor
  · intro query k algorithm hk
    rw [← full_iff]
    constructor
    · intro h
      obtain ⟨page, hreturns, hfull⟩ := h
      obtain ⟨hcount, rfl⟩ := (searchReturnsPage_iff hlog s query hk algorithm page).mp hreturns
      exact ⟨hcount, hfull⟩
    · intro h
      exact ⟨_, (searchReturnsPage_iff hlog s query hk algorithm _).mpr ⟨h.1, rfl⟩, h.2⟩
  · intro hprepared hplain
    exact (inv_of_run openBuilder_docs hprepared hrun hplain).conserved

def catDocument (externalId : Text) : Text × Text := (externalId, ['c', 'a', 't'])

def batch : List (Text × Text) := [catDocument ['a'], catDocument ['a'], catDocument ['b']]

def batchConfig : Config where
  baseDir := [lit "nrt"]
  flushThresholdDocs := 3
  flushIntervalS := 3600
  mergePolicy := none

theorem documents_batch : documents (flushTsv batch) = batch.map encodeDocument := by decide +kernel

theorem fits_batch : FitsFormat (documents (flushTsv batch)) := fitsFormat_of_length_lt (by decide +kernel)

def batchIndex : OpenIndex (Bm25.exact nearOne BM25Params.default) where
  docs := documents (flushTsv batch)
  index := openedOn _ (documents (flushTsv batch))
  fits := fits_batch
  represents := openedOn_represents _ fits_batch
  ids d hd := by
    obtain ⟨e, rfl⟩ := documents_encode hd
    exact ⟨e.1, rfl⟩

theorem batch_returns : (openBuilder (Bm25.exact nearOne BM25Params.default)).returns (flushTsv batch) batchIndex := by
  refine ⟨rfl, buildSegment_eq fits_batch (buildSegment_isSome_iff.mpr ?_)⟩
  rw [documents_batch]
  exact ⟨by decide, _, List.mem_cons_self, by decide +kernel⟩

/-- Equal terms give equal scores. -/
theorem accumulated_congr {docs : List Document} {query : Str} {d d' : Document} (h : termsOf d = termsOf d') :
    accumulated bm25 docs query d = accumulated bm25 docs query d' := by
  have hcontribution : contribution bm25 docs d = contribution bm25 docs d' := by
    funext term
    rw [contribution, contribution, h]
  rw [accumulated, accumulated, h, hcontribution]

theorem idText_encode (id : Text) : idText (encode id) = id := by simp [idText, decode_encode]

/-- All three documents match, and none scores better than another. -/
theorem scored_batch : ∃ score, batchIndex.scored ['c', 'a', 't'] = [⟨0, score⟩, ⟨1, score⟩, ⟨2, score⟩] := by
  have hshares : ∀ d ∈ batch.map encodeDocument, shares (encode ['c', 'a', 't']) d = true := by decide +kernel
  have hall : (batchIndex.docs.zipIdx.filter fun e => shares (encode ['c', 'a', 't']) e.1) =
      batchIndex.docs.zipIdx := by
    refine List.filter_eq_self.mpr fun e he => ?_
    obtain ⟨d, docid⟩ := e
    have hmem : d ∈ documents (flushTsv batch) := List.mem_of_getElem? (List.mem_zipIdx_iff_getElem?.mp he)
    exact hshares d (documents_batch ▸ hmem)
  have hdocs : batchIndex.docs.zipIdx = [(encodeDocument (catDocument ['a']), 0), (encodeDocument (catDocument ['a']), 1),
      (encodeDocument (catDocument ['b']), 2)] := congrArg List.zipIdx documents_batch
  have hscore : accumulated (Bm25.exact nearOne BM25Params.default) batchIndex.docs (encode ['c', 'a', 't'])
        (encodeDocument (catDocument ['b'])) =
      accumulated (Bm25.exact nearOne BM25Params.default) batchIndex.docs (encode ['c', 'a', 't'])
        (encodeDocument (catDocument ['a'])) := accumulated_congr rfl
  refine ⟨accumulated (Bm25.exact nearOne BM25Params.default) batchIndex.docs (encode ['c', 'a', 't'])
    (encodeDocument (catDocument ['a'])), ?_⟩
  rw [OpenIndex.scored, hall, hdocs]
  simp only [List.map_cons, List.map_nil, hscore]

theorem ranking_batch :
    ∃ score, batchIndex.ranking ['c', 'a', 't'] = [(['a'], score), (['a'], score), (['b'], score)] := by
  obtain ⟨score, hscored⟩ := scored_batch
  have hsorted : [(⟨0, score⟩ : Result ℚ), ⟨1, score⟩, ⟨2, score⟩].Pairwise Result.Ranks := by
    simp [Result.Ranks]
  have hid : ∀ docid d, (batch.map encodeDocument)[docid]? = some d →
      batchIndex.index.externalId docid = d.externalId := by
    rw [← documents_batch]
    exact batchIndex.represents.externalId
  refine ⟨score, ?_⟩
  rw [OpenIndex.ranking, hscored, hsorted.insertionSort_eq]
  simp only [List.map_cons, List.map_nil, hid 0 _ rfl, hid 1 _ rfl, hid 2 _ rfl]
  have hida : idText (encodeDocument (catDocument ['a'])).externalId = ['a'] := idText_encode ['a']
  have hidb : idText (encodeDocument (catDocument ['b'])).externalId = ['b'] := idText_encode ['b']
  rw [hida, hidb]

/-- Nothing flushed yet. -/
def bufferedState (buffer : List (Text × Text)) : NrtIndex (OpenIndex (Bm25.exact nearOne BM25Params.default)) where
  segments := []
  buffer := buffer
  nextSegmentId := 0
  lastFlushTime := 0
  files := fun _ => none
  nextIdent := 0

/-- Three documents flushed together, and one id deleted. -/
def deletedState : NrtIndex (OpenIndex (Bm25.exact nearOne BM25Params.default)) :=
  let s := add batchConfig (openBuilder _) (catDocument ['b']) 0 (some batchIndex) 0
    (bufferedState [catDocument ['a'], catDocument ['a']])
  { s with tombstones := insert ['a'] s.tombstones }

theorem add_buffered {buffer : List (Text × Text)} (h : buffer.length < 2) (d : Text × Text) :
    Step batchConfig (openBuilder _) (bufferedState buffer) (.add d) (bufferedState (buffer ++ [d])) := by
  have hwait : ¬ shouldFlush batchConfig 0 (bufferedState (buffer ++ [d])) = true := by
    simp only [shouldFlush, batchConfig, bufferedState, List.length_append, List.length_singleton]
    norm_num
    omega
  have hadd : add batchConfig (openBuilder _) d 0 none 0 (bufferedState buffer) = bufferedState (buffer ++ [d]) :=
    if_neg hwait
  rw [← hadd]
  exact .add d 0 none 0 fun index hindex => absurd hindex (Option.some_ne_none index).symm

theorem deletedState_run : (nrtIndex batchConfig (openBuilder (Bm25.exact nearOne BM25Params.default)) []
    fun _ => none).Run [.add (catDocument ['a']), .add (catDocument ['a']), .add (catDocument ['b']), .delete ['a']]
      deletedState := by
  have hstart : (nrtIndex batchConfig (openBuilder (Bm25.exact nearOne BM25Params.default)) [] fun _ => none).Run []
      (bufferedState []) := .init ⟨0, 0, fun seg hseg => absurd hseg List.not_mem_nil, rfl⟩
  have hflush : Step batchConfig (openBuilder _) (bufferedState [catDocument ['a'], catDocument ['a']])
      (.add (catDocument ['b'])) (add batchConfig (openBuilder _) (catDocument ['b']) 0 (some batchIndex) 0
        (bufferedState [catDocument ['a'], catDocument ['a']])) :=
    .add (catDocument ['b']) 0 (some batchIndex) 0 fun index hindex => by
      cases hindex
      exact batch_returns
  have hbuffered := (hstart.step (add_buffered (by decide) (catDocument ['a']))).step
    (add_buffered (by decide) (catDocument ['a']))
  exact (hbuffered.step hflush).step (.delete ['a'])

theorem rankings_deleted : ∃ score, rankings deletedState ['c', 'a', 't'] =
    [[(['a'], score), (['a'], score), (['b'], score)]] := by
  obtain ⟨score, hranking⟩ := ranking_batch
  exact ⟨score, congrArg (fun ranking => [ranking]) hranking⟩

theorem liveMatches_deleted : liveMatches deletedState ['c', 'a', 't'] = [encodeDocument (catDocument ['b'])] := by
  have hshares : ∀ d ∈ batch.map encodeDocument, shares (encode ['c', 'a', 't']) d = true := by decide +kernel
  have hheld : held OpenIndex.docs deletedState.segments = batch.map encodeDocument :=
    (List.append_nil _).trans documents_batch
  have htombstones : deletedState.tombstones = {['a']} := rfl
  have hida : idText (encodeDocument (catDocument ['a'])).externalId = ['a'] := idText_encode ['a']
  have hidb : idText (encodeDocument (catDocument ['b'])).externalId = ['b'] := idText_encode ['b']
  have hsharesb := hshares (encodeDocument (catDocument ['b'])) (by decide)
  rw [liveMatches, hheld, htombstones]
  simp [batch, hida, hidb, hsharesb]

/-- The two results allowed for one deleted id are both copies of it, and the page
lacks the document that is left. -/
theorem page_lacks_match :
    (∃ trace, (nrtIndex batchConfig (openBuilder (Bm25.exact nearOne BM25Params.default)) [] fun _ => none).Run trace
      deletedState) ∧
    liveMatches deletedState ['c', 'a', 't'] = [encodeDocument (catDocument ['b'])] ∧
    SearchReturnsPage deletedState ['c', 'a', 't'] 1 .blockMaxWand [] ∧
    ¬ ∃ page, SearchReturnsPage deletedState ['c', 'a', 't'] 1 .blockMaxWand page ∧
      Full deletedState ['c', 'a', 't'] 1 page := by
  obtain ⟨score, hrankings⟩ := rankings_deleted
  have hcard : deletedState.tombstones.card = 1 := rfl
  have hpage : (sortByScore (merged deletedState.tombstones 1 (rankings deletedState ['c', 'a', 't']))).take 1 = [] := by
    rw [hrankings]
    rfl
  have hover : Overflows deletedState.tombstones 1 (rankings deletedState ['c', 'a', 't']) := by
    rw [hrankings]
    exact ⟨[], _, [], rfl, List.cons_ne_nil (['b'], score) [], Nat.lt_succ_self 1⟩
  refine ⟨⟨_, deletedState_run⟩, liveMatches_deleted, ?_, fun h => ?_⟩
  · refine (searchReturnsPage_iff nearOne_nonneg deletedState _ Nat.one_pos .blockMaxWand []).mpr ⟨Or.inr ?_, hpage.symm⟩
    rw [hcard]
    norm_num
  · obtain ⟨page, hreturns, hfull⟩ := h
    obtain ⟨-, rfl⟩ := (searchReturnsPage_iff nearOne_nonneg deletedState _ Nat.one_pos .blockMaxWand page).mp hreturns
    exact (full_iff deletedState _ 1).mp hfull hover

/-- Asked for one result more, the same search reaches below the copies. -/
theorem page_full_two :
    ∃ page, SearchReturnsPage deletedState ['c', 'a', 't'] 2 .blockMaxWand page ∧ Full deletedState ['c', 'a', 't'] 2 page := by
  obtain ⟨score, hrankings⟩ := rankings_deleted
  refine ((page_full_iff nearOne nearOne_nonneg batchConfig [] (fun _ => none) deletedState_run).1 ['c', 'a', 't'] 2
    .blockMaxWand (by norm_num)).mpr ⟨Or.inr ?_, not_overflows_of_short fun ranking hranking => ?_⟩
  · have hcard : deletedState.tombstones.card = 1 := rfl
    rw [hcard]
    norm_num
  · rw [hrankings, List.mem_singleton] at hranking
    exact le_of_eq (congrArg List.length hranking)

end CascadeSearch.Nrt.ResultPage
