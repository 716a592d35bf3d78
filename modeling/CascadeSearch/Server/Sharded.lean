import CascadeSearch.Server.CorpusAnswers
import CascadeSearch.Server.ExactMerge
import CascadeSearch.Server.Partition

/-!
# Search over the shards of a corpus

Every shard is built, opened and served by itself, and scores with its own
statistics. What the broker returns is stated over the documents of the shards
in the order of the corpus.
-/
namespace CascadeSearch.Server.Sharded

open Lib.SplitLines Lib.StableSort Lib.TextFile Lib.Transition
open Index.Format Index.Analyzer Index.Corpus Index.Inverted Index.Builder Index.Porter Index.Fits Index.MergePass
open Query Query.Heap Query.Reader Query.Search Query.Opened Query.Retrieval Query.Openable
open SearchService Broker ExactMerge CorpusAnswers Rpc
open CascadeSearch.Server.Partition

def toSearchResult (r : Result ℚ) : SearchResult ℚ := ⟨r.docid, r.score⟩

variable (log : ℚ → ℚ) (query : Str)

/-- The documents of one shard that share a term with the query, as they stand in the file. -/
def shardMatches (file : Str) : List (Result ℚ) :=
  ((documents file).zipIdx.filter fun (d, _) => shares query d).map fun (d, docid) =>
    ⟨docid, exactScore (Bm25.exact log BM25Params.default) (documents file) query d⟩

/-- The whole ranking of one shard. -/
def shardRanking (file : Str) : List (SearchResult ℚ) :=
  ((shardMatches log query file).insertionSort Result.Ranks).map toSearchResult

/-- The same over all shards, in the order of the corpus. -/
def located (files : List Str) : List (MergedResult ℚ) :=
  files.zipIdx.flatMap fun (file, i) => ((shardMatches log query file).map toSearchResult).map (tag i)

/-- The best score first, then the earlier document of the corpus. -/
def shardedAnswer (files : List Str) (k : Nat) : List (MergedResult ℚ) :=
  ((located log query files).insertionSort fun a b => b.score ≤ a.score).take k

/-- Where a document of a shard stands in the corpus. -/
def globalDocid (files : List Str) (r : MergedResult ℚ) : Nat :=
  ((files.take r.shardIndex).flatMap documents).length + r.docid

variable {log query}

theorem answer_eq_take (file : Str) (k : Nat) :
    (corpusAnswer log file ⟨query, k⟩).map toSearchResult = (shardRanking log query file).take k := by
  rw [shardRanking, ← List.map_take]
  rfl

theorem descending_shardRanking (file : Str) : Descending (shardRanking log query file) := by
  refine List.pairwise_map.mpr ((List.pairwise_insertionSort Result.Ranks _).imp fun h => ?_)
  rcases h with hlt | ⟨heq, -⟩
  · exact hlt.le
  · exact heq.ge

/-- The earlier shard, then the smaller docid. -/
def Before (a b : MergedResult ℚ) : Prop :=
  a.shardIndex < b.shardIndex ∨ a.shardIndex = b.shardIndex ∧ a.docid ≤ b.docid

/-- Lists that order equal scores by docid, one after the other. -/
theorem pairwise_before {lists : Str → List (SearchResult ℚ)}
    (h : ∀ file, (lists file).Pairwise fun a b => b.score ≤ a.score → a.score ≤ b.score → a.docid ≤ b.docid)
    (files : List Str) :
    (files.zipIdx.flatMap fun (file, i) => (lists file).map (tag i)).Pairwise fun a b =>
      b.score ≤ a.score → a.score ≤ b.score → Before a b := by
  have hindices : files.zipIdx.Pairwise fun a b => a.2 < b.2 := by
    refine List.pairwise_map.mp ?_
    rw [List.zipIdx_map_snd]
    exact List.pairwise_lt_range'
  refine List.pairwise_flatMap.mpr ⟨fun x _ => ?_, hindices.imp fun hlt => ?_⟩
  · exact List.pairwise_map.mpr ((h x.1).imp fun hdocid hba hab => Or.inr ⟨rfl, hdocid hba hab⟩)
  · intro a ha b hb _ _
    obtain ⟨a', -, rfl⟩ := List.mem_map.mp ha
    obtain ⟨b', -, rfl⟩ := List.mem_map.mp hb
    exact Or.inl hlt

theorem pairwise_shardMatches (file : Str) :
    ((shardMatches log query file).map toSearchResult).Pairwise fun a b =>
      b.score ≤ a.score → a.score ≤ b.score → a.docid ≤ b.docid := by
  have hindices : (documents file).zipIdx.Pairwise fun a b => a.2 < b.2 := by
    refine List.pairwise_map.mp ?_
    rw [List.zipIdx_map_snd]
    exact List.pairwise_lt_range'
  rw [shardMatches, List.map_map]
  exact List.pairwise_map.mpr ((hindices.filter _).imp fun hlt _ _ => hlt.le)

theorem pairwise_shardRanking (file : Str) :
    (shardRanking log query file).Pairwise fun a b => b.score ≤ a.score → a.score ≤ b.score → a.docid ≤ b.docid := by
  refine List.pairwise_map.mpr ((List.pairwise_insertionSort Result.Ranks _).imp fun h _ hab => ?_)
  rcases h with hlt | ⟨-, hdocid⟩
  · exact absurd hlt (not_lt.mpr hab)
  · exact hdocid

/-- Merging the rankings of the shards sorts all their documents once. -/
theorem mergeResponses_shardRanking (files : List Str) (k : Nat) :
    mergeResponses (files.map (shardRanking log query)) k = { results := shardedAnswer log query files k } := by
  have hranked : (files.map (shardRanking log query)).zipIdx.flatMap (fun (response, shardIndex) =>
      response.map fun r => (⟨r.docid, r.score, shardIndex⟩ : MergedResult ℚ)) =
      files.zipIdx.flatMap fun (file, i) => (shardRanking log query file).map (tag i) := by
    rw [List.zipIdx_map, List.flatMap_map]
    rfl
  have hperm : (files.zipIdx.flatMap fun (file, i) => (shardRanking log query file).map (tag i)).Perm
      (located log query files) := by
    refine List.Perm.flatMap_left _ fun x _ => ?_
    exact ((List.perm_insertionSort Result.Ranks _).map _).map _
  have hsort := insertionSort_eq_of_tied (r := fun a b : MergedResult ℚ => b.score ≤ a.score) hperm
    (fun a b hba hab htie htie' => ?_) (pairwise_before pairwise_shardRanking files)
    (pairwise_before pairwise_shardMatches files)
  · rw [mergeResponses, shardedAnswer, ← hsort]
    dsimp only
    rw [hranked]
  · obtain ⟨da, sa, ia⟩ := a
    obtain ⟨db, sb, ib⟩ := b
    rw [MergedResult.mk.injEq]
    dsimp only [Before] at hab hba htie htie'
    exact ⟨by omega, le_antisymm hab hba, by omega⟩

theorem located_concat (files : List Str) (file : Str) :
    located log query (files ++ [file]) =
      located log query files ++ ((shardMatches log query file).map toSearchResult).map (tag files.length) := by
  rw [located, List.zipIdx_append, List.flatMap_append, located]
  simp

theorem shardIndex_lt {files : List Str} {r : MergedResult ℚ} (h : r ∈ located log query files) :
    r.shardIndex < files.length := by
  obtain ⟨⟨file, i⟩, hfile, hr⟩ := List.mem_flatMap.mp h
  obtain ⟨r', -, rfl⟩ := List.mem_map.mp hr
  exact (List.mem_zipIdx' hfile).1

/-- The documents found are those of the corpus that share a term, in its order. -/
theorem map_globalDocid (files : List Str) :
    (located log query files).map (globalDocid files) =
      ((files.flatMap documents).zipIdx.filter fun (d, _) => shares query d).map Prod.snd := by
  induction files using List.reverseRecOn with
  | nil => rfl
  | append_singleton files file ih =>
    have hearlier : (located log query files).map (globalDocid (files ++ [file])) =
        (located log query files).map (globalDocid files) := by
      refine List.map_congr_left fun r hr => ?_
      rw [globalDocid, globalDocid, List.take_append_of_le_length (shardIndex_lt hr).le]
    have hlast : (((shardMatches log query file).map toSearchResult).map (tag files.length)).map
        (globalDocid (files ++ [file])) =
        (((documents file).zipIdx (files.flatMap documents).length).filter fun (d, _) => shares query d).map Prod.snd := by
      have hshift : (documents file).zipIdx.map (Prod.map id (· + (files.flatMap documents).length)) =
          (documents file).zipIdx (files.flatMap documents).length := List.map_snd_add_zipIdx_eq_zipIdx
      rw [shardMatches, ← hshift, List.filter_map, List.map_map, List.map_map, List.map_map, List.map_map]
      refine List.map_congr_left fun x _ => ?_
      simp [globalDocid, tag, toSearchResult, Nat.add_comm]
    rw [located_concat, List.map_append, hearlier, ih, hlast, List.flatMap_append, List.zipIdx_append,
      List.filter_append, List.map_append]
    simp

variable {ε : Type}

/-- A server over the index of the shard, whatever its configuration and its
other calls, has answered this request. -/
def ServedBy (log : ℚ → ℚ) (file : Str) (request : SearchRequest) (results : List (Result ℚ)) : Prop :=
  ∃ built ix, buildIndex (Bm25.exact log BM25Params.default) kSegmentDocs 0 file = .ok built ∧
    Reader.open (Bm25.exact log BM25Params.default) built = .ok ix ∧
    ∃ (ι : Type) (_ : DecidableEq ι) (algorithm : Algorithm) (n queueDepth cacheCapacity : Nat)
      (requests : ι → SearchRequest) (s : State ℚ ι n) (i : ι),
      (server ix algorithm n queueDepth cacheCapacity requests).Reachable s ∧ requests i = request ∧
        s.handlers i = .returned .ok ∧ results = (s.service.calls i).response.results

/-- What a call to the shard comes to. -/
def ShardCall (log : ℚ → ℚ) (request : SearchRequest) (file : Str) (answer : Answer ℚ ε) : Prop :=
  (∃ results, ServedBy log file request results ∧ answer = .ok (results.map toSearchResult)) ∨
    ∃ exc, answer = .error exc

theorem answersWith_of_call (hlog : ∀ x, 1 ≤ x → 0 ≤ log x) {file : Str} (hfits : FitsFormat (documents file)) {k : Nat}
    {answer : Answer ℚ ε} (h : ShardCall log ⟨query, k⟩ file answer) :
    AnswersWith k answer (shardRanking log query file) := by
  rcases h with ⟨results, ⟨built, ix, hbuild, hopen, hserved⟩, rfl⟩ | herror
  · obtain ⟨ι, _, algorithm, n, queueDepth, cacheCapacity, requests, s, i, hs, hrequest, hok, rfl⟩ := hserved
    have hterm := (open_iff hbuild).mp ⟨ix, hopen⟩
    have hvoc : vocabulary (documents file) ≠ [] := vocabulary_ne_nil_iff.mpr hterm
    obtain ⟨d, hd, -⟩ := hterm
    rw [buildIndex_eq _ (by decide) hfits (List.ne_nil_of_mem hd), Except.ok.injEq] at hbuild
    rw [← hbuild, open_indexOf hfits hvoc, Except.ok.injEq] at hopen
    have hix : Represents (Bm25.exact log BM25Params.default) (documents file) ix :=
      hopen ▸ openedOn_represents _ hfits
    rcases returned_of_reachable hs hok with ⟨hfull, -⟩ | ⟨-, -, hreturns⟩
    · exact absurd hfull.symm Status.queueFull_ne_ok
    · rw [hrequest] at hreturns
      rw [((searchReturns_iff_answer hlog hfits hix _ _ algorithm _).mp hreturns).2]
      exact Or.inl (congrArg Except.ok (answer_eq_take file k))
  · exact Or.inr herror

/-- A hedged dispatch that has not raised holds the rankings of the shards. -/
def Collected (full : List (List (SearchResult ℚ))) (k : Nat) (phase : Phase ℚ ε) : Prop :=
  Resolved full k phase ∨ ∃ exc, phase = .finished (.error exc)

theorem collected_settle {full : List (List (SearchResult ℚ))} {k i : Nat} {l : List (SearchResult ℚ)}
    {results : List (List (SearchResult ℚ))} {answer : Answer ℚ ε} (hl : full[i]? = some l)
    (hanswer : AnswersWith k answer l) (h : Resolved (ε := ε) full k (.resolving i results)) :
    Collected full k (settle answer i results) := by
  rcases hanswer with rfl | ⟨exc, rfl⟩
  · exact Or.inl (resolved_settle hl h)
  · exact Or.inr ⟨exc, rfl⟩

theorem collected_of_run {full : List (List (SearchResult ℚ))} {shards : List (ShardCalls ℚ ε)} {k : Nat}
    (hanswers : List.Forall₂ (fun calls l => AnswersWith k calls.primary l ∧ AnswersWith k calls.backup l) shards full)
    {trace : List Broker.Action} {s : Hedging ℚ ε} (h : (hedgedDispatch shards k).Run trace s) : Collected full k s.phase := by
  have hlen := hanswers.length_eq
  have hcalls : ∀ {i : Nat} {calls : ShardCalls ℚ ε}, shards[i]? = some calls →
      ∃ l, full[i]? = some l ∧ AnswersWith k calls.primary l ∧ AnswersWith k calls.backup l := by
    intro i calls hshard
    obtain ⟨hlt, rfl⟩ := List.getElem?_eq_some_iff.mp hshard
    exact ⟨_, List.getElem?_eq_getElem (hlen ▸ hlt), List.forall₂_iff_get.mp hanswers |>.2 i hlt (hlen ▸ hlt)⟩
  have hresolving : ∀ {s : Hedging ℚ ε} {i : Nat} {results : List (List (SearchResult ℚ))},
      s.phase = .resolving i results → Collected full k s.phase → Resolved (ε := ε) full k (.resolving i results) := by
    intro s i results hphase hc
    rw [hphase] at hc
    exact hc.resolve_right fun ⟨_, hexc⟩ => by cases hexc
  refine h.invariant (fun _ s => Collected full k s.phase) ?_ ?_
  · rintro s rfl
    exact Or.inl trivial
  · intro trace s action s' hc hstep
    cases hstep with
    | primaryCompletes | backupCompletes => exact hc
    | waitReturns | submit => exact Or.inl trivial
    | submitted => exact Or.inl rfl
    | resolvePrimary hphase hshard _ =>
      obtain ⟨l, hl, hprimary, -⟩ := hcalls hshard
      exact collected_settle hl hprimary (hresolving hphase hc)
    | resolveBackup hphase hshard _ _ =>
      obtain ⟨l, hl, -, hbackup⟩ := hcalls hshard
      exact collected_settle hl hbackup (hresolving hphase hc)
    | @merge results hphase =>
      have hall : results = full.map (List.take k) := by
        rw [show results = _ from hresolving hphase hc]
        exact List.take_of_length_le (by rw [List.length_map, hlen])
      exact Or.inl (congrArg (fun r => Except.ok (mergeResponses r k)) hall)

theorem forall₂_map_right {α β γ : Type*} {R : α → β → Prop} {Q : β → γ → Prop} {f : α → γ} {as : List α} {bs : List β}
    (h : List.Forall₂ R as bs) (himp : ∀ a ∈ as, ∀ b, R a b → Q b (f a)) : List.Forall₂ Q bs (as.map f) := by
  induction h with
  | nil => exact .nil
  | cons hhead _ ih =>
    exact .cons (himp _ List.mem_cons_self _ hhead) (ih fun a ha => himp a (List.mem_cons_of_mem _ ha))

/-- A response over the shards of a text whose lines can be dealt out ranks the
documents of the corpus that share a term with the query, whatever becomes of the
calls in between, hedged or not. -/
theorem sharded_search (log : ℚ → ℚ) (hlog : ∀ x, 1 ≤ x → 0 ≤ log x) (text : Text) (n : Nat) (hn : 1 ≤ n)
    (hreturn : '\r' ∉ text) (hdeals : DealsOut text n) (files : List Str) (hfiles : partition (encode text) n = some files)
    (hfits : ∀ file ∈ files, FitsFormat (documents file)) (query : Str) (k : Nat) :
    (located log query files).map (globalDocid files) =
        ((documents (encode text)).zipIdx.filter fun (d, _) => shares query d).map Prod.snd ∧
      files.length = n ∧
      (∀ answers : List (Answer ℚ ε), List.Forall₂ (ShardCall log ⟨query, k⟩) files answers →
        ∀ trace s response, (plainDispatch answers k).Run trace s → s.phase = .finished (.ok response) →
          response = { results := shardedAnswer log query files k }) ∧
      ∀ shards : List (ShardCalls ℚ ε),
        List.Forall₂ (fun file calls => ShardCall log ⟨query, k⟩ file calls.primary ∧
          ShardCall log ⟨query, k⟩ file calls.backup) files shards →
        ∀ trace s response, (hedgedDispatch shards k).Run trace s → s.phase = .finished (.ok response) →
          response = { results := shardedAnswer log query files k } := by
  have hwhole : KeepsWhole (encode text) files := by
    obtain ⟨files', hfiles', hkeeps⟩ := keepsWhole_of_dealsOut hn hreturn hdeals
    rwa [Option.some.inj (hfiles.symm.trans hfiles')]
  have hsorted : ∀ l ∈ files.map (shardRanking log query), Descending l := by
    intro l hl
    obtain ⟨file, -, rfl⟩ := List.mem_map.mp hl
    exact descending_shardRanking file
  have hmerged : mergeResponses ((files.map (shardRanking log query)).map (List.take k)) k =
      { results := shardedAnswer log query files k } := by
    rw [mergeResponses_take hsorted, mergeResponses_shardRanking]
  refine ⟨?_, length_partition hfiles, fun answers hanswers trace s response hrun hphase => ?_,
    fun shards hshards trace s response hrun hphase => ?_⟩
  · rw [map_globalDocid, ← hwhole.parsed]
  · have hwith : List.Forall₂ (AnswersWith k) answers (files.map (shardRanking log query)) :=
      forall₂_map_right hanswers fun file hfile answer hcall => answersWith_of_call hlog (hfits file hfile) hcall
    have hgathered := run_gathered hrun
    rw [hphase] at hgathered
    rcases hgathered with ⟨responses, hall, hok⟩ | ⟨exc, -, herror⟩
    · rw [responses_eq hwith hall, hmerged, Except.ok.injEq] at hok
      exact hok
    · cases herror
  · have hwith : List.Forall₂ (fun calls l => AnswersWith k calls.primary l ∧ AnswersWith k calls.backup l) shards
        (files.map (shardRanking log query)) :=
      forall₂_map_right hshards fun file hfile calls hcalls =>
        ⟨answersWith_of_call hlog (hfits file hfile) hcalls.1, answersWith_of_call hlog (hfits file hfile) hcalls.2⟩
    rcases collected_of_run hwith hrun with hresolved | ⟨exc, herror⟩
    · rw [hphase] at hresolved
      have hok : Except.ok response = Except.ok (mergeResponses ((files.map (shardRanking log query)).map (List.take k)) k) :=
        hresolved
      rw [hmerged, Except.ok.injEq] at hok
      exact hok
    · rw [hphase] at herror
      cases herror

def foxDocs : List (Text × Text) := [(['a'], ['f', 'o', 'x']), (['b'], ['a', ' ', 'f', 'o', 'x'])]

def foxText : Text := foxDocs.flatMap Nrt.Tsv.tsvLine

def foxShards : List Str := [lit "a\tfox\n", lit "b\ta fox\n"]

theorem partition_foxText : partition (encode foxText) 2 = some foxShards := by
  rw [partition, Lib.TextFile.readText_encode]
  decide +kernel

theorem dealsOut_foxText : DealsOut foxText 2 :=
  dealsOut_of_plain (by simp [foxDocs, isLineBreak, lineBreaks]) (by decide)

/-- Any server over a shard of one document may be the one that answers. -/
theorem exists_servedBy {file : Str} (hfits : FitsFormat (documents file)) (hterm : ∃ d ∈ documents file, termsOf d ≠ [])
    (query : Str) {k : Nat} (hk : 0 < k) : ∃ results, ServedBy (fun x => x - 1) file ⟨query, k⟩ results := by
  have hvoc : vocabulary (documents file) ≠ [] := vocabulary_ne_nil_iff.mpr hterm
  obtain ⟨d, hd, -⟩ := hterm
  have hix := openedOn_represents (Bm25.exact (fun x => x - 1) BM25Params.default) hfits
  have hreturns := searchReturns_ranked (fun x hx => sub_nonneg.mpr hx) hfits hix query hk .wand
  obtain ⟨s, hs, hok, hresults⟩ := @exists_answered _ _ _ _ _ _ _ _ ⟨query, k⟩ _ hreturns
  exact ⟨_, _, _, buildIndex_eq _ (by decide) hfits (List.ne_nil_of_mem hd), open_indexOf hfits hvoc, Unit, inferInstance,
    .wand, 1, 1, 0, fun _ => ⟨query, k⟩, s, (), hs, rfl, hok, hresults.symm⟩

theorem sharded_search_fox : ∃ answers : List (Answer ℚ String),
    List.Forall₂ (ShardCall (fun x => x - 1) ⟨lit "Fox", 1⟩) foxShards answers ∧
      (located (fun x => x - 1) (lit "Fox") foxShards).map (globalDocid foxShards) = [0, 1] ∧
      ∀ trace s response, (plainDispatch answers 1).Run trace s → s.phase = .finished (.ok response) →
        response = { results := shardedAnswer (fun x => x - 1) (lit "Fox") foxShards 1 } := by
  have hfits : ∀ file ∈ foxShards, FitsFormat (documents file) := fun file hfile =>
    fitsFormat_of_length_lt (by revert file; decide +kernel)
  have hterm : ∀ file ∈ foxShards, ∃ d ∈ documents file, termsOf d ≠ [] := by decide +kernel
  have hserved : ∀ file ∈ foxShards, ∃ results, ServedBy (fun x => x - 1) file ⟨lit "Fox", 1⟩ results := fun file hfile =>
    exists_servedBy (hfits file hfile) (hterm file hfile) _ Nat.one_pos
  obtain ⟨first, hfirst⟩ := hserved _ List.mem_cons_self
  obtain ⟨second, hsecond⟩ := hserved _ (List.mem_cons_of_mem _ List.mem_cons_self)
  have hcalls : List.Forall₂ (ShardCall (ε := String) (fun x => x - 1) ⟨lit "Fox", 1⟩) foxShards
      [.ok (first.map toSearchResult), .ok (second.map toSearchResult)] :=
    .cons (Or.inl ⟨first, hfirst, rfl⟩) (.cons (Or.inl ⟨second, hsecond, rfl⟩) .nil)
  obtain ⟨hlocated, -, hplain, -⟩ := sharded_search (fun x => x - 1) (fun x hx => sub_nonneg.mpr hx) foxText 2
    (by decide) (by decide) dealsOut_foxText foxShards partition_foxText hfits (lit "Fox") 1 (ε := String)
  exact ⟨_, hcalls, by rw [hlocated]; decide +kernel, hplain _ hcalls⟩

end CascadeSearch.Server.Sharded
