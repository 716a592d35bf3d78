import CascadeSearch.Query.Evaluated
import CascadeSearch.Query.Search

/-!
# How many results a search returns

A pruned loop passes a document by only when the threshold is above zero, so
only when `k` results are already held: it returns `k` results or every matching
document. With `k = 0` the heap counts as full while it is empty, and the first
pass of every loop reads its top.
-/
namespace CascadeSearch.Query.ResultCount

open Lib.Loop Lib.LoopTrace Lib.RoundedSum
open Index.Format Index.Analyzer
open Cursor Heap Reader Evaluate Pruning Passes Turns Evaluated Search

section Loops

variable {S : Type} [LinearOrder S] [Zero S] [Add S] {ix : Index S} {sources : List (PostingSource S)}
  {k d : Nat} {log : List (Evaluation S)} {threshold : S}

/-- A threshold above zero is the score of one of `k` results. -/
theorem full_of_positive {live : List (PostingCursor S)} {top : TopK S} {stats : SearchStats}
    (h : Traced ix sources k live top stats log) (hth : top.threshold = some threshold)
    (hpos : 0 < threshold) : k ≤ log.length := by
  obtain ⟨hfull, -⟩ := TopK.full_of_threshold_pos h.holds h.positive hth hpos
  have hlen := h.holds.keeps.1
  rw [List.length_map] at hlen
  have hcapacity := h.capacity
  omega

/-- With all postings scored or `k` documents evaluated, the heap holds as many
results as there are to hold. -/
theorem length_drain_eq {live : List (PostingCursor S)} {top : TopK S} {stats : SearchStats}
    (h : Traced ix sources k live top stats log)
    (hall : ∀ d ∈ matching sources, (∃ e ∈ log, e.docid = d) ∨ k ≤ log.length) :
    top.drain.length = min k (matching sources).length := by
  obtain ⟨hnodup, hknown⟩ := h.docids
  have hle : log.length ≤ (matching sources).length := by
    have hsub : log.map (·.docid) ⊆ matching sources := by
      intro d hd
      obtain ⟨e, he, rfl⟩ := List.mem_map.mp hd
      exact hknown e he
    simpa using (List.subperm_of_subset hnodup hsub).length_le
  rw [h.length_drain]
  by_cases hfull : k ≤ log.length
  · omega
  · have hsub : matching sources ⊆ log.map (·.docid) := by
      intro d hd
      obtain ⟨e, he, rfl⟩ := (hall d hd).resolve_right hfull
      exact List.mem_map_of_mem he
    have hnodup' : (matching sources).Nodup := List.nodup_dedup _
    have hge := (List.subperm_of_subset hnodup' hsub).length_le
    rw [List.length_map] at hge
    omega

theorem daat_count (ix : Index S) (hs : WellFormed sources) (hk : 0 < k) :
    ∃ results stats, Returns (daatStep ix) (daatInit (sources.map PostingCursor.open) k)
      (.ok (results, stats)) ∧ results.length = min k (matching sources).length := by
  obtain ⟨log, results, stats, hends, ⟨live, top, htraced, rfl⟩, hfull⟩ := daat_ends ix hs hk
  refine ⟨_, stats, hends.returns, length_drain_eq htraced fun d hd => Or.inl ?_⟩
  obtain ⟨e, he, hed, -⟩ := hfull d hd
  exact ⟨e, he, hed⟩

variable [One S] [Neg S] [RoundedAdd S] {step : WandState S → Step (WandState S) (Outcome S)}
  {pass : WandState S → Pass S}

/-- A pivot beyond a running cursor means that bounds below the threshold have
been summed. -/
theorem positive_of_pivoted {live : List (PostingCursor S)} {i : Nat} (hp : Pivoted live threshold i d)
    (hst : Standing sources live) (hb : NonNegativeBounds sources) {c : PostingCursor S}
    (hc : c ∈ live) (hlt : c.docid < d) : 0 < threshold := by
  have hi : i ≠ 0 := by
    rintro rfl
    cases hp.mem_take hc hlt
  refine (sum_nonneg fun x hx => ?_).trans_lt (hp.below hi)
  obtain ⟨e, he, rfl⟩ := List.mem_map.mp hx
  have he' := List.mem_of_mem_take he
  exact (hb.running (hst.source e he') (hst.consistent e he') (hp.running e he')).1

/-- A pruned loop loses a posting only when `k` documents have been evaluated. -/
theorem keeping_full (hsteps : Steps ix sources step pass) (hb : NonNegativeBounds sources) :
    Keeping ix sources k step pass fun log s =>
      Accounted sources s.live log fun _ _ => k ≤ log.length := by
  intro log s s' hstage hstep
  obtain ⟨threshold, mid, hth, hpassed⟩ := hstage.passed hsteps
  rw [hstep] at hpassed
  have hst := hstage.traced.standing
  have hgrow : log.length ≤ ((pass s).evaluation.toList ++ log).length := by
    rw [List.length_append]
    omega
  refine accounted_of_passed hpassed hst hb hstage.extra (fun _ _ h => h.trans hgrow) ?_ ?_
  · intro i d hp _ c hc p hpc hlt _
    have hcons := (standing_lineUp hst).consistent c hc
    have hle := hcons.docid_le (hp.running c hc) hpc
    have hpos := positive_of_pivoted hp (standing_lineUp hst) hb hc (by omega)
    exact (full_of_positive hstage.traced hth hpos).trans hgrow
  · intro _ hpos _ _ _ _ _
    exact (full_of_positive hstage.traced hth hpos).trans hgrow

theorem pruned_count (hsteps : Steps ix sources step pass) (hs : WellFormed sources)
    (hb : NonNegativeBounds sources) (hk : 0 < k) :
    ∃ results stats, Returns step (wandInit (sources.map PostingCursor.open) k)
      (.ok (results, stats)) ∧ results.length = min k (matching sources).length := by
  obtain ⟨log, results, stats, hends, s, threshold, hlast⟩ :=
    ends_of_steps hsteps hs hk (accounted_open hs) (keeping_full hsteps hb)
  have htraced := hlast.stage.traced
  refine ⟨results, stats, hends.returns, ?_⟩
  rw [hlast.results]
  refine length_drain_eq htraced fun d hd => ?_
  obtain ⟨t, ht, p, hp, rfl⟩ := mem_matching.mp hd
  rcases hlast.stage.extra t ht p hp with ⟨c, hc, -, hpc⟩ | ⟨e, he, hed, -⟩ | hfull
  · have hline := mem_lineUp.mpr ⟨hc, running_of_mem hpc⟩
    have hst := standing_lineUp htraced.standing
    refine Or.inr (full_of_positive htraced hlast.bound ?_)
    refine (sum_nonneg fun x hx => ?_).trans_lt (hlast.low (List.ne_nil_of_mem hline))
    obtain ⟨e, he, rfl⟩ := List.mem_map.mp hx
    exact (hb.running (hst.source e he) (hst.consistent e he) (mem_lineUp.mp he).2).1
  · exact Or.inl ⟨e, he, hed⟩
  · exact Or.inr hfull

end Loops

section Zero

variable {S : Type} {sources : List (PostingSource S)}

theorem exists_running (hs : WellFormed sources) (hne : matching sources ≠ []) :
    ∃ c ∈ sources.map PostingCursor.open, c.exhausted = false := by
  obtain ⟨d, hd⟩ := List.exists_mem_of_ne_nil _ hne
  obtain ⟨t, ht, p, hp, -⟩ := mem_matching.mp hd
  have hpc : p ∈ (PostingCursor.open t).remaining := by
    rw [(PostingCursor.open_spec (hs.source t ht)).2]
    exact hp
  exact ⟨PostingCursor.open t, List.mem_map_of_mem ht, running_of_mem hpc⟩

theorem all_exhausted (hs : WellFormed sources) (hnil : matching sources = []) :
    ∀ c ∈ sources.map PostingCursor.open, c.exhausted = true := by
  intro c hc
  cases hx : c.exhausted with
  | true => rfl
  | false =>
    have hst := standing_open hs
    have hmem : c.docid ∈ matching sources := mem_matching.mpr ⟨c.toPostingSource, hst.source c hc,
      ⟨c.docid, c.freq⟩, mem_all_current (hst.consistent c hc) hx, rfl⟩
    rw [hnil] at hmem
    cases hmem

variable [LinearOrder S] [Zero S] [Add S]

theorem selectPivot_zero_of_running {cursors : List (PostingCursor S)}
    (hrun : ∃ c ∈ cursors, c.exhausted = false) :
    selectPivot (wandInit cursors 0) = .error (.error .emptyHeap) := by
  obtain ⟨c, hc, hx⟩ := hrun
  have hne : (dropExhausted (wandInit cursors 0)).live ≠ [] :=
    List.ne_nil_of_mem (List.mem_filter.mpr ⟨hc, by rw [hx]; rfl⟩)
  rw [selectPivot]
  dsimp only
  rw [if_neg hne]
  rfl

theorem selectPivot_of_exhausted {cursors : List (PostingCursor S)} {k : Nat}
    (hall : ∀ c ∈ cursors, c.exhausted = true) :
    ∃ stats, selectPivot (wandInit cursors k) = .error (.ok ([], stats)) := by
  have hnil : (dropExhausted (wandInit cursors k)).live = [] :=
    List.filter_eq_nil_iff.mpr fun c hc => by rw [hall c hc]; decide
  rw [selectPivot]
  dsimp only
  rw [if_pos hnil]
  exact ⟨_, rfl⟩

variable [One S] [Neg S]

/-- Asked for no results, every loop reads the top of an empty heap in its first
pass if any document matches. -/
theorem faults_at_zero (ix : Index S) (hs : WellFormed sources) (hne : matching sources ≠ []) :
    daatStep ix (daatInit (sources.map PostingCursor.open) 0) = .done (.error .emptyHeap) ∧
      wandStep ix (wandInit (sources.map PostingCursor.open) 0) = .done (.error .emptyHeap) ∧
      blockMaxWandStep ix (wandInit (sources.map PostingCursor.open) 0) = .done (.error .emptyHeap) := by
  have hrun := exists_running hs hne
  have hselect := selectPivot_zero_of_running hrun
  refine ⟨?_, ?_, ?_⟩
  · obtain ⟨c, hc, hx⟩ := hrun
    have hlt := ((standing_open hs).consistent c hc).docid_lt hx
    have hle := (foldl_current (sources.map PostingCursor.open) kNoDocid).1.2 c hc hx
    have hcurrent : currentDocid (sources.map PostingCursor.open) ≠ kNoDocid := (hle.trans_lt hlt).ne
    exact (if_neg hcurrent).trans rfl
  · rw [wandStep, hselect]
  · rw [blockMaxWandStep, hselect]

theorem ends_at_zero (ix : Index S) (hs : WellFormed sources) (hnil : matching sources = []) :
    (∃ stats, daatStep ix (daatInit (sources.map PostingCursor.open) 0) = .done (.ok ([], stats))) ∧
      (∃ stats, wandStep ix (wandInit (sources.map PostingCursor.open) 0) = .done (.ok ([], stats))) ∧
      ∃ stats, blockMaxWandStep ix (wandInit (sources.map PostingCursor.open) 0) =
        .done (.ok ([], stats)) := by
  have hall := all_exhausted hs hnil
  have hpivot : ∃ stats, selectPivot (wandInit (sources.map PostingCursor.open) 0) =
      .error (.ok ([], stats)) := selectPivot_of_exhausted hall
  obtain ⟨stats, hselect⟩ := hpivot
  refine ⟨?_, ⟨stats, ?_⟩, ⟨stats, ?_⟩⟩
  · have hcurrent : currentDocid (sources.map PostingCursor.open) = kNoDocid := by
      rcases (foldl_current (sources.map PostingCursor.open) kNoDocid).2 with h | ⟨c, hc, hx, -⟩
      · exact h
      · rw [hall c hc] at hx
        cases hx
    exact ⟨_, if_pos hcurrent⟩
  · rw [wandStep, hselect]
  · rw [blockMaxWandStep, hselect]

end Zero

section Searching

variable {S : Type} [LinearOrder S] [Zero S] [One S] [Neg S] [Add S] {ix : Index S} {query : Str}
  {algorithm : Algorithm} {k : Nat} {results : List (Result S)}

/-- The loop that runs for an algorithm returns these results. -/
def LoopReturns (ix : Index S) (sources : List (PostingSource S)) (k : Nat) (algorithm : Algorithm)
    (outcome : Outcome S) : Prop :=
  match algorithm with
  | .daatOr => Returns (daatStep ix) (daatInit (sources.map PostingCursor.open) k) outcome
  | .wand => Returns (wandStep ix) (wandInit (sources.map PostingCursor.open) k) outcome
  | .blockMaxWand => Returns (blockMaxWandStep ix) (wandInit (sources.map PostingCursor.open) k) outcome

theorem LoopReturns.unique {sources : List (PostingSource S)} {outcome outcome' : Outcome S}
    (h : LoopReturns ix sources k algorithm outcome) (h' : LoopReturns ix sources k algorithm outcome') :
    outcome = outcome' := by
  cases algorithm with
  | daatOr | wand | blockMaxWand => exact Returns.unique h h'

theorem searchReturns_iff_loop (hne : sourcesFor ix query ≠ []) :
    SearchReturns ix query k algorithm results ↔
      ∃ stats, LoopReturns ix (sourcesFor ix query) k algorithm (.ok (results, stats)) := by
  have hcursors : openCursors ix query ≠ [] := fun h => hne (List.map_eq_nil_iff.mp h)
  unfold SearchReturns search
  dsimp only
  rw [exists_comm]
  refine exists_congr fun stats => ?_
  simp only [if_neg hcursors]
  cases algorithm with
  | daatOr | wand | blockMaxWand => rfl

variable [RoundedAdd S]

/-- The loop for any algorithm returns as many results as it should, if it is
asked for some. -/
theorem loop_count (ix : Index S) {sources : List (PostingSource S)} (hs : WellFormed sources)
    (hb : NonNegativeBounds sources) (hk : 0 < k) (algorithm : Algorithm) :
    ∃ results stats, LoopReturns ix sources k algorithm (.ok (results, stats)) ∧
      results.length = min k (matching sources).length := by
  cases algorithm with
  | daatOr => exact daat_count ix hs hk
  | wand => exact pruned_count (wand_steps ix) hs hb hk
  | blockMaxWand => exact pruned_count (blockMaxWand_steps ix hb) hs hb hk

/-- No pass reads the top of an empty heap, and every matching document is
returned, up to `k` of them. -/
structure AnswersInFull (ix : Index S) (query : Str) (k : Nat) (algorithm : Algorithm) : Prop where
  noFault : ∀ fuel, search ix query k algorithm fuel ≠ some (.error .emptyHeap)
  count : ∃ results, SearchReturns ix query k algorithm results ∧
    results.length = min k (matching (sourcesFor ix query)).length

omit [RoundedAdd S] in
/-- A search that returns does not also fault. -/
theorem answersInFull_of_returns (h : SearchReturns ix query k algorithm results)
    (hlen : results.length = min k (matching (sourcesFor ix query)).length) :
    AnswersInFull ix query k algorithm := by
  refine ⟨fun fuel hfault => ?_, results, h, hlen⟩
  obtain ⟨fuel', stats, hsearch⟩ := h
  have hmax := search_stable (Nat.le_max_left fuel fuel') hfault
  rw [search_stable (Nat.le_max_right fuel fuel') hsearch] at hmax
  cases hmax

/-- A search answers in full exactly when it is asked for at least one result or
no document matches. -/
theorem answersInFull_iff (ix : Index S) (query : Str) (hs : WellFormed (sourcesFor ix query))
    (hb : NonNegativeBounds (sourcesFor ix query)) (k : Nat) (algorithm : Algorithm) :
    AnswersInFull ix query k algorithm ↔ 1 ≤ k ∨ matching (sourcesFor ix query) = [] := by
  by_cases hnone : sourcesFor ix query = []
  · have hmatching : matching (sourcesFor ix query) = [] := by
      rw [hnone]
      rfl
    have hreturns : SearchReturns ix query k algorithm ([] : List (Result S)) := by
      refine ⟨0, {}, ?_⟩
      unfold search openCursors
      rw [hnone]
      exact if_pos rfl
    refine iff_of_true (answersInFull_of_returns hreturns ?_) (Or.inr hmatching)
    rw [hmatching]
    exact (Nat.min_zero k).symm
  · by_cases hk : 1 ≤ k
    · obtain ⟨results, stats, hret, hlen⟩ := loop_count ix hs hb hk algorithm
      exact iff_of_true (answersInFull_of_returns ((searchReturns_iff_loop hnone).mpr ⟨stats, hret⟩) hlen)
        (Or.inl hk)
    · obtain rfl : k = 0 := by omega
      by_cases hmatching : matching (sourcesFor ix query) = []
      · obtain ⟨⟨daatStats, hdaat⟩, ⟨wandStats, hwand⟩, ⟨blockStats, hblock⟩⟩ := ends_at_zero ix hs hmatching
        have hloop : ∃ stats, LoopReturns ix (sourcesFor ix query) 0 algorithm (.ok ([], stats)) := by
          cases algorithm with
          | daatOr => exact ⟨daatStats, returns_done hdaat⟩
          | wand => exact ⟨wandStats, returns_done hwand⟩
          | blockMaxWand => exact ⟨blockStats, returns_done hblock⟩
        exact iff_of_true (answersInFull_of_returns ((searchReturns_iff_loop hnone).mpr hloop)
          (Nat.zero_min _).symm) (Or.inr hmatching)
      · obtain ⟨hdaat, hwand, hblock⟩ := faults_at_zero ix hs hmatching
        have hloop : LoopReturns ix (sourcesFor ix query) 0 algorithm (.error .emptyHeap) := by
          cases algorithm with
          | daatOr => exact returns_done hdaat
          | wand => exact returns_done hwand
          | blockMaxWand => exact returns_done hblock
        refine iff_of_false (fun h => ?_) fun h => h.elim hk hmatching
        obtain ⟨results, hret, -⟩ := h.count
        obtain ⟨stats, hret⟩ := (searchReturns_iff_loop hnone).mp hret
        cases hret.unique hloop

end Searching

end CascadeSearch.Query.ResultCount
