import CascadeSearch.Query.Evaluated
import CascadeSearch.Query.LaidOut

/-!
# How much each algorithm scores

Exhaustive evaluation scores every matching document by every source that
contains it. A pruned loop evaluates distinct matching documents, each by some
of its sources, so it scores no more. The two pruned loops are not ordered:
`block_max_wand` may position a cursor past the pivot and then score a pivot
whose bound `wand` would have found too low.
-/
namespace CascadeSearch.Query.ScoringWork

open Lib.Loop Lib.LoopTrace Lib.RoundedSum
open Index.Format
open Cursor Heap Reader Evaluate Pruning Passes PruningSafety Turns Evaluated RoundedPruning LaidOut

section Counters

variable {S : Type} [LinearOrder S] [Zero S] [Add S] {ix : Index S} {sources : List (PostingSource S)}
  {live : List (PostingCursor S)} {top : TopK S} {stats : SearchStats} {log : List (Evaluation S)}
  {k : Nat}

/-- The postings of all matching documents. -/
def matchingPostings (sources : List (PostingSource S)) : Nat :=
  ((matching sources).map fun d => (containing sources d).length).sum

theorem sum_le_of_subperm {α : Type} {l l' : List α} (h : l.Subperm l') (f : α → Nat) :
    (l.map f).sum ≤ (l'.map f).sum := by
  obtain ⟨listed, hperm, hsub⟩ := h
  rw [← (hperm.map f).sum_eq]
  exact (hsub.map f).sum_le_sum fun _ _ => Nat.zero_le _

theorem work_le_matching (h : Traced ix sources k live top stats log) :
    stats.postingsScored ≤ matchingPostings sources ∧
      stats.fullEvaluations ≤ (matching sources).length := by
  obtain ⟨hnodup, hknown⟩ := h.docids
  have hsub : (log.map (·.docid)).Subperm (matching sources) := by
    refine List.subperm_of_subset hnodup fun d hd => ?_
    obtain ⟨e, he, rfl⟩ := List.mem_map.mp hd
    exact hknown e he
  constructor
  · have hterms : (log.map (·.hits.length)).sum ≤
        ((log.map (·.docid)).map fun d => (containing sources d).length).sum := by
      rw [List.map_map]
      exact List.sum_le_sum fun e he => (h.genuine e he).length_le
    rw [h.postings]
    exact hterms.trans (sum_le_of_subperm hsub _)
  · rw [h.evaluations]
    simpa using hsub.length_le

theorem Complete.work_eq {results : List (Result S)} (h : Complete ix sources k log results stats) :
    stats.postingsScored = matchingPostings sources ∧
      stats.fullEvaluations = (matching sources).length := by
  obtain ⟨⟨live, top, htraced, -⟩, hfull⟩ := h
  obtain ⟨hle, hle'⟩ := work_le_matching htraced
  have hsub : (matching sources).Subperm (log.map (·.docid)) := by
    refine List.subperm_of_subset (List.nodup_dedup _) fun d hd => ?_
    obtain ⟨e, he, rfl, -⟩ := hfull d hd
    exact List.mem_map_of_mem he
  refine ⟨hle.antisymm ?_, hle'.antisymm ?_⟩
  · have hterms : ((log.map (·.docid)).map fun d => (containing sources d).length).sum =
        (log.map (·.hits.length)).sum := by
      rw [List.map_map]
      refine congrArg List.sum (List.map_congr_left fun e he => ?_)
      obtain ⟨f, hf, hfd, hterms⟩ := hfull e.docid (htraced.docids.2 e he)
      obtain rfl := List.inj_on_of_nodup_map htraced.docids.1 hf he hfd
      rw [Function.comp_apply, ← hterms, Evaluation.terms, List.length_map]
    rw [htraced.postings, ← hterms]
    exact sum_le_of_subperm hsub _
  · rw [htraced.evaluations]
    simpa using hsub.length_le

theorem pruned_work_le {step : WandState S → Step (WandState S) (Outcome S)}
    {pass : WandState S → Pass S} (hsteps : Steps ix sources step pass) (hs : WellFormed sources)
    (hk : 0 < k) :
    ∃ results stats, Returns step (wandInit (sources.map PostingCursor.open) k) (.ok (results, stats)) ∧
      stats.postingsScored ≤ matchingPostings sources ∧
      stats.fullEvaluations ≤ (matching sources).length := by
  obtain ⟨log, results, stats, hends, s, threshold, hlast⟩ :=
    @ends_of_steps _ _ _ _ _ _ _ _ _ (fun _ _ => True) hsteps hs hk trivial
      fun _ _ _ _ _ => trivial
  obtain ⟨hp, hf⟩ := work_le_matching hlast.stage.traced
  exact ⟨results, stats, hends.returns, hlast.same.1 ▸ hp, hlast.same.2 ▸ hf⟩

end Counters

/-- Neither pruned loop scores more postings or evaluates more documents than
exhaustive evaluation. -/
theorem pruned_work_le_exhaustive (ix : Index ℚ) (sources : List (PostingSource ℚ))
    (hs : WellFormed sources) (hv : ValidBounds ix sources) (k : Nat) (hk : 1 ≤ k) :
    ∃ daat wand blockMax : List (Result ℚ) × SearchStats,
      Returns (daatStep ix) (daatInit (sources.map PostingCursor.open) k) (.ok daat) ∧
      Returns (wandStep ix) (wandInit (sources.map PostingCursor.open) k) (.ok wand) ∧
      Returns (blockMaxWandStep ix) (wandInit (sources.map PostingCursor.open) k) (.ok blockMax) ∧
      (wand.2.postingsScored ≤ daat.2.postingsScored ∧
        wand.2.fullEvaluations ≤ daat.2.fullEvaluations) ∧
      blockMax.2.postingsScored ≤ daat.2.postingsScored ∧
        blockMax.2.fullEvaluations ≤ daat.2.fullEvaluations := by
  obtain ⟨log, results, stats, hends, hcomplete⟩ := daat_ends ix hs hk
  obtain ⟨wandResults, wandStats, hwand, hwork⟩ := pruned_work_le (wand_steps ix) hs hk
  obtain ⟨blockResults, blockStats, hblock, hwork'⟩ :=
    pruned_work_le (blockMaxWand_steps ix (nonNegativeBounds hs hv)) hs hk
  obtain ⟨hp, hf⟩ := Complete.work_eq hcomplete
  rw [← hp, ← hf] at hwork hwork'
  exact ⟨(results, stats), (wandResults, wandStats), (blockResults, blockStats), hends.returns, hwand,
    hblock, hwork, hwork'⟩

theorem pruned_work_le_exhaustive_shared :
    ∃ daat wand blockMax : List (Result ℚ) × SearchStats,
      Returns (daatStep sharedDocumentIndex) (daatInit (sharedDocument.map PostingCursor.open) 1)
        (.ok daat) ∧
      Returns (wandStep sharedDocumentIndex) (wandInit (sharedDocument.map PostingCursor.open) 1)
        (.ok wand) ∧
      Returns (blockMaxWandStep sharedDocumentIndex) (wandInit (sharedDocument.map PostingCursor.open) 1)
        (.ok blockMax) ∧
      (wand.2.postingsScored ≤ daat.2.postingsScored ∧
        wand.2.fullEvaluations ≤ daat.2.fullEvaluations) ∧
      blockMax.2.postingsScored ≤ daat.2.postingsScored ∧
        blockMax.2.fullEvaluations ≤ daat.2.fullEvaluations :=
  pruned_work_le_exhaustive sharedDocumentIndex sharedDocument sharedDocument_wellFormed
    sharedDocument_validBounds 1 (by decide)

/-- A document that sets the threshold at 8; a term worth 5 that has left its
first block by document 300; a term worth 4 whose one document lies between. -/
def leapt : List (TermList ℚ) :=
  [⟨8, [⟨0, 2⟩]⟩,
   ⟨5, (List.range' 1 128).map (fun d => ⟨d, 1⟩) ++ [⟨300, 2⟩]⟩,
   ⟨4, [⟨200, 2⟩]⟩]

theorem leapt_fits : ∀ l ∈ leapt, l.Fits := by
  intro l hl
  have hcases : l = leapt[0] ∨ l = leapt[1] ∨ l = leapt[2] := by simpa [leapt] using hl
  rcases hcases with rfl | rfl | rfl
  · constructor <;> decide +kernel
  · constructor <;> decide +kernel
  · constructor <;> decide +kernel

/-- Document 200 could score 4 and `wand` never looks at it. `block_max_wand`
takes the bound 5 of a cursor it has just moved to document 300 into account,
and scores it. -/
theorem blockMaxWand_scores_more :
    WellFormed (layOutAll leapt) ∧ ValidBounds trapIndex (layOutAll leapt) ∧
      ∃ wand blockMax : List (Result ℚ) × SearchStats,
        Returns (wandStep trapIndex) (wandInit ((layOutAll leapt).map PostingCursor.open) 1) (.ok wand) ∧
        Returns (blockMaxWandStep trapIndex) (wandInit ((layOutAll leapt).map PostingCursor.open) 1)
          (.ok blockMax) ∧
        wand.2.postingsScored < blockMax.2.postingsScored ∧
        wand.2.fullEvaluations < blockMax.2.fullEvaluations := by
  refine ⟨layOutAll_wellFormed leapt_fits, layOutAll_validBounds leapt_fits,
    ([⟨0, 8⟩], ⟨1, 1, 4, 3⟩), ([⟨0, 8⟩], ⟨2, 2, 4, 2⟩), ⟨8, ?_⟩, ⟨8, ?_⟩, by decide, by decide⟩
  · decide +kernel
  · decide +kernel

end CascadeSearch.Query.ScoringWork
