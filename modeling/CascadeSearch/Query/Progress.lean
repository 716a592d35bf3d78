import CascadeSearch.Query.Evaluated
import CascadeSearch.Query.PruningSafety

/-!
# The pruned loops terminate, whatever the bounds say

A bound that is too low loses documents, but it cannot keep a pruned loop
running: a pass that does not end the loop takes at least one posting from one
cursor. Bounds need only be non-negative, since a block bound below zero is the
source's mark for a cursor that ran out.
-/
namespace CascadeSearch.Query.Progress

open Lib.Loop Lib.LoopTrace Lib.RoundedSum
open Cursor Heap Reader Evaluate Pruning Passes Turns Evaluated PruningSafety

section Loops

variable {S : Type} [LinearOrder S] [Zero S] [Add S] {ix : Index S} {sources : List (PostingSource S)}
  {step : WandState S → Step (WandState S) (Outcome S)} {pass : WandState S → Pass S} {k : Nat}

/-- The states a loop goes through on cursors opened on `sources`, each with the
evaluations before it. -/
def During (sources : List (PostingSource S)) (k : Nat)
    (step : WandState S → Step (WandState S) (Outcome S)) (pass : WandState S → Pass S)
    (log : List (Evaluation S)) (s : WandState S) : Prop :=
  Reaches step (fun s => (pass s).evaluation) (wandInit (sources.map PostingCursor.open) k) log s

structure Progresses (ix : Index S) (sources : List (PostingSource S)) (k : Nat)
    (step : WandState S → Step (WandState S) (Outcome S)) (pass : WandState S → Pass S) : Prop where
  terminates : ∃ results stats,
    Returns step (wandInit (sources.map PostingCursor.open) k) (.ok (results, stats))
  forward : ∀ log s s', During sources k step pass log s → step s = .next s' →
    ∃ c ∈ s.live, c.exhausted = false ∧
      ∃ c' ∈ s'.live, c'.addr = c.addr ∧ (c'.exhausted = true ∨ c.docid < c'.docid)
  drags : ∀ log s d chosen, During sources k step pass log s → pass s = .drags d chosen →
    ∃ c, chosen = some c ∧ c.exhausted = false ∧ c.docid < d
  pushes : ∀ log s s', During sources k step pass log s → step s = .next s' →
    Pushed ix s.top s'.top (pass s).evaluation
  once : ∀ log s, During sources k step pass log s → (log.map (·.docid)).Nodup

theorem progresses_of_steps (hsteps : Steps ix sources step pass) (hs : WellFormed sources) (hk : 0 < k) :
    Progresses ix sources k step pass := by
  have hkeep : Keeping ix sources k step pass fun _ _ => True := fun _ _ _ _ _ => trivial
  have hstage := fun {log s} (h : During sources k step pass log s) =>
    stage_of_reaches hsteps hs hk trivial hkeep h
  constructor
  · obtain ⟨log, results, stats, hends, -⟩ := ends_of_steps hsteps hs hk trivial hkeep
    exact ⟨results, stats, hends.returns⟩
  · intro log s s' hreach hstep
    obtain ⟨threshold, mid, -, hpassed⟩ := (hstage hreach).passed hsteps
    rw [hstep] at hpassed
    exact hpassed.forward (hstage hreach).traced.standing
  · intro log s d chosen hreach hdrags
    obtain ⟨threshold, mid, -, hpassed⟩ := (hstage hreach).passed hsteps
    rw [hdrags] at hpassed
    generalize step s = result at hpassed
    cases hpassed with
    | turns hp hreached hmoved hturn hcount => exact hturn.chosen
  · intro log s s' hreach hstep
    obtain ⟨threshold, mid, -, hpassed⟩ := (hstage hreach).passed hsteps
    rw [hstep] at hpassed
    exact hpassed.pushed
  · intro log s hreach
    exact (hstage hreach).traced.docids.1

/-- Both pruned loops terminate on well-formed cursors with any non-negative
bounds: each pass that does not end the loop moves a cursor strictly forward or
exhausts it, a cursor dragged is one strictly before the pivot, and no document
is pushed twice. -/
theorem pruned_loops_progress [One S] [Neg S] [RoundedAdd S] (ix : Index S)
    (sources : List (PostingSource S)) (hs : WellFormed sources) (hb : NonNegativeBounds sources)
    (k : Nat) (hk : 1 ≤ k) :
    Progresses ix sources k (wandStep ix) wandPass ∧
      Progresses ix sources k (blockMaxWandStep ix) blockMaxWandPass :=
  ⟨progresses_of_steps (wand_steps ix) hs hk, progresses_of_steps (blockMaxWand_steps ix hb) hs hk⟩

theorem pruned_loops_progress_shared :
    Progresses sharedDocumentIndex sharedDocument 1 (wandStep sharedDocumentIndex) wandPass ∧
      Progresses sharedDocumentIndex sharedDocument 1 (blockMaxWandStep sharedDocumentIndex)
        blockMaxWandPass :=
  pruned_loops_progress sharedDocumentIndex sharedDocument sharedDocument_wellFormed
    ⟨by decide +kernel, by decide +kernel⟩ 1 (by decide)

end Loops

end CascadeSearch.Query.Progress
