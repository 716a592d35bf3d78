import CascadeSearch.Lib.Decimal
import CascadeSearch.Lib.Transition
import CascadeSearch.Nrt.MergePolicy
import CascadeSearch.Nrt.Tsv

/-!
# The near-real-time index (`index.py`)

Everything `NrtIndex` does to its fields happens in critical sections of one
lock, and the merge pool has one worker. A state is what holds while the lock is
free; a step is one critical section, or one phase of `_run_merge` outside the
lock. What `build_segment` returns, and whether it raises, is left open.
-/
namespace CascadeSearch.Nrt.WriteSide

open Lib.Decimal Lib.TextFile Lib.Transition
open Index.Format Index.Porter Index.Corpus
open FanOut MergePolicy Tsv

/-- `build_segment` on the bytes of a TSV file: the indexes it may return. -/
structure BuildSegment (Ix : Type) where
  returns : Str → Ix → Prop
  docCount : Ix → Nat

structure Config where
  baseDir : Path
  flushThresholdDocs : Int
  flushIntervalS : ℚ
  mergePolicy : Option TieredMergePolicy

/-- The arguments of a submitted `_run_merge`. -/
structure Job (Ix : Type) where
  chosen : List (Segment Ix)
  mergeId : Nat

/-- The thread of the merge pool. A built or failed job waits for the lock. -/
inductive Worker (Ix : Type) where
  | idle
  | merging (job : Job Ix)
  | built (job : Job Ix) (merged : Segment Ix)
  | failed (job : Job Ix)
  | cleaning (replaced : List (Segment Ix))

/-- The fields of `NrtIndex`, its merge pool, the files and the next `id()`. -/
structure NrtIndex (Ix : Type) where
  segments : List (Segment Ix)
  tombstones : Finset Text := ∅
  buffer : List (Text × Text) := []
  nextSegmentId : Nat
  lastFlushTime : ℚ
  mergeInProgress : Bool := false
  queue : List (Job Ix) := []
  worker : Worker Ix := .idle
  closed : Bool := false
  files : Path → Option Str
  nextIdent : Nat

def segmentsDir (cfg : Config) : Path := cfg.baseDir ++ [lit "segments"]

def tsvPath (cfg : Config) (segId : Nat) : Path :=
  segmentsDir cfg ++ [lit "seg_" ++ decimal segId ++ lit ".tsv"]

def indexDirPath (cfg : Config) (segId : Nat) : Path := segmentsDir cfg ++ [lit "seg_" ++ decimal segId]

variable {Ix : Type}

/-- `_maybe_schedule_merge_locked`, and whether `submit` raised because the pool
was shut down. -/
def maybeScheduleMergeLocked (cfg : Config) (s : NrtIndex Ix) : NrtIndex Ix × Bool :=
  match cfg.mergePolicy with
  | none => (s, false)
  | some policy =>
      if s.mergeInProgress then (s, false)
      else
        match policy.maybeMerge s.segments with
        | none => (s, false)
        | some plan =>
            let mergeId := s.nextSegmentId
            let s := { s with mergeInProgress := true, nextSegmentId := mergeId + 1 }
            if s.closed then (s, true) else ({ s with queue := s.queue ++ [⟨plan, mergeId⟩] }, false)

/-- A plan is due: the policy has one and no merge is in progress. -/
def Due (cfg : Config) (s : NrtIndex Ix) (plan : List (Segment Ix)) : Prop :=
  s.mergeInProgress = false ∧ ∃ policy, cfg.mergePolicy = some policy ∧ policy.maybeMerge s.segments = some plan

/-- Everything `_maybe_schedule_merge_locked` can do. -/
theorem maybeScheduleMergeLocked_cases (cfg : Config) (s : NrtIndex Ix) :
    (maybeScheduleMergeLocked cfg s = (s, false) ∧ ∀ plan, ¬ Due cfg s plan) ∨
    ∃ plan, Due cfg s plan ∧
      (s.closed = true ∧ maybeScheduleMergeLocked cfg s =
          ({ s with mergeInProgress := true, nextSegmentId := s.nextSegmentId + 1 }, true) ∨
        s.closed = false ∧ maybeScheduleMergeLocked cfg s =
          ({ s with mergeInProgress := true, nextSegmentId := s.nextSegmentId + 1,
                    queue := s.queue ++ [⟨plan, s.nextSegmentId⟩] }, false)) := by
  rw [maybeScheduleMergeLocked]
  cases hpolicy : cfg.mergePolicy with
  | none =>
    refine Or.inl ⟨rfl, fun plan hdue => ?_⟩
    obtain ⟨-, policy, hsome, -⟩ := hdue
    rw [hpolicy] at hsome
    cases hsome
  | some policy =>
    have hdue : ∀ {plan}, Due cfg s plan ↔ s.mergeInProgress = false ∧ policy.maybeMerge s.segments = some plan := by
      intro plan
      rw [Due, hpolicy]
      constructor
      · rintro ⟨hflag, other, hsome, hplan⟩
        cases hsome
        exact ⟨hflag, hplan⟩
      · rintro ⟨hflag, hplan⟩
        exact ⟨hflag, policy, rfl, hplan⟩
    dsimp only
    cases hflag : s.mergeInProgress with
    | true =>
      rw [if_pos rfl]
      refine Or.inl ⟨rfl, fun plan h => ?_⟩
      rw [hdue, hflag] at h
      exact Bool.noConfusion h.1
    | false =>
      rw [if_neg Bool.false_ne_true]
      cases hplan : policy.maybeMerge s.segments with
      | none =>
        refine Or.inl ⟨rfl, fun plan h => ?_⟩
        rw [hdue, hplan] at h
        cases h.2
      | some plan =>
        refine Or.inr ⟨plan, hdue.mpr ⟨hflag, hplan⟩, ?_⟩
        cases hclosed : s.closed with
        | true => exact Or.inl ⟨rfl, rfl⟩
        | false => exact Or.inr ⟨rfl, rfl⟩

/-- `_maybe_schedule_merge_locked` writes the flag, the next id and the queue. -/
theorem maybeScheduleMergeLocked_frame (cfg : Config) (s : NrtIndex Ix) :
    ∃ flag next queue, (maybeScheduleMergeLocked cfg s).1 =
      { s with mergeInProgress := flag, nextSegmentId := next, queue := queue } := by
  obtain ⟨heq, -⟩ | ⟨plan, -, ⟨-, heq⟩ | ⟨-, heq⟩⟩ := maybeScheduleMergeLocked_cases cfg s
  · exact ⟨s.mergeInProgress, s.nextSegmentId, s.queue, by rw [heq]⟩
  · exact ⟨true, s.nextSegmentId + 1, s.queue, by rw [heq]⟩
  · exact ⟨true, s.nextSegmentId + 1, _, by rw [heq]⟩

@[simp] theorem schedule_segments (cfg : Config) (s : NrtIndex Ix) :
    (maybeScheduleMergeLocked cfg s).1.segments = s.segments := by
  obtain ⟨flag, next, queue, heq⟩ := maybeScheduleMergeLocked_frame cfg s
  rw [heq]

@[simp] theorem schedule_buffer (cfg : Config) (s : NrtIndex Ix) :
    (maybeScheduleMergeLocked cfg s).1.buffer = s.buffer := by
  obtain ⟨flag, next, queue, heq⟩ := maybeScheduleMergeLocked_frame cfg s
  rw [heq]

@[simp] theorem schedule_worker (cfg : Config) (s : NrtIndex Ix) :
    (maybeScheduleMergeLocked cfg s).1.worker = s.worker := by
  obtain ⟨flag, next, queue, heq⟩ := maybeScheduleMergeLocked_frame cfg s
  rw [heq]

@[simp] theorem schedule_files (cfg : Config) (s : NrtIndex Ix) :
    (maybeScheduleMergeLocked cfg s).1.files = s.files := by
  obtain ⟨flag, next, queue, heq⟩ := maybeScheduleMergeLocked_frame cfg s
  rw [heq]

@[simp] theorem schedule_closed (cfg : Config) (s : NrtIndex Ix) :
    (maybeScheduleMergeLocked cfg s).1.closed = s.closed := by
  obtain ⟨flag, next, queue, heq⟩ := maybeScheduleMergeLocked_frame cfg s
  rw [heq]

/-- `_flush_locked`; `built` is what `build_segment` returned, `none` if it raised. -/
def flushLocked (cfg : Config) (builder : BuildSegment Ix) (built : Option Ix) (now : ℚ)
    (s : NrtIndex Ix) : NrtIndex Ix :=
  if s.buffer = [] then s
  else
    let segId := s.nextSegmentId
    let s := { s with
      nextSegmentId := segId + 1
      files := Function.update s.files (tsvPath cfg segId) (some (flushTsv s.buffer)) }
    match built with
    | none => s
    | some index =>
        let segment : Segment Ix := {
          ident := s.nextIdent
          index := index
          sourceTsv := tsvPath cfg segId
          indexDir := indexDirPath cfg segId
          docCount := builder.docCount index }
        (maybeScheduleMergeLocked cfg { s with
          segments := s.segments ++ [segment]
          buffer := []
          lastFlushTime := now
          nextIdent := s.nextIdent + 1 }).1

def shouldFlush (cfg : Config) (clock : ℚ) (s : NrtIndex Ix) : Bool :=
  cfg.flushThresholdDocs ≤ s.buffer.length || cfg.flushIntervalS ≤ clock - s.lastFlushTime

def add (cfg : Config) (builder : BuildSegment Ix) (d : Text × Text) (clock : ℚ) (built : Option Ix)
    (now : ℚ) (s : NrtIndex Ix) : NrtIndex Ix :=
  let s := { s with buffer := s.buffer ++ [d] }
  if shouldFlush cfg clock s then flushLocked cfg builder built now s else s

/-- The text `_run_merge` writes; `none` if a source file is missing or undecodable. -/
def mergedTsv (s : NrtIndex Ix) (job : Job Ix) : Option Str :=
  (job.chosen.mapM fun seg => s.files seg.sourceTsv).bind mergeTsv

/-- `merged_tsv.write_text`. -/
def writeMerged (cfg : Config) (job : Job Ix) (tsv : Str) (s : NrtIndex Ix) : NrtIndex Ix :=
  { s with files := Function.update s.files (tsvPath cfg job.mergeId) (some tsv) }

/-- The successful build of `_run_merge`, outside the lock. -/
def buildMerged (cfg : Config) (builder : BuildSegment Ix) (job : Job Ix) (tsv : Str) (index : Ix)
    (s : NrtIndex Ix) : NrtIndex Ix :=
  let merged : Segment Ix := {
    ident := s.nextIdent
    index := index
    sourceTsv := tsvPath cfg job.mergeId
    indexDir := indexDirPath cfg job.mergeId
    docCount := builder.docCount index }
  { writeMerged cfg job tsv s with worker := .built job merged, nextIdent := s.nextIdent + 1 }

/-- The critical section of `_run_merge`; the old files go only if it does not raise. -/
def swapMerged (cfg : Config) (job : Job Ix) (merged : Segment Ix) (s : NrtIndex Ix) : NrtIndex Ix :=
  let chosenIds := job.chosen.map (·.ident)
  let (s, raised) := maybeScheduleMergeLocked cfg { s with
    segments := s.segments.filter (fun seg => seg.ident ∉ chosenIds) ++ [merged]
    mergeInProgress := false
    worker := .cleaning job.chosen }
  if raised then { s with worker := .idle } else s

/-- `unlink` of the source file and `rmtree` of the index directory. -/
def removeFiles (seg : Segment Ix) (files : Path → Option Str) : Path → Option Str :=
  fun path => if path = seg.sourceTsv ∨ seg.indexDir <+: path then none else files path

inductive Action (Ix : Type) where
  | add (d : Text × Text)
  | flush
  | delete (externalId : Text)
  | search (segments : List (Segment Ix)) (tombstones : Finset Text)
  | startMerge
  | buildMerge
  | mergeRaises
  | swap (job : Job Ix)
  | mergeFailed
  | removeFiles
  | cleaned
  | close

inductive Step (cfg : Config) (builder : BuildSegment Ix) :
    NrtIndex Ix → Action Ix → NrtIndex Ix → Prop where
  | add {s : NrtIndex Ix} (d : Text × Text) (clock : ℚ) (built : Option Ix) (now : ℚ)
      (returns : ∀ index ∈ built, builder.returns (flushTsv (s.buffer ++ [d])) index) :
      Step cfg builder s (.add d) (add cfg builder d clock built now s)
  | flush {s : NrtIndex Ix} (built : Option Ix) (now : ℚ)
      (returns : ∀ index ∈ built, builder.returns (flushTsv s.buffer) index) :
      Step cfg builder s .flush (flushLocked cfg builder built now s)
  | delete {s : NrtIndex Ix} (externalId : Text) :
      Step cfg builder s (.delete externalId) { s with tombstones := insert externalId s.tombstones }
  | search {s : NrtIndex Ix} : Step cfg builder s (.search s.segments s.tombstones) s
  | startMerge {s : NrtIndex Ix} {job : Job Ix} {queue : List (Job Ix)} (worker : s.worker = .idle)
      (jobs : s.queue = job :: queue) :
      Step cfg builder s .startMerge { s with worker := .merging job, queue := queue }
  | buildMerge {s : NrtIndex Ix} {job : Job Ix} {tsv : Str} {index : Ix}
      (worker : s.worker = .merging job) (read : mergedTsv s job = some tsv)
      (returns : builder.returns tsv index) :
      Step cfg builder s .buildMerge (buildMerged cfg builder job tsv index s)
  | mergeRaises {s : NrtIndex Ix} {job : Job Ix} (worker : s.worker = .merging job) :
      Step cfg builder s .mergeRaises { s with worker := .failed job }
  | buildRaises {s : NrtIndex Ix} {job : Job Ix} {tsv : Str} (worker : s.worker = .merging job)
      (read : mergedTsv s job = some tsv) :
      Step cfg builder s .mergeRaises { writeMerged cfg job tsv s with worker := .failed job }
  | swap {s : NrtIndex Ix} {job : Job Ix} {merged : Segment Ix} (worker : s.worker = .built job merged) :
      Step cfg builder s (.swap job) (swapMerged cfg job merged s)
  | mergeFailed {s : NrtIndex Ix} {job : Job Ix} (worker : s.worker = .failed job) :
      Step cfg builder s .mergeFailed { s with mergeInProgress := false, worker := .idle }
  | removeFiles {s : NrtIndex Ix} {seg : Segment Ix} {replaced : List (Segment Ix)}
      (worker : s.worker = .cleaning (seg :: replaced)) :
      Step cfg builder s .removeFiles
        { s with files := removeFiles seg s.files, worker := .cleaning replaced }
  | cleaned {s : NrtIndex Ix} (worker : s.worker = .cleaning []) :
      Step cfg builder s .cleaned { s with worker := .idle }
  | close {s : NrtIndex Ix} : Step cfg builder s .close { s with closed := true }

/-- An index over the initial segments; `id()` of later objects is new. -/
def nrtIndex (cfg : Config) (builder : BuildSegment Ix) (initial : List (Segment Ix))
    (files : Path → Option Str) : System (NrtIndex Ix) (Action Ix) where
  init s := ∃ ident now, (∀ seg ∈ initial, seg.ident < ident) ∧
    s = { segments := initial, nextSegmentId := initial.length, lastFlushTime := now,
          files := files, nextIdent := ident }
  step := Step cfg builder

end CascadeSearch.Nrt.WriteSide
