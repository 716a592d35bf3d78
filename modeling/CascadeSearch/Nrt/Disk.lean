import CascadeSearch.Nrt.WriteSide

/-!
# The disk under the index (`index.py`)

The index knows the files it writes as text. What `build_segment` puts below an
index directory, and `rmtree` takes away again, lies beside them on the disk. A
path is the list of names from the root, with `..` and links resolved.
-/
namespace CascadeSearch.Nrt.Disk

open Lib.Transition
open Index.Format Index.Porter
open FanOut Tsv WriteSide

/-- What the clock reads in a step, and what `build_segment` returns in it;
`none` if it raises. -/
structure Answers (Ix : Type) where
  clock : ℚ
  built : Option Ix
  now : ℚ

structure Event (Ix : Type) where
  action : Action Ix
  answers : Answers Ix

structure OnDisk (Ix : Type) where
  index : NrtIndex Ix
  indexFiles : Path → Option Str

variable {Ix : Type}

/-- A step of the index that gets these answers. -/
inductive Answered (cfg : Config) (builder : BuildSegment Ix) : NrtIndex Ix → Event Ix → NrtIndex Ix → Prop where
  | add {s : NrtIndex Ix} (d : Lib.TextFile.Text × Lib.TextFile.Text) (answers : Answers Ix)
      (returns : ∀ index ∈ answers.built, builder.returns (flushTsv (s.buffer ++ [d])) index) :
      Answered cfg builder s ⟨.add d, answers⟩ (add cfg builder d answers.clock answers.built answers.now s)
  | flush {s : NrtIndex Ix} (answers : Answers Ix)
      (returns : ∀ index ∈ answers.built, builder.returns (flushTsv s.buffer) index) :
      Answered cfg builder s ⟨.flush, answers⟩ (flushLocked cfg builder answers.built answers.now s)
  | other {s s' : NrtIndex Ix} {a : Action Ix} (answers : Answers Ix) (step : Step cfg builder s a s')
      (hadd : ∀ d, a ≠ .add d) (hflush : a ≠ .flush) : Answered cfg builder s ⟨a, answers⟩ s'

/-- `_flush_locked` is called and finds documents to write. -/
def flushes (cfg : Config) (s : NrtIndex Ix) (e : Event Ix) : Bool :=
  match e.action with
  | .add d => shouldFlush cfg e.answers.clock { s with buffer := s.buffer ++ [d] }
  | .flush => !s.buffer.isEmpty
  | _ => false

/-- The `index_dir` of a call of `build_segment`. -/
def builtDir (cfg : Config) (s : NrtIndex Ix) (e : Event Ix) : Option Path :=
  match e.action with
  | .add _ | .flush => if flushes cfg s e then some (indexDirPath cfg s.nextSegmentId) else none
  | .buildMerge | .mergeRaises =>
      match s.worker with
      | .merging job => some (indexDirPath cfg job.mergeId)
      | _ => none
  | _ => none

/-- What a step removes below index directories. -/
def swept (s : NrtIndex Ix) (a : Action Ix) (indexFiles : Path → Option Str) : Path → Option Str :=
  match a, s.worker with
  | .removeFiles, .cleaning (seg :: _) => removeFiles seg indexFiles
  | _, _ => indexFiles

/-- A step of the index; whatever `build_segment` writes, it writes below its `index_dir`. -/
structure DiskStep (cfg : Config) (builder : BuildSegment Ix) (s : OnDisk Ix) (e : Event Ix) (s' : OnDisk Ix) :
    Prop where
  answered : Answered cfg builder s.index e s'.index
  elsewhere : ∀ path, (∀ dir ∈ builtDir cfg s.index e, ¬ dir <+: path) →
    s'.indexFiles path = swept s.index e.action s.indexFiles path

def onDisk (cfg : Config) (builder : BuildSegment Ix) (initial : List (Segment Ix))
    (files indexFiles : Path → Option Str) : System (OnDisk Ix) (Event Ix) where
  init s := (nrtIndex cfg builder initial files).init s.index ∧ s.indexFiles = indexFiles
  step := DiskStep cfg builder

variable {cfg : Config} {builder : BuildSegment Ix} {s s' : NrtIndex Ix}

theorem Answered.step {e : Event Ix} (h : Answered cfg builder s e s') : Step cfg builder s e.action s' := by
  cases h with
  | add d answers returns => exact .add d answers.clock answers.built answers.now returns
  | flush answers returns => exact .flush answers.built answers.now returns
  | other answers step hadd hflush => exact step

/-- The builds of a step may leave the disk as it is. -/
theorem Answered.onDisk {e : Event Ix} (h : Answered cfg builder s e s') (indexFiles : Path → Option Str) :
    DiskStep cfg builder ⟨s, indexFiles⟩ e ⟨s', swept s e.action indexFiles⟩ := ⟨h, fun _ _ => rfl⟩

theorem exists_answered {a : Action Ix} (h : Step cfg builder s a s') :
    ∃ answers, Answered cfg builder s ⟨a, answers⟩ s' := by
  cases h with
  | add d clock built now returns => exact ⟨⟨clock, built, now⟩, .add d _ returns⟩
  | flush built now returns => exact ⟨⟨0, built, now⟩, .flush ⟨0, built, now⟩ returns⟩
  | _ => exact ⟨⟨0, none, 0⟩, .other _ (by constructor <;> assumption) (by simp) (by simp)⟩

theorem builtDir_of_flushes {e : Event Ix} (h : flushes cfg s e = true) :
    builtDir cfg s e = some (indexDirPath cfg s.nextSegmentId) := by
  obtain ⟨a, answers⟩ := e
  cases a with
  | add d => exact if_pos h
  | flush => exact if_pos h
  | _ => cases h

/-- A flush builds under the next id, and a merge under its own. -/
theorem builtDir_cases {e : Event Ix} {dir : Path} (h : dir ∈ builtDir cfg s e) :
    dir = indexDirPath cfg s.nextSegmentId ∨ ∃ job, s.worker = .merging job ∧ dir = indexDirPath cfg job.mergeId := by
  rw [builtDir] at h
  split at h
  · exact Or.inl (Option.some.inj (Option.ite_none_right_eq_some.mp h).2).symm
  · exact Or.inl (Option.some.inj (Option.ite_none_right_eq_some.mp h).2).symm
  · split at h
    · rename_i job hworker
      exact Or.inr ⟨job, hworker, (Option.some.inj h).symm⟩
    · cases h
  · split at h
    · rename_i job hworker
      exact Or.inr ⟨job, hworker, (Option.some.inj h).symm⟩
    · cases h
  · cases h

theorem segmentsDir_prefix_builtDir {e : Event Ix} {dir : Path} (h : dir ∈ builtDir cfg s e) : segmentsDir cfg <+: dir := by
  obtain rfl | ⟨job, -, rfl⟩ := builtDir_cases h
  · exact List.prefix_append _ _
  · exact List.prefix_append _ _

theorem swept_cases (s : NrtIndex Ix) (a : Action Ix) (indexFiles : Path → Option Str) :
    swept s a indexFiles = indexFiles ∨ ∃ seg replaced, a = .removeFiles ∧ s.worker = .cleaning (seg :: replaced) ∧
      swept s a indexFiles = removeFiles seg indexFiles := by
  unfold swept
  split
  · rename_i seg replaced hworker
    exact Or.inr ⟨seg, replaced, rfl, hworker, rfl⟩
  · exact Or.inl rfl

variable {initial : List (Segment Ix)} {files indexFiles : Path → Option Str}

/-- What is on the disk beside the index leaves the index free to do what it does. -/
theorem reachable_iff : (nrtIndex cfg builder initial files).Reachable s ↔
    ∃ t, (onDisk cfg builder initial files indexFiles).Reachable t ∧ t.index = s := by
  constructor
  · intro h
    induction h with
    | init hinit => exact ⟨⟨_, indexFiles⟩, .init ⟨hinit, rfl⟩, rfl⟩
    | step _ hstep ih =>
      obtain ⟨t, ht, rfl⟩ := ih
      obtain ⟨answers, hanswered⟩ := exists_answered hstep
      exact ⟨_, ht.step (hanswered.onDisk t.indexFiles), rfl⟩
  · rintro ⟨t, ht, rfl⟩
    induction ht with
    | init hinit => exact .init hinit.1
    | step _ hstep ih => exact ih.step hstep.answered.step

/-- The same for the steps of a run. -/
theorem run_iff {trace : List (Action Ix)} : (nrtIndex cfg builder initial files).Run trace s ↔
    ∃ events t, (onDisk cfg builder initial files indexFiles).Run events t ∧ events.map (·.action) = trace ∧ t.index = s := by
  constructor
  · intro h
    induction h with
    | init hinit => exact ⟨[], ⟨_, indexFiles⟩, .init ⟨hinit, rfl⟩, rfl, rfl⟩
    | step _ hstep ih =>
      obtain ⟨events, t, ht, rfl, rfl⟩ := ih
      obtain ⟨answers, hanswered⟩ := exists_answered hstep
      exact ⟨_, _, ht.step (hanswered.onDisk t.indexFiles), List.map_append, rfl⟩
  · rintro ⟨events, t, ht, rfl, rfl⟩
    induction ht with
    | init hinit => exact .init hinit.1
    | step _ hstep ih =>
      rw [List.map_append]
      exact ih.step hstep.answered.step

end CascadeSearch.Nrt.Disk
