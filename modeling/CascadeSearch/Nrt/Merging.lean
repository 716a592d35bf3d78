import CascadeSearch.Nrt.Conservation
import CascadeSearch.Nrt.Disk
import Mathlib.Logic.Relation

/-!
# The changes behind a step

Each critical section of `index.py` is a sequence of few changes: a document is
buffered, a TSV written, a segment published or swapped in, a merge scheduled.
An invariant that every change keeps is kept by every step; the only other
thing a step can do is to be turned away by a pool that is shut down.
-/
namespace CascadeSearch.Nrt.Merging

open Lib.TextFile Lib.Transition
open Index.Format Index.Porter Index.Corpus
open FanOut MergePolicy Tsv WriteSide Conservation Disk

variable {Ix : Type}

/-- The buffer is written to the TSV of the next id. -/
def wrote (cfg : Config) (s : NrtIndex Ix) : NrtIndex Ix :=
  { s with
    nextSegmentId := s.nextSegmentId + 1
    files := Function.update s.files (tsvPath cfg s.nextSegmentId) (some (flushTsv s.buffer)) }

def newSegment (cfg : Config) (builder : BuildSegment Ix) (index : Ix) (s : NrtIndex Ix) : Segment Ix where
  ident := s.nextIdent
  index := index
  sourceTsv := tsvPath cfg s.nextSegmentId
  indexDir := indexDirPath cfg s.nextSegmentId
  docCount := builder.docCount index

def published (cfg : Config) (builder : BuildSegment Ix) (index : Ix) (now : ℚ) (s : NrtIndex Ix) : NrtIndex Ix :=
  { wrote cfg s with
    segments := s.segments ++ [newSegment cfg builder index s]
    buffer := []
    lastFlushTime := now
    nextIdent := s.nextIdent + 1 }

/-- What a merge leaves of the segments. -/
def kept (job : Job Ix) (segments : List (Segment Ix)) : List (Segment Ix) :=
  segments.filter fun seg => seg.ident ∉ job.chosen.map (·.ident)

def swapped (job : Job Ix) (merged : Segment Ix) (s : NrtIndex Ix) : NrtIndex Ix :=
  { s with
    segments := kept job s.segments ++ [merged]
    mergeInProgress := false
    worker := .cleaning job.chosen }

/-- The pool accepts the plan. -/
def scheduled (plan : List (Segment Ix)) (s : NrtIndex Ix) : NrtIndex Ix :=
  { s with
    mergeInProgress := true
    nextSegmentId := s.nextSegmentId + 1
    queue := s.queue ++ [⟨plan, s.nextSegmentId⟩] }

/-- The pool raises. -/
def rejected (s : NrtIndex Ix) : NrtIndex Ix :=
  { s with mergeInProgress := true, nextSegmentId := s.nextSegmentId + 1 }

inductive Effect (cfg : Config) (builder : BuildSegment Ix) : NrtIndex Ix → NrtIndex Ix → Prop where
  | buffer {s : NrtIndex Ix} (d : Text × Text) : Effect cfg builder s { s with buffer := s.buffer ++ [d] }
  | write {s : NrtIndex Ix} (hbuffer : s.buffer ≠ []) : Effect cfg builder s (wrote cfg s)
  | publish {s : NrtIndex Ix} {index : Ix} (now : ℚ) (hbuffer : s.buffer ≠ [])
      (returns : builder.returns (flushTsv s.buffer) index) : Effect cfg builder s (published cfg builder index now s)
  | schedule {s : NrtIndex Ix} {plan : List (Segment Ix)} (hdue : Due cfg s plan) (hopen : s.closed = false) :
      Effect cfg builder s (scheduled plan s)
  | delete {s : NrtIndex Ix} (externalId : Text) :
      Effect cfg builder s { s with tombstones := insert externalId s.tombstones }
  | start {s : NrtIndex Ix} {job : Job Ix} {queue : List (Job Ix)} (worker : s.worker = .idle)
      (jobs : s.queue = job :: queue) : Effect cfg builder s { s with worker := .merging job, queue := queue }
  | build {s : NrtIndex Ix} {job : Job Ix} {tsv : Str} {index : Ix} (worker : s.worker = .merging job)
      (read : mergedTsv s job = some tsv) (returns : builder.returns tsv index) :
      Effect cfg builder s (buildMerged cfg builder job tsv index s)
  | writeMerged {s : NrtIndex Ix} {job : Job Ix} {tsv : Str} (worker : s.worker = .merging job)
      (read : mergedTsv s job = some tsv) : Effect cfg builder s (writeMerged cfg job tsv s)
  | fail {s : NrtIndex Ix} {job : Job Ix} (worker : s.worker = .merging job) :
      Effect cfg builder s { s with worker := .failed job }
  | swap {s : NrtIndex Ix} {job : Job Ix} {merged : Segment Ix} (worker : s.worker = .built job merged) :
      Effect cfg builder s (swapped job merged s)
  | reset {s : NrtIndex Ix} {job : Job Ix} (worker : s.worker = .failed job) :
      Effect cfg builder s { s with mergeInProgress := false, worker := .idle }
  | remove {s : NrtIndex Ix} {seg : Segment Ix} {replaced : List (Segment Ix)}
      (worker : s.worker = .cleaning (seg :: replaced)) :
      Effect cfg builder s { s with files := removeFiles seg s.files, worker := .cleaning replaced }
  | clean {s : NrtIndex Ix} (worker : s.worker = .cleaning []) : Effect cfg builder s { s with worker := .idle }
  | close {s : NrtIndex Ix} : Effect cfg builder s { s with closed := true }

variable {cfg : Config} {builder : BuildSegment Ix} {s s' : NrtIndex Ix}

theorem flushLocked_cases (cfg : Config) (builder : BuildSegment Ix) (built : Option Ix) (now : ℚ)
    (s : NrtIndex Ix) :
    (s.buffer = [] ∧ flushLocked cfg builder built now s = s) ∨
    s.buffer ≠ [] ∧ (built = none ∧ flushLocked cfg builder built now s = wrote cfg s ∨
      ∃ index, built = some index ∧ flushLocked cfg builder built now s =
        (maybeScheduleMergeLocked cfg (published cfg builder index now s)).1) := by
  by_cases hbuffer : s.buffer = []
  · exact Or.inl ⟨hbuffer, if_pos hbuffer⟩
  · refine Or.inr ⟨hbuffer, ?_⟩
    rw [flushLocked, if_neg hbuffer]
    cases built with
    | none => exact Or.inl ⟨rfl, rfl⟩
    | some index => exact Or.inr ⟨index, rfl, rfl⟩

theorem swapMerged_eq (cfg : Config) (job : Job Ix) (merged : Segment Ix) (s : NrtIndex Ix) :
    swapMerged cfg job merged s =
      if (maybeScheduleMergeLocked cfg (swapped job merged s)).2 then
        { (maybeScheduleMergeLocked cfg (swapped job merged s)).1 with worker := .idle }
      else (maybeScheduleMergeLocked cfg (swapped job merged s)).1 := rfl

/-- A step that is turned away: a plan is due and the pool is shut down. -/
inductive TurnedAway (cfg : Config) : NrtIndex Ix → NrtIndex Ix → Prop where
  | flush {s : NrtIndex Ix} {plan : List (Segment Ix)} (hdue : Due cfg s plan) (hclosed : s.closed = true) :
      TurnedAway cfg s (rejected s)
  | swap {s : NrtIndex Ix} {plan chosen : List (Segment Ix)} (hdue : Due cfg s plan) (hclosed : s.closed = true)
      (worker : s.worker = .cleaning chosen) : TurnedAway cfg s { rejected s with worker := .idle }

abbrev Effects (cfg : Config) (builder : BuildSegment Ix) : NrtIndex Ix → NrtIndex Ix → Prop :=
  Relation.ReflTransGen (Effect cfg builder)

def OverBudget (cfg : Config) (count : Nat) : Prop :=
  ∃ policy, cfg.mergePolicy = some policy ∧ policy.maxSegments < count

/-- After `close`, a segment that `build_segment` returned to a flush, or one that
is swapped in, exceeds the budget while no other merge is in progress. -/
def Rejects (cfg : Config) (s : NrtIndex Ix) (e : Event Ix) : Prop :=
  s.closed = true ∧ match e.action with
    | .add _ | .flush => flushes cfg s e = true ∧ e.answers.built ≠ none ∧ s.mergeInProgress = false ∧
        OverBudget cfg (s.segments.length + 1)
    | .swap job => OverBudget cfg ((kept job s.segments).length + 1)
    | _ => False

theorem exists_due_iff (cfg : Config) (s : NrtIndex Ix) :
    (∃ plan, Due cfg s plan) ↔ s.mergeInProgress = false ∧ OverBudget cfg s.segments.length := by
  constructor
  · intro hdue
    obtain ⟨plan, hflag, policy, hpolicy, hplan⟩ := hdue
    exact ⟨hflag, policy, hpolicy, (exists_plan_iff policy _).mp ⟨plan, hplan⟩⟩
  · intro hover
    obtain ⟨hflag, policy, hpolicy, hcount⟩ := hover
    obtain ⟨plan, hplan⟩ := (exists_plan_iff policy _).mpr hcount
    exact ⟨plan, hflag, policy, hpolicy, hplan⟩

/-- Either the changes of the step go through, or the pool turns it away. -/
inductive Outcome (cfg : Config) (builder : BuildSegment Ix) (s s' : NrtIndex Ix) (rejects : Prop) : Prop where
  | through (heffects : Effects cfg builder s s') (h : ¬ rejects)
  | turnedAway {t : NrtIndex Ix} (heffects : Effects cfg builder s t) (hturned : TurnedAway cfg t s') (h : rejects)

theorem Outcome.head {t : NrtIndex Ix} {rejects : Prop} (hfirst : Effect cfg builder s t)
    (h : Outcome cfg builder t s' rejects) : Outcome cfg builder s s' rejects := by
  cases h with
  | through heffects h => exact .through (.head hfirst heffects) h
  | turnedAway heffects hturned h => exact .turnedAway (.head hfirst heffects) hturned h

theorem Outcome.congr {rejects rejects' : Prop} (h : Outcome cfg builder s s' rejects) (hiff : rejects ↔ rejects') :
    Outcome cfg builder s s' rejects' := by
  rw [← hiff]
  exact h

theorem flushLocked_outcome {built : Option Ix} (now : ℚ)
    (returns : ∀ index ∈ built, builder.returns (flushTsv s.buffer) index) :
    Outcome cfg builder s (flushLocked cfg builder built now s)
      (s.closed = true ∧ s.buffer ≠ [] ∧ built ≠ none ∧ s.mergeInProgress = false ∧
        OverBudget cfg (s.segments.length + 1)) := by
  obtain ⟨hbuffer, heq⟩ | ⟨hbuffer, ⟨hraised, heq⟩ | ⟨index, hindex, heq⟩⟩ := flushLocked_cases cfg builder built now s
  · rw [heq]
    exact .through .refl fun h => h.2.1 hbuffer
  · rw [heq]
    exact .through (.single (.write hbuffer)) fun h => h.2.2.1 hraised
  · have hpublish : Effects cfg builder s (published cfg builder index now s) :=
      .single (.publish now hbuffer (returns index hindex))
    have hcount : (published cfg builder index now s).segments.length = s.segments.length + 1 := List.length_append
    have hdue := exists_due_iff cfg (published cfg builder index now s)
    rw [hcount] at hdue
    rw [heq]
    obtain ⟨hsame, hnot⟩ | ⟨plan, hplan, ⟨hclosed, hraise⟩ | ⟨hopen, hsubmit⟩⟩ :=
      maybeScheduleMergeLocked_cases cfg (published cfg builder index now s)
    · rw [hsame]
      refine .through hpublish fun h => ?_
      obtain ⟨plan, hplan⟩ := hdue.mpr h.2.2.2
      exact hnot plan hplan
    · rw [hraise]
      have hreturned : built ≠ none := hindex ▸ Option.some_ne_none index
      exact .turnedAway hpublish (.flush hplan hclosed) ⟨hclosed, hbuffer, hreturned, hdue.mp ⟨plan, hplan⟩⟩
    · rw [hsubmit]
      exact .through (hpublish.tail (.schedule hplan hopen)) fun h => Bool.false_ne_true (hopen.symm.trans h.1)

theorem swapMerged_outcome {job : Job Ix} {merged : Segment Ix} (worker : s.worker = .built job merged) :
    Outcome cfg builder s (swapMerged cfg job merged s)
      (s.closed = true ∧ OverBudget cfg ((kept job s.segments).length + 1)) := by
  have hswap : Effects cfg builder s (swapped job merged s) := .single (.swap worker)
  have hcount : (swapped job merged s).segments.length = (kept job s.segments).length + 1 := List.length_append
  have hdue := exists_due_iff cfg (swapped job merged s)
  rw [hcount] at hdue
  rw [swapMerged_eq]
  obtain ⟨hsame, hnot⟩ | ⟨plan, hplan, ⟨hclosed, hraise⟩ | ⟨hopen, hsubmit⟩⟩ :=
    maybeScheduleMergeLocked_cases cfg (swapped job merged s)
  · rw [hsame]
    refine .through hswap fun h => ?_
    obtain ⟨plan, hplan⟩ := hdue.mpr ⟨rfl, h.2⟩
    exact hnot plan hplan
  · rw [hraise]
    exact .turnedAway hswap (.swap hplan hclosed rfl) ⟨hclosed, (hdue.mp ⟨plan, hplan⟩).2⟩
  · rw [hsubmit]
    exact .through (hswap.tail (.schedule hplan hopen)) fun h => Bool.false_ne_true (hopen.symm.trans h.1)

theorem step_outcome {e : Event Ix} (h : Answered cfg builder s e s') :
    Outcome cfg builder s s' (Rejects cfg s e) := by
  cases h with
  | add d answers returns =>
    have hbuffer : Effect cfg builder s { s with buffer := s.buffer ++ [d] } := .buffer d
    have hnonempty : s.buffer ++ [d] ≠ [] := List.append_ne_nil_of_right_ne_nil _ (List.cons_ne_nil _ _)
    rw [WriteSide.add]
    split
    · rename_i hflush
      have hflushed : Outcome cfg builder { s with buffer := s.buffer ++ [d] } _ _ :=
        flushLocked_outcome answers.now returns
      refine (hflushed.congr ?_).head hbuffer
      exact ⟨fun h => ⟨h.1, hflush, h.2.2⟩, fun h => ⟨h.1, hnonempty, h.2.2⟩⟩
    · rename_i hflush
      exact .through (.single hbuffer) fun h => hflush h.2.1
  | flush answers returns =>
    have hdue : flushes cfg s ⟨.flush, answers⟩ = true ↔ s.buffer ≠ [] := by simp [flushes]
    exact (flushLocked_outcome answers.now returns).congr
      ⟨fun h => ⟨h.1, hdue.mpr h.2.1, h.2.2⟩, fun h => ⟨h.1, hdue.mp h.2.1, h.2.2⟩⟩
  | other answers step hadd hflush =>
    cases step with
    | add d => exact absurd rfl (hadd d)
    | flush => exact absurd rfl hflush
    | delete externalId => exact .through (.single (.delete externalId)) fun h => h.2
    | search => exact .through .refl fun h => h.2
    | startMerge worker jobs => exact .through (.single (.start worker jobs)) fun h => h.2
    | buildMerge worker read returns => exact .through (.single (.build worker read returns)) fun h => h.2
    | mergeRaises worker => exact .through (.single (.fail worker)) fun h => h.2
    | buildRaises worker read =>
      exact .through ((Relation.ReflTransGen.single (.writeMerged worker read)).tail (.fail worker)) fun h => h.2
    | swap worker => exact swapMerged_outcome worker
    | mergeFailed worker => exact .through (.single (.reset worker)) fun h => h.2
    | removeFiles worker => exact .through (.single (.remove worker)) fun h => h.2
    | cleaned worker => exact .through (.single (.clean worker)) fun h => h.2
    | close => exact .through (.single .close) fun h => h.2

/-- What every change and every turned away step keeps, every step keeps. -/
theorem step_preserves {Inv : NrtIndex Ix → Prop} (heffect : ∀ s s', Inv s → Effect cfg builder s s' → Inv s')
    (hturned : ∀ s s', Inv s → TurnedAway cfg s s' → Inv s') {a : Action Ix} (hs : Inv s)
    (h : Step cfg builder s a s') : Inv s' := by
  have heffects : ∀ {t}, Effects cfg builder s t → Inv t := by
    intro t ht
    induction ht with
    | refl => exact hs
    | tail _ hstep ih => exact heffect _ _ ih hstep
  obtain ⟨answers, hanswered⟩ := exists_answered h
  cases step_outcome hanswered with
  | through hall _ => exact heffects hall
  | turnedAway hbefore hlast _ => exact hturned _ s' (heffects hbefore) hlast

/-- The replaced segments whose files are still there. -/
def removing : Worker Ix → List (Segment Ix)
  | .cleaning replaced => replaced
  | _ => []

theorem queue_nil (hone : (pending s).length ≤ 1) {job : Job Ix} (hpending : pending s = job :: s.queue) :
    s.queue = [] := by
  rw [hpending, List.length_cons] at hone
  exact List.length_eq_zero_iff.mp (by omega)

/-- At most one merge is under way, the flag is set for it, and its plan is
still live. -/
structure OneMerge (s : NrtIndex Ix) : Prop where
  one : (pending s).length ≤ 1
  flagged : pending s ≠ [] → s.mergeInProgress = true
  chosen : ∀ job ∈ pending s, job.chosen.Subperm s.segments

theorem pending_scheduled (plan : List (Segment Ix)) (s : NrtIndex Ix) :
    pending (scheduled plan s) = pending s ++ [⟨plan, s.nextSegmentId⟩] := (List.append_assoc _ _ _).symm

namespace OneMerge

theorem pending_nil (h : OneMerge s) (hflag : s.mergeInProgress = false) : pending s = [] := by
  by_contra hne
  exact Bool.false_ne_true (hflag.symm.trans (h.flagged hne))

theorem of_pending_nil (hpending : pending s = []) : OneMerge s := by
  refine ⟨hpending ▸ Nat.zero_le _, fun hne => absurd hpending hne, ?_⟩
  rw [hpending]
  exact fun j hj => absurd hj List.not_mem_nil

/-- The jobs stay the same, and so does the flag, while segments may be added. -/
theorem congr (h : OneMerge s) (hpending : pending s' = pending s) (hflag : s'.mergeInProgress = s.mergeInProgress)
    (hsegments : s.segments.Subperm s'.segments) : OneMerge s' := by
  refine ⟨hpending ▸ h.one, fun hne => ?_, fun job hjob => ?_⟩
  · rw [hpending] at hne
    exact hflag.trans (h.flagged hne)
  · rw [hpending] at hjob
    exact (h.chosen job hjob).trans hsegments

theorem schedule (h : OneMerge s) {plan : List (Segment Ix)} (hdue : Due cfg s plan) :
    OneMerge (scheduled plan s) := by
  obtain ⟨hflag, policy, -, hplan⟩ := hdue
  have hpending := pending_scheduled plan s
  rw [h.pending_nil hflag, List.nil_append] at hpending
  refine ⟨(congrArg List.length hpending).le, fun _ => rfl, fun job hjob => ?_⟩
  rw [hpending, List.mem_singleton] at hjob
  rw [hjob]
  exact maybeMerge_subperm hplan

theorem effect (h : OneMerge s) (heffect : Effect cfg builder s s') : OneMerge s' := by
  cases heffect with
  | buffer d => exact h.congr rfl rfl (List.Subperm.refl _)
  | write hbuffer => exact h.congr rfl rfl (List.Subperm.refl _)
  | publish now hbuffer returns => exact h.congr rfl rfl (List.sublist_append_left _ _).subperm
  | schedule hdue hopen => exact h.schedule hdue
  | delete externalId => exact h.congr rfl rfl (List.Subperm.refl _)
  | start worker jobs => exact h.congr (by rw [pending, pending, worker, jobs]; rfl) rfl (List.Subperm.refl _)
  | build worker read returns => exact h.congr (pending_of_worker worker).symm rfl (List.Subperm.refl _)
  | writeMerged worker read => exact h.congr rfl rfl (List.Subperm.refl _)
  | fail worker => exact h.congr (pending_of_worker worker).symm rfl (List.Subperm.refl _)
  | swap worker =>
    have hqueue := queue_nil h.one (pending_of_worker worker)
    exact of_pending_nil hqueue
  | reset worker =>
    have hqueue := queue_nil h.one (pending_of_worker worker)
    exact of_pending_nil hqueue
  | remove worker => exact h.congr (pending_of_worker worker).symm rfl (List.Subperm.refl _)
  | clean worker => exact h.congr (pending_of_worker worker).symm rfl (List.Subperm.refl _)
  | close => exact h.congr rfl rfl (List.Subperm.refl _)

theorem turnedAway (h : OneMerge s) (hturned : TurnedAway cfg s s') : OneMerge s' := by
  cases hturned with
  | flush hdue hclosed => exact of_pending_nil (h.pending_nil hdue.1)
  | swap hdue hclosed worker =>
    have hpending : pending { rejected s with worker := .idle } = pending s := (pending_of_worker worker).symm
    exact of_pending_nil (hpending.trans (h.pending_nil hdue.1))

theorem step (h : OneMerge s) {a : Action Ix} (hstep : Step cfg builder s a s') : OneMerge s' :=
  step_preserves (fun _ _ hs => hs.effect) (fun _ _ hs => hs.turnedAway) h hstep

end OneMerge

/-- Every pending merge was due when it was planned. -/
def Planned (cfg : Config) (s : NrtIndex Ix) : Prop := ∀ job ∈ pending s, ∃ t, Due cfg t job.chosen

namespace Planned

theorem shrink (h : Planned cfg s) (hpending : pending s' ⊆ pending s) : Planned cfg s' :=
  fun job hjob => h job (hpending hjob)

theorem effect (h : Planned cfg s) (heffect : Effect cfg builder s s') : Planned cfg s' := by
  cases heffect with
  | buffer d => exact h
  | write hbuffer => exact h
  | publish now hbuffer returns => exact h
  | schedule hdue hopen =>
    intro job hjob
    rw [pending_scheduled, List.mem_append, List.mem_singleton] at hjob
    rcases hjob with hjob | rfl
    · exact h job hjob
    · exact ⟨s, hdue⟩
  | delete externalId => exact h
  | start worker jobs => exact h.shrink (by simp [pending, worker, jobs, unfinished])
  | build worker read returns => exact h.shrink (by simp [pending, worker, buildMerged, writeMerged, unfinished])
  | writeMerged worker read => exact h
  | fail worker => exact h.shrink (by simp [pending, worker, unfinished])
  | swap worker => exact h.shrink (List.subset_append_right _ _)
  | reset worker => exact h.shrink (List.subset_append_right _ _)
  | remove worker => exact h.shrink (by simp [pending, worker, unfinished])
  | clean worker => exact h.shrink (by simp [pending, worker, unfinished])
  | close => exact h

theorem turnedAway (h : Planned cfg s) (hturned : TurnedAway cfg s s') : Planned cfg s' := by
  cases hturned with
  | flush hdue hclosed => exact h
  | swap hdue hclosed worker => exact h.shrink (List.subset_append_right _ _)

theorem step (h : Planned cfg s) {a : Action Ix} (hstep : Step cfg builder s a s') : Planned cfg s' :=
  step_preserves (fun _ _ hs => hs.effect) (fun _ _ hs => hs.turnedAway) h hstep

end Planned

/-- The segments in sight are different objects. -/
structure DistinctIds (s : NrtIndex Ix) : Prop where
  idents : ((known s).map (·.ident)).Nodup
  fresh : ∀ seg ∈ known s, seg.ident < s.nextIdent

namespace DistinctIds

/-- One more segment, with the next ident. -/
theorem cons (h : DistinctIds s) {seg : Segment Ix} (hseg : seg.ident = s.nextIdent)
    (hknown : (known s').Perm (seg :: known s)) (hnext : s'.nextIdent = s.nextIdent + 1) : DistinctIds s' := by
  constructor
  · rw [(hknown.map (·.ident)).nodup_iff, List.map_cons, List.nodup_cons, hseg]
    refine ⟨fun hmem => ?_, h.idents⟩
    obtain ⟨x, hx, hident⟩ := List.mem_map.mp hmem
    exact (h.fresh x hx).ne hident
  · intro x hx
    rw [hnext]
    rcases List.mem_cons.mp (hknown.subset hx) with rfl | hx
    · exact hseg ▸ Nat.lt_succ_self _
    · exact (h.fresh x hx).trans (Nat.lt_succ_self _)

theorem shrink (h : DistinctIds s) (hknown : (known s').Subperm (known s)) (hnext : s'.nextIdent = s.nextIdent) :
    DistinctIds s' := by
  obtain ⟨front, hfront, hsublist⟩ := id hknown
  refine ⟨(hfront.map _).nodup_iff.mp ((hsublist.map _).nodup h.idents), fun seg hseg => ?_⟩
  rw [hnext]
  exact h.fresh seg (hknown.subset hseg)

theorem congr (h : DistinctIds s) (hknown : known s' = known s) (hnext : s'.nextIdent = s.nextIdent) : DistinctIds s' :=
  h.shrink (hknown ▸ List.Subperm.refl _) hnext

theorem effect (h : DistinctIds s) (heffect : Effect cfg builder s s') : DistinctIds s' := by
  cases heffect with
  | buffer d => exact h.congr rfl rfl
  | write hbuffer => exact h.congr rfl rfl
  | @publish index now hbuffer returns =>
    have hident : (newSegment cfg builder index s).ident = s.nextIdent := rfl
    refine h.cons hident ?_ rfl
    change (produced s.worker ++ (s.segments ++ [_])).Perm (_ :: (produced s.worker ++ s.segments))
    rw [← List.append_assoc]
    exact List.perm_append_comm
  | schedule hdue hopen => exact h.congr rfl rfl
  | delete externalId => exact h.congr rfl rfl
  | start worker jobs => exact h.congr (known_of_worker worker).symm rfl
  | @build job tsv index worker read returns =>
    have hknown : known s = s.segments := known_of_worker worker
    let merged : Segment Ix :=
      ⟨s.nextIdent, index, tsvPath cfg job.mergeId, indexDirPath cfg job.mergeId, builder.docCount index⟩
    have hident : merged.ident = s.nextIdent := rfl
    refine h.cons hident ?_ rfl
    rw [hknown]
    exact List.Perm.refl _
  | writeMerged worker read => exact h.congr rfl rfl
  | fail worker => exact h.congr (known_of_worker worker).symm rfl
  | @swap job merged worker =>
    have hknown : known s = merged :: s.segments := known_of_worker worker
    refine h.shrink ?_ rfl
    rw [hknown]
    change (kept job s.segments ++ [merged]).Subperm _
    exact List.perm_append_comm.subperm.trans (List.filter_sublist.cons_cons merged).subperm
  | reset worker => exact h.congr (known_of_worker worker).symm rfl
  | remove worker => exact h.congr (known_of_worker worker).symm rfl
  | clean worker => exact h.congr (known_of_worker worker).symm rfl
  | close => exact h.congr rfl rfl

theorem turnedAway (h : DistinctIds s) (hturned : TurnedAway cfg s s') : DistinctIds s' := by
  cases hturned with
  | flush hdue hclosed => exact h.congr rfl rfl
  | swap hdue hclosed worker => exact h.congr (known_of_worker worker).symm rfl

theorem step (h : DistinctIds s) {a : Action Ix} (hstep : Step cfg builder s a s') : DistinctIds s' :=
  step_preserves (fun _ _ hs => hs.effect) (fun _ _ hs => hs.turnedAway) h hstep

end DistinctIds

variable {initial : List (Segment Ix)} {files : Path → Option Str}

theorem oneMerge_of_reachable (h : (nrtIndex cfg builder initial files).Reachable s) : OneMerge s := by
  refine h.invariant OneMerge ?_ fun _ _ _ hs hstep => hs.step hstep
  intro s hinit
  obtain ⟨ident, now, -, rfl⟩ := hinit
  exact OneMerge.of_pending_nil rfl

theorem planned_of_reachable (h : (nrtIndex cfg builder initial files).Reachable s) : Planned cfg s := by
  refine h.invariant (Planned cfg) ?_ fun _ _ _ hs hstep => hs.step hstep
  intro s hinit
  obtain ⟨ident, now, -, rfl⟩ := hinit
  exact fun job hjob => absurd hjob List.not_mem_nil

theorem distinctIds_of_reachable (hdistinct : (initial.map (·.ident)).Nodup)
    (h : (nrtIndex cfg builder initial files).Reachable s) : DistinctIds s := by
  refine h.invariant DistinctIds ?_ fun _ _ _ hs hstep => hs.step hstep
  intro s hinit
  obtain ⟨ident, now, hident, rfl⟩ := hinit
  exact ⟨hdistinct, hident⟩

/-- The answers to a document that is flushed at once. -/
def builtAlone : Answers (List Document) := ⟨0, some [⟨lit "c", lit "z"⟩], 0⟩

theorem add_answered (s : NrtIndex (List Document)) (hbuffer : s.buffer = []) :
    Answered smallConfig listBuilder s ⟨.add (['c'], ['z']), builtAlone⟩
      (WriteSide.add smallConfig listBuilder (['c'], ['z']) 0 (some [⟨lit "c", lit "z"⟩]) 0 s) :=
  .add (['c'], ['z']) builtAlone fun index hindex => by
    cases hindex
    rw [hbuffer]
    change [⟨lit "c", lit "z"⟩] = documents (flushTsv [(['c'], ['z'])])
    decide

end CascadeSearch.Nrt.Merging
