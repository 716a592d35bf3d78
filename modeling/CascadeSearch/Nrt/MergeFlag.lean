import CascadeSearch.Nrt.Merging

/-!
# The merge flag (`index.py`)

`_merge_in_progress` is set before `submit`, and `submit` raises once the pool
is shut down. The flag then stays set for a merge that nobody runs, and a swap
that comes to this point leaves the files of the segments it replaced on the disk.
-/
namespace CascadeSearch.Nrt.MergeFlag

open Lib.TextFile Lib.Transition
open Index.Format Index.Porter Index.Corpus
open FanOut MergePolicy Tsv WriteSide Conservation Disk Merging

variable {Ix : Type}

/-- The flag says whether an accepted merge has neither been swapped in nor failed. -/
def FlagAccurate (s : NrtIndex Ix) : Prop := s.mergeInProgress = true ↔ pending s ≠ []

def replacedBy (x : Recorded (OnDisk Ix) (Event Ix)) : List (Segment Ix) :=
  match x.action.action with
  | .swap job => job.chosen
  | _ => []

/-- Neither the source file of the segment nor anything in its index directory is there. -/
def Gone (seg : Segment Ix) (s : OnDisk Ix) : Prop :=
  ∀ path, path = seg.sourceTsv ∨ seg.indexDir <+: path → s.index.files path = none ∧ s.indexFiles path = none

/-- What a swap replaced waits for the worker to delete it, or has since been deleted. -/
def Cleans (trace : List (Recorded (OnDisk Ix) (Event Ix))) (s : OnDisk Ix) : Prop :=
  ∀ earlier x later, trace = earlier ++ x :: later → ∀ seg ∈ replacedBy x,
    seg ∈ removing s.index.worker ∨ ∃ y ∈ later, Gone seg y.after

/-- At most one job is pending, and the flag tells. -/
structure OneJob (s : NrtIndex Ix) : Prop where
  one : (pending s).length ≤ 1
  accurate : FlagAccurate s

variable {cfg : Config} {builder : BuildSegment Ix} {s s' : NrtIndex Ix}

namespace OneJob

theorem pending_nil (h : OneJob s) (hflag : s.mergeInProgress = false) : pending s = [] := by
  by_contra hne
  exact Bool.false_ne_true (hflag.symm.trans (h.accurate.mpr hne))

theorem of_pending_nil (hflag : s.mergeInProgress = false) (hpending : pending s = []) : OneJob s :=
  ⟨hpending ▸ Nat.zero_le _, iff_of_false (by simp [hflag]) fun hne => hne hpending⟩

/-- Whatever leaves flag and jobs alone. -/
theorem congr (h : OneJob s) (hflag : s'.mergeInProgress = s.mergeInProgress) (hpending : pending s' = pending s) :
    OneJob s' := by
  refine ⟨hpending ▸ h.one, ?_⟩
  rw [FlagAccurate, hflag, hpending]
  exact h.accurate

theorem schedule (h : OneJob s) (plan : List (Segment Ix)) (hflag : s.mergeInProgress = false) :
    OneJob (scheduled plan s) := by
  have hpending := pending_scheduled plan s
  rw [h.pending_nil hflag, List.nil_append] at hpending
  exact ⟨(congrArg List.length hpending).le, iff_of_true rfl (hpending ▸ List.cons_ne_nil _ _)⟩

theorem effect (h : OneJob s) (heffect : Effect cfg builder s s') : OneJob s' := by
  cases heffect with
  | buffer d => exact h.congr rfl rfl
  | write hbuffer => exact h.congr rfl rfl
  | publish now hbuffer returns => exact h.congr rfl rfl
  | schedule hdue hopen => exact h.schedule _ hdue.1
  | delete externalId => exact h.congr rfl rfl
  | start worker jobs => exact h.congr rfl (by rw [pending, pending, worker, jobs]; rfl)
  | build worker read returns => exact h.congr rfl (pending_of_worker worker).symm
  | writeMerged worker read => exact h.congr rfl rfl
  | fail worker => exact h.congr rfl (pending_of_worker worker).symm
  | swap worker =>
    have hqueue := queue_nil h.one (pending_of_worker worker)
    exact of_pending_nil rfl hqueue
  | reset worker =>
    have hqueue := queue_nil h.one (pending_of_worker worker)
    exact of_pending_nil rfl hqueue
  | remove worker => exact h.congr rfl (pending_of_worker worker).symm
  | clean worker => exact h.congr rfl (pending_of_worker worker).symm
  | close => exact h.congr rfl rfl

theorem effects (h : OneJob s) (heffects : Effects cfg builder s s') : OneJob s' := by
  induction heffects with
  | refl => exact h
  | tail _ heffect ih => exact ih.effect heffect

/-- Who is turned away sets the flag for nothing. -/
theorem not_accurate_of_turnedAway (h : OneJob s) (hturned : TurnedAway cfg s s') : ¬ FlagAccurate s' := by
  cases hturned with
  | flush hdue hclosed => exact fun haccurate => haccurate.mp rfl (h.pending_nil hdue.1)
  | swap hdue hclosed worker =>
    have hpending : pending { rejected s with worker := .idle } = pending s := (pending_of_worker worker).symm
    exact fun haccurate => haccurate.mp rfl (hpending.trans (h.pending_nil hdue.1))

end OneJob

theorem OneJob.step (h : OneJob s) {e : Event Ix} (hstep : Answered cfg builder s e s') :
    (¬ Rejects cfg s e ∧ OneJob s') ∨ (Rejects cfg s e ∧ ¬ FlagAccurate s') := by
  cases step_outcome hstep with
  | through heffects hthrough => exact Or.inl ⟨hthrough, h.effects heffects⟩
  | turnedAway heffects hturned hrejects =>
    exact Or.inr ⟨hrejects, (h.effects heffects).not_accurate_of_turnedAway hturned⟩

theorem effect_opened (heffect : Effect cfg builder s s') (hopen : s'.closed = false) : s.closed = false := by
  cases heffect with
  | close => cases hopen
  | _ => exact hopen

theorem oneJob_step_of_open {a : Action Ix} (h : s.closed = false → OneJob s) (hstep : Step cfg builder s a s') :
    s'.closed = false → OneJob s' := by
  refine @step_preserves _ _ _ _ _ (fun s => s.closed = false → OneJob s) ?_ ?_ _ h hstep
  · intro s s' hs heffect hopen
    exact (hs (effect_opened heffect hopen)).effect heffect
  · intro s s' _ hturned hopen
    have hclosed : s'.closed = true := by
      cases hturned with
      | flush hdue hclosed => exact hclosed
      | swap hdue hclosed worker => exact hclosed
    exact absurd (hopen.symm.trans hclosed) Bool.false_ne_true

/-- Before `close` the flag is accurate. -/
theorem oneJob_of_open {initial : List (Segment Ix)} {files : Path → Option Str}
    (h : (nrtIndex cfg builder initial files).Reachable s) : s.closed = false → OneJob s := by
  refine h.invariant (fun s => s.closed = false → OneJob s) ?_ fun _ _ _ hs hstep => oneJob_step_of_open hs hstep
  intro s hinit _
  obtain ⟨ident, now, -, rfl⟩ := hinit
  exact OneJob.of_pending_nil rfl rfl

theorem flushLocked_worker (cfg : Config) (builder : BuildSegment Ix) (built : Option Ix) (now : ℚ)
    (s : NrtIndex Ix) : (flushLocked cfg builder built now s).worker = s.worker := by
  obtain ⟨-, heq⟩ | ⟨-, ⟨-, heq⟩ | ⟨index, -, heq⟩⟩ := flushLocked_cases cfg builder built now s
  · rw [heq]
  · rw [heq]
    rfl
  · rw [heq, schedule_worker]
    rfl

theorem swapMerged_worker {job : Job Ix} {merged : Segment Ix}
    (h : ¬ (s.closed = true ∧ OverBudget cfg ((kept job s.segments).length + 1))) :
    (swapMerged cfg job merged s).worker = .cleaning job.chosen := by
  have hcount : (swapped job merged s).segments.length = (kept job s.segments).length + 1 := List.length_append
  have hdue := exists_due_iff cfg (swapped job merged s)
  rw [hcount] at hdue
  rw [swapMerged_eq]
  obtain ⟨hsame, -⟩ | ⟨plan, hplan, ⟨hclosed, -⟩ | ⟨-, hsubmit⟩⟩ :=
    maybeScheduleMergeLocked_cases cfg (swapped job merged s)
  · rw [hsame]
    rfl
  · exact absurd ⟨hclosed, (hdue.mp ⟨plan, hplan⟩).2⟩ h
  · rw [hsubmit]
    rfl

/-- Only a removal takes a segment from the worker that deletes files. -/
theorem removing_step {a : Action Ix} {seg : Segment Ix} (hstep : Step cfg builder s a s')
    (hseg : seg ∈ removing s.worker) : seg ∈ removing s'.worker ∨
      a = .removeFiles ∧ ∃ replaced, s.worker = .cleaning (seg :: replaced) ∧ s'.files = removeFiles seg s.files := by
  cases hstep with
  | add d clock built now returns =>
    have hworker : (WriteSide.add cfg builder d clock built now s).worker = s.worker := by
      rw [WriteSide.add]
      split
      · exact flushLocked_worker cfg builder built now _
      · rfl
    rw [hworker]
    exact Or.inl hseg
  | flush built now returns =>
    rw [flushLocked_worker]
    exact Or.inl hseg
  | removeFiles worker =>
    rw [worker] at hseg
    rcases List.mem_cons.mp hseg with rfl | hseg
    · exact Or.inr ⟨rfl, _, worker, rfl⟩
    · exact Or.inl hseg
  | startMerge worker _ | buildMerge worker _ _ | mergeRaises worker | buildRaises worker _ | swap worker
    | mergeFailed worker | cleaned worker =>
    rw [worker] at hseg
    cases hseg
  | delete _ | search | close => exact Or.inl hseg

theorem gone_of_removed {s s' : OnDisk Ix} {e : Event Ix} {seg : Segment Ix} {replaced : List (Segment Ix)}
    (hstep : DiskStep cfg builder s e s') (ha : e.action = .removeFiles)
    (hworker : s.index.worker = .cleaning (seg :: replaced))
    (hfiles : s'.index.files = removeFiles seg s.index.files) : Gone seg s' := by
  intro path hpath
  have hnone : ∀ contents : Path → Option Str, removeFiles seg contents path = none := fun _ => if_pos hpath
  have hdir : builtDir cfg s.index e = none := by rw [builtDir, ha]
  have hswept : swept s.index e.action s.indexFiles = removeFiles seg s.indexFiles := by
    simp only [swept, ha, hworker]
  have hdirs := hstep.elsewhere path fun dir hmem => by simp [hdir] at hmem
  exact ⟨by rw [hfiles, hnone], by rw [hdirs, hswept, hnone]⟩

theorem exists_swap_of_replacedBy {x : Recorded (OnDisk Ix) (Event Ix)} {seg : Segment Ix}
    (h : seg ∈ replacedBy x) : ∃ job, x.action.action = .swap job ∧ seg ∈ job.chosen := by
  rw [replacedBy] at h
  split at h
  · rename_i job ha
    exact ⟨job, ha, h⟩
  · cases h

/-- The swap that is not turned away leaves what it replaced to be deleted. -/
theorem removing_of_swap {job : Job Ix} (hstep : Step cfg builder s (.swap job) s')
    (hthrough : ¬ (s.closed = true ∧ OverBudget cfg ((kept job s.segments).length + 1))) :
    removing s'.worker = job.chosen := by
  cases hstep with
  | swap worker =>
    rw [swapMerged_worker hthrough]
    rfl

theorem cleans_step {s s' : OnDisk Ix} {e : Event Ix} {trace : List (Recorded (OnDisk Ix) (Event Ix))}
    (h : Cleans trace s) (hstep : DiskStep cfg builder s e s') (hthrough : ¬ Rejects cfg s.index e) :
    Cleans (trace ++ [⟨s, e, s'⟩]) s' := by
  intro earlier x later hsplit seg hseg
  have hindex := hstep.answered.step
  rcases List.eq_nil_or_concat later with rfl | ⟨between, y, rfl⟩
  · obtain ⟨-, hx⟩ := List.append_inj' hsplit rfl
    obtain rfl := List.head_eq_of_cons_eq hx
    obtain ⟨job, ha, hmem⟩ := exists_swap_of_replacedBy hseg
    change e.action = _ at ha
    rw [Rejects, ha] at hthrough
    rw [ha] at hindex
    exact Or.inl (removing_of_swap hindex hthrough ▸ hmem)
  · rw [List.concat_eq_append, ← List.cons_append, ← List.append_assoc] at hsplit
    obtain ⟨htrace, hy⟩ := List.append_inj' hsplit rfl
    obtain rfl := List.head_eq_of_cons_eq hy
    rw [List.concat_eq_append]
    rcases h earlier x between htrace seg hseg with hwaits | ⟨z, hz, hgone⟩
    · rcases removing_step hindex hwaits with hwaits | ⟨ha, replaced, hworker, hfiles⟩
      · exact Or.inl hwaits
      · exact Or.inr ⟨_, List.mem_append_right _ (List.mem_singleton_self _), gone_of_removed hstep ha hworker hfiles⟩
    · exact Or.inr ⟨z, List.mem_append_left _ hz, hgone⟩

variable {initial : List (Segment Ix)} {files indexFiles : Path → Option Str}

theorem oneJob_of_run {trace : List (Recorded (OnDisk Ix) (Event Ix))} {s : OnDisk Ix}
    (hrun : (onDisk cfg builder initial files indexFiles).recorded.Run trace s)
    (hthrough : ∀ x ∈ trace, ¬ Rejects cfg x.before.index x.action) :
    OneJob s.index ∧ Cleans trace s ∧ ∀ x ∈ trace, FlagAccurate x.before.index := by
  induction hrun with
  | init hinit =>
    obtain ⟨⟨ident, now, -, hindex⟩, -⟩ := hinit
    rw [hindex]
    refine ⟨OneJob.of_pending_nil rfl rfl, fun earlier x later hsplit => ?_, fun x hx => absurd hx List.not_mem_nil⟩
    exact absurd hsplit.symm (List.append_ne_nil_of_right_ne_nil _ (List.cons_ne_nil _ _))
  | @step s s' x trace hs hstep ih =>
    obtain ⟨hjob, hcleans, haccurate⟩ := ih fun y hy => hthrough y (List.mem_append_left _ hy)
    have hx := hthrough x (List.mem_append_right _ (List.mem_singleton_self x))
    obtain ⟨rfl, rfl, hstep⟩ := hstep
    obtain ⟨-, hnext⟩ | ⟨hrejects, -⟩ := hjob.step hstep.answered
    · refine ⟨hnext, cleans_step hcleans hstep hx, fun y hy => ?_⟩
      rcases List.mem_append.mp hy with hy | hy
      · exact haccurate y hy
      · rw [List.mem_singleton.mp hy]
        exact hjob.accurate
    · exact absurd hrejects hx

/-- The flag is accurate in every state of a run, and the files of replaced segments
are deleted, exactly if no merge is submitted to a pool that is shut down. -/
theorem flag_accurate_iff (cfg : Config) (builder : BuildSegment Ix) (initial : List (Segment Ix))
    (files indexFiles : Path → Option Str) (trace : List (Recorded (OnDisk Ix) (Event Ix))) (s : OnDisk Ix)
    (hrun : (onDisk cfg builder initial files indexFiles).recorded.Run trace s) :
    ((∀ x ∈ trace, FlagAccurate x.before.index) ∧ FlagAccurate s.index ∧ Cleans trace s) ↔
      ∀ x ∈ trace, ¬ Rejects cfg x.before.index x.action := by
  constructor
  · intro h
    obtain ⟨hbefore, hlast, -⟩ := h
    induction hrun with
    | init _ => exact fun x hx => absurd hx List.not_mem_nil
    | @step s s' x trace hs hstep ih =>
      obtain ⟨rfl, rfl, hstep⟩ := hstep
      have hfirst := ih (fun y hy => hbefore y (List.mem_append_left _ hy))
        (hbefore x (List.mem_append_right _ (List.mem_singleton_self x)))
      intro y hy
      rcases List.mem_append.mp hy with hy | hy
      · exact hfirst y hy
      · rw [List.mem_singleton.mp hy]
        obtain ⟨hthrough, -⟩ | ⟨-, hstale⟩ := (oneJob_of_run hs hfirst).1.step hstep.answered
        · exact hthrough
        · exact absurd hlast hstale
  · intro hthrough
    obtain ⟨hjob, hcleans, hbefore⟩ := oneJob_of_run hrun hthrough
    exact ⟨hbefore, hjob.accurate, hcleans⟩

/-- Before `close` nothing is turned away. -/
theorem not_rejects_of_open {trace : List (Recorded (OnDisk Ix) (Event Ix))}
    (h : trace.all (fun x => !x.before.index.closed) = true) : ∀ x ∈ trace, ¬ Rejects cfg x.before.index x.action := by
  intro x hx hrejects
  simpa [hrejects.1] using List.all_eq_true.mp h x hx

/-- An index file of each of the two segments. -/
def gluedIndexFiles : Path → Option Str := fun path =>
  if path = [lit "a", lit "index.docs"] then some (lit "a")
  else if path = [lit "b", lit "index.docs"] then some (lit "b") else none

def unanswered (a : Action Ix) : Event Ix := ⟨a, 0, none, 0⟩

theorem other_step {s s' : NrtIndex Ix} {a : Action Ix} (hstep : Step cfg builder s a s') (hadd : ∀ d, a ≠ .add d)
    (hflush : a ≠ .flush) (contents : Path → Option Str) :
    DiskStep cfg builder ⟨s, contents⟩ (unanswered a) ⟨s', swept s a contents⟩ :=
  (Answered.other ⟨0, none, 0⟩ hstep hadd hflush).onDisk contents

/-- A flush, and the merge it starts, up to the removal of the first segment. -/
theorem flag_accurate_swapped :
    ∃ trace s, (onDisk smallConfig listBuilder [firstSegment, secondSegment] gluedFiles
        gluedIndexFiles).recorded.Run trace s ∧
      s.index.worker = .cleaning [secondSegment] ∧ FlagAccurate s.index ∧ Cleans trace s := by
  have hstart : (onDisk smallConfig listBuilder [firstSegment, secondSegment] gluedFiles
      gluedIndexFiles).recorded.Run [] ⟨startState gluedFiles, gluedIndexFiles⟩ := .init ⟨⟨2, 0, by decide, rfl⟩, rfl⟩
  have hflushed := hstart.extend _ ((add_answered _ rfl).onDisk _)
  have hmerging := hflushed.extend _ (other_step (.startMerge rfl rfl) (by simp) (by simp) _)
  have hbuilt := hmerging.extend _ (other_step (by exact .buildMerge rfl mergedTsv_glued rfl) (by simp) (by simp) _)
  have hswapped := hbuilt.extend _ (other_step (a := .swap gluedJob) (.swap rfl) (by simp) (by simp) _)
  have hrun := hswapped.extend _ (other_step (.removeFiles rfl) (by simp) (by simp) _)
  exact ⟨_, _, hrun, rfl, ((flag_accurate_iff _ _ _ _ _ _ _ hrun).mpr (not_rejects_of_open rfl)).2⟩

/-- Two flushes, a merge of two segments that is planned before `close` and
swapped in after it, and one segment too many: all files stay. -/
theorem stale_flag_leaked_files :
    ∃ trace s, (onDisk smallConfig listBuilder [firstSegment, secondSegment] gluedFiles
        gluedIndexFiles).recorded.Run trace s ∧
      trace.map (·.action.action) = [.add (['c'], ['z']), .add (['c'], ['z']), .close, .startMerge, .buildMerge,
        .swap gluedJob] ∧
      s.index.mergeInProgress = true ∧ pending s.index = [] ∧ ¬ FlagAccurate s.index ∧
      s.index.worker = .idle ∧ (∀ seg ∈ [firstSegment, secondSegment], seg.ident ∉ s.index.segments.map (·.ident) ∧
        s.index.files seg.sourceTsv ≠ none ∧ s.indexFiles (seg.indexDir ++ [lit "index.docs"]) ≠ none) ∧
      ¬ Cleans trace s := by
  have hstart : (onDisk smallConfig listBuilder [firstSegment, secondSegment] gluedFiles
      gluedIndexFiles).recorded.Run [] ⟨startState gluedFiles, gluedIndexFiles⟩ := .init ⟨⟨2, 0, by decide, rfl⟩, rfl⟩
  have hflushed := (hstart.extend _ ((add_answered _ rfl).onDisk _)).extend _ ((add_answered _ rfl).onDisk _)
  have hclosed := hflushed.extend _ (other_step .close (by simp) (by simp) _)
  have hmerging := hclosed.extend _ (other_step (.startMerge rfl rfl) (by simp) (by simp) _)
  have hbuilt := hmerging.extend _ (other_step (by exact .buildMerge rfl mergedTsv_glued rfl) (by simp) (by simp) _)
  have hrun := hbuilt.extend _ (other_step (a := .swap gluedJob) (.swap rfl) (by simp) (by simp) _)
  refine ⟨_, _, hrun, rfl, rfl, rfl, fun haccurate => haccurate.mp rfl rfl, rfl, ?_, fun hcleans => ?_⟩
  · intro seg hseg
    rcases List.mem_pair.mp hseg with rfl | rfl
    · exact ⟨by decide, by decide, by decide⟩
    · exact ⟨by decide, by decide, by decide⟩
  · obtain hwaits | ⟨y, hy, -⟩ := hcleans _ _ [] rfl firstSegment List.mem_cons_self
    · cases hwaits
    · cases hy

end CascadeSearch.Nrt.MergeFlag
