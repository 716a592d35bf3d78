import CascadeSearch.Nrt.MergeFlag
import CascadeSearch.Nrt.Storage
import Mathlib.Data.Prod.Lex

/-!
# Chained merges (`index.py`, `merge_policy.py`)

A swap that leaves too many segments schedules the next merge. The chain ends
as long as every plan takes at least two segments. A plan of one segment puts
another one in its place, and the chain goes round for ever.
-/
namespace CascadeSearch.Nrt.Convergence

open Lib.TextFile Lib.Transition
open Index.Format Index.Porter Index.Corpus
open FanOut MergePolicy Tsv WriteSide Conservation Merging MergeFlag

variable {Ix : Type}

/-- What the merge thread does while no build fails. -/
def Merges : Action Ix → Prop
  | .startMerge | .buildMerge | .swap _ | .removeFiles | .cleaned => True
  | _ => False

/-- What may go on meanwhile. -/
def Quiet : Action Ix → Prop
  | .delete _ | .search _ _ => True
  | _ => False

/-- A flush that publishes a segment. -/
def Publishes (x : Recorded (NrtIndex Ix) (Action Ix)) : Prop :=
  x.after.segments ≠ x.before.segments ∧ match x.action with
    | .add _ | .flush => True
    | _ => False

def Swaps (x : Recorded (NrtIndex Ix) (Action Ix)) : Prop := ∃ job, x.action = .swap job

/-- A flush has just published a segment; the pool is open and no merge is about
to report a failure. -/
def Flushed (sys : System (NrtIndex Ix) (Action Ix)) (s' : NrtIndex Ix) : Prop :=
  ∃ s a, sys.Reachable s ∧ sys.step s a s' ∧ Publishes ⟨s, a, s'⟩ ∧ s'.closed = false ∧ ∀ job, s'.worker ≠ .failed job

/-- The build under way, if any, will succeed. -/
def BuildSucceeds (builder : BuildSegment Ix) (s : NrtIndex Ix) : Prop :=
  ∀ job, s.worker = .merging job → ∃ tsv index, mergedTsv s job = some tsv ∧ builder.returns tsv index

variable {cfg : Config} {policy : TieredMergePolicy} {builder : BuildSegment Ix} {s s' : NrtIndex Ix}

theorem schedule_within (hpolicy : cfg.mergePolicy = some policy)
    (hflag : (maybeScheduleMergeLocked cfg s).1.mergeInProgress = false) :
    ((maybeScheduleMergeLocked cfg s).1.segments.length : Int) ≤ policy.maxSegments := by
  obtain ⟨hsame, hnot⟩ | ⟨plan, hplan, ⟨-, hraise⟩ | ⟨-, hsubmit⟩⟩ := maybeScheduleMergeLocked_cases cfg s
  · rw [hsame] at hflag ⊢
    by_contra hover
    obtain ⟨plan, hplan⟩ := (exists_due_iff cfg s).mpr ⟨hflag, policy, hpolicy, not_le.mp hover⟩
    exact hnot plan hplan
  · rw [hraise] at hflag
    cases hflag
  · rw [hsubmit] at hflag
    cases hflag

theorem flushLocked_within (hpolicy : cfg.mergePolicy = some policy) {built : Option Ix} {now : ℚ}
    (hpublished : (flushLocked cfg builder built now s).segments ≠ s.segments)
    (hflag : (flushLocked cfg builder built now s).mergeInProgress = false) :
    ((flushLocked cfg builder built now s).segments.length : Int) ≤ policy.maxSegments := by
  obtain ⟨-, heq⟩ | ⟨-, ⟨-, heq⟩ | ⟨index, -, heq⟩⟩ := flushLocked_cases cfg builder built now s
  · exact absurd (congrArg NrtIndex.segments heq) hpublished
  · exact absurd (congrArg NrtIndex.segments heq) hpublished
  · rw [heq] at hflag ⊢
    exact schedule_within hpolicy hflag

/-- The lock is released after a swap in the state the scheduler left, but for
the worker. -/
theorem swapMerged_schedule (cfg : Config) (job : Job Ix) (merged : Segment Ix) (s : NrtIndex Ix) :
    (swapMerged cfg job merged s).segments = (maybeScheduleMergeLocked cfg (swapped job merged s)).1.segments ∧
    (swapMerged cfg job merged s).mergeInProgress =
      (maybeScheduleMergeLocked cfg (swapped job merged s)).1.mergeInProgress := by
  rw [swapMerged_eq]
  split
  · exact ⟨rfl, rfl⟩
  · exact ⟨rfl, rfl⟩

/-- No merge is in progress after a published flush or a swap only if the budget
is kept. -/
theorem step_within (hpolicy : cfg.mergePolicy = some policy) {a : Action Ix} (hstep : Step cfg builder s a s')
    (h : Publishes ⟨s, a, s'⟩ ∨ Swaps ⟨s, a, s'⟩) (hflag : s'.mergeInProgress = false) :
    (s'.segments.length : Int) ≤ policy.maxSegments := by
  cases hstep with
  | add d clock built now returns =>
    obtain ⟨hpublished, -⟩ | ⟨job, hjob⟩ := h
    · rw [WriteSide.add] at hflag hpublished ⊢
      split at hflag
      · rename_i hflush
        rw [if_pos hflush] at hpublished ⊢
        exact flushLocked_within hpolicy hpublished hflag
      · rename_i hflush
        rw [if_neg hflush] at hpublished
        exact absurd rfl hpublished
    · cases hjob
  | flush built now returns =>
    obtain ⟨hpublished, -⟩ | ⟨job, hjob⟩ := h
    · exact flushLocked_within hpolicy hpublished hflag
    · cases hjob
  | @swap job merged worker =>
    obtain ⟨hsegments, hmerge⟩ := swapMerged_schedule cfg job merged s
    rw [hmerge] at hflag
    rw [hsegments]
    exact schedule_within hpolicy hflag
  | _ => simp [Publishes, Swaps] at h

/-- How far the merge thread is. -/
def stage (s : NrtIndex Ix) : Nat :=
  3 * s.queue.length + match s.worker with
    | .idle | .failed _ => 0
    | .built _ _ => 1
    | .merging _ => 2
    | .cleaning replaced => replaced.length + 1

def remaining (s : NrtIndex Ix) : Nat ×ₗ Nat := toLex (s.segments.length, stage s)

/-- Every pending merge takes at least two live segments. -/
structure Shrinking (s : NrtIndex Ix) : Prop where
  merging : OneMerge s
  two : ∀ job ∈ pending s, 2 ≤ job.chosen.length

theorem shrinking_of_planned (hpolicy : cfg.mergePolicy = some policy) (hfactor : 2 ≤ policy.mergeFactor)
    (hmax : 1 ≤ policy.maxSegments) (hmerging : OneMerge s) (hplanned : Planned cfg s) : Shrinking s := by
  refine ⟨hmerging, fun job hjob => ?_⟩
  obtain ⟨t, -, policy', hpolicy', hplan⟩ := hplanned job hjob
  obtain rfl : policy = policy' := Option.some.inj (hpolicy.symm.trans hpolicy')
  obtain ⟨hcount, hlength⟩ := maybeMerge_length hplan (by omega)
  omega

/-- A merge takes out what it chose, whatever the objects are. -/
theorem length_kept_le {job : Job Ix} {segments : List (Segment Ix)} (h : job.chosen.Subperm segments) :
    (kept job segments).length + job.chosen.length ≤ segments.length := by
  obtain ⟨rest, hperm⟩ := exists_rest h
  have hchosen : kept job job.chosen = [] := List.filter_eq_nil_iff.mpr fun seg hseg => by
    simpa using ⟨seg, hseg, rfl⟩
  have happend : kept job (job.chosen ++ rest) = kept job job.chosen ++ kept job rest := List.filter_append ..
  have hkept : (kept job segments).Perm (kept job rest) := by
    have hfilter : (kept job segments).Perm (kept job (job.chosen ++ rest)) := hperm.filter _
    rwa [happend, hchosen, List.nil_append] at hfilter
  have hrest : (kept job rest).length ≤ rest.length := List.length_filter_le _ _
  rw [hkept.length_eq, hperm.length_eq, List.length_append]
  omega

theorem remaining_lt_of_stage (hsegments : s'.segments = s.segments) (h : stage s' < stage s) :
    remaining s' < remaining s :=
  Prod.Lex.toLex_lt_toLex.mpr (Or.inr ⟨congrArg List.length hsegments, h⟩)

theorem merge_remaining (h : Shrinking s) {a : Action Ix} (ha : Merges a) (hstep : Step cfg builder s a s') :
    remaining s' < remaining s := by
  cases hstep with
  | startMerge worker jobs => exact remaining_lt_of_stage rfl (by simp [stage, worker, jobs]; omega)
  | buildMerge worker read returns =>
    exact remaining_lt_of_stage rfl (by simp [stage, worker, buildMerged, writeMerged])
  | @swap job merged worker =>
    have hjob : job ∈ pending s := by simp [pending, worker, unfinished]
    have hkept := length_kept_le (h.merging.chosen job hjob)
    have htwo := h.two job hjob
    have hlength : (swapMerged cfg job merged s).segments.length = (kept job s.segments).length + 1 := by
      rw [(swapMerged_schedule cfg job merged s).1, schedule_segments]
      exact List.length_append
    exact Prod.Lex.toLex_lt_toLex.mpr (Or.inl (by simp only; omega))
  | removeFiles worker => exact remaining_lt_of_stage rfl (by simp [stage, worker])
  | cleaned worker => exact remaining_lt_of_stage rfl (by simp [stage, worker])
  | _ => exact absurd ha id

variable {initial : List (Segment Ix)} {files : Path → Option Str}

theorem terminates (hpolicy : cfg.mergePolicy = some policy) (hfactor : 2 ≤ policy.mergeFactor)
    (hmax : 1 ≤ policy.maxSegments) (hmerging : OneMerge s) (hplanned : Planned cfg s) :
    (nrtIndex cfg builder initial files).Terminates Quiet Merges s := by
  refine System.terminates_of_measure (fun s => OneMerge s ∧ Planned cfg s) remaining ?_ ?_ ⟨hmerging, hplanned⟩
  · intro s s' hs hquiet
    obtain ⟨a, ha, hstep⟩ := hquiet
    refine ⟨⟨hs.1.step hstep, hs.2.step hstep⟩, ?_⟩
    cases hstep with
    | delete externalId => rfl
    | search => rfl
    | _ => exact absurd ha id
  · intro s s' hs hmerge
    obtain ⟨a, ha, hstep⟩ := hmerge
    have hshrinking := shrinking_of_planned hpolicy hfactor hmax hs.1 hs.2
    exact ⟨⟨hs.1.step hstep, hs.2.step hstep⟩, merge_remaining hshrinking ha hstep⟩

/-- After the flush that starts a chain, and until it stops. -/
structure Chaining (policy : TieredMergePolicy) (s : NrtIndex Ix) : Prop where
  opened : s.closed = false
  job : OneJob s
  running : ∀ job, s.worker ≠ .failed job
  within : s.mergeInProgress = false → (s.segments.length : Int) ≤ policy.maxSegments

theorem chaining_of_flushed (hpolicy : cfg.mergePolicy = some policy)
    (h : Flushed (nrtIndex cfg builder initial files) s) : Chaining policy s := by
  obtain ⟨before, a, hbefore, hstep, hpublishes, hopen, hrunning⟩ := h
  exact ⟨hopen, oneJob_of_open (hbefore.step hstep) hopen, hrunning,
    step_within hpolicy hstep (Or.inl hpublishes)⟩

theorem Chaining.step (hpolicy : cfg.mergePolicy = some policy) (h : Chaining policy s) {a : Action Ix}
    (ha : Quiet a ∨ Merges a) (hstep : Step cfg builder s a s') : Chaining policy s' := by
  have hopen : s'.closed = false := by
    rw [← h.opened]
    cases hstep with
    | swap worker =>
      rw [swapMerged_eq]
      split <;> exact schedule_closed cfg _
    | add | flush | close => simp [Quiet, Merges] at ha
    | _ => rfl
  have hjob := oneJob_step_of_open (fun _ => h.job) hstep hopen
  have hwithin := step_within hpolicy hstep
  cases hstep with
  | delete externalId => exact ⟨hopen, hjob, h.running, h.within⟩
  | search => exact h
  | startMerge worker jobs => exact ⟨hopen, hjob, (fun job hne => by cases hne), h.within⟩
  | buildMerge worker read returns => exact ⟨hopen, hjob, (fun job hne => by cases hne), h.within⟩
  | @swap job merged worker =>
    refine ⟨hopen, hjob, fun j hne => ?_, hwithin (Or.inr ⟨job, rfl⟩)⟩
    rw [swapMerged_worker fun hrejects => Bool.false_ne_true (h.opened.symm.trans hrejects.1)] at hne
    cases hne
  | removeFiles worker => exact ⟨hopen, hjob, (fun job hne => by cases hne), h.within⟩
  | cleaned worker => exact ⟨hopen, hjob, (fun job hne => by cases hne), h.within⟩
  | _ => simp [Quiet, Merges] at ha

theorem Chaining.chain (hpolicy : cfg.mergePolicy = some policy) (h : Chaining policy s)
    (hchain : Relation.ReflTransGen ((nrtIndex cfg builder initial files).Via fun a => Quiet a ∨ Merges a) s s') :
    Chaining policy s' := by
  induction hchain with
  | refl => exact h
  | tail _ hlast ih =>
    obtain ⟨a, ha, hstep⟩ := hlast
    exact ih.step hpolicy ha hstep

/-- The merge thread waits only for an empty queue. -/
theorem Chaining.rested (h : Chaining policy s) (hbuild : BuildSucceeds builder s)
    (hstop : ∀ s', ¬ (nrtIndex cfg builder initial files).Via Merges s s') : s.worker = .idle ∧ s.queue = [] := by
  cases hworker : s.worker with
  | idle =>
    cases hqueue : s.queue with
    | nil => exact ⟨rfl, rfl⟩
    | cons job queue => exact absurd ⟨.startMerge, trivial, .startMerge hworker hqueue⟩ (hstop _)
  | merging job =>
    obtain ⟨tsv, index, hread, hreturns⟩ := hbuild job hworker
    exact absurd ⟨.buildMerge, trivial, .buildMerge hworker hread hreturns⟩ (hstop _)
  | built job merged => exact absurd ⟨.swap job, trivial, .swap hworker⟩ (hstop _)
  | failed job => exact absurd hworker (h.running job)
  | cleaning replaced =>
    cases replaced with
    | nil => exact absurd ⟨.cleaned, trivial, .cleaned hworker⟩ (hstop _)
    | cons seg replaced => exact absurd ⟨.removeFiles, trivial, .removeFiles hworker⟩ (hstop _)

theorem Chaining.flag_of_rested (h : Chaining policy s) (hrested : s.worker = .idle ∧ s.queue = []) :
    s.mergeInProgress = false := by
  have hpending : pending s = [] := by
    rw [pending, hrested.1, hrested.2]
    rfl
  by_contra hset
  exact h.job.accurate.mp (Bool.of_not_eq_false hset) hpending

theorem Chaining.stopped (h : Chaining policy s) (hbuild : BuildSucceeds builder s)
    (hstop : ∀ s', ¬ (nrtIndex cfg builder initial files).Via Merges s s') :
    s.mergeInProgress = false ∧ (s.segments.length : Int) ≤ policy.maxSegments := by
  have hflag := h.flag_of_rested (h.rested hbuild hstop)
  exact ⟨hflag, h.within hflag⟩

/-- The files of a replaced segment are none of a live one. -/
theorem removeFiles_live (h : Storage.Inv cfg s) {seg live : Segment Ix} {replaced : List (Segment Ix)}
    (hworker : s.worker = .cleaning (seg :: replaced)) (hlive : live ∈ s.segments) :
    removeFiles seg s.files live.sourceTsv = s.files live.sourceTsv :=
  Storage.removeFiles_of_not_holds (h.off_removed hworker hlive (Or.inl rfl))

/-- Parameters under which the first segment over the budget is merged alone. -/
structure Lone (cfg : Config) (policy : TieredMergePolicy) : Prop where
  configured : cfg.mergePolicy = some policy
  factor : 1 ≤ policy.mergeFactor
  budget : 0 ≤ policy.maxSegments
  lone : policy.mergeFactor = 1 ∨ policy.maxSegments = 0

theorem Lone.length_plan (h : Lone cfg policy) {plan : List (Segment Ix)}
    (hcount : s.segments.length = policy.maxSegments.toNat + 1) (hdue : Due cfg s plan) : plan.length = 1 := by
  obtain ⟨-, policy', hpolicy', hplan⟩ := hdue
  obtain rfl : policy = policy' := Option.some.inj (h.configured.symm.trans hpolicy')
  have hfactor := h.factor
  have hlone := h.lone
  have hlength := (maybeMerge_length hplan (by omega)).2
  omega

/-- One segment more than the budget, and a merge of one segment pending. -/
structure Spinning (cfg : Config) (policy : TieredMergePolicy) (source : Str) (s : NrtIndex Ix) : Prop where
  storage : Storage.Inv cfg s
  opened : s.closed = false
  count : s.segments.length = policy.maxSegments.toNat + 1
  busy : pending s ≠ []
  single : ∀ job ∈ pending s, job.chosen.length = 1
  running : ∀ job, s.worker ≠ .failed job
  sources : ∀ seg ∈ known s, s.files seg.sourceTsv = some source

/-- Whenever the policy is asked it schedules the next merge of one segment. -/
theorem spinning_of_schedule (builder : BuildSegment Ix) {source : Str} (hlone : Lone cfg policy)
    (hstorage : Storage.Inv cfg s) (hopen : s.closed = false) (hcount : s.segments.length = policy.maxSegments.toNat + 1)
    (hflag : s.mergeInProgress = false) (hrunning : ∀ job, s.worker ≠ .failed job)
    (hsources : ∀ seg ∈ known s, s.files seg.sourceTsv = some source) :
    ∃ plan, maybeScheduleMergeLocked cfg s = (scheduled plan s, false) ∧
      Spinning cfg policy source (scheduled plan s) := by
  obtain ⟨hsame, hnot⟩ | ⟨plan, hplan, ⟨hclosed, -⟩ | ⟨-, hsubmit⟩⟩ := maybeScheduleMergeLocked_cases cfg s
  · have hbudget := hlone.budget
    have hover : OverBudget cfg s.segments.length := ⟨policy, hlone.configured, by omega⟩
    obtain ⟨plan, hplan⟩ := (exists_due_iff cfg s).mpr ⟨hflag, hover⟩
    exact absurd hplan (hnot plan)
  · exact absurd (hopen.symm.trans hclosed) Bool.false_ne_true
  · have hpending := pending_scheduled plan s
    rw [hstorage.merging.pending_nil hflag, List.nil_append] at hpending
    refine ⟨plan, hsubmit, ?_, hopen, hcount, ?_, ?_, hrunning, hsources⟩
    · exact hstorage.effect (.schedule hplan hopen : Effect cfg builder s _)
    · rw [hpending]
      exact List.cons_ne_nil _ _
    · rw [hpending]
      intro job hjob
      rw [List.mem_singleton.mp hjob]
      exact hlone.length_plan hcount hplan

namespace Spinning

variable {source : Str} {job : Job Ix} (h : Spinning cfg policy source s)

include h

/-- The worker goes on with the same segments and the same job. -/
theorem congr (hstorage : Storage.Inv cfg s') (hopen : s'.closed = s.closed) (hsegments : s'.segments = s.segments)
    (hpending : pending s' = pending s) (hrunning : ∀ job, s'.worker ≠ .failed job)
    (hsources : ∀ seg ∈ known s', s'.files seg.sourceTsv = some source) : Spinning cfg policy source s' where
  storage := hstorage
  opened := hopen.trans h.opened
  count := (congrArg List.length hsegments).trans h.count
  busy := hpending ▸ h.busy
  single := hpending ▸ h.single
  running := hrunning
  sources := hsources

theorem start (builder : BuildSegment Ix) {queue : List (Job Ix)} (hworker : s.worker = .idle)
    (hqueue : s.queue = job :: queue) :
    Spinning cfg policy source { s with worker := .merging job, queue := queue } := by
  have hknown : known s = s.segments := known_of_worker hworker
  have hstep : Step cfg builder s .startMerge { s with worker := .merging job, queue := queue } :=
    .startMerge hworker hqueue
  refine h.congr (h.storage.step hstep) rfl rfl ?_ (fun j hj => by cases hj) ?_
  · rw [pending, pending, hworker, hqueue]
    rfl
  · exact hknown ▸ h.sources

/-- The one segment of the plan is live, and its source file is read back. -/
theorem read (hmerge : mergeTsv [source] = some source) (hworker : s.worker = .merging job) :
    mergedTsv s job = some source := by
  have hjob : job ∈ pending s := by simp [pending, hworker, unfinished]
  obtain ⟨seg, hseg⟩ := List.length_eq_one_iff.mp (h.single job hjob)
  have hlive : seg ∈ known s := by
    refine List.mem_append_right _ ((h.storage.merging.chosen job hjob).subset ?_)
    rw [hseg]
    exact List.mem_cons_self
  simp [mergedTsv, hseg, h.sources seg hlive, hmerge]

theorem build (hworker : s.worker = .merging job) (hread : mergedTsv s job = some source) {index : Ix}
    (hreturns : builder.returns source index) :
    Spinning cfg policy source (buildMerged cfg builder job source index s) := by
  have hknown : known s = s.segments := known_of_worker hworker
  have hstep : Step cfg builder s .buildMerge (buildMerged cfg builder job source index s) :=
    .buildMerge hworker hread hreturns
  refine h.congr (h.storage.step hstep) rfl rfl ?_ (fun j hj => by cases hj) fun x hx => ?_
  · exact (pending_of_worker hworker).symm
  · change Function.update s.files (tsvPath cfg job.mergeId) (some source) x.sourceTsv = some source
    by_cases hpath : x.sourceTsv = tsvPath cfg job.mergeId
    · rw [hpath, Function.update_self]
    · rw [Function.update_of_ne hpath]
      rcases List.mem_cons.mp hx with rfl | hx
      · exact absurd rfl hpath
      · exact h.sources x (hknown ▸ hx)

/-- The swap puts one segment in the place of another. -/
theorem swap (builder : BuildSegment Ix) (hlone : Lone cfg policy) {merged : Segment Ix}
    (hworker : s.worker = .built job merged) :
    Spinning cfg policy source (swapMerged cfg job merged s) := by
  have hknown : known s = merged :: s.segments := known_of_worker hworker
  have hjob : job ∈ pending s := by simp [pending, hworker, unfinished]
  have hidents := h.storage.distinct.idents
  rw [hknown, List.map_cons, List.nodup_cons] at hidents
  have hcount : (swapped job merged s).segments.length = policy.maxSegments.toNat + 1 := by
    have hlength := (perm_chosen hidents.2 (h.storage.merging.chosen job hjob)).length_eq
    rw [List.length_append, h.single job hjob, h.count] at hlength
    change (kept job s.segments ++ [merged]).length = _
    rw [List.length_append, kept, List.length_singleton]
    omega
  have hstorage : Storage.Inv cfg (swapped job merged s) :=
    h.storage.effect (.swap hworker : Effect cfg builder s _)
  have hsources : ∀ x ∈ kept job s.segments ++ [merged], s.files x.sourceTsv = some source := by
    intro x hx
    refine h.sources x ?_
    rw [hknown]
    rcases List.mem_append.mp hx with hx | hx
    · exact List.mem_cons_of_mem _ (List.mem_of_mem_filter hx)
    · exact List.mem_cons.mpr (Or.inl (List.mem_singleton.mp hx))
  obtain ⟨plan, hsubmit, hspin⟩ :=
    spinning_of_schedule builder hlone hstorage h.opened hcount rfl (fun j hj => by cases hj) hsources
  have hswap : swapMerged cfg job merged s = scheduled plan (swapped job merged s) := by
    rw [swapMerged_eq, hsubmit]
    rfl
  exact hswap ▸ hspin

/-- Removing the replaced files leaves the live segments theirs. -/
theorem remove (builder : BuildSegment Ix) {seg : Segment Ix} {replaced : List (Segment Ix)}
    (hworker : s.worker = .cleaning (seg :: replaced)) :
    Spinning cfg policy source { s with files := removeFiles seg s.files, worker := .cleaning replaced } := by
  have hknown : known s = s.segments := known_of_worker hworker
  have hstep : Step cfg builder s .removeFiles
      { s with files := removeFiles seg s.files, worker := .cleaning replaced } := .removeFiles hworker
  refine h.congr (h.storage.step hstep) rfl rfl ?_ (fun j hj => by cases hj) fun x hx => ?_
  · exact (pending_of_worker hworker).symm
  · exact (removeFiles_live h.storage hworker hx).trans (h.sources x (hknown ▸ hx))

theorem clean (builder : BuildSegment Ix) (hworker : s.worker = .cleaning []) :
    Spinning cfg policy source { s with worker := .idle } := by
  have hknown : known s = s.segments := known_of_worker hworker
  have hstep : Step cfg builder s .cleaned { s with worker := .idle } := .cleaned hworker
  refine h.congr (h.storage.step hstep) rfl rfl ?_ (fun j hj => by cases hj) ?_
  · exact (pending_of_worker hworker).symm
  · exact hknown ▸ h.sources

theorem next (hlone : Lone cfg policy) (hmerge : mergeTsv [source] = some source) {index : Ix}
    (hreturns : builder.returns source index) :
    ∃ s', Spinning cfg policy source s' ∧ (nrtIndex cfg builder initial files).Via Merges s s' := by
  cases hworker : s.worker with
  | idle =>
    cases hqueue : s.queue with
    | nil => exact absurd (by rw [pending, hworker, hqueue]; rfl) h.busy
    | cons job queue => exact ⟨_, h.start builder hworker hqueue, .startMerge, trivial, .startMerge hworker hqueue⟩
  | merging job =>
    have hread := h.read hmerge hworker
    exact ⟨_, h.build hworker hread hreturns, .buildMerge, trivial, .buildMerge hworker hread hreturns⟩
  | built job merged => exact ⟨_, h.swap builder hlone hworker, .swap job, trivial, .swap hworker⟩
  | failed job => exact absurd hworker (h.running job)
  | cleaning replaced =>
    cases replaced with
    | nil => exact ⟨_, h.clean builder hworker, .cleaned, trivial, .cleaned hworker⟩
    | cons seg replaced => exact ⟨_, h.remove builder hworker, .removeFiles, trivial, .removeFiles hworker⟩

end Spinning

/-- Text mode changes nothing in the source files of plain documents. -/
theorem mergeTsv_map_flushTsv (buffers : List (List (Text × Text)))
    (hplain : ∀ buffer ∈ buffers, ∀ d ∈ buffer, Plain d) :
    mergeTsv (buffers.map flushTsv) = some (flushTsv buffers.flatten) := by
  have hsources : buffers.map flushTsv = (buffers.map (·.flatMap tsvLine)).map encode := by
    rw [List.map_map]
    rfl
  have hread : (buffers.map (·.flatMap tsvLine)).map universalNewlines = buffers.map (·.flatMap tsvLine) := by
    rw [List.map_map]
    refine List.map_congr_left fun buffer hbuffer => universalNewlines_of_notMem fun hreturn => ?_
    obtain ⟨d, hd, hline⟩ := List.mem_flatMap.mp hreturn
    have hd := hplain buffer hbuffer d hd
    simp [tsvLine, hd.1.idReturn, hd.2] at hline
  have hjoin : buffers.flatten.flatMap tsvLine = (buffers.map (·.flatMap tsvLine)).flatten := by
    rw [← List.flatMap_id, List.flatMap_assoc, List.flatMap_def]
    rfl
  rw [hsources, mergeTsv_encode, hread, flushTsv, hjoin]
  rfl

theorem mergeTsv_flushTsv {d : Text × Text} (hplain : Plain d) : mergeTsv [flushTsv [d]] = some (flushTsv [d]) :=
  mergeTsv_map_flushTsv [[d]] fun buffer hbuffer e he => by
    rw [List.mem_singleton.mp hbuffer] at he
    rw [List.mem_singleton.mp he]
    exact hplain

/-- A segment stored under its own number. -/
def numbered (cfg : Config) (index : Ix) (i : Nat) : Segment Ix := ⟨i, index, tsvPath cfg i, indexDirPath cfg i, 0⟩

theorem clear_numbered (cfg : Config) (index : Ix) (m : Nat) :
    Storage.Clear cfg ((List.range m).map (numbered cfg index)) where
  pairwise := List.pairwise_map.mpr (List.nodup_range.imp fun hne => Storage.apart_placeOfId hne)
  ahead seg hseg segId hle := by
    obtain ⟨i, hi, rfl⟩ := List.mem_map.mp hseg
    rw [List.length_map, List.length_range] at hle
    exact Storage.apart_placeOfId (Nat.lt_of_lt_of_le (List.mem_range.mp hi) hle).ne

/-- A document is added and flushed, by `add` itself or afterwards. -/
theorem exists_flush {d : Text × Text} {index : Ix} (hreturns : builder.returns (flushTsv [d]) index)
    (hreachable : (nrtIndex cfg builder initial files).Reachable s) (hbuffer : s.buffer = []) :
    ∃ before a, (nrtIndex cfg builder initial files).Reachable before ∧ before.segments = s.segments ∧
      (a = .add d ∨ a = .flush) ∧
      Step cfg builder before a
        (maybeScheduleMergeLocked cfg (published cfg builder index 0 { s with buffer := [d] })).1 := by
  have hadded : s.buffer ++ [d] = [d] := by rw [hbuffer, List.nil_append]
  have hflushed : flushLocked cfg builder (some index) 0 { s with buffer := [d] } =
      (maybeScheduleMergeLocked cfg (published cfg builder index 0 { s with buffer := [d] })).1 :=
    if_neg (List.cons_ne_nil d [])
  by_cases hflush : shouldFlush cfg 0 { s with buffer := [d] }
  · have hstep : Step cfg builder s (.add d) (WriteSide.add cfg builder d 0 (some index) 0 s) :=
      .add d 0 (some index) 0 fun x hx => by
        cases hx
        rwa [hadded]
    rw [WriteSide.add, hadded, if_pos hflush, hflushed] at hstep
    exact ⟨s, .add d, hreachable, rfl, Or.inl rfl, hstep⟩
  · have hadd : Step cfg builder s (.add d) (WriteSide.add cfg builder d 0 none 0 s) :=
      .add d 0 none 0 fun x hx => absurd hx (Option.some_ne_none x).symm
    rw [WriteSide.add, hadded, if_neg hflush] at hadd
    have hstep : Step cfg builder { s with buffer := [d] } .flush
        (flushLocked cfg builder (some index) 0 { s with buffer := [d] }) :=
      .flush (some index) 0 fun x hx => by
        cases hx
        exact hreturns
    rw [hflushed] at hstep
    exact ⟨_, .flush, hreachable.step hadd, rfl, Or.inr rfl, hstep⟩

theorem exists_spinning (hlone : Lone cfg policy) {d : Text × Text} {index : Ix}
    (hreturns : builder.returns (flushTsv [d]) index) :
    ∃ initial files s, Flushed (nrtIndex cfg builder initial files) s ∧ Spinning cfg policy (flushTsv [d]) s := by
  let m := policy.maxSegments.toNat
  let initial := (List.range m).map (numbered cfg index)
  let start : NrtIndex Ix :=
    { segments := initial, nextSegmentId := initial.length, lastFlushTime := 0,
      files := fun _ => some (flushTsv [d]), nextIdent := m }
  have hstart : (nrtIndex cfg builder initial fun _ => some (flushTsv [d])).Reachable start := by
    refine .init ⟨m, 0, fun seg hseg => ?_, rfl⟩
    obtain ⟨i, hi, rfl⟩ := List.mem_map.mp hseg
    exact List.mem_range.mp hi
  have hobjects : ∀ a ∈ initial, ∀ b ∈ initial, a.ident = b.ident → a = b := by
    intro a ha b hb hident
    obtain ⟨i, -, rfl⟩ := List.mem_map.mp ha
    obtain ⟨j, -, rfl⟩ := List.mem_map.mp hb
    exact congrArg (numbered cfg index) hident
  have hbuffered : Storage.Inv cfg { start with buffer := [d] } :=
    (Storage.inv_of_reachable hobjects (clear_numbered cfg index m) hstart).effect
      (.buffer d : Effect cfg builder start _)
  have hpublished : Storage.Inv cfg (published cfg builder index 0 { start with buffer := [d] }) :=
    hbuffered.effect (.publish 0 (List.cons_ne_nil d []) hreturns)
  have hcount : (initial ++ [newSegment cfg builder index { start with buffer := [d] }]).length = m + 1 := by
    simp [initial]
  have hsources : ∀ path, (published cfg builder index 0 { start with buffer := [d] }).files path =
      some (flushTsv [d]) := fun path => by simp [published, wrote, start]
  obtain ⟨plan, hsubmit, hspin⟩ := spinning_of_schedule builder hlone hpublished rfl hcount rfl
    (fun j hj => by cases hj) fun seg _ => hsources seg.sourceTsv
  obtain ⟨before, a, hbefore, hsegments, haction, hstep⟩ := exists_flush hreturns hstart rfl
  rw [hsubmit] at hstep
  refine ⟨initial, _, _, ⟨before, a, hbefore, hstep, ⟨fun heq => ?_, ?_⟩, rfl, fun job hne => by cases hne⟩, hspin⟩
  · have hlength : (initial ++ [newSegment cfg builder index { start with buffer := [d] }]).length = initial.length :=
      congrArg List.length (heq.trans hsegments)
    simp at hlength
  · rcases haction with rfl | rfl
    · trivial
    · trivial

/-- Chained merges come to an end, from every segment list, exactly for a merge
factor of at least two and a budget of at least one segment. Where a chain stops,
and whenever no merge is in progress after a flush or a swap, the budget is kept. -/
theorem merges_converge (cfg : Config) (policy : TieredMergePolicy) (hpolicy : cfg.mergePolicy = some policy)
    (hfactor : 1 ≤ policy.mergeFactor) (hmax : 0 ≤ policy.maxSegments) (builder : BuildSegment Ix)
    (hbuilds : ∃ d index, Plain d ∧ builder.returns (flushTsv [d]) index) :
    ((∀ initial files s, Flushed (nrtIndex cfg builder initial files) s →
        (nrtIndex cfg builder initial files).Terminates Quiet Merges s) ↔
      2 ≤ policy.mergeFactor ∧ 1 ≤ policy.maxSegments) ∧
    (∀ initial files s t, Flushed (nrtIndex cfg builder initial files) s →
      Relation.ReflTransGen ((nrtIndex cfg builder initial files).Via fun a => Quiet a ∨ Merges a) s t →
      BuildSucceeds builder t → (∀ t', ¬ (nrtIndex cfg builder initial files).Via Merges t t') →
      t.mergeInProgress = false ∧ (t.segments.length : Int) ≤ policy.maxSegments) ∧
    ∀ initial files trace s, (nrtIndex cfg builder initial files).recorded.Run trace s →
      ∀ x ∈ trace, Publishes x ∨ Swaps x → x.after.mergeInProgress = false →
        (x.after.segments.length : Int) ≤ policy.maxSegments := by
  refine ⟨⟨fun h => ?_, fun hgood initial files s hflushed => ?_⟩, fun initial files s t hflushed hchain => ?_,
    fun initial files trace s hrun => ?_⟩
  · by_contra hbad
    obtain ⟨d, index, hplain, hreturns⟩ := hbuilds
    have hlone : Lone cfg policy := ⟨hpolicy, hfactor, hmax, by omega⟩
    obtain ⟨initial, files, s, hflushed, hspin⟩ := exists_spinning hlone hreturns
    refine System.not_terminates (Spinning cfg policy (flushTsv [d])) (fun s hs => ?_) hspin (h initial files s hflushed)
    exact hs.next hlone (mergeTsv_flushTsv hplain) hreturns
  · obtain ⟨before, a, hbefore, hstep, -⟩ := hflushed
    have hreachable := hbefore.step hstep
    exact terminates hpolicy hgood.1 hgood.2 (oneMerge_of_reachable hreachable) (planned_of_reachable hreachable)
  · exact ((chaining_of_flushed hpolicy hflushed).chain hpolicy hchain).stopped
  · exact hrun.forall_mem fun s a s' _ hstep => step_within hpolicy hstep

/-- A flush over a budget of two segments. -/
theorem merges_converge_small :
    (nrtIndex smallConfig listBuilder [firstSegment, secondSegment] gluedFiles).Terminates Quiet Merges
      (flushedState gluedFiles) := by
  have hbuilds : ∃ d index, Plain d ∧ listBuilder.returns (flushTsv [d]) index :=
    ⟨(['c'], ['z']), _, plain_added _ List.mem_cons_self, rfl⟩
  have hstart : (nrtIndex smallConfig listBuilder [firstSegment, secondSegment] gluedFiles).Reachable
      (startState gluedFiles) := .init ⟨2, 0, by decide, rfl⟩
  refine (merges_converge smallConfig { mergeFactor := 2, maxSegments := 2 } rfl (by decide) (by decide) listBuilder
    hbuilds).1.mpr ⟨by decide, by decide⟩ _ _ _ ⟨_, _, hstart, (add_answered _ rfl).step, ⟨?_, trivial⟩, rfl, fun job hne => by cases hne⟩
  exact fun heq => absurd (congrArg List.length heq) (by decide)

end CascadeSearch.Nrt.Convergence
