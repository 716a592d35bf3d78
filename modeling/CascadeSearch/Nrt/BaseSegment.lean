import CascadeSearch.Nrt.Storage
import CascadeSearch.Nrt.ResultPage

/-!
# A base segment that is never merged (`lag_experiment.py`)

Several indexes in turn start from one large segment, stored elsewhere, and its
files must outlive each of them. A plan takes the smallest segments and leaves
at least one, so it never takes a segment larger than all that is added.
-/
namespace CascadeSearch.Nrt.BaseSegment

open Lib.TextFile Lib.Transition
open Index.Format Index.Porter Index.Corpus Index.MergePass Index.Fits
open Query.Heap Query.Reader Query.Retrieval
open FanOut MergePolicy Tsv WriteSide Conservation Disk Merging Publish BoundSearch ResultPage

variable {Ix : Type}

theorem sliceTo_min {α : Type} {xs : List α} {factor : Int} (hne : 0 < xs.length) (h : factor < xs.length) :
    ∃ m < xs.length, sliceTo xs (min factor xs.length) = xs.take m := by
  rw [sliceTo, Int.min_eq_left h.le]
  split
  · exact ⟨factor.toNat, by omega, rfl⟩
  · exact ⟨(xs.length + factor).toNat, by omega, rfl⟩

/-- The largest segment comes last in the order of a plan, and a plan never takes
the last one. -/
theorem not_mem_plan {policy : TieredMergePolicy} (hfactor : policy.mergeFactor ≤ policy.maxSegments)
    {segments plan : List (Segment Ix)} (hplan : policy.maybeMerge segments = some plan)
    (hdistinct : (segments.map (·.ident)).Nodup) {base : Segment Ix} (hbase : base ∈ segments)
    (hlarger : ∀ seg ∈ segments, seg.ident ≠ base.ident → seg.docCount < base.docCount) :
    base.ident ∉ plan.map (·.ident) := by
  have hmany := (exists_plan_iff policy segments).mp ⟨plan, hplan⟩
  rw [TieredMergePolicy.maybeMerge, if_neg (not_le.mpr hmany)] at hplan
  obtain rfl := Option.some.inj hplan
  have hperm := List.perm_insertionSort (fun a b : Segment Ix => a.docCount ≤ b.docCount) segments
  have hsorted : (segments.insertionSort fun a b => a.docCount ≤ b.docCount).Pairwise fun a b => a.docCount ≤ b.docCount :=
    List.pairwise_insertionSort _ _
  rw [← (hperm.map _).nodup_iff] at hdistinct
  have hmem := hperm.symm.subset hbase
  have hless : policy.mergeFactor < (segments.insertionSort fun a b => a.docCount ≤ b.docCount).length := by
    rw [List.length_insertionSort]
    omega
  obtain ⟨m, hm, htake⟩ := sliceTo_min (List.length_pos_of_mem hmem) hless
  rw [htake]
  generalize segments.insertionSort (fun a b => a.docCount ≤ b.docCount) = bySize at *
  rcases List.eq_nil_or_concat' bySize with rfl | ⟨front, last, rfl⟩
  · exact absurd hm (Nat.not_lt_zero m)
  rw [List.length_append, List.length_singleton] at hm
  rw [List.take_append_of_le_length (by omega)]
  have hlast : last.ident = base.ident := by
    by_contra hne
    have hlt := hlarger last (hperm.subset (List.mem_append_right _ List.mem_cons_self)) hne
    rcases List.mem_append.mp hmem with hfront | hsame
    · exact absurd ((List.pairwise_append.mp hsorted).2.2 base hfront last List.mem_cons_self) (Nat.not_le.mpr hlt)
    · exact hne (congrArg (·.ident) (List.mem_singleton.mp hsame)).symm
  intro hident
  rw [List.map_append, List.nodup_append] at hdistinct
  have hfront := ((List.take_sublist m front).map (·.ident)).subset hident
  exact hdistinct.2.2 _ hfront _ (List.mem_map_of_mem List.mem_cons_self) hlast.symm

variable (holds : Ix → List Document) (cfg : Config) (base : Segment Ix) (files : Path → Option Str)

def Inside (seg : Segment Ix) : Prop := segmentsDir cfg <+: seg.sourceTsv ∧ segmentsDir cfg <+: seg.indexDir

def Counted (seg : Segment Ix) : Prop := seg.docCount = (holds seg.index).length

/-- No plan for these segments takes the base, if it is one of them. -/
def LeavesOut (segments : List (Segment Ix)) : Prop :=
  base ∈ segments → (∀ seg ∈ segments, Counted holds seg) → ∀ policy plan, cfg.mergePolicy = some policy →
    policy.maybeMerge segments = some plan → base.ident ∉ plan.map (·.ident)

/-- The base is live and in no plan, everything else is stored inside, and no
file outside has changed. -/
structure Sheltered (s : NrtIndex Ix) : Prop where
  live : base ∈ s.segments
  unchosen : ∀ job ∈ pending s, base.ident ∉ job.chosen.map (·.ident)
  inside : ∀ seg ∈ known s, seg.ident ≠ base.ident → Inside cfg seg
  removed : ∀ seg ∈ removing s.worker, Inside cfg seg
  counted : ∀ seg ∈ known s, Counted holds seg
  outside : ∀ path, ¬ segmentsDir cfg <+: path → s.files path = files path

variable {holds cfg base files} {builder : BuildSegment Ix} {s s' : NrtIndex Ix}

theorem update_outside {path : Path} (hpath : ¬ segmentsDir cfg <+: path) (segId : Nat) (content : Option Str)
    (files : Path → Option Str) : Function.update files (tsvPath cfg segId) content path = files path :=
  Function.update_of_ne (fun heq : path = tsvPath cfg segId => hpath (heq ▸ List.prefix_append _ _)) _ _

namespace Sheltered

/-- Nothing new is planned, and what is new is stored inside. -/
theorem keep (h : Sheltered holds cfg base files s) (hlive : base ∈ s'.segments) (hpending : pending s' ⊆ pending s)
    (hknown : ∀ seg ∈ known s', seg ∈ known s ∨ Inside cfg seg ∧ Counted holds seg)
    (hremoving : ∀ seg ∈ removing s'.worker, seg ∈ removing s.worker ∨ Inside cfg seg)
    (hfiles : ∀ path, ¬ segmentsDir cfg <+: path → s'.files path = s.files path) :
    Sheltered holds cfg base files s' where
  live := hlive
  unchosen job hjob := h.unchosen job (hpending hjob)
  inside seg hseg hne := (hknown seg hseg).elim (fun hold => h.inside seg hold hne) (·.1)
  removed seg hseg := (hremoving seg hseg).elim (h.removed seg) id
  counted seg hseg := (hknown seg hseg).elim (h.counted seg) (·.2)
  outside path hpath := (hfiles path hpath).trans (h.outside path hpath)

/-- The worker turns to another phase of the same job, or to the next one. -/
theorem work (h : Sheltered holds cfg base files s) (hsegments : s'.segments = s.segments)
    (hpending : pending s' ⊆ pending s) (hproduced : produced s'.worker = [] ∨ produced s'.worker = produced s.worker)
    (hremoving : removing s'.worker ⊆ removing s.worker)
    (hfiles : ∀ path, ¬ segmentsDir cfg <+: path → s'.files path = s.files path) :
    Sheltered holds cfg base files s' := by
  refine h.keep (hsegments ▸ h.live) hpending (fun seg hseg => Or.inl ?_) (fun seg hseg => Or.inl (hremoving hseg)) hfiles
  rw [known, hsegments] at hseg
  rcases List.mem_append.mp hseg with hnew | hold
  · rcases hproduced with hnil | hsame
    · rw [hnil] at hnew
      exact absurd hnew List.not_mem_nil
    · exact List.mem_append_left _ (hsame ▸ hnew)
  · exact List.mem_append_right _ hold

/-- A plan is made only where it leaves the base out. -/
theorem schedule (h : Sheltered holds cfg base files s)
    (hplan : LeavesOut holds cfg base s.segments) :
    Sheltered holds cfg base files (maybeScheduleMergeLocked cfg s).1 := by
  obtain ⟨heq, -⟩ | ⟨plan, ⟨-, policy, hpolicy, hdue⟩, ⟨-, heq⟩ | ⟨-, heq⟩⟩ := maybeScheduleMergeLocked_cases cfg s
  · rw [heq]
    exact h
  · rw [heq]
    exact ⟨h.live, h.unchosen, h.inside, h.removed, h.counted, h.outside⟩
  · rw [heq]
    refine ⟨h.live, fun job hjob => ?_, h.inside, h.removed, h.counted, h.outside⟩
    have hcases : job ∈ pending s ∨ job = ⟨plan, s.nextSegmentId⟩ := by
      have hpending := pending_scheduled plan s
      rw [scheduled] at hpending
      rwa [hpending, List.mem_append, List.mem_singleton] at hjob
    rcases hcases with hjob | rfl
    · exact h.unchosen job hjob
    · exact hplan h.live (fun seg hseg => h.counted seg (List.mem_append_right _ hseg)) policy plan hpolicy hdue

theorem flushLocked (h : Sheltered holds cfg base files s) {built : Option Ix} {now : ℚ}
    (hcount : ∀ index ∈ built, builder.docCount index = (holds index).length)
    (hplan : LeavesOut holds cfg base (WriteSide.flushLocked cfg builder built now s).segments) :
    Sheltered holds cfg base files (WriteSide.flushLocked cfg builder built now s) := by
  obtain ⟨-, heq⟩ | ⟨-, ⟨-, heq⟩ | ⟨index, hindex, heq⟩⟩ := flushLocked_cases cfg builder built now s
  · rw [heq]
    exact h
  · rw [heq]
    exact h.work rfl (List.Subset.refl _) (Or.inr rfl) (List.Subset.refl _) fun path hpath =>
      update_outside hpath s.nextSegmentId _ s.files
  · rw [heq] at hplan ⊢
    rw [schedule_segments] at hplan
    refine schedule ?_ hplan
    refine h.keep (List.mem_append_left _ h.live) (List.Subset.refl _) (fun seg hseg => ?_) (fun seg hseg => Or.inl hseg)
      fun path hpath => update_outside hpath s.nextSegmentId _ s.files
    change seg ∈ produced s.worker ++ (s.segments ++ [newSegment cfg builder index s]) at hseg
    rw [← List.append_assoc, List.mem_append, List.mem_singleton] at hseg
    rcases hseg with hseg | rfl
    · exact Or.inl hseg
    · exact Or.inr ⟨⟨List.prefix_append _ _, List.prefix_append _ _⟩, hcount index hindex⟩

theorem swapMerged (h : Sheltered holds cfg base files s) {job : Job Ix} {merged : Segment Ix}
    (hworker : s.worker = .built job merged) (hchosen : job.chosen.Subperm s.segments)
    (hplan : LeavesOut holds cfg base (WriteSide.swapMerged cfg job merged s).segments) :
    Sheltered holds cfg base files (WriteSide.swapMerged cfg job merged s) := by
  have hpending : pending s = job :: s.queue := pending_of_worker hworker
  have hknown : known s = merged :: s.segments := known_of_worker hworker
  have hjob := h.unchosen job (hpending ▸ List.mem_cons_self)
  have hswapped : Sheltered holds cfg base files (swapped job merged s) := by
    refine h.keep (List.mem_append_left _ (List.mem_filter.mpr ⟨h.live, decide_eq_true hjob⟩)) ?_ (fun seg hseg => Or.inl ?_)
      (fun seg hseg => Or.inr ?_) fun path _ => rfl
    · rw [hpending]
      exact List.subset_cons_self _ _
    · rw [hknown]
      have hcases : seg ∈ kept job s.segments ∨ seg = merged := by
        rw [← List.mem_singleton, ← List.mem_append]
        exact hseg
      rcases hcases with hkept | rfl
      · exact List.mem_cons_of_mem _ (List.mem_filter.mp hkept).1
      · exact List.mem_cons_self
    · have hseg' : seg ∈ job.chosen := hseg
      refine h.inside seg ?_ fun heq => hjob (heq ▸ List.mem_map_of_mem hseg')
      rw [hknown]
      exact List.mem_cons_of_mem _ (hchosen.subset hseg')
  have hsame : (WriteSide.swapMerged cfg job merged s).segments = (swapped job merged s).segments := by
    rw [swapMerged_eq]
    split
    · exact schedule_segments cfg _
    · exact schedule_segments cfg _
  rw [hsame] at hplan
  have hscheduled := hswapped.schedule hplan
  rw [swapMerged_eq]
  split
  · refine hscheduled.work rfl ?_ (Or.inl rfl) (List.nil_subset _) fun path _ => rfl
    exact List.subset_append_right _ _
  · exact hscheduled

theorem step (h : Sheltered holds cfg base files s)
    (hcount : ∀ tsv index, builder.returns tsv index → builder.docCount index = (holds index).length)
    (hchosen : ∀ job ∈ pending s, job.chosen.Subperm s.segments) {action : Action Ix}
    (hstep : Step cfg builder s action s')
    (hplan : LeavesOut holds cfg base s'.segments) : Sheltered holds cfg base files s' := by
  cases hstep with
  | add d clock built now returns =>
    have hbuffer : Sheltered holds cfg base files { s with buffer := s.buffer ++ [d] } :=
      ⟨h.live, h.unchosen, h.inside, h.removed, h.counted, h.outside⟩
    rw [WriteSide.add] at hplan ⊢
    split
    · rename_i hflush
      rw [if_pos hflush] at hplan
      exact hbuffer.flushLocked (fun index hindex => hcount _ index (returns index hindex)) hplan
    · exact hbuffer
  | flush built now returns =>
    exact h.flushLocked (fun index hindex => hcount _ index (returns index hindex)) hplan
  | delete externalId => exact ⟨h.live, h.unchosen, h.inside, h.removed, h.counted, h.outside⟩
  | search => exact h
  | startMerge worker jobs =>
    exact h.work rfl (by simp [pending, worker, jobs, unfinished]) (Or.inl rfl) (List.nil_subset _) fun path _ => rfl
  | @buildMerge job tsv index worker read returns =>
    refine h.keep h.live ?_ (fun seg hseg => ?_) (fun seg hseg => absurd hseg List.not_mem_nil) fun path hpath =>
      update_outside hpath job.mergeId _ s.files
    · simp [pending, worker, buildMerged, WriteSide.writeMerged, unfinished]
    · rcases List.mem_cons.mp hseg with rfl | hold
      · exact Or.inr ⟨⟨List.prefix_append _ _, List.prefix_append _ _⟩, hcount tsv index returns⟩
      · exact Or.inl (List.mem_append_right _ hold)
  | mergeRaises worker =>
    exact h.work rfl (by simp [pending, worker, unfinished]) (Or.inl rfl) (List.nil_subset _) fun path _ => rfl
  | @buildRaises job tsv worker read =>
    exact h.work rfl (by simp [pending, worker, WriteSide.writeMerged, unfinished]) (Or.inl rfl) (List.nil_subset _)
      fun path hpath => update_outside hpath job.mergeId _ s.files
  | @swap job merged worker =>
    have hpending : pending s = job :: s.queue := pending_of_worker worker
    exact h.swapMerged worker (hchosen job (hpending ▸ List.mem_cons_self)) hplan
  | mergeFailed worker =>
    exact h.work rfl (List.subset_append_right _ _) (Or.inl rfl) (List.nil_subset _) fun path _ => rfl
  | @removeFiles seg replaced worker =>
    have hremoving : removing s.worker = seg :: replaced := by rw [worker]; rfl
    refine h.work rfl (by simp [pending, worker, unfinished]) (Or.inl rfl) ?_ fun path hpath => if_neg fun hremoved => ?_
    · rw [hremoving]
      exact List.subset_cons_self _ _
    · obtain ⟨htsv, hdir⟩ := h.removed seg (hremoving ▸ List.mem_cons_self)
      rcases hremoved with rfl | hbelow
      · exact hpath htsv
      · exact hpath (hdir.trans hbelow)
  | cleaned worker =>
    exact h.work rfl (List.subset_append_right _ _) (Or.inl rfl) (List.nil_subset _) fun path _ => rfl
  | close => exact ⟨h.live, h.unchosen, h.inside, h.removed, h.counted, h.outside⟩

/-- An index is built inside, and a removed one was. -/
theorem indexFiles_outside {t t' : OnDisk Ix} (h : Sheltered holds cfg base files t.index) {e : Event Ix}
    (hstep : DiskStep cfg builder t e t') {path : Path} (hpath : ¬ segmentsDir cfg <+: path) :
    t'.indexFiles path = t.indexFiles path := by
  have hbuilt : ∀ dir ∈ builtDir cfg t.index e, ¬ dir <+: path := fun dir hdir hbelow =>
    hpath ((segmentsDir_prefix_builtDir hdir).trans hbelow)
  rw [hstep.elsewhere path hbuilt]
  obtain heq | ⟨seg, replaced, -, hworker, heq⟩ := swept_cases t.index e.action t.indexFiles
  · rw [heq]
  · rw [heq]
    obtain ⟨htsv, hdir⟩ := h.removed seg (hworker ▸ List.mem_cons_self)
    refine if_neg fun hremoved => ?_
    rcases hremoved with rfl | hbelow
    · exact hpath htsv
    · exact hpath (hdir.trans hbelow)

end Sheltered

/-- Two segments of the list hold no more than all of it. -/
theorem length_held_two {segments : List (Segment Ix)} {a b : Segment Ix} (ha : a ∈ segments) (hb : b ∈ segments)
    (hne : a.ident ≠ b.ident) :
    (holds a.index).length + (holds b.index).length ≤ (held holds segments).length := by
  have hpair : [a, b].Subperm segments := by
    refine List.subperm_of_subset (List.nodup_cons.mpr ⟨fun hmem => ?_, List.nodup_singleton b⟩) ?_
    · exact hne (congrArg (·.ident) (List.mem_singleton.mp hmem))
    · exact List.cons_subset.mpr ⟨ha, List.cons_subset.mpr ⟨hb, List.nil_subset _⟩⟩
  obtain ⟨front, hperm, hsub⟩ := hpair
  have hle := (hsub.flatMap fun seg => holds seg.index).length_le
  have hlength := (List.Perm.flatMap_right (fun seg => holds seg.index) hperm).length_eq
  rw [List.flatMap_cons, List.flatMap_cons, List.flatMap_nil, List.append_nil, List.length_append] at hlength
  rw [held]
  omega

/-- All documents but those of the base were added, and are fewer. -/
theorem leavesOut_of_inv (hfactor : ∀ policy, cfg.mergePolicy = some policy → policy.mergeFactor ≤ policy.maxSegments)
    {docs : List (Text × Text)} {gone : List Nat} (hinv : Conservation.Inv holds cfg [base] docs gone s)
    (hfew : docs.length < base.docCount) : LeavesOut holds cfg base s.segments := by
  intro hlive hcounted policy plan hpolicy hplan
  have hdistinct : (s.segments.map (·.ident)).Nodup :=
    hinv.idents.sublist ((List.sublist_append_right _ _).map _)
  refine not_mem_plan (hfactor policy hpolicy) hplan hdistinct hlive fun seg hseg hne => ?_
  obtain ⟨flushed, hdocs, hperm⟩ := hinv.conserved
  have htotal := hperm.length_eq
  have hbase : held holds [base] = holds base.index := List.append_nil _
  rw [hbase, List.length_append, List.length_map] at htotal
  have hadded := congrArg List.length hdocs
  rw [List.length_append] at hadded
  have htwo : _ + _ ≤ (held holds s.segments).length := length_held_two hseg hlive hne
  have hcount : seg.docCount = (holds seg.index).length := hcounted seg hseg
  omega

theorem sheltered_of_run (hbuild : ∀ tsv index, builder.returns tsv index → holds index = documents tsv)
    (hcount : ∀ tsv index, builder.returns tsv index → builder.docCount index = (holds index).length)
    (hfactor : ∀ policy, cfg.mergePolicy = some policy → policy.mergeFactor ≤ policy.maxSegments)
    (hprepared : Prepared holds cfg [base] files) (hbase : Counted holds base) {trace : List (Action Ix)}
    (hrun : (nrtIndex cfg builder [base] files).Run trace s) (hplain : ∀ d ∈ added trace, Plain d)
    (hfew : (added trace).length < base.docCount) : Sheltered holds cfg base files s := by
  induction hrun with
  | init hinit =>
    obtain ⟨ident, now, -, rfl⟩ := hinit
    refine ⟨List.mem_cons_self, fun job hjob => absurd hjob List.not_mem_nil, fun seg hseg hne => ?_,
      fun seg hseg => absurd hseg List.not_mem_nil, fun seg hseg => ?_, fun path _ => rfl⟩
    · exact absurd (congrArg (·.ident) (List.mem_singleton.mp hseg)) hne
    · rw [List.mem_singleton.mp hseg]
      exact hbase
  | @step s s' action trace hs hstep ih =>
    have hinv' := inv_of_run hbuild hprepared (hs.step hstep) hplain
    have hleaves := leavesOut_of_inv hfactor hinv' hfew
    rw [added_concat] at hplain hfew
    have hplain' : ∀ d ∈ added trace, Plain d := fun d hd => hplain d (List.mem_append_left _ hd)
    have hfew' : (added trace).length < base.docCount := by
      rw [List.length_append] at hfew
      omega
    have hinv := inv_of_run hbuild hprepared hs hplain'
    exact (ih hplain' hfew').step hcount hinv.chosen hstep hleaves

/-- No swap of the run has replaced the base. -/
theorem base_not_consumed (hbuild : ∀ tsv index, builder.returns tsv index → holds index = documents tsv)
    (hprepared : Prepared holds cfg [base] files) {trace : List (Action Ix)}
    (hrun : (nrtIndex cfg builder [base] files).Run trace s) (hplain : ∀ d ∈ added trace, Plain d)
    (h : Sheltered holds cfg base files s) : base.ident ∉ consumed trace := fun hmem =>
  ((inv_of_run hbuild hprepared hrun hplain).goneDead base.ident hmem).2 base (List.mem_append_right _ h.live) rfl

section OpenIndexes

variable {bm25 : Bm25 ℚ}

theorem openBuilder_docCount {tsv : Str} {ix : OpenIndex bm25} (_ : (openBuilder bm25).returns tsv ix) :
    (openBuilder bm25).docCount ix = ix.docs.length := ix.represents.docCount

variable {cfg : Config} {base : Segment (OpenIndex bm25)} {files indexFiles : Path → Option Str}

theorem sheltered_onDisk (hfactor : ∀ policy, cfg.mergePolicy = some policy → policy.mergeFactor ≤ policy.maxSegments)
    (hprepared : Prepared OpenIndex.docs cfg [base] files) (hbase : base.docCount = base.index.docs.length)
    {events : List (Event (OpenIndex bm25))} {t : OnDisk (OpenIndex bm25)}
    (hrun : (onDisk cfg (openBuilder bm25) [base] files indexFiles).Run events t)
    (hplain : ∀ d ∈ added (events.map (·.action)), Plain d)
    (hfew : (added (events.map (·.action))).length < base.docCount) :
    Sheltered OpenIndex.docs cfg base files t.index :=
  sheltered_of_run openBuilder_docs (fun _ _ => openBuilder_docCount) hfactor hprepared hbase
    (run_iff.mpr ⟨events, t, hrun, rfl, rfl⟩) hplain hfew

theorem indexFiles_of_run (hfactor : ∀ policy, cfg.mergePolicy = some policy → policy.mergeFactor ≤ policy.maxSegments)
    (hprepared : Prepared OpenIndex.docs cfg [base] files) (hbase : base.docCount = base.index.docs.length)
    {events : List (Event (OpenIndex bm25))} {t : OnDisk (OpenIndex bm25)}
    (hrun : (onDisk cfg (openBuilder bm25) [base] files indexFiles).Run events t)
    (hplain : ∀ d ∈ added (events.map (·.action)), Plain d)
    (hfew : (added (events.map (·.action))).length < base.docCount) {path : Path}
    (hpath : ¬ segmentsDir cfg <+: path) : t.indexFiles path = indexFiles path := by
  induction hrun with
  | init hinit => exact congrFun hinit.2 path
  | @step t t' e events hs hstep ih =>
    rw [List.map_append, List.map_singleton, added_concat] at hplain hfew
    have hplain' : ∀ d ∈ added (events.map (·.action)), Plain d := fun d hd => hplain d (List.mem_append_left _ hd)
    have hfew' : (added (events.map (·.action))).length < base.docCount := by
      rw [List.length_append] at hfew
      omega
    have h := sheltered_onDisk hfactor hprepared hbase hs hplain' hfew'
    exact (h.indexFiles_outside hstep hpath).trans (ih hplain' hfew')

/-- In every run that adds fewer documents than the base segment holds, with a
merge factor within the number of segments kept, the base stays live, no merge
takes it, and nothing on the disk outside the segments directory is ever touched. -/
theorem base_never_merged (cfg : Config) (base : Segment (OpenIndex bm25)) (files indexFiles : Path → Option Str)
    (hfactor : ∀ policy, cfg.mergePolicy = some policy → policy.mergeFactor ≤ policy.maxSegments)
    (hprepared : Prepared OpenIndex.docs cfg [base] files) (hbase : base.docCount = base.index.docs.length)
    {events : List (Event (OpenIndex bm25))} {t : OnDisk (OpenIndex bm25)}
    (hrun : (onDisk cfg (openBuilder bm25) [base] files indexFiles).Run events t)
    (hplain : ∀ d ∈ added (events.map (·.action)), Plain d)
    (hfew : (added (events.map (·.action))).length < base.docCount) :
    base ∈ t.index.segments ∧ base.ident ∉ consumed (events.map (·.action)) ∧
      (∀ job ∈ pending t.index, base.ident ∉ job.chosen.map (·.ident)) ∧
      ∀ path, ¬ segmentsDir cfg <+: path → t.index.files path = files path ∧ t.indexFiles path = indexFiles path := by
  have h := sheltered_onDisk hfactor hprepared hbase hrun hplain hfew
  have hindex : (nrtIndex cfg (openBuilder bm25) [base] files).Run (events.map (·.action)) t.index :=
    run_iff.mpr ⟨events, t, hrun, rfl, rfl⟩
  refine ⟨h.live, base_not_consumed openBuilder_docs hprepared hindex hplain h, h.unchosen,
    fun path hpath => ⟨h.outside path hpath, ?_⟩⟩
  exact indexFiles_of_run hfactor hprepared hbase hrun hplain hfew hpath

end OpenIndexes

def baseConfig : Config := { batchConfig with mergePolicy := some { mergeFactor := 1, maxSegments := 1 } }

def baseFiles : Path → Option Str := fun path => if path = [lit "base.tsv"] then some (flushTsv batch) else none

def baseSegment : Segment (OpenIndex (Bm25.exact nearOne BM25Params.default)) where
  ident := 0
  index := batchIndex
  sourceTsv := [lit "base.tsv"]
  indexDir := [lit "base_index"]
  docCount := 3

theorem plain_batch : ∀ d ∈ batch, Plain d := by
  intro d hd
  rcases List.mem_cons.mp hd with rfl | hd
  · exact ⟨by constructor <;> decide, by decide⟩
  rcases List.mem_cons.mp hd with rfl | hd
  · exact ⟨by constructor <;> decide, by decide⟩
  · rw [List.mem_singleton.mp hd]
    exact ⟨by constructor <;> decide, by decide⟩

theorem prepared_base : Prepared OpenIndex.docs baseConfig [baseSegment] baseFiles where
  distinct := by decide
  outside seg hseg := by
    rw [List.mem_singleton.mp hseg]
    decide
  stored seg hseg file hfile := by
    rw [List.mem_singleton.mp hseg] at hfile ⊢
    have hsame : baseFiles baseSegment.sourceTsv = some (flushTsv batch) := if_pos rfl
    obtain rfl := Option.some.inj (hsame.symm.trans hfile)
    have hstores := Conservation.Inv.stores_flushTsv plain_batch
    exact ⟨rfl, fun d hd => hstores.noReturns d (by rw [← documents_batch]; exact hd), hstores.terminated⟩

theorem single_returns :
    ∃ ix, (openBuilder (Bm25.exact nearOne BM25Params.default)).returns (flushTsv [catDocument ['b']]) ix := by
  refine (openBuilder_returns_iff (fitsFormat_of_length_lt (by decide +kernel))).mpr (buildSegment_isSome_iff.mpr ?_)
  have hdocs : documents (encode ([catDocument ['b']].flatMap tsvLine)) = [encodeDocument (catDocument ['b'])] := by
    decide +kernel
  rw [hdocs]
  exact ⟨by decide, _, List.mem_cons_self, by decide +kernel⟩

/-- One more document is one segment too many. -/
theorem planned_run : ∃ s, (nrtIndex baseConfig (openBuilder _) [baseSegment] baseFiles).Run
    [.add (catDocument ['b']), .flush] s ∧ pending s ≠ [] := by
  obtain ⟨ix, hreturns⟩ := single_returns
  let initial : NrtIndex (OpenIndex (Bm25.exact nearOne BM25Params.default)) :=
    { segments := [baseSegment], nextSegmentId := 1, lastFlushTime := 0, files := baseFiles, nextIdent := 1 }
  have hstart : (nrtIndex baseConfig (openBuilder _) [baseSegment] baseFiles).Run [] initial :=
    .init ⟨1, 0, fun seg hseg => by rw [List.mem_singleton.mp hseg]; decide, rfl⟩
  have hadd : Step baseConfig (openBuilder _) initial (.add (catDocument ['b']))
      { initial with buffer := [catDocument ['b']] } := by
    have hwait : ¬ shouldFlush baseConfig 0 { initial with buffer := [catDocument ['b']] } = true := by
      simp only [shouldFlush, baseConfig, batchConfig, initial, List.length_singleton]
      norm_num
    have heq : WriteSide.add baseConfig (openBuilder _) (catDocument ['b']) 0 none 0 initial =
        { initial with buffer := [catDocument ['b']] } := if_neg hwait
    rw [← heq]
    exact .add (catDocument ['b']) 0 none 0 fun index hindex => absurd hindex (Option.some_ne_none index).symm
  refine ⟨_, (hstart.step hadd).step (.flush (some ix) 0 fun index hindex => ?_), ?_⟩
  · cases hindex
    exact hreturns
  · obtain ⟨-, hnot⟩ | ⟨plan, -, ⟨hclosed, -⟩ | ⟨-, heq⟩⟩ := maybeScheduleMergeLocked_cases baseConfig
      (published baseConfig (openBuilder _) ix 0 { initial with buffer := [catDocument ['b']] })
    · obtain ⟨plan, hplan⟩ := (exists_due_iff baseConfig
        (published baseConfig (openBuilder _) ix 0 { initial with buffer := [catDocument ['b']] })).mpr
          ⟨rfl, _, rfl, (by decide : (1 : Int) < 2)⟩
      exact absurd hplan (hnot plan)
    · exact absurd hclosed Bool.false_ne_true
    · have hflush : WriteSide.flushLocked baseConfig (openBuilder _) (some ix) 0
          { initial with buffer := [catDocument ['b']] } = (maybeScheduleMergeLocked baseConfig
            (published baseConfig (openBuilder _) ix 0 { initial with buffer := [catDocument ['b']] })).1 := rfl
      rw [hflush, heq]
      exact List.cons_ne_nil _ _

theorem base_never_merged_planned : ∃ events t,
    (onDisk baseConfig (openBuilder _) [baseSegment] baseFiles fun _ => none).Run events t ∧
      events.map (·.action) = [.add (catDocument ['b']), .flush] ∧ pending t.index ≠ [] ∧
      baseSegment ∈ t.index.segments ∧ ∀ job ∈ pending t.index, baseSegment.ident ∉ job.chosen.map (·.ident) := by
  obtain ⟨s, hrun, hpending⟩ := planned_run
  obtain ⟨events, t, hdisk, hactions, rfl⟩ : ∃ events t,
      (onDisk baseConfig (openBuilder _) [baseSegment] baseFiles fun _ => none).Run events t ∧
        events.map (·.action) = [.add (catDocument ['b']), .flush] ∧ t.index = s := run_iff.mp hrun
  have hplain : ∀ d ∈ added (events.map (·.action)), Plain d := fun d hd => by
    rw [hactions] at hd
    exact plain_batch d (List.mem_cons_of_mem _ (List.mem_cons_of_mem _ hd))
  have hdocs : baseSegment.docCount = baseSegment.index.docs.length := congrArg List.length documents_batch.symm
  have h := base_never_merged baseConfig baseSegment baseFiles (fun _ => none)
    (fun policy hpolicy => by obtain rfl := Option.some.inj hpolicy; exact le_rfl)
    prepared_base hdocs hdisk hplain (by rw [hactions]; decide)
  exact ⟨events, t, hdisk, hactions, hpending, h.1, h.2.2.1⟩

end CascadeSearch.Nrt.BaseSegment
