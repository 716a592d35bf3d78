import CascadeSearch.Index.Inverted
import CascadeSearch.Lib.Fallible
import CascadeSearch.Lib.Generations
import CascadeSearch.Nrt.Convergence

/-!
# What merging costs (`merge_policy.py`)

Documents are flushed one by one, and the merges a flush leads to are done
before the next one. A merge builds the documents it takes anew. Since at most
`max_segments` segments may stay, the documents it takes are built again and
again, whichever segments are the smallest.
-/
namespace CascadeSearch.Nrt.MergeCost

open Lib.Fallible Lib.Generations Lib.TextFile Lib.Transition
open Index.Format Index.Porter Index.Corpus Index.Inverted
open FanOut MergePolicy Tsv WriteSide Conservation Merging MergeFlag Convergence

variable {Ix : Type}

/-- A plain document with a term of its own. -/
def Indexable (d : Text × Text) : Prop := Plain d ∧ termsOf (encodeDocument d) ≠ []

/-- No merge is planned or under way, and no replaced file is left. -/
def Rested (s : NrtIndex Ix) : Prop := s.worker = .idle ∧ s.queue = []

/-- A document is flushed as it is added, after all merges; no merge fails. -/
def Paced (x : Recorded (NrtIndex Ix) (Action Ix)) : Prop :=
  match x.action with
  | .add d => Indexable d ∧ Rested x.before ∧ x.before.buffer = [] ∧ x.after.buffer = []
  | action => Merges action

def flushes (trace : List (Recorded (NrtIndex Ix) (Action Ix))) : Nat := (added (trace.map Recorded.action)).length

/-- The documents a merge hands to `build_segment`. -/
def rebuiltBy (x : Recorded (NrtIndex Ix) (Action Ix)) : Nat :=
  match x.action, x.after.worker with
  | .buildMerge, .built _ merged => merged.docCount
  | _, _ => 0

def rebuilt (trace : List (Recorded (NrtIndex Ix) (Action Ix))) : Nat := (trace.map rebuiltBy).sum

/-- `build_segment` succeeds on the TSV of documents that have terms, and an index
counts the documents it was built from. -/
structure Builds (builder : BuildSegment Ix) : Prop where
  counts : ∀ tsv index, builder.returns tsv index → builder.docCount index = (documents tsv).length
  succeeds : ∀ docs, docs ≠ [] → (∀ d ∈ docs, Indexable d) → ∃ index, builder.returns (flushTsv docs) index

theorem flushes_concat (trace : List (Recorded (NrtIndex Ix) (Action Ix))) (x : Recorded (NrtIndex Ix) (Action Ix)) :
    flushes (trace ++ [x]) = flushes trace + (added [x.action]).length := by
  rw [flushes, List.map_append, List.map_singleton, added_concat, List.length_append]
  rfl

theorem rebuilt_concat (trace : List (Recorded (NrtIndex Ix) (Action Ix))) (x : Recorded (NrtIndex Ix) (Action Ix)) :
    rebuilt (trace ++ [x]) = rebuilt trace + rebuiltBy x := by
  rw [rebuilt, List.map_append, List.map_singleton, List.sum_append, List.sum_singleton]
  rfl

/-- The source file of a segment holds these documents, and it counts them. -/
structure Sourced (files : Path → Option Str) (seg : Segment Ix) (docs : List (Text × Text)) : Prop where
  file : files seg.sourceTsv = some (flushTsv docs)
  indexable : ∀ d ∈ docs, Indexable d
  nonempty : docs ≠ []
  count : seg.docCount = docs.length

theorem length_documents_flushTsv {docs : List (Text × Text)} (h : ∀ d ∈ docs, Indexable d) :
    (documents (flushTsv docs)).length = docs.length := by
  rw [(flushTsv_spec fun d hd => (h d hd).1.1).1, List.length_map]

theorem Sourced.congr {files files' : Path → Option Str} {seg : Segment Ix} {docs : List (Text × Text)}
    (h : Sourced files seg docs) (hfiles : files' seg.sourceTsv = files seg.sourceTsv) : Sourced files' seg docs :=
  { h with file := hfiles.trans h.file }

/-- Segments whose source files are read one after the other. -/
theorem sourced_read {files : Path → Option Str} {chosen : List (Segment Ix)} {buffers : List (List (Text × Text))}
    (h : List.Forall₂ (Sourced files) chosen buffers) :
    chosen.mapM (fun seg => files seg.sourceTsv) = some (buffers.map flushTsv) ∧
      (chosen.map (·.docCount)).sum = buffers.flatten.length := by
  induction h with
  | nil => exact ⟨rfl, rfl⟩
  | @cons seg buffer chosen buffers hseg _ ih =>
    constructor
    · rw [List.mapM_cons, hseg.file, ih.1]
      rfl
    · rw [List.map_cons, List.sum_cons, List.flatten_cons, List.length_append, ih.2, hseg.count]

/-- What a merge of live segments reads, and how many documents that are. -/
theorem exists_read {s : NrtIndex Ix} {job : Job Ix} (hchosen : job.chosen ≠ [])
    (hsources : ∀ seg ∈ job.chosen, ∃ docs, Sourced s.files seg docs) :
    ∃ docs, mergedTsv s job = some (flushTsv docs) ∧ (∀ d ∈ docs, Indexable d) ∧ docs ≠ [] ∧
      docs.length = (job.chosen.map (·.docCount)).sum := by
  obtain ⟨buffers, hbuffers⟩ := exists_forall₂ hsources
  obtain ⟨hread, hcount⟩ := sourced_read hbuffers
  have hindexable : ∀ buffer ∈ buffers, ∀ d ∈ buffer, Indexable d := by
    intro buffer hbuffer
    obtain ⟨seg, -, hseg⟩ := exists_left hbuffers hbuffer
    exact hseg.indexable
  refine ⟨buffers.flatten, ?_, fun d hd => ?_, fun hnil => ?_, hcount.symm⟩
  · rw [mergedTsv, hread]
    exact mergeTsv_map_flushTsv buffers fun buffer hbuffer d hd => (hindexable buffer hbuffer d hd).1
  · obtain ⟨buffer, hbuffer, hd⟩ := List.mem_flatten.mp hd
    exact hindexable buffer hbuffer d hd
  · obtain ⟨seg, hseg⟩ := List.exists_mem_of_ne_nil _ hchosen
    obtain ⟨buffer, hbuffer, hsourced⟩ := exists_right hbuffers hseg
    exact hsourced.nonempty (List.flatten_eq_nil_iff.mp hnil buffer hbuffer)

variable {cfg : Config} {policy : TieredMergePolicy} {builder : BuildSegment Ix} {s s' : NrtIndex Ix}

/-- Between the steps of a paced run. -/
structure Steady (policy : TieredMergePolicy) (s : NrtIndex Ix) : Prop where
  chaining : Chaining policy s
  buffer : s.buffer = []
  sources : ∀ seg ∈ known s, ∃ docs, Sourced s.files seg docs
  built : ∀ job merged, s.worker = .built job merged → merged.docCount = (job.chosen.map (·.docCount)).sum

/-- A flush at once publishes the one document. -/
theorem add_eq {d : Text × Text} {clock now : ℚ} {built : Option Ix} (hbuffer : s.buffer = [])
    (returns : ∀ index ∈ built, builder.returns (flushTsv (s.buffer ++ [d])) index)
    (hflushed : (WriteSide.add cfg builder d clock built now s).buffer = []) :
    ∃ index, builder.returns (flushTsv [d]) index ∧ WriteSide.add cfg builder d clock built now s =
      (maybeScheduleMergeLocked cfg (published cfg builder index now { s with buffer := [d] })).1 := by
  have hadded : s.buffer ++ [d] = [d] := by rw [hbuffer, List.nil_append]
  rw [WriteSide.add, hadded] at hflushed ⊢
  split at hflushed
  · rename_i hflush
    rw [if_pos hflush]
    obtain ⟨hnil, -⟩ | ⟨-, ⟨-, heq⟩ | ⟨index, hindex, heq⟩⟩ :=
      flushLocked_cases cfg builder built now { s with buffer := [d] }
    · exact absurd hnil (List.cons_ne_nil _ _)
    · rw [heq] at hflushed
      exact absurd hflushed (List.cons_ne_nil _ _)
    · exact ⟨index, hadded ▸ returns index hindex, heq⟩
  · exact absurd hflushed (List.cons_ne_nil _ _)

theorem chosen_ne_nil (hpolicy : cfg.mergePolicy = some policy) (hfactor : 2 ≤ policy.mergeFactor)
    (hmax : 1 ≤ policy.maxSegments) (hmerging : OneMerge s) (hplanned : Planned cfg s) {job : Job Ix}
    (hjob : job ∈ pending s) : job.chosen ≠ [] := by
  have htwo := (shrinking_of_planned hpolicy hfactor hmax hmerging hplanned).two job hjob
  exact List.ne_nil_of_length_pos (by omega)

theorem chaining_of_paced {initial : List (Segment Ix)} {files : Path → Option Str}
    (hpolicy : cfg.mergePolicy = some policy) (h : Chaining policy s)
    (hreachable : (nrtIndex cfg builder initial files).Reachable s) {a : Action Ix} (hstep : Step cfg builder s a s')
    (hpaced : Paced ⟨s, a, s'⟩) : Chaining policy s' := by
  have hsame := hstep
  cases hstep with
  | @add d clock built now returns =>
    obtain ⟨-, hrested, hbuffer, hflushed⟩ := hpaced
    obtain ⟨index, -, heq⟩ := add_eq hbuffer returns hflushed
    refine chaining_of_flushed hpolicy ⟨s, .add d, hreachable, hsame, ⟨fun hsegments => ?_, trivial⟩, ?_, fun job => ?_⟩
    · have hlength := congrArg List.length hsegments
      rw [heq, schedule_segments] at hlength
      simp [published] at hlength
    · rw [heq, schedule_closed]
      exact h.opened
    · rw [heq, schedule_worker]
      exact h.running job
  | startMerge | buildMerge | swap | removeFiles | cleaned =>
    refine h.step hpolicy (Or.inr ?_) hsame
    trivial
  | _ => exact absurd hpaced id

namespace Steady

/-- The worker goes on with the same segments and files. -/
theorem congr (h : Steady policy s) (hchaining : Chaining policy s') (hbuffer : s'.buffer = s.buffer)
    (hknown : known s' = known s) (hfiles : s'.files = s.files) (hworker : produced s'.worker = []) :
    Steady policy s' where
  chaining := hchaining
  buffer := hbuffer.trans h.buffer
  sources := by
    rw [hknown, hfiles]
    exact h.sources
  built job merged hbuilt := by
    rw [hbuilt] at hworker
    cases hworker

/-- A new segment, stored under the next id. -/
theorem publish (h : Steady policy s) (hstorage : Storage.Inv cfg s) (hbuilds : Builds builder) {d : Text × Text}
    (hindexable : Indexable d) (hrested : Rested s) {index : Ix} {now : ℚ} (hreturns : builder.returns (flushTsv [d]) index)
    (heq : s' = (maybeScheduleMergeLocked cfg (published cfg builder index now { s with buffer := [d] })).1)
    (hchaining : Chaining policy s') : Steady policy s' := by
  have hworker : s'.worker = .idle := by
    rw [heq, schedule_worker]
    exact hrested.1
  have hknown : known s' = s.segments ++ [newSegment cfg builder index { s with buffer := [d] }] := by
    rw [known_of_worker hworker, heq, schedule_segments]
    rfl
  have hindexables : ∀ e ∈ [d], Indexable e := fun e he => by
    rw [List.mem_singleton.mp he]
    exact hindexable
  refine ⟨hchaining, by rw [heq, schedule_buffer]; rfl, fun seg hseg => ?_, fun job merged hbuilt => ?_⟩
  · rw [hknown] at hseg
    rw [heq, schedule_files]
    show ∃ docs, Sourced (Function.update s.files (tsvPath cfg s.nextSegmentId) (some (flushTsv [d]))) seg docs
    rcases List.mem_append.mp hseg with hseg | hseg
    · have hapart := hstorage.ahead seg (Storage.Inv.mem_stored (List.mem_append_right _ hseg)) _ le_rfl
      obtain ⟨docs, hdocs⟩ := h.sources seg (List.mem_append_right _ hseg)
      exact ⟨docs, hdocs.congr (Function.update_of_ne ((Storage.apart_iff _ _).mp hapart).1 _ _)⟩
    · rw [List.mem_singleton.mp hseg]
      refine ⟨[d], Function.update_self _ _ _, hindexables, List.cons_ne_nil _ _, ?_⟩
      show builder.docCount index = 1
      rw [hbuilds.counts _ _ hreturns, length_documents_flushTsv hindexables]
      rfl
  · rw [hworker] at hbuilt
    cases hbuilt

/-- The merged segment holds what the chosen ones held. -/
theorem build (h : Steady policy s) (hstorage : Storage.Inv cfg s) (hbuilds : Builds builder) {job : Job Ix} {tsv : Str}
    {index : Ix} (hworker : s.worker = .merging job) (hchosen : job.chosen ≠ []) (hread : mergedTsv s job = some tsv)
    (hreturns : builder.returns tsv index) (hchaining : Chaining policy (buildMerged cfg builder job tsv index s)) :
    Steady policy (buildMerged cfg builder job tsv index s) := by
  have hjob : job ∈ pending s := by simp [pending, hworker, unfinished]
  have hknown : known s = s.segments := known_of_worker hworker
  have hlive := (hstorage.merging.chosen job hjob).subset
  obtain ⟨docs, hdocs, hindexable, hnonempty, hlength⟩ :=
    exists_read hchosen fun seg hseg => h.sources seg (hknown ▸ hlive hseg)
  obtain rfl : flushTsv docs = tsv := Option.some.inj (hdocs.symm.trans hread)
  have hcount : builder.docCount index = docs.length := by
    rw [hbuilds.counts _ _ hreturns, length_documents_flushTsv hindexable]
  refine ⟨hchaining, h.buffer, fun seg hseg => ?_, fun job' merged hbuilt => ?_⟩
  · show ∃ docs', Sourced (Function.update s.files (tsvPath cfg job.mergeId) (some (flushTsv docs))) seg docs'
    rcases List.mem_cons.mp hseg with rfl | hseg
    · exact ⟨docs, Function.update_self _ _ _, hindexable, hnonempty, hcount⟩
    · have hapart := (hstorage.jobs job hjob).2 seg (List.mem_append_right _ hseg)
      obtain ⟨docs', hdocs'⟩ := h.sources seg (hknown ▸ hseg)
      exact ⟨docs', hdocs'.congr (Function.update_of_ne ((Storage.apart_iff _ _).mp hapart).1 _ _)⟩
  · cases hbuilt
    exact hcount.trans hlength

/-- The live segments after a swap were known before. -/
theorem swap (h : Steady policy s) {job : Job Ix} {merged : Segment Ix} (hworker : s.worker = .built job merged)
    (hchaining : Chaining policy (swapMerged cfg job merged s))
    (hswapped : (swapMerged cfg job merged s).worker = .cleaning job.chosen) :
    Steady policy (swapMerged cfg job merged s) := by
  have hframe : (swapMerged cfg job merged s).buffer = s.buffer ∧ (swapMerged cfg job merged s).files = s.files := by
    rw [swapMerged_eq]
    split
    · exact ⟨schedule_buffer _ _, schedule_files _ _⟩
    · exact ⟨schedule_buffer _ _, schedule_files _ _⟩
  refine ⟨hchaining, hframe.1.trans h.buffer, fun seg hseg => ?_, fun job' merged' hbuilt => ?_⟩
  · have hlive : seg ∈ kept job s.segments ++ [merged] := by
      rw [known_of_worker hswapped, (swapMerged_schedule cfg job merged s).1, schedule_segments] at hseg
      exact hseg
    rw [hframe.2]
    refine h.sources seg ?_
    rw [known_of_worker hworker]
    rcases List.mem_append.mp hlive with hlive | hlive
    · exact List.mem_cons_of_mem _ (List.mem_of_mem_filter hlive)
    · exact List.mem_cons.mpr (Or.inl (List.mem_singleton.mp hlive))
  · rw [hswapped] at hbuilt
    cases hbuilt

theorem step {initial : List (Segment Ix)} {files : Path → Option Str} (hpolicy : cfg.mergePolicy = some policy)
    (hfactor : 2 ≤ policy.mergeFactor) (hmax : 1 ≤ policy.maxSegments) (hbuilds : Builds builder)
    (h : Steady policy s) (hreachable : (nrtIndex cfg builder initial files).Reachable s)
    (hstorage : Storage.Inv cfg s) {a : Action Ix} (hstep : Step cfg builder s a s') (hpaced : Paced ⟨s, a, s'⟩) :
    Steady policy s' := by
  have hchaining := chaining_of_paced hpolicy h.chaining hreachable hstep hpaced
  cases hstep with
  | @add d clock built now returns =>
    obtain ⟨hindexable, hrested, hbuffer, hflushed⟩ := hpaced
    obtain ⟨index, hreturns, heq⟩ := add_eq hbuffer returns hflushed
    exact h.publish hstorage hbuilds hindexable hrested hreturns heq hchaining
  | startMerge worker jobs => exact h.congr hchaining rfl (known_of_worker worker).symm rfl rfl
  | @buildMerge job tsv index worker read returns =>
    have hjob : job ∈ pending s := by simp [pending, worker, unfinished]
    have hchosen := chosen_ne_nil hpolicy hfactor hmax hstorage.merging (planned_of_reachable hreachable) hjob
    exact h.build hstorage hbuilds worker hchosen read returns hchaining
  | @swap job merged worker =>
    exact h.swap worker hchaining (swapMerged_worker fun hrejects =>
      Bool.false_ne_true (h.chaining.opened.symm.trans hrejects.1))
  | @removeFiles seg replaced worker =>
    have hknown : known s = s.segments := known_of_worker worker
    refine ⟨hchaining, h.buffer, fun live hlive => ?_, fun job merged hbuilt => by cases hbuilt⟩
    obtain ⟨docs, hdocs⟩ := h.sources live (hknown ▸ hlive)
    exact ⟨docs, hdocs.congr (removeFiles_live hstorage worker hlive)⟩
  | cleaned worker => exact h.congr hchaining rfl (known_of_worker worker).symm rfl rfl
  | _ => exact absurd hpaced id

end Steady

/-- A group of as many documents as the segment counts. -/
def Counts (seg : Segment Ix) (group : List Nat) : Prop := seg.docCount = group.length

/-- The segments are the groups of a store, one more than the budget at most; the
segment about to be swapped in is paid for. -/
def Tallied (policy : TieredMergePolicy) (trace : List (Recorded (NrtIndex Ix) (Action Ix))) (s : NrtIndex Ix) : Prop :=
  ∃ cost groups, Grows (policy.maxSegments.toNat + 1) (flushes trace) cost groups ∧
    List.Forall₂ Counts s.segments groups ∧ rebuilt trace = cost + ((produced s.worker).map (·.docCount)).sum

theorem sum_counts {segments : List (Segment Ix)} {groups : List (List Nat)} (h : List.Forall₂ Counts segments groups) :
    (segments.map (·.docCount)).sum = groups.flatten.length := by
  induction h with
  | nil => rfl
  | @cons seg group segments groups hcount _ ih =>
    rw [List.map_cons, List.sum_cons, List.flatten_cons, List.length_append, ih, hcount]

namespace Tallied

variable {trace : List (Recorded (NrtIndex Ix) (Action Ix))} (h : Tallied policy trace s)

include h

theorem publish (hsteady : Steady policy s) (hbuilds : Builds builder) {d : Text × Text} (hindexable : Indexable d)
    (hrested : Rested s) {index : Ix} {now : ℚ} (hreturns : builder.returns (flushTsv [d]) index)
    (heq : s' = (maybeScheduleMergeLocked cfg (published cfg builder index now { s with buffer := [d] })).1) :
    Tallied policy (trace ++ [⟨s, .add d, s'⟩]) s' := by
  obtain ⟨cost, groups, hgrows, hgroups, hcost⟩ := h
  have hroom : groups.length < policy.maxSegments.toNat + 1 := by
    have hwithin := hsteady.chaining.within (hsteady.chaining.flag_of_rested hrested)
    have hlength := hgroups.length_eq
    omega
  have hone : builder.docCount index = 1 := by
    rw [hbuilds.counts _ _ hreturns, length_documents_flushTsv fun e he => by
      rw [List.mem_singleton.mp he]
      exact hindexable]
    rfl
  rw [Tallied, flushes_concat, rebuilt_concat, heq, schedule_segments, schedule_worker]
  exact ⟨cost, groups ++ [[0]], hgrows.add hroom, List.rel_append hgroups (.cons hone .nil), hcost⟩

/-- The swap pays for the documents of the segments it replaces. -/
theorem swap (hsteady : Steady policy s) (hstorage : Storage.Inv cfg s) {job : Job Ix} {merged : Segment Ix}
    (hworker : s.worker = .built job merged) (hchosen : job.chosen ≠ [])
    (hswapped : (swapMerged cfg job merged s).worker = .cleaning job.chosen) :
    Tallied policy (trace ++ [⟨s, .swap job, swapMerged cfg job merged s⟩]) (swapMerged cfg job merged s) := by
  obtain ⟨cost, groups, hgrows, hgroups, hcost⟩ := h
  have hjob : job ∈ pending s := by simp [pending, hworker, unfinished]
  have hidents := hstorage.distinct.idents
  rw [known_of_worker hworker, List.map_append, List.nodup_append] at hidents
  have hperm := perm_chosen hidents.2.1 (hstorage.merging.chosen job hjob)
  obtain ⟨taken, rest, hsplit, htaken, hrest⟩ := forall₂_split hperm hgroups
  have hmerged : merged.docCount = taken.flatten.length :=
    (hsteady.built job merged hworker).trans (sum_counts htaken)
  have htakenNe : taken ≠ [] := by
    intro hnil
    rw [hnil, List.forall₂_nil_right_iff] at htaken
    exact hchosen htaken
  rw [Tallied, flushes_concat, rebuilt_concat, hswapped, (swapMerged_schedule cfg job merged s).1, schedule_segments]
  refine ⟨_, _, hgrows.rewrite hsplit htakenNe, List.rel_append hrest (.cons ?_ .nil), ?_⟩
  · show merged.docCount = (taken.flatten.map (· + 1)).length
    rw [List.length_map, hmerged]
  · rw [hworker] at hcost
    show rebuilt trace = cost + taken.flatten.length
    rw [hcost, ← hmerged]
    rfl

theorem step (hbuilds : Builds builder) (hsteady : Steady policy s) (hstorage : Storage.Inv cfg s)
    (hchosen : ∀ job ∈ pending s, job.chosen ≠ []) {a : Action Ix} (hstep : Step cfg builder s a s')
    (hpaced : Paced ⟨s, a, s'⟩) : Tallied policy (trace ++ [⟨s, a, s'⟩]) s' := by
  cases hstep with
  | @add d clock built now returns =>
    obtain ⟨hindexable, hrested, hbuffer, hflushed⟩ := hpaced
    obtain ⟨index, hreturns, heq⟩ := add_eq hbuffer returns hflushed
    exact h.publish hsteady hbuilds hindexable hrested hreturns heq
  | @swap job merged worker =>
    have hjob : job ∈ pending s := by simp [pending, worker, unfinished]
    exact h.swap hsteady hstorage worker (hchosen job hjob) (swapMerged_worker fun hrejects =>
      Bool.false_ne_true (hsteady.chaining.opened.symm.trans hrejects.1))
  | @buildMerge job tsv index worker read returns =>
    obtain ⟨cost, groups, hgrows, hgroups, hcost⟩ := h
    rw [worker] at hcost
    rw [Tallied, flushes_concat, rebuilt_concat]
    exact ⟨cost, groups, hgrows, hgroups, congrArg (· + builder.docCount index) hcost⟩
  | startMerge worker jobs | removeFiles worker | cleaned worker =>
    obtain ⟨cost, groups, hgrows, hgroups, hcost⟩ := h
    rw [worker] at hcost
    rw [Tallied, flushes_concat, rebuilt_concat]
    exact ⟨cost, groups, hgrows, hgroups, hcost⟩
  | _ => exact absurd hpaced id

end Tallied

section Runs

variable {files : Path → Option Str} {trace : List (Recorded (NrtIndex Ix) (Action Ix))}
  (hpolicy : cfg.mergePolicy = some policy) (hfactor : 2 ≤ policy.mergeFactor) (hmax : 1 ≤ policy.maxSegments)
  (hbuilds : Builds builder)

/-- An index without initial segments keeps all files apart. -/
theorem storage_of_run (hrun : (nrtIndex cfg builder [] files).recorded.Run trace s) : Storage.Inv cfg s := by
  refine Storage.inv_of_reachable (fun a ha => absurd ha List.not_mem_nil) ⟨List.Pairwise.nil, fun a ha => ?_⟩
    hrun.reachable.of_recorded
  exact absurd ha List.not_mem_nil

include hpolicy hfactor hmax hbuilds

theorem paced_invariant (hrun : (nrtIndex cfg builder [] files).recorded.Run trace s) (hpaced : ∀ x ∈ trace, Paced x) :
    Steady policy s ∧ Tallied policy trace s := by
  induction hrun with
  | init hinit =>
    obtain ⟨ident, now, -, rfl⟩ := hinit
    refine ⟨⟨⟨rfl, OneJob.of_pending_nil rfl rfl, (fun job hne => by cases hne), fun _ => ?_⟩, rfl, ?_, ?_⟩, ?_⟩
    · show (0 : Int) ≤ policy.maxSegments
      omega
    · exact fun seg hseg => absurd hseg List.not_mem_nil
    · exact fun job merged hbuilt => by cases hbuilt
    · exact ⟨0, [], .empty, .nil, rfl⟩
  | @step s s' x trace hs hstep ih =>
    obtain ⟨hsteady, htallied⟩ := ih fun y hy => hpaced y (List.mem_append_left _ hy)
    have hx := hpaced x (List.mem_append_right _ (List.mem_singleton_self x))
    obtain ⟨rfl, rfl, hstep⟩ := hstep
    have hstorage := storage_of_run hs
    have hreachable := hs.reachable.of_recorded
    have hchosen : ∀ job ∈ pending x.before, job.chosen ≠ [] := fun job =>
      chosen_ne_nil hpolicy hfactor hmax hstorage.merging (planned_of_reachable hreachable)
    exact ⟨hsteady.step hpolicy hfactor hmax hbuilds hreachable hstorage hstep hx,
      htallied.step hbuilds hsteady hstorage hchosen hstep hx⟩

/-- After enough flushes the documents were built more than `c` times on average. -/
theorem mul_lt_rebuilt (hrun : (nrtIndex cfg builder [] files).recorded.Run trace s) (hpaced : ∀ x ∈ trace, Paced x)
    {c : Nat} (hmany : (c + 1) * (policy.maxSegments.toNat + 1) ^ (c + 1) < flushes trace) :
    c * flushes trace < rebuilt trace := by
  obtain ⟨cost, groups, hgrows, -, hcost⟩ := (paced_invariant hpolicy hfactor hmax hbuilds hrun hpaced).2
  exact (hgrows.mul_lt_cost hmany).trans_le (hcost ▸ Nat.le_add_right _ _)

theorem buildSucceeds_of_run (hrun : (nrtIndex cfg builder [] files).recorded.Run trace s)
    (hpaced : ∀ x ∈ trace, Paced x) : BuildSucceeds builder s := by
  intro job hworker
  have hsteady := (paced_invariant hpolicy hfactor hmax hbuilds hrun hpaced).1
  have hmerging := (storage_of_run hrun).merging
  have hjob : job ∈ pending s := by simp [pending, hworker, unfinished]
  have hchosen := chosen_ne_nil hpolicy hfactor hmax hmerging (planned_of_reachable hrun.reachable.of_recorded) hjob
  obtain ⟨docs, hread, hindexable, hnonempty, -⟩ := exists_read hchosen fun seg hseg =>
    hsteady.sources seg (List.mem_append_right _ ((hmerging.chosen job hjob).subset hseg))
  obtain ⟨index, hreturns⟩ := hbuilds.succeeds docs hnonempty hindexable
  exact ⟨_, index, hread, hreturns⟩

/-- The merges of a paced run come to an end. -/
theorem exists_rested (hrun : (nrtIndex cfg builder [] files).recorded.Run trace s) (hpaced : ∀ x ∈ trace, Paced x) :
    ∃ trace' s', (nrtIndex cfg builder [] files).recorded.Run trace' s' ∧ (∀ x ∈ trace', Paced x) ∧ Rested s' ∧
      flushes trace' = flushes trace := by
  have hreachable := hrun.reachable.of_recorded
  have hends : (nrtIndex cfg builder [] files).Terminates Quiet Merges s :=
    terminates hpolicy hfactor hmax (oneMerge_of_reachable hreachable) (planned_of_reachable hreachable)
  clear hreachable
  induction hends generalizing trace with
  | intro s _ ih =>
    by_cases hstop : ∀ s', ¬ (nrtIndex cfg builder [] files).Via Merges s s'
    · have hsteady := (paced_invariant hpolicy hfactor hmax hbuilds hrun hpaced).1
      have hbuild := buildSucceeds_of_run hpolicy hfactor hmax hbuilds hrun hpaced
      exact ⟨trace, s, hrun, hpaced, hsteady.chaining.rested hbuild hstop, rfl⟩
    · obtain ⟨s', hvia⟩ := not_forall_not.mp hstop
      obtain ⟨a, ha, hstep⟩ := id hvia
      have hquiet : Paced ⟨s, a, s'⟩ ∧ added [a] = [] := by
        cases a with
        | startMerge | buildMerge | swap | removeFiles | cleaned => exact ⟨trivial, rfl⟩
        | _ => exact absurd ha id
      obtain ⟨trace', t, hrun', hpaced', hrested, hflushes⟩ := ih s' ⟨s, .refl, hvia⟩ (hrun.extend a hstep) fun x hx => by
        rcases List.mem_append.mp hx with hx | hx
        · exact hpaced x hx
        · rw [List.mem_singleton.mp hx]
          exact hquiet.1
      refine ⟨trace', t, hrun', hpaced', hrested, ?_⟩
      rw [hflushes, flushes_concat, hquiet.2]
      rfl

/-- Any number of documents can be flushed at the pace of the merges. -/
theorem exists_paced_run (files : Path → Option Str) (n : Nat) :
    ∃ trace s, (nrtIndex cfg builder [] files).recorded.Run trace s ∧ (∀ x ∈ trace, Paced x) ∧ Rested s ∧
      flushes trace = n := by
  induction n with
  | zero =>
    obtain ⟨s, hinit, -, -, -⟩ := Storage.exists_init cfg builder [] files
    refine ⟨[], s, .init hinit, fun x hx => absurd hx List.not_mem_nil, ?_, rfl⟩
    obtain ⟨ident, now, -, rfl⟩ := hinit
    exact ⟨rfl, rfl⟩
  | succ n ih =>
    obtain ⟨trace, s, hrun, hpaced, hrested, hflushes⟩ := ih
    have hbuffer := (paced_invariant hpolicy hfactor hmax hbuilds hrun hpaced).1.buffer
    let d : Text × Text := (['d'], ['x'])
    have hindexable : Indexable d := by
      refine ⟨⟨?_, by decide⟩, by decide +kernel⟩
      constructor <;> decide
    obtain ⟨index, hreturns⟩ := hbuilds.succeeds [d] (List.cons_ne_nil _ _) fun e he => by
      rw [List.mem_singleton.mp he]
      exact hindexable
    -- The flush interval has passed.
    let clock := s.lastFlushTime + cfg.flushIntervalS
    have hflush : shouldFlush cfg clock { s with buffer := s.buffer ++ [d] } = true := by
      simp [shouldFlush, clock]
    have hstep : Step cfg builder s (.add d) (WriteSide.add cfg builder d clock (some index) clock s) :=
      .add d clock (some index) clock fun x hx => by
        cases hx
        rwa [hbuffer]
    have hafter : (WriteSide.add cfg builder d clock (some index) clock s).buffer = [] := by
      rw [WriteSide.add, if_pos hflush, flushLocked, if_neg (by simp)]
      exact schedule_buffer _ _
    obtain ⟨trace', s', hrun', hpaced', hrested', hflushes'⟩ :=
      exists_rested hpolicy hfactor hmax hbuilds (hrun.extend _ hstep) fun x hx => by
        rcases List.mem_append.mp hx with hx | hx
        · exact hpaced x hx
        · rw [List.mem_singleton.mp hx]
          exact ⟨hindexable, hrested, hbuffer, hafter⟩
    refine ⟨trace', s', hrun', hpaced', hrested', ?_⟩
    rw [hflushes', flushes_concat, hflushes]
    rfl

theorem exists_costly_run (files : Path → Option Str) (c : Nat) :
    ∃ trace s, (nrtIndex cfg builder [] files).recorded.Run trace s ∧ (∀ x ∈ trace, Paced x) ∧ Rested s ∧
      flushes trace = (c + 1) * (policy.maxSegments.toNat + 1) ^ (c + 1) + 1 ∧ c * flushes trace < rebuilt trace := by
  obtain ⟨trace, s, hrun, hpaced, hrested, hflushes⟩ := exists_paced_run hpolicy hfactor hmax hbuilds files
    ((c + 1) * (policy.maxSegments.toNat + 1) ^ (c + 1) + 1)
  refine ⟨trace, s, hrun, hpaced, hrested, hflushes, mul_lt_rebuilt hpolicy hfactor hmax hbuilds hrun hpaced ?_⟩
  rw [hflushes]
  exact Nat.lt_succ_self _

end Runs

/-- Under no policy is the number of rebuilt documents bounded by a multiple of
the flushed ones. -/
theorem merge_cost_unbounded (cfg : Config) (policy : TieredMergePolicy) (hpolicy : cfg.mergePolicy = some policy)
    (hfactor : 2 ≤ policy.mergeFactor) (hmax : 1 ≤ policy.maxSegments) (builder : BuildSegment Ix)
    (hbuilds : Builds builder) (files : Path → Option Str) :
    ¬ ∃ c, ∀ trace s, (nrtIndex cfg builder [] files).recorded.Run trace s → (∀ x ∈ trace, Paced x) → Rested s →
      rebuilt trace ≤ c * flushes trace := by
  intro hbounded
  obtain ⟨c, hbound⟩ := hbounded
  obtain ⟨trace, s, hrun, hpaced, hrested, -, hcostly⟩ := exists_costly_run hpolicy hfactor hmax hbuilds files c
  exact absurd (hbound trace s hrun hpaced hrested) (Nat.not_le.mpr hcostly)

theorem builds_listBuilder : Builds listBuilder where
  counts _ _ hreturns := congrArg List.length hreturns
  succeeds docs _ _ := ⟨documents (flushTsv docs), rfl⟩

theorem merge_cost_unbounded_small :
    ¬ ∃ c, ∀ trace s, (nrtIndex smallConfig listBuilder [] fun _ => none).recorded.Run trace s →
      (∀ x ∈ trace, Paced x) → Rested s → rebuilt trace ≤ c * flushes trace :=
  merge_cost_unbounded smallConfig { mergeFactor := 2, maxSegments := 2 } rfl (by decide) (by decide) listBuilder
    builds_listBuilder _

/-- The default policy. For each constant so many flushes are enough. -/
theorem default_policy_costly :
    ¬ ∃ c, ∀ trace s, (nrtIndex { smallConfig with mergePolicy := some {} } listBuilder [] fun _ => none).recorded.Run
      trace s → (∀ x ∈ trace, Paced x) → Rested s → flushes trace = (c + 1) * 9 ^ (c + 1) + 1 →
        rebuilt trace ≤ c * flushes trace := by
  intro hbounded
  obtain ⟨c, hbound⟩ := hbounded
  have hdefault : ({ smallConfig with mergePolicy := some {} } : Config).mergePolicy = some {} := rfl
  obtain ⟨trace, s, hrun, hpaced, hrested, hflushes, hcostly⟩ :=
    exists_costly_run hdefault (by decide) (by decide) builds_listBuilder (fun _ => none) c
  exact absurd (hbound trace s hrun hpaced hrested hflushes) (Nat.not_le.mpr hcostly)

end CascadeSearch.Nrt.MergeCost
