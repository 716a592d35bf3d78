import CascadeSearch.Nrt.Merging

/-!
# Where segments are stored (`index.py`)

Flushes and merges take their ids from one counter, which starts at the number
of initial segments, and write below `base_dir/segments` under these ids. What
the disk holds for a live segment stays as it is exactly if the initial segments
stay clear of each other and of every id still to come.
-/
namespace CascadeSearch.Nrt.Storage

open Lib.Decimal Lib.Transition
open Index.Format Index.Porter Index.Corpus
open FanOut Tsv WriteSide Conservation Disk Merging

variable {Ix : Type}

/-- A source file and an index directory, as resolved paths. -/
structure Place where
  sourceTsv : Path
  indexDir : Path

def Place.Holds (place : Place) (path : Path) : Prop := path = place.sourceTsv ∨ place.indexDir <+: path

/-- No path belongs to both. -/
def Apart (a b : Place) : Prop := ∀ path, ¬ (a.Holds path ∧ b.Holds path)

def placeOf (seg : Segment Ix) : Place := ⟨seg.sourceTsv, seg.indexDir⟩

/-- Where the segment of this id goes. -/
def placeOfId (cfg : Config) (segId : Nat) : Place := ⟨tsvPath cfg segId, indexDirPath cfg segId⟩

def PairwiseApart (segments : List (Segment Ix)) : Prop := segments.Pairwise fun a b => Apart (placeOf a) (placeOf b)

theorem Apart.symm {a b : Place} (h : Apart a b) : Apart b a := fun path hpath => h path hpath.symm

theorem PairwiseApart.perm {segments segments' : List (Segment Ix)} (h : PairwiseApart segments)
    (hperm : segments.Perm segments') : PairwiseApart segments' :=
  (hperm.pairwise_iff Apart.symm).mp h

theorem PairwiseApart.subperm {segments segments' : List (Segment Ix)} (h : PairwiseApart segments)
    (hsub : segments'.Subperm segments) : PairwiseApart segments' := by
  obtain ⟨front, hfront, hsublist⟩ := hsub
  exact PairwiseApart.perm (List.Pairwise.sublist hsublist h) hfront

theorem apart_iff (a b : Place) : Apart a b ↔ a.sourceTsv ≠ b.sourceTsv ∧ ¬ a.indexDir <+: b.sourceTsv ∧
    ¬ b.indexDir <+: a.sourceTsv ∧ ¬ a.indexDir <+: b.indexDir ∧ ¬ b.indexDir <+: a.indexDir := by
  constructor
  · intro h
    refine ⟨fun heq => ?_, fun hdir => ?_, fun hdir => ?_, fun hdir => ?_, fun hdir => ?_⟩
    · exact h _ ⟨Or.inl rfl, Or.inl heq⟩
    · exact h _ ⟨Or.inr hdir, Or.inl rfl⟩
    · exact h _ ⟨Or.inl rfl, Or.inr hdir⟩
    · exact h _ ⟨Or.inr hdir, Or.inr List.prefix_rfl⟩
    · exact h _ ⟨Or.inr List.prefix_rfl, Or.inr hdir⟩
  · intro h path hpath
    obtain ⟨hne, hab, hba, hdirs, hdirs'⟩ := h
    obtain ⟨ha, hb⟩ := hpath
    rcases ha with rfl | ha
    · exact hb.elim hne hba
    rcases hb with rfl | hb
    · exact hab ha
    · exact (List.prefix_or_prefix_of_prefix ha hb).elim hdirs hdirs'

instance (a b : Place) : Decidable (Apart a b) := decidable_of_iff _ (apart_iff a b).symm

variable {cfg : Config}

theorem dirName_ne_tsvName (i j : Nat) : lit "seg_" ++ decimal i ≠ lit "seg_" ++ decimal j ++ lit ".tsv" := by
  intro h
  rw [List.append_assoc] at h
  have hdot : (0x2E : Lib.Memory.Byte) ∈ decimal i := by
    rw [List.append_cancel_left h]
    exact List.mem_append_right _ (by decide)
  exact absurd (decimal_digits i _ hdot).1 (by decide)

/-- Two entries of a directory on one path are one entry. -/
theorem entry_unique {dir path : Path} {x y : Str} (hx : dir ++ [x] <+: path) (hy : dir ++ [y] <+: path) : x = y := by
  have hlength : (dir ++ [x]).length = (dir ++ [y]).length := by simp
  have heq := (List.prefix_of_prefix_length_le hx hy hlength.le).eq_of_length hlength
  exact List.head_eq_of_cons_eq (List.append_cancel_left heq)

theorem apart_placeOfId {i j : Nat} (h : i ≠ j) : Apart (placeOfId cfg i) (placeOfId cfg j) := by
  intro path hpath
  obtain ⟨hi, hj⟩ := hpath
  rcases hi with rfl | hi <;> rcases hj with hj | hj
  · exact h (tsvPath_injective hj)
  · exact dirName_ne_tsvName j i (entry_unique hj List.prefix_rfl)
  · rw [hj] at hi
    exact dirName_ne_tsvName i j (entry_unique hi List.prefix_rfl)
  · exact h (decimal_injective (List.append_cancel_left (entry_unique hi hj)))

/-- The initial segments stay clear of each other and of all ids to come. -/
structure Clear (cfg : Config) (initial : List (Segment Ix)) : Prop where
  pairwise : PairwiseApart initial
  ahead : ∀ seg ∈ initial, ∀ segId, initial.length ≤ segId → Apart (placeOf seg) (placeOfId cfg segId)

/-- Segments kept elsewhere have nothing to fear from the ids to come. -/
theorem apart_of_outside {seg : Segment Ix} (htsv : ¬ segmentsDir cfg <+: seg.sourceTsv)
    (hinside : ¬ segmentsDir cfg <+: seg.indexDir) (habove : ¬ seg.indexDir <+: segmentsDir cfg) (segId : Nat) :
    Apart (placeOf seg) (placeOfId cfg segId) := by
  have hbelow : ∀ name : Str, ¬ seg.indexDir <+: segmentsDir cfg ++ [name] := fun name hdir =>
    (List.prefix_or_prefix_of_prefix hdir (List.prefix_append _ _)).elim habove hinside
  refine (apart_iff _ _).mpr ⟨fun heq => ?_, hbelow _, fun hdir => ?_, hbelow _, fun hdir => ?_⟩
  · have hsource : seg.sourceTsv = tsvPath cfg segId := heq
    exact htsv (hsource ▸ List.prefix_append _ _)
  · exact htsv ((List.prefix_append _ _).trans hdir)
  · exact hinside ((List.prefix_append _ _).trans hdir)

/-- The step leaves all that the disk holds for the live segments as it is. -/
structure Safe (x : Recorded (OnDisk Ix) (Event Ix)) : Prop where
  keeps : ∀ live ∈ x.before.index.segments, ∀ path, (placeOf live).Holds path →
    x.after.index.files path = x.before.index.files path ∧ x.after.indexFiles path = x.before.indexFiles path
  shares : PairwiseApart x.after.index.segments

def stored (s : NrtIndex Ix) : List (Segment Ix) := removing s.worker ++ known s

structure Inv (cfg : Config) (s : NrtIndex Ix) : Prop where
  merging : OneMerge s
  distinct : DistinctIds s
  pairwise : PairwiseApart (stored s)
  ahead : ∀ seg ∈ stored s, ∀ segId, s.nextSegmentId ≤ segId → Apart (placeOf seg) (placeOfId cfg segId)
  jobs : ∀ job ∈ pending s, job.mergeId < s.nextSegmentId ∧
    ∀ seg ∈ removing s.worker ++ s.segments, Apart (placeOf seg) (placeOfId cfg job.mergeId)

namespace Inv

variable {builder : BuildSegment Ix} {s s' : NrtIndex Ix}

/-- Nothing new is stored and no job is new. -/
theorem shrink (h : Inv cfg s) (hmerging : OneMerge s') (hdistinct : DistinctIds s')
    (hstored : (stored s').Subperm (stored s))
    (hnext : s.nextSegmentId ≤ s'.nextSegmentId)
    (hjobs : ∀ job ∈ pending s', job ∈ pending s ∧
      ∀ seg ∈ removing s'.worker ++ s'.segments, seg ∈ removing s.worker ++ s.segments) : Inv cfg s' where
  merging := hmerging
  distinct := hdistinct
  pairwise := h.pairwise.subperm hstored
  ahead seg hseg segId hle := h.ahead seg (hstored.subset hseg) segId (hnext.trans hle)
  jobs job hjob := by
    obtain ⟨hold, hlive⟩ := hjobs job hjob
    obtain ⟨hlt, hapart⟩ := h.jobs job hold
    exact ⟨hlt.trans_le hnext, fun seg hseg => hapart seg (hlive seg hseg)⟩

/-- One more segment, stored under an id below the next one. -/
theorem grow (h : Inv cfg s) (hmerging : OneMerge s') (hdistinct : DistinctIds s') {seg : Segment Ix} {segId : Nat}
    (hplace : placeOf seg = placeOfId cfg segId) (hstored : (stored s').Perm (seg :: stored s))
    (hapart : ∀ old ∈ stored s, Apart (placeOf old) (placeOfId cfg segId)) (hlt : segId < s'.nextSegmentId)
    (hnext : s.nextSegmentId ≤ s'.nextSegmentId)
    (hjobs : ∀ job ∈ pending s', job.mergeId < s'.nextSegmentId ∧
      ∀ seg ∈ removing s'.worker ++ s'.segments, Apart (placeOf seg) (placeOfId cfg job.mergeId)) : Inv cfg s' where
  merging := hmerging
  distinct := hdistinct
  pairwise := by
    refine PairwiseApart.perm (List.pairwise_cons.mpr ⟨fun old hold => ?_, h.pairwise⟩) hstored.symm
    rw [hplace]
    exact (hapart old hold).symm
  ahead x hx later hle := by
    rcases List.mem_cons.mp (hstored.subset hx) with rfl | hx
    · rw [hplace]
      exact apart_placeOfId (hlt.trans_le hle).ne
    · exact h.ahead x hx later (hnext.trans hle)
  jobs := hjobs

theorem publish (h : Inv cfg s) {index : Ix} {now : ℚ} (hmerging : OneMerge (published cfg builder index now s))
    (hdistinct : DistinctIds (published cfg builder index now s)) : Inv cfg (published cfg builder index now s) := by
  have hplace : placeOf (newSegment cfg builder index s) = placeOfId cfg s.nextSegmentId := rfl
  have hstored : (stored (published cfg builder index now s)).Perm (newSegment cfg builder index s :: stored s) := by
    change (removing s.worker ++ (produced s.worker ++ (s.segments ++ [_]))).Perm
      (_ :: (removing s.worker ++ (produced s.worker ++ s.segments)))
    rw [← List.append_assoc, ← List.append_assoc, ← List.append_assoc]
    exact List.perm_append_comm
  refine h.grow hmerging hdistinct hplace hstored
    (fun old hold => h.ahead old hold _ le_rfl) (Nat.lt_succ_self _) (Nat.le_succ _) fun job hjob => ?_
  obtain ⟨hlt, hapart⟩ := h.jobs job hjob
  refine ⟨hlt.trans (Nat.lt_succ_self _), fun seg hseg => ?_⟩
  have hcases : seg ∈ removing s.worker ++ s.segments ∨ seg = newSegment cfg builder index s := by
    change seg ∈ removing s.worker ++ (s.segments ++ [_]) at hseg
    rw [← List.append_assoc, List.mem_append, List.mem_singleton] at hseg
    exact hseg
  rcases hcases with hseg | rfl
  · exact hapart seg hseg
  · rw [hplace]
    exact apart_placeOfId hlt.ne'

theorem mem_stored {seg : Segment Ix} (h : seg ∈ removing s.worker ++ s.segments) : seg ∈ stored s := by
  rcases List.mem_append.mp h with h | h
  · exact List.mem_append_left _ h
  · exact List.mem_append_right _ (List.mem_append_right _ h)

theorem schedule (h : Inv cfg s) {plan : List (Segment Ix)} (hdue : Due cfg s plan)
    (hdistinct : DistinctIds (scheduled plan s)) : Inv cfg (scheduled plan s) := by
  have hpending := pending_scheduled plan s
  rw [h.merging.pending_nil hdue.1, List.nil_append] at hpending
  refine ⟨h.merging.schedule hdue, hdistinct, h.pairwise, fun seg hseg segId hle =>
    h.ahead seg hseg segId ((Nat.le_succ _).trans hle), fun job hjob => ?_⟩
  rw [hpending, List.mem_singleton] at hjob
  rw [hjob]
  exact ⟨Nat.lt_succ_self _, fun seg hseg => h.ahead seg (mem_stored hseg) _ le_rfl⟩

theorem build (h : Inv cfg s) {job : Job Ix} {tsv : Str} {index : Ix} (hworker : s.worker = .merging job)
    (hmerging : OneMerge (buildMerged cfg builder job tsv index s))
    (hdistinct : DistinctIds (buildMerged cfg builder job tsv index s)) :
    Inv cfg (buildMerged cfg builder job tsv index s) := by
  have hpending : pending s = job :: s.queue := pending_of_worker hworker
  have hstored : stored s = s.segments := by rw [stored, known, hworker]; rfl
  have hlive : removing s.worker ++ s.segments = s.segments := by rw [hworker]; rfl
  obtain ⟨hlt, hapart⟩ := h.jobs job (hpending ▸ List.mem_cons_self)
  rw [hlive] at hapart
  let merged : Segment Ix :=
    ⟨s.nextIdent, index, tsvPath cfg job.mergeId, indexDirPath cfg job.mergeId, builder.docCount index⟩
  have hplace : placeOf merged = placeOfId cfg job.mergeId := rfl
  refine h.grow hmerging hdistinct hplace ?_ ?_ hlt le_rfl fun j hj => ?_
  · rw [hstored]
    exact List.Perm.refl _
  · rw [hstored]
    exact hapart
  · have hjobs := h.jobs j (by rw [hpending]; exact hj)
    rw [hlive] at hjobs
    exact hjobs

theorem swap (h : Inv cfg s) {job : Job Ix} {merged : Segment Ix} (hworker : s.worker = .built job merged)
    (hmerging : OneMerge (swapped job merged s)) (hdistinct : DistinctIds (swapped job merged s)) :
    Inv cfg (swapped job merged s) := by
  have hpending : pending s = job :: s.queue := pending_of_worker hworker
  have hknown : known s = merged :: s.segments := known_of_worker hworker
  have hstored : stored s = merged :: s.segments := by rw [stored, hworker, hknown]; rfl
  have hnone : pending (swapped job merged s) = [] := hmerging.pending_nil rfl
  have hidents := h.distinct.idents
  rw [hknown, List.map_cons, List.nodup_cons] at hidents
  have hperm := perm_chosen hidents.2 (h.merging.chosen job (hpending ▸ List.mem_cons_self))
  refine h.shrink hmerging hdistinct ?_ le_rfl ?_
  · rw [hstored]
    change (job.chosen ++ (kept job s.segments ++ [merged])).Subperm _
    rw [← List.append_assoc]
    exact (List.perm_append_comm.trans (hperm.symm.cons merged)).subperm
  · rw [hnone]
    exact fun j hj => absurd hj List.not_mem_nil

/-- The worker goes on with the same job, or with the next one. -/
theorem setWorker (h : Inv cfg s) {worker : Worker Ix} {queue : List (Job Ix)} {files : Path → Option Str}
    (hmerging : OneMerge { s with worker := worker, queue := queue, files := files })
    (hdistinct : DistinctIds { s with worker := worker, queue := queue, files := files })
    (hremoving : (removing worker).Sublist (removing s.worker)) (hproduced : produced worker = produced s.worker)
    (hpending : unfinished worker ++ queue = pending s) :
    Inv cfg { s with worker := worker, queue := queue, files := files } := by
  refine h.shrink hmerging hdistinct ?_ le_rfl fun job hjob => ⟨hpending ▸ hjob, fun seg hseg => ?_⟩
  · change (removing worker ++ (produced worker ++ s.segments)).Subperm _
    rw [hproduced]
    exact (hremoving.append_right _).subperm
  · exact (hremoving.append_right _).subset hseg

theorem effect (h : Inv cfg s) (heffect : Effect cfg builder s s') : Inv cfg s' := by
  have hmerging := h.merging.effect heffect
  have hdistinct := h.distinct.effect heffect
  cases heffect with
  | buffer d => exact ⟨hmerging, hdistinct, h.pairwise, h.ahead, h.jobs⟩
  | write hbuffer =>
    exact h.shrink hmerging hdistinct (List.Subperm.refl _) (Nat.le_succ _) fun job hjob => ⟨hjob, fun _ hseg => hseg⟩
  | publish now hbuffer returns => exact h.publish hmerging hdistinct
  | schedule hdue hopen => exact h.schedule hdue hdistinct
  | delete externalId => exact ⟨hmerging, hdistinct, h.pairwise, h.ahead, h.jobs⟩
  | start worker jobs =>
    exact h.setWorker hmerging hdistinct (by rw [worker]; rfl) (by rw [worker]; rfl) (by rw [pending, worker, jobs]; rfl)
  | build worker read returns => exact h.build worker hmerging hdistinct
  | writeMerged worker read => exact ⟨hmerging, hdistinct, h.pairwise, h.ahead, h.jobs⟩
  | fail worker =>
    exact h.setWorker hmerging hdistinct (by rw [worker]; rfl) (by rw [worker]; rfl) (pending_of_worker worker).symm
  | swap worker => exact h.swap worker hmerging hdistinct
  | reset worker =>
    have hnone := hmerging.pending_nil rfl
    refine h.shrink hmerging hdistinct ?_ le_rfl ?_
    · rw [stored, stored, known, known, worker]
      exact List.Subperm.refl _
    · rw [hnone]
      exact fun j hj => absurd hj List.not_mem_nil
  | remove worker =>
    exact h.setWorker hmerging hdistinct (by rw [worker]; exact List.sublist_cons_self _ _) (by rw [worker]; rfl)
      (pending_of_worker worker).symm
  | clean worker =>
    exact h.setWorker hmerging hdistinct (by rw [worker]; rfl) (by rw [worker]; rfl) (pending_of_worker worker).symm
  | close => exact ⟨hmerging, hdistinct, h.pairwise, h.ahead, h.jobs⟩

theorem turnedAway (h : Inv cfg s) (hturned : TurnedAway cfg s s') : Inv cfg s' := by
  have hmerging := h.merging.turnedAway hturned
  have hdistinct := h.distinct.turnedAway hturned
  cases hturned with
  | flush hdue hclosed =>
    exact h.shrink hmerging hdistinct (List.Subperm.refl _) (Nat.le_succ _) fun job hjob => ⟨hjob, fun _ hseg => hseg⟩
  | swap hdue hclosed worker =>
    have hnone : pending s = [] := h.merging.pending_nil hdue.1
    have hpending : pending { rejected s with worker := .idle } = pending s := (pending_of_worker worker).symm
    refine h.shrink hmerging hdistinct ?_ (Nat.le_succ _) ?_
    · rw [stored, stored, known, known, worker]
      exact (List.sublist_append_right _ _).subperm
    · rw [hpending, hnone]
      exact fun j hj => absurd hj List.not_mem_nil

theorem step (h : Inv cfg s) {a : Action Ix} (hstep : Step cfg builder s a s') : Inv cfg s' :=
  step_preserves (fun _ _ hs => hs.effect) (fun _ _ hs => hs.turnedAway) h hstep

end Inv

variable {builder : BuildSegment Ix} {initial : List (Segment Ix)} {files : Path → Option Str} {s s' : NrtIndex Ix}

theorem not_apart_self (a : Place) : ¬ Apart a a := fun h => h a.sourceTsv ⟨Or.inl rfl, Or.inl rfl⟩

/-- Objects stored apart are different objects. -/
theorem idents_nodup (hobjects : ∀ a ∈ initial, ∀ b ∈ initial, a.ident = b.ident → a = b)
    (h : PairwiseApart initial) : (initial.map (·.ident)).Nodup := by
  have hnodup : initial.Nodup := List.Pairwise.imp (fun {a b} hapart heq => by
    rw [heq] at hapart
    exact not_apart_self _ hapart) h
  exact (List.nodup_map_iff_inj_on hnodup).mpr hobjects

theorem inv_of_reachable (hobjects : ∀ a ∈ initial, ∀ b ∈ initial, a.ident = b.ident → a = b)
    (hclear : Clear cfg initial) (h : (nrtIndex cfg builder initial files).Reachable s) : Inv cfg s := by
  refine h.invariant (Inv cfg) ?_ fun _ _ _ hs hstep => hs.step hstep
  intro s hinit
  have hreachable : (nrtIndex cfg builder initial files).Reachable s := .init hinit
  have hdistinct := distinctIds_of_reachable (idents_nodup hobjects hclear.pairwise) hreachable
  obtain ⟨ident, now, hident, rfl⟩ := hinit
  exact ⟨oneMerge_of_reachable hreachable, hdistinct, hclear.pairwise, hclear.ahead, fun job hjob => absurd hjob List.not_mem_nil⟩

/-- A flush writes the TSV of the next id. -/
theorem flushLocked_files {built : Option Ix} {now : ℚ} {path : Path} (h : path ≠ tsvPath cfg s.nextSegmentId) :
    (flushLocked cfg builder built now s).files path = s.files path := by
  have hwrote : (wrote cfg s).files path = s.files path := Function.update_of_ne h _ _
  obtain ⟨-, heq⟩ | ⟨-, ⟨-, heq⟩ | ⟨index, -, heq⟩⟩ := flushLocked_cases cfg builder built now s
  · rw [heq]
  · rw [heq, hwrote]
  · rw [heq, schedule_files]
    exact hwrote

theorem add_files {d : Lib.TextFile.Text × Lib.TextFile.Text} {clock now : ℚ} {built : Option Ix} {path : Path}
    (h : path ≠ tsvPath cfg s.nextSegmentId) : (WriteSide.add cfg builder d clock built now s).files path = s.files path := by
  rw [WriteSide.add]
  split
  · exact flushLocked_files h
  · rfl

theorem swapMerged_files (cfg : Config) (job : Job Ix) (merged : Segment Ix) (s : NrtIndex Ix) :
    (swapMerged cfg job merged s).files = s.files := by
  rw [swapMerged_eq]
  split <;> exact schedule_files _ _

theorem removeFiles_of_not_holds {seg : Segment Ix} {contents : Path → Option Str} {path : Path}
    (h : ¬ (placeOf seg).Holds path) : removeFiles seg contents path = contents path := if_neg h

namespace Inv

variable {live : Segment Ix} {path : Path}

theorem segments_apart (h : Inv cfg s) : PairwiseApart s.segments := by
  have hsublist : s.segments.Sublist (stored s) :=
    (List.sublist_append_right _ _).trans (List.sublist_append_right _ _)
  exact List.Pairwise.sublist hsublist h.pairwise

/-- Nothing of a live segment lies where the next id goes. -/
theorem off_next (h : Inv cfg s) (hlive : live ∈ s.segments) (hpath : (placeOf live).Holds path) :
    ¬ (placeOfId cfg s.nextSegmentId).Holds path := fun hnext =>
  h.ahead live (mem_stored (List.mem_append_right _ hlive)) _ le_rfl path ⟨hpath, hnext⟩

theorem off_job (h : Inv cfg s) {job : Job Ix} (hworker : s.worker = .merging job) (hlive : live ∈ s.segments)
    (hpath : (placeOf live).Holds path) : ¬ (placeOfId cfg job.mergeId).Holds path := by
  have hmem : job ∈ pending s := by
    rw [pending, hworker]
    exact List.mem_cons_self
  exact fun hjob => (h.jobs job hmem).2 live (List.mem_append_right _ hlive) path ⟨hpath, hjob⟩

theorem off_removed (h : Inv cfg s) {seg : Segment Ix} {replaced : List (Segment Ix)}
    (hworker : s.worker = .cleaning (seg :: replaced)) (hlive : live ∈ s.segments)
    (hpath : (placeOf live).Holds path) : ¬ (placeOf seg).Holds path := by
  have hpairwise := h.pairwise
  rw [stored, known, hworker] at hpairwise
  have hapart := (List.pairwise_append.mp hpairwise).2.2 seg List.mem_cons_self live (List.mem_append_right _ hlive)
  exact fun hseg => hapart path ⟨hseg, hpath⟩

/-- The TSV files of live segments are left alone. -/
theorem keeps_files (h : Inv cfg s) {a : Action Ix} (hstep : Step cfg builder s a s') (hlive : live ∈ s.segments)
    (hpath : (placeOf live).Holds path) : s'.files path = s.files path := by
  cases hstep with
  | add d clock built now returns => exact add_files fun heq => h.off_next hlive hpath (Or.inl heq)
  | flush built now returns => exact flushLocked_files fun heq => h.off_next hlive hpath (Or.inl heq)
  | buildMerge worker read returns =>
    exact Function.update_of_ne (fun heq => h.off_job worker hlive hpath (Or.inl heq)) _ _
  | buildRaises worker read =>
    exact Function.update_of_ne (fun heq => h.off_job worker hlive hpath (Or.inl heq)) _ _
  | swap worker => rw [swapMerged_files]
  | removeFiles worker => exact removeFiles_of_not_holds (h.off_removed worker hlive hpath)
  | _ => rfl

/-- No build goes into the directory of a live segment. -/
theorem off_builtDir (h : Inv cfg s) {e : Event Ix} {dir : Path} (hdir : dir ∈ builtDir cfg s e)
    (hlive : live ∈ s.segments) (hpath : (placeOf live).Holds path) : ¬ dir <+: path := by
  obtain rfl | ⟨job, hworker, rfl⟩ := builtDir_cases hdir
  · exact fun hbelow => h.off_next hlive hpath (Or.inr hbelow)
  · exact fun hbelow => h.off_job hworker hlive hpath (Or.inr hbelow)

theorem keeps_swept (h : Inv cfg s) (a : Action Ix) (contents : Path → Option Str) (hlive : live ∈ s.segments)
    (hpath : (placeOf live).Holds path) : swept s a contents path = contents path := by
  obtain hsame | ⟨seg, replaced, -, hworker, hremoved⟩ := swept_cases s a contents
  · rw [hsame]
  · rw [hremoved]
    exact removeFiles_of_not_holds (h.off_removed hworker hlive hpath)

theorem safe {s s' : OnDisk Ix} (h : Inv cfg s.index) {e : Event Ix} (hstep : DiskStep cfg builder s e s') :
    Safe ⟨s, e, s'⟩ where
  keeps live hlive path hpath := by
    have hdirs := hstep.elsewhere path fun dir hdir => h.off_builtDir hdir hlive hpath
    exact ⟨h.keeps_files hstep.answered.step hlive hpath, hdirs.trans (h.keeps_swept e.action _ hlive hpath)⟩
  shares := (h.step hstep.answered.step).segments_apart

end Inv

/-- Every flush fails so far: the initial segments are live, and under every id up
to the next one there is the buffered document and what the builds left. -/
structure Overwritten (cfg : Config) (initial : List (Segment Ix)) (d : Lib.TextFile.Text × Lib.TextFile.Text)
    (contents : Path → Option Str) (s : OnDisk Ix) : Prop where
  segments : s.index.segments = initial
  buffer : s.index.buffer = [d]
  tsv : ∀ segId, initial.length ≤ segId → segId < s.index.nextSegmentId →
    s.index.files (tsvPath cfg segId) = some (flushTsv [d])
  below : ∀ segId, initial.length ≤ segId → segId < s.index.nextSegmentId →
    ∀ path, indexDirPath cfg segId <+: path → s.indexFiles path = contents path

/-- A flush whose build writes `contents` and raises. -/
def failedFlush (cfg : Config) (contents : Path → Option Str) (s : OnDisk Ix) : OnDisk Ix where
  index := wrote cfg s.index
  indexFiles path := if indexDirPath cfg s.index.nextSegmentId <+: path then contents path else s.indexFiles path

theorem flushLocked_none (hbuffer : s.buffer ≠ []) (now : ℚ) :
    flushLocked cfg builder none now s = wrote cfg s := by
  rw [flushLocked, if_neg hbuffer]
  rfl

theorem failedFlush_elsewhere {contents : Path → Option Str} {s : OnDisk Ix} {path : Path}
    (h : ∀ dir ∈ some (indexDirPath cfg s.index.nextSegmentId), ¬ dir <+: path) :
    (failedFlush cfg contents s).indexFiles path = s.indexFiles path := if_neg (h _ rfl)

section FailingRuns

variable {indexFiles contents : Path → Option Str} {d : Lib.TextFile.Text × Lib.TextFile.Text}

theorem Overwritten.failedFlush {s : OnDisk Ix} (h : Overwritten cfg initial d contents s) :
    Overwritten cfg initial d contents (failedFlush cfg contents s) where
  segments := h.segments
  buffer := h.buffer
  tsv segId hle hlt := by
    change Function.update s.index.files (tsvPath cfg s.index.nextSegmentId) (some (flushTsv s.index.buffer)) _ = _
    rcases Nat.eq_or_lt_of_le (Nat.le_of_lt_succ hlt) with rfl | hlt
    · rw [Function.update_self, h.buffer]
    · rw [Function.update_of_ne fun heq => hlt.ne (tsvPath_injective heq)]
      exact h.tsv segId hle hlt
  below segId hle hlt path hbelow := by
    rcases Nat.eq_or_lt_of_le (Nat.le_of_lt_succ hlt) with rfl | hlt
    · exact if_pos hbelow
    · have hother : ¬ indexDirPath cfg s.index.nextSegmentId <+: path := fun hdir =>
        hlt.ne (decimal_injective (List.append_cancel_left (entry_unique hbelow hdir)))
      exact (if_neg hother).trans (h.below segId hle hlt path hbelow)

theorem failing_step {s : OnDisk Ix} (hbuffer : s.index.buffer ≠ []) (contents : Path → Option Str) :
    DiskStep cfg builder s ⟨.flush, ⟨0, none, 0⟩⟩ (failedFlush cfg contents s) where
  answered := by
    have hflush : Answered cfg builder s.index ⟨.flush, ⟨0, none, 0⟩⟩ (flushLocked cfg builder none 0 s.index) :=
      .flush ⟨0, none, 0⟩ fun index hindex => absurd hindex (Option.some_ne_none index).symm
    rw [flushLocked_none hbuffer] at hflush
    exact hflush
  elsewhere path h := by
    have hdue : flushes cfg s.index ⟨.flush, ⟨0, none, 0⟩⟩ = true := by simp [flushes, hbuffer]
    rw [builtDir_of_flushes hdue] at h
    exact failedFlush_elsewhere h

theorem exists_init (cfg : Config) (builder : BuildSegment Ix) (initial : List (Segment Ix))
    (files : Path → Option Str) :
    ∃ s, (nrtIndex cfg builder initial files).init s ∧ s.segments = initial ∧ s.nextSegmentId = initial.length ∧
      s.buffer = [] := by
  refine ⟨_, ⟨(initial.map (·.ident)).sum + 1, 0, fun seg hseg => ?_, rfl⟩, rfl, rfl, rfl⟩
  exact Nat.lt_succ_of_le (List.le_sum_of_mem (List.mem_map_of_mem hseg))

/-- A document is added while builds fail. -/
theorem failing_add {s : OnDisk Ix} (hsegments : s.index.segments = initial) (hbuffer : s.index.buffer = [])
    (hnext : s.index.nextSegmentId = initial.length) (d : Lib.TextFile.Text × Lib.TextFile.Text)
    (contents : Path → Option Str) : ∃ s', DiskStep cfg builder s ⟨.add d, ⟨0, none, 0⟩⟩ s' ∧
      initial.length ≤ s'.index.nextSegmentId ∧ Overwritten cfg initial d contents s' := by
  let buffered : OnDisk Ix := ⟨{ s.index with buffer := s.index.buffer ++ [d] }, s.indexFiles⟩
  have hnone : ∀ segId, initial.length ≤ segId → ¬ segId < s.index.nextSegmentId := fun segId hle => by omega
  have hstart : Overwritten cfg initial d contents buffered :=
    ⟨hsegments, congrArg (· ++ [d]) hbuffer, fun segId hle hlt => absurd hlt (hnone segId hle),
      fun segId hle hlt => absurd hlt (hnone segId hle)⟩
  have hadd : Answered cfg builder s.index ⟨.add d, ⟨0, none, 0⟩⟩ (WriteSide.add cfg builder d 0 none 0 s.index) :=
    .add d ⟨0, none, 0⟩ fun index hindex => absurd hindex (Option.some_ne_none index).symm
  rw [WriteSide.add] at hadd
  by_cases hflush : shouldFlush cfg 0 { s.index with buffer := s.index.buffer ++ [d] } = true
  · rw [if_pos hflush, flushLocked_none (by simp)] at hadd
    refine ⟨failedFlush cfg contents buffered, ⟨hadd, fun path h => ?_⟩, Nat.le_succ_of_le hnext.ge, hstart.failedFlush⟩
    have hdue : flushes cfg s.index ⟨.add d, ⟨0, none, 0⟩⟩ = true := hflush
    rw [builtDir_of_flushes hdue] at h
    exact failedFlush_elsewhere h
  · rw [if_neg hflush] at hadd
    exact ⟨buffered, ⟨hadd, fun path _ => rfl⟩, hnext.ge, hstart⟩

/-- A document is buffered and every flush fails: one id after the other is written. -/
theorem exists_failing_run (cfg : Config) (builder : BuildSegment Ix) (initial : List (Segment Ix))
    (files indexFiles contents : Path → Option Str) (d : Lib.TextFile.Text × Lib.TextFile.Text) (m : Nat) :
    ∃ trace s, (onDisk cfg builder initial files indexFiles).recorded.Run trace s ∧
      (∀ x ∈ trace, x.before.index.segments = initial) ∧ initial.length + m ≤ s.index.nextSegmentId ∧
      Overwritten cfg initial d contents s := by
  induction m with
  | zero =>
    obtain ⟨s, hinit, hsegments, hnext, hbuffer⟩ := exists_init cfg builder initial files
    have hstart : (onDisk cfg builder initial files indexFiles).recorded.Run [] ⟨s, indexFiles⟩ := .init ⟨hinit, rfl⟩
    obtain ⟨s', hadd, hle, hover⟩ := failing_add (s := ⟨s, indexFiles⟩) hsegments hbuffer hnext d contents
    refine ⟨_, s', hstart.extend _ hadd, fun x hx => ?_, hle, hover⟩
    rw [List.mem_singleton.mp hx]
    exact hsegments
  | succ m ih =>
    obtain ⟨trace, s, hrun, hlive, hle, hover⟩ := ih
    have hbuffer : s.index.buffer ≠ [] := hover.buffer ▸ List.cons_ne_nil d []
    refine ⟨_, _, hrun.extend _ (failing_step hbuffer contents), fun x hx => ?_, Nat.succ_le_succ hle,
      hover.failedFlush⟩
    rcases List.mem_append.mp hx with hx | hx
    · exact hlive x hx
    · rw [List.mem_singleton.mp hx]
      exact hover.segments

/-- While a segment is live and all steps are safe, its files are what they were. -/
theorem kept_of_safe {trace : List (Recorded (OnDisk Ix) (Event Ix))} {s : OnDisk Ix}
    (hrun : (onDisk cfg builder initial files indexFiles).recorded.Run trace s) (hsafe : ∀ x ∈ trace, Safe x)
    {seg : Segment Ix} (hlive : ∀ x ∈ trace, seg ∈ x.before.index.segments) {path : Path}
    (hpath : (placeOf seg).Holds path) : s.index.files path = files path ∧ s.indexFiles path = indexFiles path := by
  induction hrun with
  | init hinit =>
    obtain ⟨⟨ident, now, -, hindex⟩, hdirs⟩ := hinit
    rw [hindex, hdirs]
    exact ⟨rfl, rfl⟩
  | @step s s' x trace hs hstep ih =>
    obtain ⟨rfl, rfl, -⟩ := hstep
    have hx : x ∈ trace ++ [x] := List.mem_append_right _ (List.mem_singleton_self x)
    obtain ⟨hfiles, hdirs⟩ := ih (fun y hy => hsafe y (List.mem_append_left _ hy))
      fun y hy => hlive y (List.mem_append_left _ hy)
    obtain ⟨hfiles', hdirs'⟩ := (hsafe x hx).keeps seg (hlive x hx) path hpath
    exact ⟨hfiles'.trans hfiles, hdirs'.trans hdirs⟩

end FailingRuns

/-- No run changes what the disk holds for a live segment, or makes two of them
share a path, exactly if the initial segments are clear. -/
theorem storage_safe_iff (cfg : Config) (builder : BuildSegment Ix) (initial : List (Segment Ix))
    (files indexFiles : Path → Option Str) (hobjects : ∀ a ∈ initial, ∀ b ∈ initial, a.ident = b.ident → a = b) :
    (∀ trace s, (onDisk cfg builder initial files indexFiles).recorded.Run trace s →
      PairwiseApart s.index.segments ∧ ∀ x ∈ trace, Safe x) ↔ Clear cfg initial := by
  constructor
  · intro h
    have hpairwise : PairwiseApart initial := by
      obtain ⟨s, hinit, hsegments, -⟩ := exists_init cfg builder initial files
      exact hsegments ▸ (h [] ⟨s, indexFiles⟩ (.init ⟨hinit, rfl⟩)).1
    refine ⟨hpairwise, fun seg hseg segId hle path hpath => ?_⟩
    obtain ⟨hlive, hid⟩ := hpath
    have hrun : ∀ d contents, ∃ s : OnDisk Ix, Overwritten cfg initial d contents s ∧ segId < s.index.nextSegmentId ∧
        s.index.files path = files path ∧ s.indexFiles path = indexFiles path := by
      intro d contents
      obtain ⟨trace, s, hrun, hsegments, hnext, hover⟩ :=
        exists_failing_run cfg builder initial files indexFiles contents d (segId + 1)
      have hkept := kept_of_safe hrun (h trace s hrun).2 (fun x hx => hsegments x hx ▸ hseg) hlive
      exact ⟨s, hover, by omega, hkept⟩
    rcases hid with rfl | hbelow
    · -- whichever document is added, its TSV would be the one that was there before
      have hfile : ∀ d, files (tsvPath cfg segId) = some (flushTsv [d]) := by
        intro d
        obtain ⟨s, hover, hlt, hfiles, -⟩ := hrun d indexFiles
        exact hfiles.symm.trans (hover.tsv segId hle hlt)
      have hsame := Option.some.inj ((hfile ([], [])).symm.trans (hfile (['a'], [])))
      exact absurd hsame (by decide)
    · have hcontents : ∀ contents : Path → Option Str, indexFiles path = contents path := by
        intro contents
        obtain ⟨s, hover, hlt, -, hdirs⟩ := hrun ([], []) contents
        exact hdirs.symm.trans (hover.below segId hle hlt path hbelow)
      exact absurd ((hcontents fun _ => none).symm.trans (hcontents fun _ => some [])) (Option.some_ne_none _).symm
  · intro hclear trace s hrun
    have hinv : ∀ {s}, (onDisk cfg builder initial files indexFiles).Reachable s → Inv cfg s.index := fun hs =>
      inv_of_reachable hobjects hclear (reachable_iff.mpr ⟨_, hs, rfl⟩)
    constructor
    · exact (hinv hrun.reachable.of_recorded).segments_apart
    · exact hrun.forall_mem fun s e s' hs hstep => (hinv hs).safe hstep

/-- Two initial segments kept elsewhere, and a third one flushed. -/
theorem storage_safe_two :
    ∃ trace s, (onDisk smallConfig listBuilder [firstSegment, secondSegment] gluedFiles gluedFiles).recorded.Run trace s ∧
      s.index.segments.length = 3 ∧ PairwiseApart s.index.segments ∧ ∀ x ∈ trace, Safe x := by
  have hstart : (onDisk smallConfig listBuilder [firstSegment, secondSegment] gluedFiles gluedFiles).recorded.Run []
      ⟨startState gluedFiles, gluedFiles⟩ := .init ⟨⟨2, 0, by decide, rfl⟩, rfl⟩
  have hrun := hstart.extend _ ((add_answered _ rfl).onDisk _)
  have hidents : ([firstSegment, secondSegment].map (·.ident)).Nodup := by decide
  refine ⟨_, _, hrun, by decide, (storage_safe_iff smallConfig listBuilder [firstSegment, secondSegment]
    gluedFiles gluedFiles fun a ha b hb => List.inj_on_of_nodup_map hidents ha hb).mpr ⟨?_, ?_⟩ _ _ hrun⟩
  · change List.Pairwise _ _
    decide
  · intro seg hseg segId _
    have houtside : ∀ seg ∈ [firstSegment, secondSegment], ¬ segmentsDir smallConfig <+: seg.sourceTsv ∧
        ¬ segmentsDir smallConfig <+: seg.indexDir ∧ ¬ seg.indexDir <+: segmentsDir smallConfig := by decide
    obtain ⟨htsv, hinside, habove⟩ := houtside seg hseg
    exact apart_of_outside htsv hinside habove segId

/-- A segment that an earlier `NrtIndex` over the same directory left behind. -/
def leftSegment : Segment (List Document) :=
  ⟨0, [⟨lit "a", lit "x"⟩], tsvPath smallConfig 1, indexDirPath smallConfig 1, 1⟩

/-- The index file that holds its documents. -/
def leftDocs : Path := leftSegment.indexDir ++ [lit "index.docs"]

def leftFiles : Path → Option Str := fun path => if path = leftSegment.sourceTsv then some (lit "a\tx\n") else none

def leftIndexFiles : Path → Option Str := fun path => if path = leftDocs then some (lit "a") else none

/-- The counter starts at one, so the first flush overwrites the live segment. -/
theorem left_segment_overwritten :
    ∃ x s, (onDisk smallConfig listBuilder [leftSegment] leftFiles leftIndexFiles).recorded.Run [x] s ∧
      x.action.action = .add (['c'], ['z']) ∧ x.before.index.segments = [leftSegment] ∧
      x.before.index.files leftSegment.sourceTsv = some (lit "a\tx\n") ∧
      x.after.index.files leftSegment.sourceTsv = some (lit "c\tz\n") ∧
      x.before.indexFiles leftDocs = some (lit "a") ∧ x.after.indexFiles leftDocs = some (lit "c") ∧
      ¬ Safe x ∧ ¬ PairwiseApart s.index.segments := by
  let s : OnDisk (List Document) :=
    ⟨{ segments := [leftSegment], nextSegmentId := 1, lastFlushTime := 0, files := leftFiles, nextIdent := 1 },
      leftIndexFiles⟩
  let s' : OnDisk (List Document) :=
    ⟨WriteSide.add smallConfig listBuilder (['c'], ['z']) 0 (some [⟨lit "c", lit "z"⟩]) 0 s.index,
      fun path => if path = leftDocs then some (lit "c") else none⟩
  have hstart : (onDisk smallConfig listBuilder [leftSegment] leftFiles leftIndexFiles).recorded.Run [] s :=
    .init ⟨⟨1, 0, by decide, rfl⟩, rfl⟩
  have hadded : DiskStep smallConfig listBuilder s ⟨.add (['c'], ['z']), builtAlone⟩ s' := by
    refine ⟨add_answered _ rfl, fun path h => ?_⟩
    have hother : path ≠ leftDocs := fun heq => h (indexDirPath smallConfig 1) rfl (heq ▸ List.prefix_append _ _)
    change (if path = leftDocs then some (lit "c") else none) = if path = leftDocs then some (lit "a") else none
    rw [if_neg hother, if_neg hother]
  have hbefore : s.index.files leftSegment.sourceTsv = some (lit "a\tx\n") := by decide
  have hafter : s'.index.files leftSegment.sourceTsv = some (lit "c\tz\n") := by decide
  refine ⟨_, _, hstart.extend _ hadded, rfl, rfl, hbefore, hafter, rfl, rfl, fun hsafe => ?_, ?_⟩
  · obtain ⟨hsame, -⟩ := hsafe.keeps leftSegment List.mem_cons_self leftSegment.sourceTsv (Or.inl rfl)
    exact absurd (hafter.symm.trans (hsame.trans hbefore)) (by decide)
  · change ¬ List.Pairwise _ _
    decide

end CascadeSearch.Nrt.Storage
