import CascadeSearch.Nrt.WriteSide

/-!
# No document is lost or doubled

What the live segments hold, together with the buffer, is what the initial
segments held and everything that was added. A merge works on a plan made
earlier, so the invariant says of a pending merge that its segments are still
live, and of every live segment that its source file, while it exists, reads
back as the documents the segment holds.
-/
namespace CascadeSearch.Nrt.Conservation

open Lib.Decimal Lib.TextFile Lib.Transition
open Index.Format Index.Porter Index.Corpus
open FanOut MergePolicy Tsv WriteSide

variable {Ix : Type}

/-- The documents a run has passed to `add`, in order. -/
def added (trace : List (Action Ix)) : List (Text × Text) :=
  trace.filterMap fun
    | .add d => some d
    | _ => none

/-- The objects that swaps of the run have replaced. -/
def consumed (trace : List (Action Ix)) : List Nat :=
  trace.flatMap fun
    | .swap job => job.chosen.map (·.ident)
    | _ => []

/-- A document that survives text mode: neither its id nor its text holds a tab,
a newline or a carriage return. -/
def Plain (d : Text × Text) : Prop := WellFormed d ∧ '\r' ∉ d.2

/-- A source file that a merge reads back as `docs`. -/
structure Stores (file : Str) (docs : List Document) : Prop where
  documents : documents file = docs
  noReturns : ∀ d ∈ docs, NoReturns d
  terminated : Terminated file

/-- The job a worker has not yet finished with, as far as the flag is concerned. -/
def unfinished : Worker Ix → List (Job Ix)
  | .merging job | .built job _ | .failed job => [job]
  | .idle | .cleaning _ => []

def pending (s : NrtIndex Ix) : List (Job Ix) := unfinished s.worker ++ s.queue

/-- The merged segment that waits to be swapped in. -/
def produced : Worker Ix → List (Segment Ix)
  | .built _ merged => [merged]
  | _ => []

/-- The live segments and the one about to be. -/
def known (s : NrtIndex Ix) : List (Segment Ix) := produced s.worker ++ s.segments

theorem pending_of_worker {s : NrtIndex Ix} {worker : Worker Ix} (h : s.worker = worker) :
    pending s = unfinished worker ++ s.queue := by
  rw [pending, h]

theorem known_of_worker {s : NrtIndex Ix} {worker : Worker Ix} (h : s.worker = worker) :
    known s = produced worker ++ s.segments := by
  rw [known, h]

variable (holds : Ix → List Document)

def held (segments : List (Segment Ix)) : List Document := segments.flatMap fun seg => holds seg.index

structure Inv (cfg : Config) (initial : List (Segment Ix)) (docs : List (Text × Text))
    (gone : List Nat) (s : NrtIndex Ix) : Prop where
  idents : ((known s).map (·.ident)).Nodup
  fresh : ∀ seg ∈ known s, seg.ident < s.nextIdent
  stored : ∀ seg ∈ known s, ∀ file, s.files seg.sourceTsv = some file → Stores file (holds seg.index)
  paths : ∀ seg ∈ known s, ∀ segId, s.nextSegmentId ≤ segId → seg.sourceTsv ≠ tsvPath cfg segId
  jobPath : ∀ job ∈ pending s, job.mergeId < s.nextSegmentId ∧
    ∀ seg ∈ s.segments, seg.sourceTsv ≠ tsvPath cfg job.mergeId
  one : (pending s).length ≤ 1
  flagged : pending s ≠ [] → s.mergeInProgress = true
  chosen : ∀ job ∈ pending s, job.chosen.Subperm s.segments
  built : ∀ job merged, s.worker = .built job merged → holds merged.index = held holds job.chosen
  goneNodup : gone.Nodup
  goneDead : ∀ ident ∈ gone, ident < s.nextIdent ∧ ∀ seg ∈ known s, seg.ident ≠ ident
  plain : ∀ d ∈ docs, Plain d
  conserved : ∃ flushed, docs = flushed ++ s.buffer ∧
    (held holds s.segments).Perm (held holds initial ++ flushed.map encodeDocument)

variable {holds} {cfg : Config} {builder : BuildSegment Ix} {initial : List (Segment Ix)}
  {docs : List (Text × Text)} {gone : List Nat} {s : NrtIndex Ix}

theorem tsvPath_injective : Function.Injective (tsvPath cfg) := by
  intro m n h
  have hname := List.append_cancel_left h
  rw [List.cons.injEq] at hname
  exact decimal_injective (List.append_cancel_left (List.append_cancel_right hname.1))

theorem held_append (a b : List (Segment Ix)) : held holds (a ++ b) = held holds a ++ held holds b :=
  List.flatMap_append

namespace Inv

/-- While the flag is off no merge is under way. -/
theorem pending_nil (h : Inv holds cfg initial docs gone s) (hflag : s.mergeInProgress = false) :
    pending s = [] := by
  by_contra hne
  have hset := h.flagged hne
  rw [hflag] at hset
  cases hset

/-- Taking the next id frees no path. -/
theorem paths_succ (h : Inv holds cfg initial docs gone s) :
    ∀ seg ∈ known s, ∀ segId, s.nextSegmentId + 1 ≤ segId → seg.sourceTsv ≠ tsvPath cfg segId :=
  fun seg hseg segId hle => h.paths seg hseg segId (Nat.le_of_succ_le hle)

theorem jobPath_succ (h : Inv holds cfg initial docs gone s) :
    ∀ job ∈ pending s, job.mergeId < s.nextSegmentId + 1 ∧
      ∀ seg ∈ s.segments, seg.sourceTsv ≠ tsvPath cfg job.mergeId :=
  fun job hjob => ⟨(h.jobPath job hjob).1.trans (Nat.lt_succ_self _), (h.jobPath job hjob).2⟩

theorem enqueue (h : Inv holds cfg initial docs gone s) (hnil : pending s = [])
    {plan : List (Segment Ix)} (hplan : plan.Subperm s.segments) :
    Inv holds cfg initial docs gone { s with
      mergeInProgress := true
      nextSegmentId := s.nextSegmentId + 1
      queue := s.queue ++ [⟨plan, s.nextSegmentId⟩] } := by
  have hpending : unfinished s.worker ++ (s.queue ++ [(⟨plan, s.nextSegmentId⟩ : Job Ix)]) =
      [⟨plan, s.nextSegmentId⟩] := by
    rw [← List.append_assoc, ← pending, hnil]
    rfl
  have honly : ∀ job ∈ unfinished s.worker ++ (s.queue ++ [(⟨plan, s.nextSegmentId⟩ : Job Ix)]),
      job = ⟨plan, s.nextSegmentId⟩ := fun job hjob => by
    rw [hpending] at hjob
    exact List.mem_singleton.mp hjob
  exact { h with
    paths := h.paths_succ
    jobPath := fun job hjob => by
      rw [honly job hjob]
      exact ⟨Nat.lt_succ_self _, fun seg hseg => h.paths seg (List.mem_append_right _ hseg) _ le_rfl⟩
    one := (congrArg List.length hpending).le
    flagged := fun _ => rfl
    chosen := fun job hjob => by
      rw [honly job hjob]
      exact hplan }

theorem schedule (h : Inv holds cfg initial docs gone s) :
    Inv holds cfg initial docs gone (maybeScheduleMergeLocked cfg s).1 := by
  obtain ⟨heq, -⟩ | ⟨plan, ⟨hflag, policy, -, hplan⟩, ⟨-, heq⟩ | ⟨-, heq⟩⟩ := maybeScheduleMergeLocked_cases cfg s
  · rw [heq]
    exact h
  · rw [heq]
    exact { h with
      paths := h.paths_succ
      jobPath := h.jobPath_succ
      flagged := fun _ => rfl }
  · rw [heq]
    exact h.enqueue (h.pending_nil hflag) (maybeMerge_subperm hplan)

/-- The TSV of a flush goes to a path no live segment uses. -/
theorem writeFlush (h : Inv holds cfg initial docs gone s) :
    Inv holds cfg initial docs gone { s with
      nextSegmentId := s.nextSegmentId + 1
      files := Function.update s.files (tsvPath cfg s.nextSegmentId) (some (flushTsv s.buffer)) } :=
  { h with
    stored := fun seg hseg file hfile => by
      have hne := h.paths seg hseg _ le_rfl
      change Function.update s.files (tsvPath cfg s.nextSegmentId) _ seg.sourceTsv = some file at hfile
      rw [Function.update_of_ne hne] at hfile
      exact h.stored seg hseg file hfile
    paths := h.paths_succ
    jobPath := h.jobPath_succ }

theorem plain_buffer (h : Inv holds cfg initial docs gone s) : ∀ d ∈ s.buffer, Plain d := by
  obtain ⟨flushed, hdocs, -⟩ := h.conserved
  intro d hd
  apply h.plain
  rw [hdocs]
  exact List.mem_append_right _ hd

theorem stores_flushTsv {buffer : List (Text × Text)} (h : ∀ d ∈ buffer, Plain d) :
    Stores (flushTsv buffer) (buffer.map encodeDocument) := by
  obtain ⟨hdocs, hterm⟩ := flushTsv_spec fun d hd => (h d hd).1
  constructor
  · exact hdocs
  · intro d hd
    obtain ⟨e, he, rfl⟩ := List.mem_map.mp hd
    exact noReturns_encodeDocument.mpr ⟨(h e he).1.idReturn, (h e he).2⟩
  · exact hterm

/-- A segment that takes over the whole buffer. -/
theorem publish (h : Inv holds cfg initial docs gone s) {seg : Segment Ix} {file : Str}
    (hident : seg.ident = s.nextIdent) (hfile : s.files seg.sourceTsv = some file)
    (hstores : Stores file (holds seg.index)) (hholds : holds seg.index = s.buffer.map encodeDocument)
    (hpath : ∀ segId, s.nextSegmentId ≤ segId → seg.sourceTsv ≠ tsvPath cfg segId)
    (hjob : ∀ job ∈ pending s, seg.sourceTsv ≠ tsvPath cfg job.mergeId) (now : ℚ) :
    Inv holds cfg initial docs gone { s with
      segments := s.segments ++ [seg]
      buffer := []
      lastFlushTime := now
      nextIdent := s.nextIdent + 1 } := by
  have hknown : ∀ x ∈ produced s.worker ++ (s.segments ++ [seg]), x ∈ known s ∨ x = seg := by
    intro x hx
    rw [← List.append_assoc, List.mem_append, List.mem_singleton] at hx
    exact hx
  have hsub : s.segments.Subperm (s.segments ++ [seg]) := (List.sublist_append_left _ _).subperm
  exact { h with
    idents := by
      change ((produced s.worker ++ (s.segments ++ [seg])).map (·.ident)).Nodup
      rw [← List.append_assoc, List.map_append]
      apply List.nodup_append.mpr
      refine ⟨h.idents, List.nodup_singleton _, ?_⟩
      intro a ha b hb hab
      obtain ⟨x, hx, rfl⟩ := List.mem_map.mp ha
      have hlt := h.fresh x hx
      rw [hab, List.mem_singleton.mp hb] at hlt
      exact hlt.ne hident
    fresh := fun x hx => by
      rcases hknown x hx with hx | rfl
      · exact (h.fresh x hx).trans (Nat.lt_succ_self _)
      · rw [hident]
        exact Nat.lt_succ_self _
    stored := fun x hx => by
      rcases hknown x hx with hx | rfl
      · exact h.stored x hx
      · intro file' hfile'
        change s.files x.sourceTsv = some file' at hfile'
        rw [hfile] at hfile'
        cases hfile'
        exact hstores
    paths := fun x hx => by
      rcases hknown x hx with hx | rfl
      · exact h.paths x hx
      · exact hpath
    jobPath := fun job hj => ⟨(h.jobPath job hj).1, fun x hx => by
      rcases List.mem_append.mp hx with hx | hx
      · exact (h.jobPath job hj).2 x hx
      · rw [List.mem_singleton.mp hx]
        exact hjob job hj⟩
    chosen := fun job hj => (h.chosen job hj).trans hsub
    goneDead := fun ident hg => ⟨(h.goneDead ident hg).1.trans (Nat.lt_succ_self _), fun x hx => by
      rcases hknown x hx with hx | rfl
      · exact (h.goneDead ident hg).2 x hx
      · rw [hident]
        exact (h.goneDead ident hg).1.ne'⟩
    conserved := by
      obtain ⟨flushed, hdocs, hperm⟩ := h.conserved
      refine ⟨flushed ++ s.buffer, by rw [hdocs, List.append_nil], ?_⟩
      change (held holds (s.segments ++ [seg])).Perm _
      have hseg : held holds [seg] = s.buffer.map encodeDocument := by
        rw [← hholds]
        exact List.append_nil _
      rw [held_append, hseg, List.map_append, ← List.append_assoc]
      exact hperm.append_right _ }

theorem flushLocked (h : Inv holds cfg initial docs gone s)
    (hbuild : ∀ tsv index, builder.returns tsv index → holds index = documents tsv) {built : Option Ix}
    (hreturns : ∀ index ∈ built, builder.returns (flushTsv s.buffer) index) (now : ℚ) :
    Inv holds cfg initial docs gone (flushLocked cfg builder built now s) := by
  rw [WriteSide.flushLocked]
  split
  · exact h
  · have hwrite := h.writeFlush
    cases built with
    | none => exact hwrite
    | some index =>
      apply Inv.schedule
      have hstores := stores_flushTsv h.plain_buffer
      have hholds : holds index = s.buffer.map encodeDocument := by
        rw [hbuild _ _ (hreturns index rfl), hstores.documents]
      refine hwrite.publish rfl ?_ (?_ : Stores (flushTsv s.buffer) _) hholds ?_ ?_ now
      · exact Function.update_self _ _ _
      · rw [hholds]
        exact hstores
      · intro segId hle heq
        exact absurd (tsvPath_injective heq) (Nat.lt_of_succ_le hle).ne
      · intro job hjob heq
        exact absurd (tsvPath_injective heq) (h.jobPath job hjob).1.ne'

/-- A document that joins the buffer. -/
theorem addDocument (h : Inv holds cfg initial docs gone s) {d : Text × Text} (hd : Plain d) :
    Inv holds cfg initial (docs ++ [d]) gone { s with buffer := s.buffer ++ [d] } :=
  { h with
    plain := fun e he => by
      rcases List.mem_append.mp he with he | he
      · exact h.plain e he
      · rw [List.mem_singleton.mp he]
        exact hd
    conserved := by
      obtain ⟨flushed, hdocs, hperm⟩ := h.conserved
      exact ⟨flushed, by rw [hdocs, List.append_assoc], hperm⟩ }

/-- The worker moves on without a merged segment; the pending jobs stay the same. -/
theorem setWorker (h : Inv holds cfg initial docs gone s) (worker : Worker Ix) (queue : List (Job Ix))
    (hpending : unfinished worker ++ queue = pending s) (hworker : produced worker = [])
    (hproduced : produced s.worker = []) :
    Inv holds cfg initial docs gone { s with worker := worker, queue := queue } := by
  have hknown : produced worker ++ s.segments = known s := by
    rw [known, hworker, hproduced]
  exact { h with
    idents := (congrArg (fun l => (l.map (·.ident)).Nodup) hknown).mpr h.idents
    fresh := fun seg hseg => h.fresh seg (hknown ▸ hseg)
    stored := fun seg hseg => h.stored seg (hknown ▸ hseg)
    paths := fun seg hseg => h.paths seg (hknown ▸ hseg)
    jobPath := fun job hjob => h.jobPath job (hpending ▸ hjob)
    one := (congrArg List.length hpending).trans_le h.one
    flagged := fun hne => h.flagged (hpending ▸ hne)
    chosen := fun job hjob => h.chosen job (hpending ▸ hjob)
    built := fun job merged hbuilt => by
      change worker = .built job merged at hbuilt
      rw [hbuilt] at hworker
      cases hworker
    goneDead := fun ident hg => ⟨(h.goneDead ident hg).1, fun seg hseg =>
      (h.goneDead ident hg).2 seg (hknown ▸ hseg)⟩ }

end Inv

/-- Source files that store what their segments hold, read one after the other. -/
theorem sources_of_mapM {files : Path → Option Str} {chosen : List (Segment Ix)} :
    ∀ {sources}, chosen.mapM (fun seg => files seg.sourceTsv) = some sources →
      (∀ seg ∈ chosen, ∀ file, files seg.sourceTsv = some file → Stores file (holds seg.index)) →
      (∀ source ∈ sources, Terminated source ∧ ∀ d ∈ documents source, NoReturns d) ∧
        sources.flatMap documents = held holds chosen := by
  induction chosen with
  | nil =>
    intro sources hsources _
    cases hsources
    exact ⟨fun _ h => (List.not_mem_nil h).elim, rfl⟩
  | cons seg chosen ih =>
    intro sources hsources hstored
    rw [List.mapM_cons] at hsources
    obtain ⟨source, hsource, hsources⟩ := Option.bind_eq_some_iff.mp hsources
    obtain ⟨rest, hrest, hcons⟩ := Option.bind_eq_some_iff.mp hsources
    cases hcons
    have hstores := hstored seg List.mem_cons_self source hsource
    obtain ⟨hall, hdocs⟩ := ih hrest fun x hx => hstored x (List.mem_cons_of_mem _ hx)
    constructor
    · intro x hx
      rcases List.mem_cons.mp hx with rfl | hx
      · exact ⟨hstores.terminated, hstores.documents ▸ hstores.noReturns⟩
      · exact hall x hx
    · rw [List.flatMap_cons, hstores.documents, hdocs]
      rfl

namespace Inv

/-- What a merge reads back are the documents of the segments it chose. -/
theorem stores_mergedTsv (h : Inv holds cfg initial docs gone s) {job : Job Ix} (hjob : job ∈ pending s)
    {tsv : Str} (hread : mergedTsv s job = some tsv) : Stores tsv (held holds job.chosen) := by
  obtain ⟨sources, hsources, hmerge⟩ := Option.bind_eq_some_iff.mp hread
  have hchosen := (h.chosen job hjob).subset
  obtain ⟨hall, hdocs⟩ := sources_of_mapM hsources fun seg hseg =>
    h.stored seg (List.mem_append_right _ (hchosen hseg))
  obtain ⟨hmerged, hterm⟩ := mergeTsv_spec hmerge (fun source hs => (hall source hs).1)
    fun source hs => (hall source hs).2
  constructor
  · rw [hmerged, hdocs]
  · intro d hd
    rw [← hdocs] at hd
    obtain ⟨source, hs, hd⟩ := List.mem_flatMap.mp hd
    exact (hall source hs).2 d hd
  · exact hterm

/-- The merged TSV goes to a path no live segment uses. -/
theorem writeMerged (h : Inv holds cfg initial docs gone s) {job : Job Ix} (hjob : job ∈ pending s)
    (hproduced : produced s.worker = []) (tsv : Str) :
    Inv holds cfg initial docs gone (writeMerged cfg job tsv s) :=
  { h with
    stored := fun seg hseg file hfile => by
      have hlive : seg ∈ s.segments := by
        change seg ∈ produced s.worker ++ s.segments at hseg
        rw [hproduced] at hseg
        exact hseg
      have hne := (h.jobPath job hjob).2 seg hlive
      change Function.update s.files (tsvPath cfg job.mergeId) _ seg.sourceTsv = some file at hfile
      rw [Function.update_of_ne hne] at hfile
      exact h.stored seg (List.mem_append_right _ hlive) file hfile }

theorem buildMerged (h : Inv holds cfg initial docs gone s) {job : Job Ix} {tsv : Str} {index : Ix}
    (hworker : s.worker = .merging job) (hread : mergedTsv s job = some tsv)
    (hholds : holds index = documents tsv) :
    Inv holds cfg initial docs gone (buildMerged cfg builder job tsv index s) := by
  have hproduced : produced s.worker = [] := by rw [hworker]; rfl
  have hjob : job ∈ pending s := by
    rw [pending, hworker]
    exact List.mem_cons_self
  have hstores := h.stores_mergedTsv hjob hread
  have hwrite := h.writeMerged hjob hproduced tsv
  have hpending : pending s = [job] ++ s.queue := pending_of_worker hworker
  have hlive : ∀ seg ∈ s.segments, seg ∈ known s := fun seg hseg => List.mem_append_right _ hseg
  have hjobPath := h.jobPath job hjob
  exact { hwrite with
    idents := by
      apply List.nodup_cons.mpr
      constructor
      · intro hmem
        obtain ⟨seg, hseg, hident⟩ := List.mem_map.mp hmem
        exact (h.fresh seg (hlive seg hseg)).ne hident
      · have hidents := h.idents
        rw [known, hproduced] at hidents
        exact hidents
    fresh := fun seg hseg => by
      rcases List.mem_cons.mp hseg with rfl | hseg
      · exact Nat.lt_succ_self _
      · exact (h.fresh seg (hlive seg hseg)).trans (Nat.lt_succ_self _)
    stored := fun seg hseg => by
      rcases List.mem_cons.mp hseg with rfl | hseg
      · intro file hfile
        change Function.update s.files (tsvPath cfg job.mergeId) _ (tsvPath cfg job.mergeId) = some file at hfile
        rw [Function.update_self] at hfile
        cases hfile
        change Stores tsv (holds index)
        rw [hholds, hstores.documents]
        exact hstores
      · exact hwrite.stored seg (hlive seg hseg)
    paths := fun seg hseg => by
      rcases List.mem_cons.mp hseg with rfl | hseg
      · intro segId hle heq
        exact absurd (tsvPath_injective heq) (hjobPath.1.trans_le hle).ne
      · exact h.paths seg (hlive seg hseg)
    jobPath := fun j hj => h.jobPath j (hpending ▸ hj)
    one := (congrArg List.length hpending).symm.trans_le h.one
    flagged := fun _ => h.flagged (List.ne_nil_of_mem hjob)
    chosen := fun j hj => h.chosen j (hpending ▸ hj)
    built := fun j merged hbuilt => by
      cases hbuilt
      change holds index = _
      rw [hholds, hstores.documents]
    goneDead := fun ident hg => ⟨(h.goneDead ident hg).1.trans (Nat.lt_succ_self _), fun seg hseg => by
      rcases List.mem_cons.mp hseg with rfl | hseg
      · exact (h.goneDead ident hg).1.ne'
      · exact (h.goneDead ident hg).2 seg (hlive seg hseg)⟩ }

end Inv

theorem exists_rest {chosen segments : List (Segment Ix)} (h : chosen.Subperm segments) :
    ∃ rest, segments.Perm (chosen ++ rest) := by
  obtain ⟨front, hfront, hsublist⟩ := h
  obtain ⟨rest, hrest⟩ := hsublist.exists_perm_append
  exact ⟨rest, hrest.trans (hfront.append_right rest)⟩

/-- The replaced segments are the chosen ones, each once. -/
theorem perm_chosen {chosen segments : List (Segment Ix)} (hnd : (segments.map (·.ident)).Nodup)
    (hsub : chosen.Subperm segments) :
    segments.Perm (chosen ++ segments.filter fun seg => seg.ident ∉ chosen.map (·.ident)) := by
  obtain ⟨rest, hperm⟩ := exists_rest hsub
  have hidents := (hperm.map (·.ident)).nodup_iff.mp hnd
  rw [List.map_append] at hidents
  have hdisjoint := (List.nodup_append.mp hidents).2.2
  have hfilter := hperm.filter fun seg => seg.ident ∉ chosen.map (·.ident)
  rw [List.filter_append] at hfilter
  have hchosen : (chosen.filter fun seg => seg.ident ∉ chosen.map (·.ident)) = [] := by
    rw [List.filter_eq_nil_iff]
    intro seg hseg
    simpa using ⟨seg, hseg, rfl⟩
  have hkept : (rest.filter fun seg => seg.ident ∉ chosen.map (·.ident)) = rest := by
    rw [List.filter_eq_self]
    intro seg hseg
    apply decide_eq_true
    intro hmem
    exact hdisjoint _ hmem _ (List.mem_map_of_mem hseg) rfl
  rw [hchosen, hkept, List.nil_append] at hfilter
  exact hperm.trans (hfilter.symm.append_left chosen)

namespace Inv

/-- The swap puts the merged segment in the place of the chosen ones. -/
theorem replace (h : Inv holds cfg initial docs gone s) {job : Job Ix} {merged : Segment Ix}
    (hworker : s.worker = .built job merged) :
    Inv holds cfg initial docs (gone ++ job.chosen.map (·.ident)) { s with
      segments := s.segments.filter (fun seg => seg.ident ∉ job.chosen.map (·.ident)) ++ [merged]
      mergeInProgress := false
      worker := .cleaning job.chosen } := by
  have hknown : known s = merged :: s.segments := known_of_worker hworker
  have hpending : pending s = job :: s.queue := pending_of_worker hworker
  have hqueue : s.queue = [] := by
    have hone := h.one
    rw [hpending, List.length_cons] at hone
    exact List.length_eq_zero_iff.mp (by omega)
  have hidents := h.idents
  rw [hknown, List.map_cons, List.nodup_cons] at hidents
  have hsub := h.chosen job (hpending ▸ List.mem_cons_self)
  have hperm := perm_chosen hidents.2 hsub
  have hsplit := (hperm.map (·.ident)).nodup_iff.mp hidents.2
  rw [List.map_append] at hsplit
  obtain ⟨hchosenNodup, hkeptNodup, -⟩ := List.nodup_append.mp hsplit
  have hmem : ∀ seg ∈ s.segments.filter (fun seg => seg.ident ∉ job.chosen.map (·.ident)) ++ [merged],
      seg ∈ known s ∧ seg.ident ∉ job.chosen.map (·.ident) := by
    intro seg hseg
    rw [hknown]
    rcases List.mem_append.mp hseg with hseg | hseg
    · obtain ⟨hseg, hkept⟩ := List.mem_filter.mp hseg
      exact ⟨List.mem_cons_of_mem _ hseg, of_decide_eq_true hkept⟩
    · rw [List.mem_singleton.mp hseg]
      refine ⟨List.mem_cons_self, fun hmem => hidents.1 ?_⟩
      obtain ⟨x, hx, hident⟩ := List.mem_map.mp hmem
      exact List.mem_map.mpr ⟨x, hsub.subset hx, hident⟩
  have hnone : ∀ j, j ∉ unfinished (.cleaning job.chosen : Worker Ix) ++ s.queue := fun j hj => by
    rw [hqueue] at hj
    cases hj
  exact { h with
    idents := by
      change ((s.segments.filter (fun seg => seg.ident ∉ job.chosen.map (·.ident)) ++ [merged]).map
        (·.ident)).Nodup
      rw [List.map_append]
      apply List.nodup_append.mpr
      refine ⟨hkeptNodup, List.nodup_singleton _, ?_⟩
      intro ident hkept other hother heq
      obtain ⟨seg, hseg, rfl⟩ := List.mem_map.mp hkept
      rw [List.mem_singleton.mp hother] at heq
      exact hidents.1 (List.mem_map.mpr ⟨seg, (List.mem_filter.mp hseg).1, heq⟩)
    fresh := fun seg hseg => h.fresh seg (hmem seg hseg).1
    stored := fun seg hseg => h.stored seg (hmem seg hseg).1
    paths := fun seg hseg => h.paths seg (hmem seg hseg).1
    jobPath := fun j hj => absurd hj (hnone j)
    one := by
      change ([] ++ s.queue).length ≤ 1
      rw [hqueue]
      exact Nat.zero_le _
    flagged := fun hne => absurd hqueue hne
    chosen := fun j hj => absurd hj (hnone j)
    built := fun j m hbuilt => by cases hbuilt
    goneNodup := by
      apply List.nodup_append.mpr
      refine ⟨h.goneNodup, hchosenNodup, ?_⟩
      intro ident hg other hother heq
      obtain ⟨seg, hseg, rfl⟩ := List.mem_map.mp hother
      have hlive : seg ∈ known s := hknown ▸ List.mem_cons_of_mem _ (hsub.subset hseg)
      exact (h.goneDead ident hg).2 seg hlive heq.symm
    goneDead := fun ident hg => by
      rcases List.mem_append.mp hg with hg | hg
      · exact ⟨(h.goneDead ident hg).1, fun seg hseg => (h.goneDead ident hg).2 seg (hmem seg hseg).1⟩
      · constructor
        · obtain ⟨seg, hseg, rfl⟩ := List.mem_map.mp hg
          exact h.fresh seg (hknown ▸ List.mem_cons_of_mem _ (hsub.subset hseg))
        · intro seg hseg heq
          exact (hmem seg hseg).2 (heq ▸ hg)
    conserved := by
      obtain ⟨flushed, hdocs, hheld⟩ := h.conserved
      refine ⟨flushed, hdocs, List.Perm.trans ?_ hheld⟩
      have hmerged : held holds [merged] = held holds job.chosen :=
        (List.append_nil _).trans (h.built job merged hworker)
      have hlive := hperm.flatMap_right fun seg => holds seg.index
      change (held holds (_ ++ [merged])).Perm (held holds s.segments)
      rw [held_append, hmerged]
      apply List.perm_append_comm.trans
      rw [← held_append]
      exact hlive.symm }

/-- The flag is cleared once no merge is under way any more. -/
theorem finishFailed (h : Inv holds cfg initial docs gone s) {job : Job Ix}
    (hworker : s.worker = .failed job) :
    Inv holds cfg initial docs gone { s with mergeInProgress := false, worker := .idle } := by
  have hproduced : produced s.worker = [] := by rw [hworker]; rfl
  have hpending : pending s = job :: s.queue := pending_of_worker hworker
  have hqueue : s.queue = [] := by
    have hone := h.one
    rw [hpending, List.length_cons] at hone
    exact List.length_eq_zero_iff.mp (by omega)
  have hknown : known s = s.segments := by rw [known, hproduced]; rfl
  have hnone : ∀ j, j ∉ unfinished (.idle : Worker Ix) ++ s.queue := fun j hj => by
    rw [hqueue] at hj
    cases hj
  exact { h with
    idents := hknown ▸ h.idents
    fresh := fun seg hseg => h.fresh seg (hknown ▸ hseg)
    stored := fun seg hseg => h.stored seg (hknown ▸ hseg)
    paths := fun seg hseg => h.paths seg (hknown ▸ hseg)
    jobPath := fun j hj => absurd hj (hnone j)
    one := by
      change ([] ++ s.queue).length ≤ 1
      rw [hqueue]
      exact Nat.zero_le _
    flagged := fun hne => absurd hqueue hne
    chosen := fun j hj => absurd hj (hnone j)
    built := fun j m hbuilt => by cases hbuilt
    goneDead := fun ident hg => ⟨(h.goneDead ident hg).1, fun seg hseg =>
      (h.goneDead ident hg).2 seg (hknown ▸ hseg)⟩ }

theorem deleteFiles (h : Inv holds cfg initial docs gone s) (seg : Segment Ix) :
    Inv holds cfg initial docs gone { s with files := removeFiles seg s.files } :=
  { h with
    stored := fun x hx file hfile => by
      change removeFiles seg s.files x.sourceTsv = some file at hfile
      rw [removeFiles] at hfile
      split at hfile
      · cases hfile
      · exact h.stored x hx file hfile }

end Inv

/-- What a step passes to `add`, and what it replaces. -/
theorem added_concat (trace : List (Action Ix)) (action : Action Ix) :
    added (trace ++ [action]) = added trace ++ added [action] := List.filterMap_append

theorem consumed_concat (trace : List (Action Ix)) (action : Action Ix) :
    consumed (trace ++ [action]) = consumed trace ++ consumed [action] := List.flatMap_append

namespace Inv

theorem step (h : Inv holds cfg initial docs gone s)
    (hbuild : ∀ tsv index, builder.returns tsv index → holds index = documents tsv)
    {action : Action Ix} {s' : NrtIndex Ix} (hstep : Step cfg builder s action s')
    (hplain : ∀ d ∈ added [action], Plain d) :
    Inv holds cfg initial (docs ++ added [action]) (gone ++ consumed [action]) s' := by
  have hquiet : ∀ {s' : NrtIndex Ix}, Inv holds cfg initial docs gone s' →
      Inv holds cfg initial (docs ++ []) (gone ++ []) s' := fun h' => by
    rw [List.append_nil, List.append_nil]
    exact h'
  cases hstep with
  | add d clock built now returns =>
    have hadd := h.addDocument (hplain d List.mem_cons_self)
    change Inv holds cfg initial (docs ++ [d]) (gone ++ []) _
    rw [List.append_nil, WriteSide.add]
    split
    · exact hadd.flushLocked hbuild returns now
    · exact hadd
  | flush built now returns => exact hquiet (h.flushLocked hbuild returns now)
  | delete externalId => exact hquiet { h with }
  | search => exact hquiet h
  | @startMerge job queue hworker hjobs =>
    have hpending : pending s = unfinished (.merging job) ++ queue := by
      rw [pending_of_worker hworker, hjobs]
      rfl
    exact hquiet (h.setWorker (.merging job) queue hpending.symm rfl (by rw [hworker]; rfl))
  | buildMerge hworker hread returns =>
    exact hquiet (h.buildMerged hworker hread (hbuild _ _ returns))
  | @mergeRaises job hworker =>
    have hpending := pending_of_worker hworker
    exact hquiet (h.setWorker (.failed job) s.queue hpending.symm rfl (by rw [hworker]; rfl))
  | @buildRaises job tsv hworker hread =>
    have hpending := pending_of_worker hworker
    have hproduced : produced s.worker = [] := by rw [hworker]; rfl
    have hwrite := h.writeMerged (by rw [hpending]; exact List.mem_cons_self) hproduced tsv
    exact hquiet (hwrite.setWorker (.failed job) s.queue hpending.symm rfl hproduced)
  | @swap job merged hworker =>
    have hswap : Inv holds cfg initial docs (gone ++ job.chosen.map (·.ident))
        (swapMerged cfg job merged s) := by
      have hschedule := (h.replace hworker).schedule
      have hcleaning := schedule_worker cfg { s with
        segments := s.segments.filter (fun seg => seg.ident ∉ job.chosen.map (·.ident)) ++ [merged]
        mergeInProgress := false
        worker := .cleaning job.chosen }
      rw [swapMerged]
      dsimp only
      split
      · refine hschedule.setWorker .idle _ ?_ rfl ?_
        · rw [pending, hcleaning]
          rfl
        · rw [hcleaning]
          rfl
      · exact hschedule
    change Inv holds cfg initial (docs ++ []) (gone ++ (job.chosen.map (·.ident) ++ [])) _
    rw [List.append_nil, List.append_nil]
    exact hswap
  | mergeFailed hworker => exact hquiet (h.finishFailed hworker)
  | @removeFiles seg replaced hworker =>
    have hpending := pending_of_worker hworker
    have hproduced : produced s.worker = [] := by rw [hworker]; rfl
    exact hquiet ((h.deleteFiles seg).setWorker (.cleaning replaced) s.queue hpending.symm rfl hproduced)
  | cleaned hworker =>
    have hpending := pending_of_worker hworker
    exact hquiet (h.setWorker .idle s.queue hpending.symm rfl (by rw [hworker]; rfl))
  | close => exact hquiet { h with }

/-- At the start every source file outside the segments directory is as it was built. -/
theorem init {files : Path → Option Str} {ident : Nat} {now : ℚ}
    (hdistinct : (initial.map (·.ident)).Nodup) (hident : ∀ seg ∈ initial, seg.ident < ident)
    (houtside : ∀ seg ∈ initial, ¬segmentsDir cfg <+: seg.sourceTsv)
    (hstored : ∀ seg ∈ initial, ∀ file, files seg.sourceTsv = some file →
      Stores file (holds seg.index)) :
    Inv holds cfg initial [] [] {
      segments := initial
      nextSegmentId := initial.length
      lastFlushTime := now
      files := files
      nextIdent := ident } where
  idents := hdistinct
  fresh := hident
  stored := hstored
  paths seg hseg segId _ heq := houtside seg hseg (heq ▸ List.prefix_append _ _)
  jobPath _ hjob := by cases hjob
  one := Nat.zero_le _
  flagged hne := absurd rfl hne
  chosen _ hjob := by cases hjob
  built _ _ hbuilt := by cases hbuilt
  goneNodup := List.nodup_nil
  goneDead _ hg := by cases hg
  plain _ hd := by cases hd
  conserved := ⟨[], rfl, by rw [List.map_nil, List.append_nil]⟩

end Inv

/-- Initial segments that a run may start from: their source files lie elsewhere
and read back as what they hold. -/
structure Prepared (holds : Ix → List Document) (cfg : Config) (initial : List (Segment Ix))
    (files : Path → Option Str) : Prop where
  distinct : (initial.map (·.ident)).Nodup
  outside : ∀ seg ∈ initial, ¬segmentsDir cfg <+: seg.sourceTsv
  stored : ∀ seg ∈ initial, ∀ file, files seg.sourceTsv = some file → Stores file (holds seg.index)

theorem inv_of_run (hbuild : ∀ tsv index, builder.returns tsv index → holds index = documents tsv)
    {files : Path → Option Str} (hprepared : Prepared holds cfg initial files) {trace : List (Action Ix)}
    (hrun : (nrtIndex cfg builder initial files).Run trace s) (hplain : ∀ d ∈ added trace, Plain d) :
    Inv holds cfg initial (added trace) (consumed trace) s := by
  have hinv : (∀ d ∈ added trace, Plain d) → Inv holds cfg initial (added trace) (consumed trace) s := by
    apply hrun.invariant fun trace s => (∀ d ∈ added trace, Plain d) →
      Inv holds cfg initial (added trace) (consumed trace) s
    · intro s hinit _
      obtain ⟨ident, now, hident, rfl⟩ := hinit
      exact Inv.init hprepared.distinct hident hprepared.outside hprepared.stored
    · intro trace s action s' ih hstep hall
      rw [added_concat] at hall ⊢
      rw [consumed_concat]
      exact (ih fun d hd => hall d (List.mem_append_left _ hd)).step hbuild hstep
        fun d hd => hall d (List.mem_append_right _ hd)
  exact hinv hplain

/-- Whenever the lock is free, the buffer and the live segments hold the initial
documents and the added ones; a search sees all of them but the buffered ones,
and no segment is replaced twice. -/
theorem documents_conserved (cfg : Config) (builder : BuildSegment Ix) (holds : Ix → List Document)
    (hbuild : ∀ tsv index, builder.returns tsv index → holds index = documents tsv)
    (initial : List (Segment Ix)) (files : Path → Option Str)
    (hdistinct : (initial.map (·.ident)).Nodup)
    (houtside : ∀ seg ∈ initial, ¬segmentsDir cfg <+: seg.sourceTsv)
    (hinitial : ∀ seg ∈ initial, ∀ file, files seg.sourceTsv = some file →
      documents file = holds seg.index ∧ Terminated file)
    (hreturns : ∀ d ∈ held holds initial, NoReturns d) {trace : List (Action Ix)} {s : NrtIndex Ix}
    (hrun : (nrtIndex cfg builder initial files).Run trace s) (hplain : ∀ d ∈ added trace, Plain d) :
    (s.buffer.map encodeDocument ++ held holds s.segments).Perm
        (held holds initial ++ (added trace).map encodeDocument) ∧
      (∀ snapshot tombstones s', Step cfg builder s (.search snapshot tombstones) s' →
        ∃ flushed, added trace = flushed ++ s.buffer ∧
          (held holds snapshot).Perm (held holds initial ++ flushed.map encodeDocument)) ∧
      (consumed trace).Nodup := by
  have hprepared : Prepared holds cfg initial files := by
    refine ⟨hdistinct, houtside, fun seg hseg file hfile => ?_⟩
    obtain ⟨hdocs, hterm⟩ := hinitial seg hseg file hfile
    exact ⟨hdocs, fun d hd => hreturns d (List.mem_flatMap.mpr ⟨seg, hseg, hd⟩), hterm⟩
  have h := inv_of_run hbuild hprepared hrun hplain
  obtain ⟨flushed, hdocs, hperm⟩ := h.conserved
  refine ⟨?_, ?_, h.goneNodup⟩
  · rw [hdocs, List.map_append, ← List.append_assoc]
    exact List.perm_append_comm.trans (hperm.append_right _)
  · intro snapshot tombstones s' hsearch
    cases hsearch
    exact ⟨flushed, hdocs, hperm⟩

/-- A builder whose index is the list of its documents. -/
def listBuilder : BuildSegment (List Document) where
  returns tsv index := index = documents tsv
  docCount := List.length

def smallConfig : Config where
  baseDir := [lit "nrt"]
  flushThresholdDocs := 1
  flushIntervalS := 3600
  mergePolicy := some { mergeFactor := 2, maxSegments := 2 }

def firstSegment : Segment (List Document) := ⟨0, [⟨lit "a", lit "x"⟩], [lit "a.tsv"], [lit "a"], 1⟩
def secondSegment : Segment (List Document) := ⟨1, [⟨lit "b", lit "y"⟩], [lit "b.tsv"], [lit "b"], 1⟩

def sourceFiles (first second : Str) : Path → Option Str := fun path =>
  if path = [lit "a.tsv"] then some first else if path = [lit "b.tsv"] then some second else none

def startState (files : Path → Option Str) : NrtIndex (List Document) where
  segments := [firstSegment, secondSegment]
  nextSegmentId := 2
  lastFlushTime := 0
  files := files
  nextIdent := 2

/-- Adding the document `c` flushes it and schedules a merge of the first two segments. -/
def flushedState (files : Path → Option Str) : NrtIndex (List Document) :=
  add smallConfig listBuilder (['c'], ['z']) 0 (some [⟨lit "c", lit "z"⟩]) 0 (startState files)

theorem flushedState_run (files : Path → Option Str) :
    (nrtIndex smallConfig listBuilder [firstSegment, secondSegment] files).Run [.add (['c'], ['z'])]
      (flushedState files) := by
  have hinit : (nrtIndex smallConfig listBuilder [firstSegment, secondSegment] files).Run []
      (startState files) := .init ⟨2, 0, by decide, rfl⟩
  have hstep : Step smallConfig listBuilder (startState files) (.add (['c'], ['z'])) (flushedState files) :=
    Step.add (['c'], ['z']) 0 (some [(⟨lit "c", lit "z"⟩ : Document)]) 0 fun index hindex => by
      cases hindex
      change [⟨lit "c", lit "z"⟩] = documents (flushTsv [(['c'], ['z'])])
      decide
  exact hinit.step hstep

theorem plain_added : ∀ d ∈ added [(.add (['c'], ['z']) : Action (List Document))], Plain d := by
  intro d hd
  rw [List.mem_singleton.mp hd]
  constructor
  · constructor <;> decide
  · decide

theorem documents_conserved_flushed :
    (held id (flushedState (sourceFiles (lit "a\tx\n") (lit "b\ty\n"))).segments).Perm
      [⟨lit "a", lit "x"⟩, ⟨lit "b", lit "y"⟩, ⟨lit "c", lit "z"⟩] := by
  apply (documents_conserved smallConfig listBuilder id (fun _ _ h => h) [firstSegment, secondSegment]
    (sourceFiles (lit "a\tx\n") (lit "b\ty\n")) (by decide) (by decide) ?_
    (by unfold NoReturns; decide) (flushedState_run _) plain_added).1
  intro seg hseg file hfile
  rcases List.mem_pair.mp hseg with rfl | rfl
  · cases hfile
    exact ⟨by decide, terminated_concat (lit "a\tx")⟩
  · cases hfile
    exact ⟨by decide, terminated_concat (lit "b\ty")⟩

/-- The source of the first segment lacks its last newline, and the merge joins
its document to the next one. -/
def gluedFiles : Path → Option Str := sourceFiles (lit "a\tx") (lit "b\ty\n")

def gluedJob : Job (List Document) := ⟨[firstSegment, secondSegment], 3⟩

def gluedTsv : Str := encode ['a', '\t', 'x', 'b', '\t', 'y', '\n']

def mergingState : NrtIndex (List Document) :=
  { flushedState gluedFiles with worker := .merging gluedJob, queue := [] }

def gluedState : NrtIndex (List Document) :=
  buildMerged smallConfig listBuilder gluedJob gluedTsv (documents gluedTsv) mergingState

def gluedSegment : Segment (List Document) :=
  ⟨3, documents gluedTsv, tsvPath smallConfig 3, indexDirPath smallConfig 3, 1⟩

theorem mergedTsv_glued : mergedTsv mergingState gluedJob = some gluedTsv :=
  mergeTsv_encode [['a', '\t', 'x'], ['b', '\t', 'y', '\n']]

theorem merge_glues_unterminated :
    ([firstSegment, secondSegment].map (·.ident)).Nodup ∧
    (∀ seg ∈ [firstSegment, secondSegment], ¬segmentsDir smallConfig <+: seg.sourceTsv ∧
      ¬segmentsDir smallConfig <+: seg.indexDir ∧
      (gluedFiles seg.sourceTsv).map documents = some seg.index) ∧
    ∃ trace s, (nrtIndex smallConfig listBuilder [firstSegment, secondSegment] gluedFiles).Run trace s ∧
      (∀ d ∈ added trace, Plain d) ∧
      ¬(s.buffer.map encodeDocument ++ held id s.segments).Perm
        (held id [firstSegment, secondSegment] ++ (added trace).map encodeDocument) := by
  refine ⟨by decide, by decide, [.add (['c'], ['z']), .startMerge, .buildMerge, .swap gluedJob],
    swapMerged smallConfig gluedJob gluedSegment gluedState, ?_, ?_, ?_⟩
  · have hstart : Step smallConfig listBuilder (flushedState gluedFiles) .startMerge mergingState :=
      Step.startMerge rfl rfl
    have hbuild : Step smallConfig listBuilder mergingState .buildMerge gluedState :=
      Step.buildMerge rfl mergedTsv_glued rfl
    have hswap : Step smallConfig listBuilder gluedState (.swap gluedJob)
        (swapMerged smallConfig gluedJob gluedSegment gluedState) := Step.swap rfl
    exact (((flushedState_run gluedFiles).step hstart).step hbuild).step hswap
  · exact plain_added
  · intro hperm
    exact absurd hperm.length_eq (by decide)

end CascadeSearch.Nrt.Conservation
