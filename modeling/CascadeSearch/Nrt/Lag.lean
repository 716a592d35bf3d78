import CascadeSearch.Nrt.Probe
import CascadeSearch.Nrt.Visible
import Mathlib.Data.List.ReduceOption

/-!
# Index-to-searchable lag (`lag_experiment.py`)

One thread adds documents and, each time the index has flushed, polls until it
finds them, while the merge pool works on the same index. It relies on a flush
happening exactly when as many documents are pending as the threshold says.
-/
namespace CascadeSearch.Nrt.Lag

open Lib.TextFile Lib.Transition
open Index.Format Index.Porter Index.Corpus Index.MergePass Index.Fits
open Index.Analyzer (analyze)
open Query.Reader Query.Search Query.Retrieval
open FanOut Tsv WriteSide Conservation Merging Publish BoundSearch ResultPage Visible Probe

/-- An added document whose lag is not yet known. -/
structure Pending where
  externalId : Text
  probe : Text
  writeStart : ℚ

/-- What the thread of `run_threshold` does next; `last` marks the drain after
the loop. -/
inductive Main where
  | next
  | search (d : Text × Text) (probe : Text)
  | stamp (d : Text × Text) (probe : Text)
  | add (d : Text × Text) (probe : Text) (writeStart : ℚ)
  | drain (last : Bool)
  | poll (last : Bool) (deadline : ℚ) (remaining : List Pending)
  | mark (last : Bool) (deadline : ℚ) (remaining : List Pending)
  | pass (last : Bool) (deadline foundAt : ℚ) (left still : List Pending)
  | note (last : Bool)
  | raised
  | finished

/-- The variables of `run_threshold`; `time.monotonic` and `time.perf_counter`
are one clock. -/
structure State (Ix : Type) where
  now : ℚ
  nrt : NrtIndex Ix
  stream : List (Text × Text)
  main : Main := .next
  pending : List Pending := []
  lagUs : List ℚ := []
  collisionsSkipped : Nat := 0
  timedOutTotal : Nat := 0
  segmentCountTrace : List Nat
  mergeBeforeAfter : Option (Nat × Nat) := none

variable {Ix : Type} {bm25 : Bm25 ℚ}

/-- `note_segment_count`. -/
def noteSegmentCount (s : State Ix) : State Ix :=
  let count := s.nrt.segments.length
  { s with
    segmentCountTrace := s.segmentCountTrace ++ [count]
    mergeBeforeAfter := s.mergeBeforeAfter.or
      (s.segmentCountTrace.getLast?.bind fun before => if count < before then some (before, count) else none) }

/-- The head of the loop. -/
def fetch (d : Text × Text) (stream : List (Text × Text)) (s : State Ix) : State Ix :=
  let s := { noteSegmentCount s with stream := stream }
  match longestToken d.2 with
  | none => s
  | some probe => { s with main := .search d probe }

/-- The ids on the page, `{eid for eid, _ in ...}`. -/
def hits (page : List (Text × ℚ)) : Finset Text := (page.map Prod.fst).toFinset

def preHits (d : Text × Text) (probe : Text) (page : List (Text × ℚ)) (s : State Ix) : State Ix :=
  if 10 ≤ (hits page).card then { s with collisionsSkipped := s.collisionsSkipped + 1, main := .next }
  else { s with main := .stamp d probe }

/-- `nrt.add` and what follows it in the loop; `built` is `none` if a flush raised. -/
def addPending (cfg : Config) (builder : BuildSegment Ix) (d : Text × Text) (probe : Text) (writeStart : ℚ)
    (built : Option Ix) (later : ℚ) (s : State Ix) : State Ix :=
  let flushes := shouldFlush cfg s.now { s.nrt with buffer := s.nrt.buffer ++ [d] }
  let s := { s with nrt := add cfg builder d s.now built later s.nrt, now := later }
  if flushes && built.isNone then { s with main := .raised }
  else
    let pending := s.pending ++ [⟨d.1, probe, writeStart⟩]
    { s with pending := pending, main := if cfg.flushThresholdDocs ≤ pending.length then .drain false else .next }

/-- `nrt.flush` after the loop. -/
def flushTail (cfg : Config) (builder : BuildSegment Ix) (built : Option Ix) (later : ℚ) (s : State Ix) : State Ix :=
  let raises := s.nrt.buffer ≠ [] && built.isNone
  let s := { s with nrt := flushLocked cfg builder built later s.nrt, now := later }
  if raises then { s with main := .raised } else { s with main := .drain true }

/-- The test of the `while` in `_drain_pending`, and what follows the call. -/
def whileRemaining (last : Bool) (deadline : ℚ) (remaining : List Pending) (s : State Ix) : State Ix :=
  if remaining ≠ [] ∧ s.now < deadline then { s with main := .mark last deadline remaining }
  else
    { s with
      timedOutTotal := s.timedOutTotal + remaining.length
      pending := if last then s.pending else []
      main := .note last }

/-- One search of the `for` in `_drain_pending`. -/
def look (last : Bool) (deadline foundAt : ℚ) (entry : Pending) (left still : List Pending) (page : List (Text × ℚ))
    (s : State Ix) : State Ix :=
  if entry.externalId ∈ hits page then
    { s with lagUs := s.lagUs ++ [(foundAt - entry.writeStart) * 10 ^ 6], main := .pass last deadline foundAt left still }
  else { s with main := .pass last deadline foundAt left (still ++ [entry]) }

/-- What the thread of the merge pool does. -/
def ByWorker : WriteSide.Action Ix → Prop
  | .startMerge | .buildMerge | .mergeRaises | .swap _ | .mergeFailed | .removeFiles | .cleaned => True
  | .add _ | .flush | .delete _ | .search _ _ | .close => False

/-- The label of a step is what it does to the index. -/
inductive Step (cfg : Config) (timeoutS : ℚ) :
    State (OpenIndex bm25) → Option (WriteSide.Action (OpenIndex bm25)) → State (OpenIndex bm25) → Prop where
  | wait {s : State (OpenIndex bm25)} (later : ℚ) (after : s.now ≤ later) : Step cfg timeoutS s none { s with now := later }
  | merge {s : State (OpenIndex bm25)} {action : WriteSide.Action (OpenIndex bm25)} {nrt : NrtIndex (OpenIndex bm25)}
      (worker : ByWorker action) (step : WriteSide.Step cfg (openBuilder bm25) s.nrt action nrt) :
      Step cfg timeoutS s (some action) { s with nrt := nrt }
  | fetch {s : State (OpenIndex bm25)} {d : Text × Text} {stream : List (Text × Text)} (main : s.main = .next)
      (docs : s.stream = d :: stream) : Step cfg timeoutS s none (fetch d stream s)
  | preHits {s : State (OpenIndex bm25)} {d : Text × Text} {probe : Text} (main : s.main = .search d probe)
      (page : List (Text × ℚ)) (returns : SearchReturnsPage s.nrt probe 10 .blockMaxWand page) :
      Step cfg timeoutS s none (preHits d probe page s)
  | stamp {s : State (OpenIndex bm25)} {d : Text × Text} {probe : Text} (main : s.main = .stamp d probe) :
      Step cfg timeoutS s none { s with main := .add d probe s.now }
  | add {s : State (OpenIndex bm25)} {d : Text × Text} {probe : Text} {writeStart : ℚ}
      (main : s.main = .add d probe writeStart) (built : Option (OpenIndex bm25)) (later : ℚ) (after : s.now ≤ later)
      (returns : ∀ index ∈ built, (openBuilder bm25).returns (flushTsv (s.nrt.buffer ++ [d])) index) :
      Step cfg timeoutS s (some (.add d)) (addPending cfg (openBuilder bm25) d probe writeStart built later s)
  | flush {s : State (OpenIndex bm25)} (main : s.main = .next) (docs : s.stream = []) (built : Option (OpenIndex bm25))
      (later : ℚ) (after : s.now ≤ later)
      (returns : ∀ index ∈ built, (openBuilder bm25).returns (flushTsv s.nrt.buffer) index) :
      Step cfg timeoutS s (some .flush) (flushTail cfg (openBuilder bm25) built later s)
  | drain {s : State (OpenIndex bm25)} {last : Bool} (main : s.main = .drain last) :
      Step cfg timeoutS s none { s with main := .poll last (s.now + timeoutS) s.pending }
  | poll {s : State (OpenIndex bm25)} {last : Bool} {deadline : ℚ} {remaining : List Pending}
      (main : s.main = .poll last deadline remaining) : Step cfg timeoutS s none (whileRemaining last deadline remaining s)
  | mark {s : State (OpenIndex bm25)} {last : Bool} {deadline : ℚ} {remaining : List Pending}
      (main : s.main = .mark last deadline remaining) :
      Step cfg timeoutS s none { s with main := .pass last deadline s.now remaining [] }
  | look {s : State (OpenIndex bm25)} {last : Bool} {deadline foundAt : ℚ} {entry : Pending} {left still : List Pending}
      (main : s.main = .pass last deadline foundAt (entry :: left) still) (page : List (Text × ℚ))
      (returns : SearchReturnsPage s.nrt entry.probe 10 .blockMaxWand page) :
      Step cfg timeoutS s none (look last deadline foundAt entry left still page s)
  | again {s : State (OpenIndex bm25)} {last : Bool} {deadline foundAt : ℚ} {still : List Pending}
      (main : s.main = .pass last deadline foundAt [] still) :
      Step cfg timeoutS s none { s with main := .poll last deadline still }
  | note {s : State (OpenIndex bm25)} {last : Bool} (main : s.main = .note last) :
      Step cfg timeoutS s none { noteSegmentCount s with main := if last then .finished else .next }

/-- `run_threshold` up to the queries at its end. -/
def runThreshold (cfg : Config) (timeoutS : ℚ) (base : Segment (OpenIndex bm25)) (files : Path → Option Str)
    (stream : List (Text × Text)) (start : ℚ) :
    System (State (OpenIndex bm25)) (Option (WriteSide.Action (OpenIndex bm25))) where
  init s := ∃ nrt, (nrtIndex cfg (openBuilder bm25) [base] files).init nrt ∧ nrt.lastFlushTime = start ∧
    s = { now := start, nrt := nrt, stream := stream, segmentCountTrace := [nrt.segments.length] }
  step := Step cfg timeoutS

/-- The document being handled, and its probe. -/
def Main.current : Main → List ((Text × Text) × Text)
  | .search d probe | .stamp d probe | .add d probe _ => [(d, probe)]
  | _ => []

/-- The pending documents whose lag is neither recorded nor given up. -/
def Main.outstanding (pending : List Pending) : Main → List Pending
  | .next | .search _ _ | .stamp _ _ | .add _ _ _ | .drain _ => pending
  | .poll _ _ remaining | .mark _ _ remaining => remaining
  | .pass _ _ _ left still => left ++ still
  | .note _ | .raised | .finished => []

/-- Whether the loop over the stream has ended. -/
def Main.last : Main → Bool
  | .drain last | .poll last _ _ | .mark last _ _ | .pass last _ _ _ _ | .note last => last
  | .finished => true
  | _ => false

/-- In the loop the pending documents are the buffered ones, too few for a flush;
in a drain nothing is buffered. -/
def Aligned (cfg : Config) (s : State Ix) : Main → Prop
  | .next | .search _ _ | .stamp _ _ | .add _ _ _ =>
      s.nrt.buffer.map Prod.fst = s.pending.map (·.externalId) ∧
        (s.pending = [] ∨ s.pending.length < cfg.flushThresholdDocs)
  | .note last => s.nrt.buffer = [] ∧ (last = false → s.pending = [])
  | .drain _ | .poll _ _ _ | .mark _ _ _ | .pass _ _ _ _ _ | .finished => s.nrt.buffer = []
  | .raised => True

/-- Documents without a word. -/
def wordless (docs : List (Text × Text)) : Nat := docs.countP fun d => (longestToken d.2).isNone

/-- Where a run stands that has added `docs` of the stream and goes on with `main`. -/
structure Tracks (cfg : Config) (stream : List (Text × Text)) (start : ℚ) (docs : List (Text × Text)) (main : Main)
    (s : State Ix) : Prop where
  started : start ≤ s.nrt.lastFlushTime
  flushed : s.nrt.lastFlushTime ≤ s.now
  seen : ∃ seen, stream = seen ++ s.stream ∧ (docs ++ main.current.map Prod.fst).Sublist seen ∧
    seen.length = wordless seen + s.collisionsSkipped + docs.length + main.current.length
  probed : ∀ x ∈ main.current, longestToken x.1.2 = some x.2
  counted : docs.length = s.lagUs.length + s.timedOutTotal + (main.outstanding s.pending).length
  entries : ∀ e ∈ main.outstanding s.pending, ∃ d ∈ docs, d.1 = e.externalId ∧ longestToken d.2 = some e.probe
  aligned : Aligned cfg s main
  ended : main.last = true → s.stream = []

variable {cfg : Config} {timeoutS : ℚ} {label : Option (WriteSide.Action (OpenIndex bm25))}
  {s s' : State (OpenIndex bm25)}

theorem addPending_nrt (d : Text × Text) (probe : Text) (writeStart : ℚ) (built : Option (OpenIndex bm25)) (later : ℚ)
    (s : State (OpenIndex bm25)) : (addPending cfg (openBuilder bm25) d probe writeStart built later s).nrt =
      add cfg (openBuilder bm25) d s.now built later s.nrt := by
  rw [addPending]
  dsimp only
  split <;> rfl

theorem flushTail_nrt (built : Option (OpenIndex bm25)) (later : ℚ) (s : State (OpenIndex bm25)) :
    (flushTail cfg (openBuilder bm25) built later s).nrt = flushLocked cfg (openBuilder bm25) built later s.nrt := by
  rw [flushTail]
  dsimp only
  split <;> rfl

theorem fetch_nrt (d : Text × Text) (stream : List (Text × Text)) (s : State Ix) : (fetch d stream s).nrt = s.nrt := by
  rw [fetch]
  dsimp only
  split <;> rfl

theorem preHits_nrt (d : Text × Text) (probe : Text) (page : List (Text × ℚ)) (s : State Ix) :
    (preHits d probe page s).nrt = s.nrt := by
  rw [preHits]
  split <;> rfl

theorem whileRemaining_nrt (last : Bool) (deadline : ℚ) (remaining : List Pending) (s : State Ix) :
    (whileRemaining last deadline remaining s).nrt = s.nrt := by
  rw [whileRemaining]
  split <;> rfl

theorem look_nrt (last : Bool) (deadline foundAt : ℚ) (entry : Pending) (left still : List Pending)
    (page : List (Text × ℚ)) (s : State Ix) : (look last deadline foundAt entry left still page s).nrt = s.nrt := by
  rw [look]
  split <;> rfl

/-- What the label of a step says of the index. -/
def Acts (cfg : Config) (nrt nrt' : NrtIndex (OpenIndex bm25)) : Option (WriteSide.Action (OpenIndex bm25)) → Prop
  | none => nrt' = nrt
  | some action => WriteSide.Step cfg (openBuilder bm25) nrt action nrt'

theorem acts_of_step (h : Step cfg timeoutS s label s') : Acts cfg s.nrt s'.nrt label := by
  cases h with
  | merge worker step => exact step
  | add main built later after returns =>
    rw [addPending_nrt]
    exact .add _ _ _ _ returns
  | flush main docs built later after returns =>
    rw [flushTail_nrt]
    exact .flush _ _ returns
  | fetch main docs => exact fetch_nrt _ _ _
  | preHits main page returns => exact preHits_nrt _ _ _ _
  | poll main => exact whileRemaining_nrt _ _ _ _
  | look main page returns => exact look_nrt _ _ _ _ _ _ _ _
  | wait | stamp | drain | mark | again | note => exact rfl

/-- Only the merge pool, `add` and `flush` change the index. -/
theorem deleted_of_step (h : Step cfg timeoutS s label s') : deleted label.toList = ∅ := by
  cases h with
  | @merge action nrt worker step => cases action <;> first | exact worker.elim | rfl
  | _ => rfl

theorem reduceOption_concat {α : Type} (trace : List (Option α)) (label : Option α) :
    (trace ++ [label]).reduceOption = trace.reduceOption ++ label.toList := by
  rw [List.reduceOption_append]
  cases label <;> rfl

variable {base : Segment (OpenIndex bm25)} {files : Path → Option Str} {stream : List (Text × Text)} {start : ℚ}
  {trace : List (Option (WriteSide.Action (OpenIndex bm25)))}

/-- The index goes through a run of its own. -/
theorem nrt_of_run (hrun : (runThreshold cfg timeoutS base files stream start).Run trace s) :
    (nrtIndex cfg (openBuilder bm25) [base] files).Run trace.reduceOption s.nrt ∧ deleted trace.reduceOption = ∅ := by
  apply hrun.invariant fun trace s =>
    (nrtIndex cfg (openBuilder bm25) [base] files).Run trace.reduceOption s.nrt ∧ deleted trace.reduceOption = ∅
  · intro s hinit
    obtain ⟨nrt, hnrt, -, rfl⟩ := hinit
    exact ⟨.init hnrt, rfl⟩
  · intro trace s label s' ih hstep
    obtain ⟨hrun, hdeleted⟩ := ih
    have hacts := acts_of_step hstep
    have hquiet := deleted_of_step hstep
    rw [reduceOption_concat]
    cases label with
    | none =>
      have heq : s'.nrt = s.nrt := hacts
      rw [heq, Option.toList_none, List.append_nil]
      exact ⟨hrun, hdeleted⟩
    | some action =>
      refine ⟨hrun.step hacts, ?_⟩
      rw [Option.toList_some, deleted_concat, hdeleted, Finset.empty_union]
      exact hquiet

/-- The merge pool leaves the buffer and the time of the last flush. -/
theorem worker_frame {nrt nrt' : NrtIndex Ix} {builder : BuildSegment Ix} {action : WriteSide.Action Ix}
    (hworker : ByWorker action) (h : WriteSide.Step cfg builder nrt action nrt') :
    nrt'.buffer = nrt.buffer ∧ nrt'.lastFlushTime = nrt.lastFlushTime ∧ added [action] = [] := by
  cases h with
  | @swap job merged worker =>
    obtain ⟨flag, next, queue, hframe⟩ := maybeScheduleMergeLocked_frame cfg (swapped job merged nrt)
    rw [swapMerged_eq, hframe]
    split <;> exact ⟨rfl, rfl, rfl⟩
  | add | flush | delete | search | close => exact hworker.elim
  | _ => exact ⟨rfl, rfl, rfl⟩

/-- A flush that does not raise empties the buffer. -/
theorem flushLocked_empties (cfg : Config) (builder : BuildSegment Ix) {built : Option Ix} (later : ℚ) {nrt : NrtIndex Ix}
    (h : nrt.buffer = [] ∨ built ≠ none) : (flushLocked cfg builder built later nrt).buffer = [] := by
  obtain ⟨hnil, heq⟩ | ⟨hne, ⟨hnone, -⟩ | ⟨index, -, heq⟩⟩ := flushLocked_cases cfg builder built later nrt
  · rw [heq, hnil]
  · exact (h.elim hne (· hnone)).elim
  · rw [heq, schedule_buffer]
    rfl

/-- Its time is that of the flush, or the one before. -/
theorem flushLocked_lastFlushTime (cfg : Config) (builder : BuildSegment Ix) (built : Option Ix) (later : ℚ)
    (nrt : NrtIndex Ix) : (flushLocked cfg builder built later nrt).lastFlushTime = nrt.lastFlushTime ∨
      (flushLocked cfg builder built later nrt).lastFlushTime = later := by
  obtain ⟨-, heq⟩ | ⟨-, ⟨-, heq⟩ | ⟨index, -, heq⟩⟩ := flushLocked_cases cfg builder built later nrt
  · exact Or.inl (by rw [heq])
  · exact Or.inl (by rw [heq]; rfl)
  · obtain ⟨flag, next, queue, hframe⟩ := maybeScheduleMergeLocked_frame cfg (published cfg builder index later nrt)
    exact Or.inr (by rw [heq, hframe]; rfl)

namespace Tracks

variable {docs : List (Text × Text)} {main : Main}

/-- The thread goes on with the same documents in hand. -/
theorem move (h : Tracks cfg stream start docs main s) {main' : Main} (hcurrent : main'.current = main.current)
    (hout : (main'.outstanding s.pending).Perm (main.outstanding s.pending)) (haligned : Aligned cfg s main')
    (hended : main'.last = main.last) : Tracks cfg stream start docs main' { s with main := main' } where
  started := h.started
  flushed := h.flushed
  seen := by
    rw [hcurrent]
    exact h.seen
  probed := by
    rw [hcurrent]
    exact h.probed
  counted := by
    rw [hout.length_eq]
    exact h.counted
  entries e he := h.entries e (hout.subset he)
  aligned := by cases main' <;> exact haligned
  ended hlast := h.ended (hended ▸ hlast)

theorem wait (h : Tracks cfg stream start docs main s) {later : ℚ} (hlater : s.now ≤ later) :
    Tracks cfg stream start docs main { s with now := later } where
  started := h.started
  flushed := h.flushed.trans hlater
  seen := h.seen
  probed := h.probed
  counted := h.counted
  entries := h.entries
  aligned := by cases main <;> exact h.aligned
  ended := h.ended

theorem merge (h : Tracks cfg stream start docs main s) {nrt : NrtIndex (OpenIndex bm25)}
    (hbuffer : nrt.buffer = s.nrt.buffer) (htime : nrt.lastFlushTime = s.nrt.lastFlushTime) :
    Tracks cfg stream start docs main { s with nrt := nrt } where
  started := htime ▸ h.started
  flushed := htime ▸ h.flushed
  seen := h.seen
  probed := h.probed
  counted := h.counted
  entries := h.entries
  aligned := by
    have haligned := h.aligned
    cases main <;> simp only [Aligned, hbuffer] at haligned ⊢ <;> exact haligned
  ended := h.ended

theorem note (h : Tracks cfg stream start docs main s) : Tracks cfg stream start docs main (noteSegmentCount s) where
  started := h.started
  flushed := h.flushed
  seen := h.seen
  probed := h.probed
  counted := h.counted
  entries := h.entries
  aligned := by cases main <;> exact h.aligned
  ended := h.ended

/-- The next document of the stream. -/
theorem fetch (h : Tracks cfg stream start docs .next s) (hmain : s.main = .next) {d : Text × Text}
    {rest : List (Text × Text)} (hstream : s.stream = d :: rest) :
    Tracks cfg stream start docs (Lag.fetch d rest s).main (Lag.fetch d rest s) := by
  obtain ⟨seen, hsplit, hsub, hlength⟩ := h.seen
  have hsplit' : stream = (seen ++ [d]) ++ rest := by rw [hsplit, hstream, List.append_assoc, List.singleton_append]
  have hwordless : wordless (seen ++ [d]) = wordless seen + if (longestToken d.2).isNone then 1 else 0 := by
    rw [wordless, List.countP_append, List.countP_singleton]
    rfl
  have hlength' : (seen ++ [d]).length = wordless seen + s.collisionsSkipped + docs.length + 1 := by
    rw [List.length_append, hlength]
    rfl
  rw [Lag.fetch]
  cases hprobe : longestToken d.2 with
  | none =>
    rw [hprobe] at hwordless
    change Tracks cfg stream start docs s.main _
    rw [hmain]
    exact { h with
      seen := ⟨seen ++ [d], hsplit', hsub.trans (List.sublist_append_left _ _), by
        rw [hlength', hwordless]
        change _ = wordless seen + 1 + s.collisionsSkipped + docs.length + 0
        omega⟩
      ended := fun hlast => absurd hlast Bool.false_ne_true }
  | some probe =>
    rw [hprobe] at hwordless
    exact { h with
      seen := ⟨seen ++ [d], hsplit', by
        have hdocs : (docs ++ []).Sublist seen := hsub
        rw [List.append_nil] at hdocs
        exact hdocs.append (List.Sublist.refl [d]), by
        rw [hlength', hwordless]
        rfl⟩
      probed := fun x hx => by
        rw [List.mem_singleton.mp hx]
        exact hprobe
      ended := fun hlast => absurd hlast Bool.false_ne_true }

theorem preHits {d : Text × Text} {probe : Text} (h : Tracks cfg stream start docs (.search d probe) s)
    (page : List (Text × ℚ)) :
    Tracks cfg stream start docs (Lag.preHits d probe page s).main (Lag.preHits d probe page s) := by
  rw [Lag.preHits]
  split
  · obtain ⟨seen, hsplit, hsub, hlength⟩ := h.seen
    have hdocs : (docs ++ []).Sublist seen := (List.append_nil docs).symm ▸ (List.sublist_append_left docs _).trans hsub
    exact { h with
      seen := ⟨seen, hsplit, hdocs, by
        rw [hlength]
        change _ = wordless seen + (s.collisionsSkipped + 1) + docs.length + 0
        simp only [Main.current, List.length_singleton]
        omega⟩
      probed := fun x hx => absurd hx List.not_mem_nil
      ended := fun hlast => absurd hlast Bool.false_ne_true }
  · exact h.move rfl (.refl _) h.aligned rfl

/-- The document of the loop becomes a pending one. -/
theorem pend {d : Text × Text} {probe : Text} {writeStart : ℚ} (h : Tracks cfg stream start docs (.add d probe writeStart) s)
    {nrt : NrtIndex (OpenIndex bm25)} {later : ℚ} (hstarted : start ≤ nrt.lastFlushTime)
    (hflushed : nrt.lastFlushTime ≤ later) {main' : Main} (hcurrent : main'.current = [])
    (hout : ∀ pending, main'.outstanding pending = pending)
    (hlast : main'.last = false) {s' : State (OpenIndex bm25)}
    (hs' : s' = { s with nrt := nrt, now := later, pending := s.pending ++ [⟨d.1, probe, writeStart⟩], main := main' })
    (haligned : Aligned cfg s' main') : Tracks cfg stream start (docs ++ [d]) main' s' := by
  obtain ⟨seen, hsplit, hsub, hlength⟩ := h.seen
  have hcounted : docs.length = s.lagUs.length + s.timedOutTotal + s.pending.length := h.counted
  subst hs'
  constructor
  · exact hstarted
  · exact hflushed
  · refine ⟨seen, hsplit, ?_, ?_⟩
    · rw [hcurrent, List.map_nil, List.append_nil]
      exact hsub
    · rw [hcurrent, List.length_append, hlength]
      rfl
  · rw [hcurrent]
    exact fun x hx => absurd hx List.not_mem_nil
  · rw [hout, List.length_append, List.length_append, hcounted]
    rfl
  · rw [hout]
    intro e he
    rcases List.mem_append.mp he with he | he
    · obtain ⟨d', hd', hentry⟩ := h.entries e he
      exact ⟨d', List.mem_append_left _ hd', hentry⟩
    · rw [List.mem_singleton.mp he]
      exact ⟨d, List.mem_append_right _ List.mem_cons_self, rfl, h.probed _ List.mem_cons_self⟩
  · exact haligned
  · rw [hlast]
    exact fun heq => absurd heq Bool.false_ne_true

/-- The loop comes to its drain exactly when the index has flushed. -/
theorem add {d : Text × Text} {probe : Text} {writeStart : ℚ} (h : Tracks cfg stream start docs (.add d probe writeStart) s)
    (hcalm : s.now < start + cfg.flushIntervalS) (built : Option (OpenIndex bm25)) {later : ℚ} (hlater : s.now ≤ later) :
    (addPending cfg (openBuilder bm25) d probe writeStart built later s).main = .raised ∨
      Tracks cfg stream start (docs ++ [d]) (addPending cfg (openBuilder bm25) d probe writeStart built later s).main
        (addPending cfg (openBuilder bm25) d probe writeStart built later s) := by
  obtain ⟨hbuffer, -⟩ := h.aligned
  have hcount : s.nrt.buffer.length = s.pending.length := by
    have := congrArg List.length hbuffer
    rwa [List.length_map, List.length_map] at this
  have hflushes : shouldFlush cfg s.now { s.nrt with buffer := s.nrt.buffer ++ [d] } =
      decide (cfg.flushThresholdDocs ≤ (s.pending ++ [(⟨d.1, probe, writeStart⟩ : Pending)]).length) := by
    have hinterval : ¬ cfg.flushIntervalS ≤ s.now - s.nrt.lastFlushTime := by linarith [h.started]
    rw [shouldFlush, decide_eq_false hinterval, Bool.or_false, List.length_append, List.length_append, hcount]
    rfl
  rw [addPending]
  dsimp only
  rw [WriteSide.add, hflushes]
  by_cases hfull : cfg.flushThresholdDocs ≤ (s.pending ++ [(⟨d.1, probe, writeStart⟩ : Pending)]).length
  · rw [decide_eq_true hfull, Bool.true_and, if_pos rfl, if_pos hfull]
    cases built with
    | none => exact Or.inl rfl
    | some index =>
      refine Or.inr ?_
      have htime := flushLocked_lastFlushTime cfg (openBuilder bm25) (some index) later
        { s.nrt with buffer := s.nrt.buffer ++ [d] }
      refine h.pend ?_ ?_ rfl (fun _ => rfl) rfl rfl
        (flushLocked_empties cfg (openBuilder bm25) later (Or.inr (Option.some_ne_none index)))
      · rcases htime with heq | heq <;> rw [heq]
        · exact h.started
        · linarith [h.started, h.flushed]
      · rcases htime with heq | heq <;> rw [heq]
        exact h.flushed.trans hlater
  · rw [decide_eq_false hfull, Bool.false_and, if_neg Bool.false_ne_true, if_neg Bool.false_ne_true, if_neg hfull]
    have hstarted : start ≤ ({ s.nrt with buffer := s.nrt.buffer ++ [d] } : NrtIndex (OpenIndex bm25)).lastFlushTime :=
      h.started
    refine Or.inr (h.pend hstarted (h.flushed.trans hlater) rfl (fun _ => rfl) rfl rfl ⟨?_, Or.inr ?_⟩)
    · rw [List.map_append, List.map_append]
      exact congrArg (· ++ [d.1]) hbuffer
    · exact lt_of_not_ge hfull

theorem flush (h : Tracks cfg stream start docs .next s) (hstream : s.stream = []) (built : Option (OpenIndex bm25))
    {later : ℚ} (hlater : s.now ≤ later) :
    (flushTail cfg (openBuilder bm25) built later s).main = .raised ∨
      Tracks cfg stream start docs (flushTail cfg (openBuilder bm25) built later s).main
        (flushTail cfg (openBuilder bm25) built later s) := by
  rw [flushTail]
  dsimp only
  split
  · exact Or.inl rfl
  · rename_i hreturns
    have hempty : (flushLocked cfg (openBuilder bm25) built later s.nrt).buffer = [] := by
      refine flushLocked_empties cfg _ later ?_
      by_contra hraises
      obtain ⟨hbuffer, hbuilt⟩ := not_or.mp hraises
      exact hreturns (by simp [hbuffer, not_not.mp hbuilt])
    have htime := flushLocked_lastFlushTime cfg (openBuilder bm25) built later s.nrt
    refine Or.inr ⟨?_, ?_, h.seen, h.probed, h.counted, h.entries, hempty, fun _ => hstream⟩
    · rcases htime with heq | heq <;> rw [heq]
      · exact h.started
      · linarith [h.started, h.flushed]
    · rcases htime with heq | heq <;> rw [heq]
      exact h.flushed.trans hlater

theorem poll {last : Bool} {deadline : ℚ} {remaining : List Pending}
    (h : Tracks cfg stream start docs (.poll last deadline remaining) s) :
    Tracks cfg stream start docs (whileRemaining last deadline remaining s).main
      (whileRemaining last deadline remaining s) := by
  have hcounted : docs.length = s.lagUs.length + s.timedOutTotal + remaining.length := h.counted
  rw [whileRemaining]
  split
  · exact h.move rfl (.refl _) h.aligned rfl
  · exact { h with
      counted := by
        rw [hcounted]
        change _ = s.lagUs.length + (s.timedOutTotal + remaining.length) + 0
        omega
      entries := fun e he => absurd he List.not_mem_nil
      aligned := ⟨h.aligned, fun hlast => by
        dsimp only
        rw [hlast]
        rfl⟩ }

theorem look {last : Bool} {deadline foundAt : ℚ} {entry : Pending} {left still : List Pending}
    (h : Tracks cfg stream start docs (.pass last deadline foundAt (entry :: left) still) s) (page : List (Text × ℚ)) :
    Tracks cfg stream start docs (Lag.look last deadline foundAt entry left still page s).main
      (Lag.look last deadline foundAt entry left still page s) := by
  have hcounted : docs.length = s.lagUs.length + s.timedOutTotal + (entry :: left ++ still).length := h.counted
  have hentries : ∀ e ∈ entry :: left ++ still, ∃ d ∈ docs, d.1 = e.externalId ∧ longestToken d.2 = some e.probe :=
    h.entries
  rw [Lag.look]
  split
  · exact { h with
      counted := by
        rw [hcounted]
        change _ = (s.lagUs ++ [_]).length + s.timedOutTotal + (left ++ still).length
        simp only [List.length_append, List.length_cons, List.length_nil]
        omega
      entries := fun e he => hentries e (List.mem_cons_of_mem _ he) }
  · have hperm : (left ++ (still ++ [entry])).Perm (entry :: left ++ still) := by
      rw [← List.append_assoc]
      exact List.perm_append_singleton _ _
    exact h.move rfl hperm h.aligned rfl

/-- After a drain the loop goes on with nothing pending. -/
theorem noted {last : Bool} (h : Tracks cfg stream start docs (.note last) s) :
    Tracks cfg stream start docs (if last then .finished else .next)
      { noteSegmentCount s with main := if last then .finished else .next } := by
  obtain ⟨hbuffer, hpending⟩ := h.aligned
  cases last with
  | true => exact h.note.move rfl (.refl _) hbuffer rfl
  | false =>
    have hnil : s.pending = [] := hpending rfl
    refine h.note.move rfl (.of_eq hnil) ⟨?_, Or.inl hnil⟩ rfl
    change s.nrt.buffer.map Prod.fst = s.pending.map (·.externalId)
    rw [hbuffer, hnil]
    rfl

theorem step (h : Tracks cfg stream start docs s.main s) (hcalm : s.now < start + cfg.flushIntervalS)
    (hstep : Step cfg timeoutS s label s') :
    s'.main = .raised ∨ Tracks cfg stream start (docs ++ added label.toList) s'.main s' := by
  have hquiet : added label.toList = [] → Tracks cfg stream start docs s'.main s' →
      s'.main = .raised ∨ Tracks cfg stream start (docs ++ added label.toList) s'.main s' := by
    intro hnone htracks
    rw [hnone, List.append_nil]
    exact Or.inr htracks
  cases hstep with
  | wait later after => exact hquiet rfl (h.wait after)
  | merge worker step =>
    obtain ⟨hbuffer, htime, hnone⟩ := worker_frame worker step
    exact hquiet hnone (h.merge hbuffer htime)
  | fetch main docs =>
    rw [main] at h
    exact hquiet rfl (h.fetch main docs)
  | preHits main page returns =>
    rw [main] at h
    exact hquiet rfl (h.preHits page)
  | stamp main =>
    rw [main] at h
    exact hquiet rfl (h.move rfl (.refl _) h.aligned rfl)
  | add main built later after returns =>
    rw [main] at h
    exact h.add hcalm built after
  | flush main docs built later after returns =>
    rw [main] at h
    rcases h.flush docs built after with hraised | htracks
    · exact Or.inl hraised
    · exact hquiet rfl htracks
  | drain main =>
    rw [main] at h
    exact hquiet rfl (h.move rfl (.refl _) h.aligned rfl)
  | poll main =>
    rw [main] at h
    exact hquiet rfl h.poll
  | mark main =>
    rw [main] at h
    exact hquiet rfl (h.move rfl (.of_eq (List.append_nil _)) h.aligned rfl)
  | look main page returns =>
    rw [main] at h
    exact hquiet rfl (h.look page)
  | again main =>
    rw [main] at h
    exact hquiet rfl (h.move rfl (.refl _) h.aligned rfl)
  | note main =>
    rw [main] at h
    exact hquiet rfl h.noted

end Tracks

theorem now_le (h : Step cfg timeoutS s label s') : s.now ≤ s'.now := by
  cases h with
  | wait later after => exact after
  | add main built later after returns =>
    rw [addPending]
    dsimp only
    split <;> exact after
  | flush main docs built later after returns =>
    rw [flushTail]
    dsimp only
    split <;> exact after
  | fetch main docs =>
    rw [Lag.fetch]
    dsimp only
    split <;> exact le_rfl
  | preHits main page returns =>
    rw [Lag.preHits]
    split <;> exact le_rfl
  | poll main =>
    rw [whileRemaining]
    split <;> exact le_rfl
  | look main page returns =>
    rw [Lag.look]
    split <;> exact le_rfl
  | merge | stamp | drain | mark | again | note => exact le_rfl

theorem raised_step (h : Step cfg timeoutS s label s') (hraised : s.main = .raised) : s'.main = .raised := by
  cases h with
  | wait | merge => exact hraised
  | fetch main | preHits main | stamp main | add main | flush main | drain main | poll main | mark main | look main
  | again main | note main =>
    rw [hraised] at main
    cases main

/-- In every run that ends before the interval has passed. -/
theorem tracks_of_run (hrun : (runThreshold cfg timeoutS base files stream start).Run trace s)
    (hcalm : s.now < start + cfg.flushIntervalS) :
    s.main = .raised ∨ Tracks cfg stream start (added trace.reduceOption) s.main s := by
  have htracks : s.now < start + cfg.flushIntervalS →
      s.main = .raised ∨ Tracks cfg stream start (added trace.reduceOption) s.main s := by
    apply hrun.invariant fun trace s => s.now < start + cfg.flushIntervalS →
      s.main = .raised ∨ Tracks cfg stream start (added trace.reduceOption) s.main s
    · intro s hinit _
      obtain ⟨nrt, ⟨ident, now, -, rfl⟩, hstart, rfl⟩ := hinit
      exact Or.inr {
        started := hstart.ge
        flushed := hstart.le
        seen := ⟨[], rfl, List.Sublist.refl _, rfl⟩
        probed := fun x hx => absurd hx List.not_mem_nil
        counted := rfl
        entries := fun e he => absurd he List.not_mem_nil
        aligned := ⟨rfl, Or.inl rfl⟩
        ended := fun hlast => absurd hlast Bool.false_ne_true }
    · intro trace s label s' ih hstep hcalm
      have hbefore := (now_le hstep).trans_lt hcalm
      rw [reduceOption_concat, show added (trace.reduceOption ++ label.toList) =
        added trace.reduceOption ++ added label.toList from List.filterMap_append]
      rcases ih hbefore with hraised | htracks
      · exact Or.inl (raised_step hstep hraised)
      · exact htracks.step hbefore hstep
  exact htracks hcalm

theorem counts_frame (h : Step cfg timeoutS s label s') :
    s'.segmentCountTrace = s.segmentCountTrace ∧ s'.mergeBeforeAfter = s.mergeBeforeAfter ∨
      s'.segmentCountTrace = (noteSegmentCount s).segmentCountTrace ∧
        s'.mergeBeforeAfter = (noteSegmentCount s).mergeBeforeAfter := by
  cases h with
  | fetch main docs =>
    rw [Lag.fetch]
    dsimp only
    split <;> exact Or.inr ⟨rfl, rfl⟩
  | note main => exact Or.inr ⟨rfl, rfl⟩
  | add main built later after returns =>
    rw [addPending]
    dsimp only
    split <;> exact Or.inl ⟨rfl, rfl⟩
  | flush main docs built later after returns =>
    rw [flushTail]
    dsimp only
    split <;> exact Or.inl ⟨rfl, rfl⟩
  | preHits main page returns =>
    rw [Lag.preHits]
    split <;> exact Or.inl ⟨rfl, rfl⟩
  | poll main =>
    rw [whileRemaining]
    split <;> exact Or.inl ⟨rfl, rfl⟩
  | look main page returns =>
    rw [Lag.look]
    split <;> exact Or.inl ⟨rfl, rfl⟩
  | wait | merge | stamp | drain | mark | again => exact Or.inl ⟨rfl, rfl⟩

theorem length_flushLocked (builder : BuildSegment Ix) (built : Option Ix) (later : ℚ) (nrt : NrtIndex Ix) :
    nrt.segments.length ≤ (flushLocked cfg builder built later nrt).segments.length := by
  obtain ⟨-, heq⟩ | ⟨-, ⟨-, heq⟩ | ⟨index, -, heq⟩⟩ := flushLocked_cases cfg builder built later nrt
  · rw [heq]
  · rw [heq]
    rfl
  · rw [heq, schedule_segments]
    change _ ≤ (nrt.segments ++ [_]).length
    rw [List.length_append]
    exact Nat.le_add_right _ _

/-- Only a swap makes the segments fewer. -/
theorem length_segments_le {nrt nrt' : NrtIndex Ix} {builder : BuildSegment Ix} {action : WriteSide.Action Ix}
    (h : WriteSide.Step cfg builder nrt action nrt') (hswap : ∀ job, action ≠ .swap job) :
    nrt.segments.length ≤ nrt'.segments.length := by
  cases h with
  | add d clock built now returns =>
    rw [WriteSide.add]
    split
    · exact length_flushLocked _ _ _ { nrt with buffer := nrt.buffer ++ [d] }
    · exact le_rfl
  | flush built now returns => exact length_flushLocked _ _ _ _
  | @swap job merged worker => exact absurd rfl (hswap job)
  | _ => exact le_rfl

/-- The index has at least as many segments as were last noted. -/
def Rising (s : State Ix) : Prop :=
  s.mergeBeforeAfter = none ∧ ∀ count, s.segmentCountTrace.getLast? = some count → count ≤ s.nrt.segments.length

theorem rising_note (h : Rising s) : Rising (noteSegmentCount s) := by
  obtain ⟨hnone, hlast⟩ := h
  constructor
  · rw [noteSegmentCount]
    dsimp only
    rw [hnone, Option.none_or]
    cases hbefore : s.segmentCountTrace.getLast? with
    | none => rfl
    | some before => exact if_neg (Nat.not_lt.mpr (hlast before hbefore))
  · intro count hcount
    rw [noteSegmentCount] at hcount ⊢
    dsimp only at hcount ⊢
    rw [List.getLast?_concat] at hcount
    cases hcount
    exact le_rfl

/-- A merge is reported only after a swap. -/
theorem rising_of_run (hrun : (runThreshold cfg timeoutS base files stream start).Run trace s)
    (hswap : ∀ job, .swap job ∉ trace.reduceOption) : Rising s := by
  have hrising : (∀ job, .swap job ∉ trace.reduceOption) → Rising s := by
    apply hrun.invariant fun trace s => (∀ job, .swap job ∉ trace.reduceOption) → Rising s
    · intro s hinit _
      obtain ⟨nrt, -, -, rfl⟩ := hinit
      refine ⟨rfl, fun count hcount => ?_⟩
      cases hcount
      exact le_rfl
    · intro trace s label s' ih hstep hswap
      rw [reduceOption_concat] at hswap
      have hbefore := ih fun job hjob => hswap job (List.mem_append_left _ hjob)
      have hsegments : s.nrt.segments.length ≤ s'.nrt.segments.length := by
        have hacts := acts_of_step hstep
        cases label with
        | none =>
          have heq : s'.nrt = s.nrt := hacts
          rw [heq]
        | some action =>
          refine length_segments_le hacts fun job heq => hswap job (List.mem_append_right _ ?_)
          rw [heq]
          exact List.mem_cons_self
      rcases counts_frame hstep with ⟨htrace, hmerge⟩ | ⟨htrace, hmerge⟩
      · rw [Rising, htrace, hmerge]
        exact ⟨hbefore.1, fun count hcount => (hbefore.2 count hcount).trans hsegments⟩
      · have hnoted := rising_note hbefore
        rw [Rising, htrace, hmerge]
        exact ⟨hnoted.1, fun count hcount => (hnoted.2 count hcount).trans hsegments⟩
  exact hrising hswap

section Search

variable {log : ℚ → ℚ} {nrt : NrtIndex (OpenIndex (Bm25.exact log BM25Params.default))} {query : Text}
  {page : List (Text × ℚ)}

/-- No id is held twice. -/
def HeldOnce (nrt : NrtIndex (OpenIndex bm25)) : Prop :=
  ((held OpenIndex.docs nrt.segments).map fun d => idText d.externalId).Nodup

theorem page_eq (hlog : ∀ x, 1 ≤ x → 0 ≤ log x) (hids : HeldOnce nrt)
    (hreturns : SearchReturnsPage nrt query 10 .blockMaxWand page) : page = (wholeRanking nrt query).take 10 := by
  have hpage := ((searchReturnsPage_iff hlog nrt query (by decide) .blockMaxWand page).mp hreturns).2
  rw [hpage]
  exact take_merged nrt query 10 (rankings_nodup hids query)

theorem wholeRanking_ids (htombstones : nrt.tombstones = ∅) : ((wholeRanking nrt query).map Prod.fst).Perm
    (((held OpenIndex.docs nrt.segments).filter (shares (encode query))).map fun d => idText d.externalId) := by
  have hperm := (wholeRanking_perm nrt query).map Prod.fst
  rw [segmentMatches_ids, htombstones, visible] at hperm
  have hlive : matchesLive ∅ query = shares (encode query) := by
    funext d
    rw [matchesLive, decide_eq_true (Finset.notMem_empty _), Bool.true_and]
  rwa [hlive] at hperm

/-- An id on a page is that of an indexed document that matches. -/
theorem exists_of_hit (hlog : ∀ x, 1 ≤ x → 0 ≤ log x) (hids : HeldOnce nrt) (htombstones : nrt.tombstones = ∅)
    (hreturns : SearchReturnsPage nrt query 10 .blockMaxWand page) {externalId : Text} (hhit : externalId ∈ hits page) :
    ∃ d ∈ held OpenIndex.docs nrt.segments, shares (encode query) d = true ∧ idText d.externalId = externalId := by
  have hpage := List.mem_toFinset.mp hhit
  rw [page_eq hlog hids hreturns, List.map_take] at hpage
  obtain ⟨d, hd, hid⟩ := List.mem_map.mp ((wholeRanking_ids htombstones).subset (List.mem_of_mem_take hpage))
  exact ⟨d, (List.mem_filter.mp hd).1, (List.mem_filter.mp hd).2, hid⟩

/-- A search that does not find an indexed document fills its page with others,
or the document does not match. -/
theorem search_finds (hlog : ∀ x, 1 ≤ x → 0 ≤ log x) (hids : HeldOnce nrt) (htombstones : nrt.tombstones = ∅)
    (hreturns : SearchReturnsPage nrt query 10 .blockMaxWand page) {d : Text × Text}
    (hheld : encodeDocument d ∈ held OpenIndex.docs nrt.segments) :
    (d.1 ∈ hits page → shares (encode query) (encodeDocument d) = true) ∧
      (shares (encode query) (encodeDocument d) = true → d.1 ∈ hits page ∨ page.length = 10) := by
  have hid : idText (encodeDocument d).externalId = d.1 := idText_encode d.1
  constructor
  · intro hhit
    obtain ⟨d', hd', hshares, hsame⟩ := exists_of_hit hlog hids htombstones hreturns hhit
    obtain rfl := List.inj_on_of_nodup_map hids hd' hheld (hsame.trans hid.symm)
    exact hshares
  · intro hshares
    have hranked : d.1 ∈ (wholeRanking nrt query).map Prod.fst := by
      refine (wholeRanking_ids htombstones).symm.subset (List.mem_map.mpr ⟨_, ?_, hid⟩)
      exact List.mem_filter.mpr ⟨hheld, hshares⟩
    rw [page_eq hlog hids hreturns]
    rcases le_total (wholeRanking nrt query).length 10 with hshort | hlong
    · rw [List.take_of_length_le hshort]
      exact Or.inl (List.mem_toFinset.mpr hranked)
    · exact Or.inr (List.length_take_of_le hlong)

end Search

/-- What can become of a pending document at a search of a drain. -/
structure Searched (d : Text × Text) (entry : Pending) (page : List (Text × ℚ)) : Prop where
  matching : entry.externalId ∈ hits page → shares (encode entry.probe) (encodeDocument d) = true
  found : shares (encode entry.probe) (encodeDocument d) = true → entry.externalId ∈ hits page ∨ page.length = 10
  terms : PlainSpaces d.2 → (shares (encode entry.probe) (encodeDocument d) = true ↔ analyze (encode entry.probe) ≠ [])

/-- What the live segments hold of a stream the experiment has got through so far. -/
theorem indexed (cfg : Config) (timeoutS start : ℚ) {baseDocs stream : List (Text × Text)}
    (hplain : ∀ d ∈ baseDocs ++ stream, Plain d) {base : Segment (OpenIndex bm25)}
    (hbuilt : (openBuilder bm25).returns (flushTsv baseDocs) base.index) (houtside : ¬ segmentsDir cfg <+: base.sourceTsv)
    {files : Path → Option Str} (hfile : files base.sourceTsv = some (flushTsv baseDocs))
    {trace : List (Option (WriteSide.Action (OpenIndex bm25)))} {s : State (OpenIndex bm25)}
    (hrun : (runThreshold cfg timeoutS base files stream start).Run trace s)
    (htracks : Tracks cfg stream start (added trace.reduceOption) s.main s) :
    ∃ flushed, added trace.reduceOption = flushed ++ s.nrt.buffer ∧
      (held OpenIndex.docs s.nrt.segments).Perm ((baseDocs ++ flushed).map encodeDocument) := by
  have hbase : ∀ d ∈ baseDocs, Plain d := fun d hd => hplain d (List.mem_append_left _ hd)
  have hstored := Inv.stores_flushTsv hbase
  have hindex : base.index.docs = baseDocs.map encodeDocument := hbuilt.1.trans hstored.documents
  have hprepared : Prepared OpenIndex.docs cfg [base] files := by
    constructor
    · exact List.nodup_singleton _
    · intro seg hseg
      rwa [List.mem_singleton.mp hseg]
    · intro seg hseg file hstores
      rw [List.mem_singleton.mp hseg] at hstores ⊢
      rw [hfile] at hstores
      cases hstores
      rw [hindex]
      exact hstored
  have hadded : ∀ d ∈ added trace.reduceOption, Plain d := by
    intro d hd
    obtain ⟨seen, hsplit, hsub, -⟩ := htracks.seen
    refine hplain d (List.mem_append_right _ ?_)
    rw [hsplit]
    exact List.mem_append_left _ (hsub.subset (List.mem_append_left _ hd))
  obtain ⟨flushed, hflushed, hheld⟩ := (inv_of_run openBuilder_docs hprepared (nrt_of_run hrun).1 hadded).conserved
  refine ⟨flushed, hflushed, hheld.trans (.of_eq ?_)⟩
  rw [held, List.flatMap_singleton, hindex, List.map_append]

/-- On a corpus of plain documents with distinct ids, and before the interval has
passed: a document is not found before it is added; every drain starts with all
added documents in live segments, so that a search for one of them finds it
unless ten others come before it or its probe does not match it; a merge is
reported only after one; and in the end every document of the stream is
accounted for. -/
theorem lag_measures_freshness (log : ℚ → ℚ) (hlog : ∀ x, 1 ≤ x → 0 ≤ log x) (cfg : Config) (timeoutS start : ℚ)
    {corpus : List (Text × Text)} (hplain : ∀ d ∈ corpus, Plain d) (hids : (corpus.map Prod.fst).Nodup)
    {baseCount streamCount : Nat} {baseDocs stream : List (Text × Text)}
    (hbase : readTsvSlice (flushTsv corpus) 0 baseCount = some baseDocs)
    (hstream : readTsvSlice (flushTsv corpus) baseCount streamCount = some stream)
    {base : Segment (OpenIndex (Bm25.exact log BM25Params.default))}
    (hbuilt : (openBuilder (Bm25.exact log BM25Params.default)).returns (flushTsv baseDocs) base.index)
    (houtside : ¬ segmentsDir cfg <+: base.sourceTsv) {files : Path → Option Str}
    (hfile : files base.sourceTsv = some (flushTsv baseDocs))
    {trace : List (Option (WriteSide.Action (OpenIndex (Bm25.exact log BM25Params.default))))}
    {s : State (OpenIndex (Bm25.exact log BM25Params.default))}
    (hrun : (runThreshold cfg timeoutS base files stream start).Run trace s) (hcalm : s.now < start + cfg.flushIntervalS) :
    let docs := added trace.reduceOption
    (s.main ≠ .raised → docs.Sublist stream) ∧
    (∀ d probe page, s.main = .search d probe → SearchReturnsPage s.nrt probe 10 .blockMaxWand page → d.1 ∉ hits page) ∧
    (∀ last deadline foundAt entry left still, s.main = .pass last deadline foundAt (entry :: left) still →
      s.nrt.buffer = [] ∧ (held OpenIndex.docs s.nrt.segments).Perm ((baseDocs ++ docs).map encodeDocument) ∧
      ∃ d ∈ docs, d.1 = entry.externalId ∧ longestToken d.2 = some entry.probe ∧
        ∀ page, SearchReturnsPage s.nrt entry.probe 10 .blockMaxWand page → Searched d entry page) ∧
    (s.mergeBeforeAfter ≠ none → ∃ job, .swap job ∈ trace.reduceOption) ∧
    (s.main = .finished → s.lagUs.length + s.timedOutTotal = docs.length ∧
      docs.length + s.collisionsSkipped + wordless stream = stream.length ∧
      (held OpenIndex.docs s.nrt.segments).Perm ((baseDocs ++ docs).map encodeDocument)) := by
  have hbaseDocs : corpus.take baseCount = baseDocs :=
    Option.some.inj ((readTsvSlice_corpus hplain 0 baseCount).symm.trans hbase)
  have hstreamDocs : (corpus.drop baseCount).take streamCount = stream :=
    Option.some.inj ((readTsvSlice_corpus hplain baseCount streamCount).symm.trans hstream)
  have hboth : (baseDocs ++ stream).Sublist corpus := by
    rw [← hbaseDocs, ← hstreamDocs]
    conv_rhs => rw [← List.take_append_drop baseCount corpus]
    exact (List.Sublist.refl _).append (List.take_sublist _ _)
  have hplain' : ∀ d ∈ baseDocs ++ stream, Plain d := fun d hd => hplain d (hboth.subset hd)
  have hids' := hids.sublist (hboth.map Prod.fst)
  have htombstones : s.nrt.tombstones = ∅ := (tombstones_of_run (nrt_of_run hrun).1).trans (nrt_of_run hrun).2
  have hencoded : ∀ docs : List (Text × Text),
      (docs.map encodeDocument).map (fun d => idText d.externalId) = docs.map Prod.fst := by
    intro docs
    rw [List.map_map]
    exact List.map_congr_left fun d _ => idText_encode d.1
  -- what is known of a run that has not raised
  have hrunning : s.main ≠ .raised → Tracks cfg stream start (added trace.reduceOption) s.main s :=
    fun hmain => (tracks_of_run hrun hcalm).resolve_left hmain
  refine ⟨fun hmain => ?_, fun d probe page hmain hreturns hhit => ?_, fun last deadline foundAt entry left still hmain => ?_,
    fun hmerge => ?_, fun hmain => ?_⟩
  · obtain ⟨seen, hsplit, hsub, -⟩ := (hrunning hmain).seen
    rw [hsplit]
    exact (List.sublist_append_left _ _).trans (hsub.trans (List.sublist_append_left _ _))
  · have htracks := hrunning (by simp [hmain])
    obtain ⟨flushed, hflushed, hheld⟩ := indexed cfg timeoutS start hplain' hbuilt houtside hfile hrun htracks
    obtain ⟨seen, hsplit, hsub, -⟩ := htracks.seen
    rw [hmain] at hsub
    have hdistinct : ((baseDocs ++ flushed ++ [d]).map Prod.fst).Nodup := by
      refine hids'.sublist (List.Sublist.map _ ?_)
      rw [hsplit, List.append_assoc]
      refine (List.Sublist.refl baseDocs).append (List.Sublist.trans ?_ (List.sublist_append_left seen s.stream))
      refine List.Sublist.trans ?_ hsub
      rw [hflushed]
      exact (List.sublist_append_left flushed _).append (List.Sublist.refl [d])
    rw [List.map_append, List.nodup_append] at hdistinct
    have hnodup : HeldOnce s.nrt := by
      rw [HeldOnce, (hheld.map _).nodup_iff, hencoded]
      exact hdistinct.1
    obtain ⟨d', hd', -, hid⟩ := exists_of_hit hlog hnodup htombstones hreturns hhit
    have hmem := List.mem_map_of_mem (f := fun d : Document => idText d.externalId) (hheld.subset hd')
    rw [hencoded] at hmem
    exact hdistinct.2.2 _ hmem d.1 List.mem_cons_self hid
  · have htracks := hrunning (by simp [hmain])
    obtain ⟨flushed, hflushed, hheld⟩ := indexed cfg timeoutS start hplain' hbuilt houtside hfile hrun htracks
    obtain ⟨seen, hsplit, hsub, -⟩ := htracks.seen
    have haligned := htracks.aligned
    have hentries := htracks.entries
    rw [hmain] at haligned hentries hsub
    have hbuffer : s.nrt.buffer = [] := haligned
    rw [hbuffer, List.append_nil] at hflushed
    rw [← hflushed] at hheld
    have hnodup : HeldOnce s.nrt := by
      rw [HeldOnce, (hheld.map _).nodup_iff, hencoded]
      refine hids'.sublist (List.Sublist.map _ ((List.Sublist.refl baseDocs).append ?_))
      rw [hsplit]
      exact (List.sublist_append_left _ _).trans (hsub.trans (List.sublist_append_left _ _))
    obtain ⟨d, hd, hid, hprobe⟩ := hentries entry List.mem_cons_self
    refine ⟨hbuffer, hheld, d, hd, hid, hprobe, fun page hreturns => ?_⟩
    have hdoc : encodeDocument d ∈ held OpenIndex.docs s.nrt.segments :=
      hheld.symm.subset (List.mem_map_of_mem (List.mem_append_right _ hd))
    obtain ⟨hmatching, hfound⟩ := search_finds hlog hnodup htombstones hreturns hdoc
    exact ⟨hid ▸ hmatching, hid ▸ hfound, fun hspaces => shares_probe hspaces hprobe⟩
  · by_contra hnone
    exact hmerge (rising_of_run hrun fun job hjob => hnone ⟨job, hjob⟩).1
  · have htracks := hrunning (by simp [hmain])
    obtain ⟨flushed, hflushed, hheld⟩ := indexed cfg timeoutS start hplain' hbuilt houtside hfile hrun htracks
    obtain ⟨seen, hsplit, -, hlength⟩ := htracks.seen
    have hcounted := htracks.counted
    have haligned := htracks.aligned
    have hended := htracks.ended
    rw [hmain] at hlength hcounted haligned hended
    have hbuffer : s.nrt.buffer = [] := haligned
    rw [hended rfl, List.append_nil] at hsplit
    rw [hbuffer, List.append_nil] at hflushed
    rw [← hflushed] at hheld
    refine ⟨hcounted.symm, ?_, hheld⟩
    rw [hsplit, hlength]
    change _ = wordless seen + s.collisionsSkipped + (added trace.reduceOption).length + 0
    omega

def everyConfig : Config where
  baseDir := [lit "nrt"]
  flushThresholdDocs := 1
  flushIntervalS := 10 ^ 9
  mergePolicy := none

theorem cat_returns (externalId : Text)
    (hdocs : documents (flushTsv [catDocument externalId]) = [encodeDocument (catDocument externalId)])
    (hshort : (flushTsv [catDocument externalId]).length < 2 ^ 28) :
    ∃ ix, (openBuilder (Bm25.exact nearOne BM25Params.default)).returns (flushTsv [catDocument externalId]) ix := by
  refine (openBuilder_returns_iff (fitsFormat_of_length_lt hshort)).mpr (buildSegment_isSome_iff.mpr ?_)
  rw [show documents (encode ([catDocument externalId].flatMap tsvLine)) = _ from hdocs]
  refine ⟨(by decide : u32 1 ≠ 0), _, List.mem_cons_self, ?_⟩
  show analyze (encode ['c', 'a', 't']) ≠ []
  decide +kernel

def catPending : Pending := ⟨['s'], ['c', 'a', 't'], 0⟩

/-- The document has been added and flushed, and the drain is about to look for it. -/
theorem everyConfig_run (base : Segment (OpenIndex (Bm25.exact nearOne BM25Params.default))) (hident : base.ident = 0)
    (hbase : base.index.docs = [encodeDocument (catDocument ['b'])]) (files : Path → Option Str) :
    ∃ trace s, (runThreshold everyConfig 30 base files [catDocument ['s']] 0).Run trace s ∧ s.now = 0 ∧
      s.main = .pass false (0 + 30) 0 [catPending] [] := by
  obtain ⟨ix, hreturns⟩ := cat_returns ['s'] (by decide +kernel) (by decide +kernel)
  let nrt : NrtIndex (OpenIndex (Bm25.exact nearOne BM25Params.default)) :=
    { segments := [base], nextSegmentId := 1, lastFlushTime := 0, files := files, nextIdent := 1 }
  have hstart : (runThreshold everyConfig 30 base files [catDocument ['s']] 0).Run []
      { now := 0, nrt := nrt, stream := [catDocument ['s']], segmentCountTrace := [1] } :=
    .init ⟨nrt, ⟨1, 0, by simp [hident], rfl⟩, rfl, rfl⟩
  have hfetched := hstart.step (.fetch rfl rfl)
  have hprobe : longestToken (catDocument ['s']).2 = some ['c', 'a', 't'] := by decide
  rw [fetch, hprobe] at hfetched
  have hheld : held OpenIndex.docs nrt.segments = [encodeDocument (catDocument ['b'])] := by
    rw [held, List.flatMap_singleton, hbase]
  obtain ⟨page, hpage⟩ : ∃ page, SearchReturnsPage nrt ['c', 'a', 't'] 10 .blockMaxWand page :=
    ⟨_, (searchReturnsPage_iff nearOne_nonneg nrt _ (by decide) .blockMaxWand _).mpr
      ⟨Or.inr (by decide : 10 + 0 < 2 ^ 32), rfl⟩⟩
  -- there is one document that could be on the page
  have hfew : ¬ 10 ≤ (hits page).card := by
    have heq := page_eq nearOne_nonneg (by rw [HeldOnce, hheld]; exact List.nodup_singleton _) hpage
    have hranked := (show ((wholeRanking nrt ['c', 'a', 't']).map Prod.fst).Perm _ from wholeRanking_ids rfl).length_eq
    rw [hheld, List.length_map, List.length_map] at hranked
    have hone := List.length_filter_le (shares (encode ['c', 'a', 't'])) [encodeDocument (catDocument ['b'])]
    have hcard := List.toFinset_card_le (page.map Prod.fst)
    have hpageLength : page.length ≤ (wholeRanking nrt ['c', 'a', 't']).length := by
      rw [heq]
      exact List.length_take_le' _ _
    rw [List.length_map] at hcard
    rw [List.length_singleton] at hone
    change ¬ 10 ≤ (page.map Prod.fst).toFinset.card
    omega
  have hsearched := hfetched.step (.preHits rfl page hpage)
  rw [preHits, if_neg hfew] at hsearched
  have hadded := (hsearched.step (.stamp rfl)).step (.add rfl (some ix) 0 le_rfl fun index hindex => by
    cases hindex
    exact hreturns)
  have hpending : (runThreshold everyConfig 30 base files [catDocument ['s']] 0).Run _
      { now := 0, nrt := add everyConfig (openBuilder _) (catDocument ['s']) 0 (some ix) 0 nrt, stream := [],
        main := .drain false, pending := [catPending], segmentCountTrace := [1, 1] } := hadded
  have hdrained := (hpending.step (.drain rfl)).step (.poll rfl)
  rw [whileRemaining, if_pos ⟨List.cons_ne_nil _ _, by norm_num⟩] at hdrained
  exact ⟨_, _, hdrained.step (.mark rfl), rfl, rfl⟩

theorem lag_measures_freshness_one : ∃ (base : Segment (OpenIndex (Bm25.exact nearOne BM25Params.default)))
    (files : Path → Option Str) (trace : List (Option (WriteSide.Action (OpenIndex _)))) (s : State (OpenIndex _)),
    (runThreshold everyConfig 30 base files [catDocument ['s']] 0).Run trace s ∧ s.nrt.buffer = [] ∧
      ∀ page, SearchReturnsPage s.nrt ['c', 'a', 't'] 10 .blockMaxWand page → ['s'] ∈ hits page ∨ page.length = 10 := by
  obtain ⟨ix, hreturns⟩ := cat_returns ['b'] (by decide +kernel) (by decide +kernel)
  let base : Segment (OpenIndex (Bm25.exact nearOne BM25Params.default)) := {
    ident := 0
    index := ix
    sourceTsv := [lit "base.tsv"]
    indexDir := [lit "base_index"]
    docCount := 1 }
  obtain ⟨trace, s, hrun, hnow, hmain⟩ := everyConfig_run base rfl
    (hreturns.1.trans (by decide +kernel)) fun _ => some (flushTsv [catDocument ['b']])
  have hplain : ∀ d ∈ [catDocument ['b'], catDocument ['s']], Plain d := by
    intro d hd
    rcases List.mem_pair.mp hd with rfl | rfl <;> exact ⟨by constructor <;> decide, by decide⟩
  obtain ⟨hsub, -, hdrain, -⟩ := lag_measures_freshness nearOne nearOne_nonneg everyConfig 30 0 hplain (by decide)
    (show readTsvSlice _ 0 1 = some [catDocument ['b']] from readTsvSlice_corpus hplain 0 1)
    (show readTsvSlice _ 1 1 = some [catDocument ['s']] from readTsvSlice_corpus hplain 1 1)
    (show (openBuilder _).returns (flushTsv [catDocument ['b']]) base.index from hreturns)
    (show ¬ segmentsDir everyConfig <+: [lit "base.tsv"] by decide) rfl hrun (by rw [hnow]; norm_num [everyConfig])
  obtain ⟨hbuffer, -, d, hd, -, -, hsearch⟩ := hdrain _ _ _ _ _ _ hmain
  have hstream := (hsub (by rw [hmain]; exact Main.noConfusion)).subset hd
  obtain rfl := List.mem_singleton.mp hstream
  exact ⟨base, _, trace, s, hrun, hbuffer, fun page hpage => (hsearch page hpage).found (by decide +kernel)⟩

end CascadeSearch.Nrt.Lag
