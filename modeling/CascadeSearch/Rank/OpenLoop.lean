import CascadeSearch.Rank.Batcher
import Mathlib.Logic.Function.Basic

/-!
# Batched dispatch (`crossencoder_harness.py`, `_run_batched_open_loop`)

Any number of threads dispatch requests, one flusher thread scores them in
batches. Every critical section is one step, and so is every test or `set` of an
event outside one. A request is the `Event` its thread waits on.
-/
namespace CascadeSearch.Rank.OpenLoop

open Lib.Transition Batcher

/-- A `threading.Event`, by the order of creation. -/
abbrev Event := Nat

/-- How a call of `dispatch` ends. -/
inductive Outcome where
  | scored
  | scorerFailed
  | queueFull
  | zeroDivision
deriving DecidableEq

/-- A dispatch thread: between calls, after the test for a failure, in `event.wait()`. -/
inductive Thread where
  | idle
  | tested (event : Event)
  | waiting (event : Event)

/-- What `failure` records. -/
inductive Failure (Exc : Type*) where
  | raised (exc : Exc)
  | assertion

/-- Where the flusher is: at the test of `stop`, before the lock, in `score`,
setting the events of a batch; the same after a failure. -/
inductive Flusher (Pair : Type*) where
  | testing
  | polling
  | scoring (batch : List (Event × Pair))
  | waking (batch : List (Event × Pair))
  | draining
  | taking
  | releasing (batch : List (Event × Pair))
  | exited
  | crashed

variable {Pair Time Exc : Type*} {n : Nat}

/-- The events the flusher has taken from the queue and not yet set. -/
def Flusher.current : Flusher Pair → List Event
  | .scoring batch => batch.map Prod.fst
  | .waking batch => batch.map Prod.fst
  | .releasing batch => batch.map Prod.fst
  | _ => []

/-- What the threads share, where they are, and what has been done: the requests
that passed the depth check, those in the queue since, the batches handed to
`score`, the events set and the calls ended. -/
structure State (Pair Time Exc : Type*) (n : Nat) where
  batcher : DynamicBatcher (Event × Pair) Time
  shed : Nat := 0
  nextIndex : Nat := 0
  failure : List (Failure Exc) := []
  stop : Bool := false
  flusher : Flusher Pair := .testing
  threads : Fin n → Thread := fun _ => .idle
  events : Nat := 0
  passed : List Event := []
  accepted : List Event := []
  handed : List (List (Event × Pair)) := []
  woken : List Event := []
  outcomes : List Outcome := []

def State.queue (s : State Pair Time Exc n) : List Event := s.batcher.items.map Prod.fst

/-- A dispatch thread calls, submits, or goes on once its event is set; the flusher
goes on, with two readings of the clock and what `score` would do now; the run is
torn down. -/
inductive Action (Time Exc : Type*) (n : Nat) where
  | call (thread : Fin n)
  | submit (thread : Fin n) (now : Time)
  | resume (thread : Fin n)
  | flusher (now later : Time) (scores : Except Exc Nat)
  | stop

def Action.isFlusher : Action Time Exc n → Bool
  | .flusher _ _ _ => true
  | _ => false

/-- `dispatch` up to the lock. -/
def call (s : State Pair Time Exc n) (thread : Fin n) : State Pair Time Exc n :=
  if s.failure.isEmpty then
    { s with events := s.events + 1, threads := Function.update s.threads thread (.tested s.events) }
  else { s with outcomes := s.outcomes ++ [.scorerFailed] }

/-- `dispatch` under the lock. -/
def submit (cap : Option Nat) (requestPairs : List Pair) (s : State Pair Time Exc n) (thread : Fin n) (event : Event)
    (now : Time) : State Pair Time Exc n :=
  if cap.any (· ≤ s.batcher.items.length) then
    { s with
      shed := s.shed + 1
      threads := Function.update s.threads thread .idle
      outcomes := s.outcomes ++ [.queueFull] }
  else
    match requestPairs[s.nextIndex % requestPairs.length]? with
    | none =>
        { s with
          threads := Function.update s.threads thread .idle
          passed := s.passed ++ [event]
          outcomes := s.outcomes ++ [.zeroDivision] }
    | some pair =>
        { s with
          batcher := s.batcher.add now (event, pair)
          nextIndex := s.nextIndex + 1
          threads := Function.update s.threads thread (.waiting event)
          passed := s.passed ++ [event]
          accepted := s.accepted ++ [event] }

/-- `dispatch` after `event.wait()`. -/
def resume (s : State Pair Time Exc n) (thread : Fin n) : State Pair Time Exc n :=
  { s with
    threads := Function.update s.threads thread .idle
    outcomes := s.outcomes ++ [if s.failure.isEmpty then .scored else .scorerFailed] }

/-- After `score` has returned or raised. -/
def scored (s : State Pair Time Exc n) (batch : List (Event × Pair)) : Except Exc Nat → State Pair Time Exc n
  | .ok count =>
      if count = batch.length then { s with flusher := .waking batch }
      else { s with failure := s.failure ++ [.assertion], flusher := .releasing batch }
  | .error exc => { s with failure := s.failure ++ [.raised exc], flusher := .releasing batch }

section Stepping

variable [Sub Time] [LE Time] [DecidableLE Time]

/-- The flusher thread. -/
def flush (s : State Pair Time Exc n) (now later : Time) (scores : Except Exc Nat) : Option (State Pair Time Exc n) :=
  match s.flusher with
  | .testing => some { s with flusher := if s.stop then .exited else .polling }
  | .polling =>
      match s.batcher.shouldFlush now with
      | none => some { s with flusher := .crashed }
      | some false => some { s with flusher := .testing }
      | some true =>
          let (batch, batcher) := s.batcher.flush later
          if batch.isEmpty then some { s with batcher := batcher, flusher := .testing }
          else some { s with batcher := batcher, flusher := .scoring batch, handed := s.handed ++ [batch] }
  | .scoring batch => some (scored s batch scores)
  | .waking [] => some { s with flusher := .testing }
  | .waking (request :: batch) => some { s with flusher := .waking batch, woken := s.woken ++ [request.1] }
  | .draining => some { s with flusher := if s.stop then .exited else .taking }
  | .taking =>
      let (orphans, batcher) := s.batcher.flush later
      some { s with batcher := batcher, flusher := .releasing orphans }
  | .releasing [] => some { s with flusher := .draining }
  | .releasing (request :: batch) => some { s with flusher := .releasing batch, woken := s.woken ++ [request.1] }
  | .exited => none
  | .crashed => none

def step (cap : Option Nat) (requestPairs : List Pair) (s : State Pair Time Exc n) :
    Action Time Exc n → Option (State Pair Time Exc n)
  | .call thread =>
      match s.threads thread with
      | .idle => some (call s thread)
      | _ => none
  | .submit thread now =>
      match s.threads thread with
      | .tested event => some (submit cap requestPairs s thread event now)
      | _ => none
  | .resume thread =>
      match s.threads thread with
      | .waiting event => if event ∈ s.woken then some (resume s thread) else none
      | _ => none
  | .flusher now later scores => flush s now later scores
  | .stop => some { s with stop := true }

def openLoop (Exc : Type*) (n : Nat) (maxBatchSize : Nat) (maxWaitMs : Time) (cap : Option Nat) (requestPairs : List Pair) :
    System (State Pair Time Exc n) (Action Time Exc n) where
  init s := s = { batcher := { maxBatchSize := maxBatchSize, maxWaitMs := maxWaitMs } }
  step s a s' := step cap requestPairs s a = some s'

/-- All that a step of the flusher can do. -/
inductive FlusherSteps (s : State Pair Time Exc n) (now later : Time) : State Pair Time Exc n → Prop where
  | leave (hflusher : s.flusher = .testing ∨ s.flusher = .draining) (hstop : s.stop = true) :
      FlusherSteps s now later { s with flusher := .exited }
  | poll (hflusher : s.flusher = .testing) (hstop : s.stop = false) :
      FlusherSteps s now later { s with flusher := .polling }
  | crash (hflusher : s.flusher = .polling) (hflush : s.batcher.shouldFlush now = none) :
      FlusherSteps s now later { s with flusher := .crashed }
  | skip (hflusher : s.flusher = .polling) (hflush : s.batcher.shouldFlush now = some false) :
      FlusherSteps s now later { s with flusher := .testing }
  | takeNone (hflusher : s.flusher = .polling) (hbatch : (s.batcher.flush later).1 = []) :
      FlusherSteps s now later { s with batcher := (s.batcher.flush later).2, flusher := .testing }
  | take (hflusher : s.flusher = .polling) (hbatch : (s.batcher.flush later).1 ≠ []) :
      FlusherSteps s now later { s with
        batcher := (s.batcher.flush later).2
        flusher := .scoring (s.batcher.flush later).1
        handed := s.handed ++ [(s.batcher.flush later).1] }
  | score {batch : List (Event × Pair)} (hflusher : s.flusher = .scoring batch) :
      FlusherSteps s now later { s with flusher := .waking batch }
  | fail {batch : List (Event × Pair)} {failure : Failure Exc} (hflusher : s.flusher = .scoring batch) :
      FlusherSteps s now later { s with failure := s.failure ++ [failure], flusher := .releasing batch }
  | wake {request : Event × Pair} {batch : List (Event × Pair)} (hflusher : s.flusher = .waking (request :: batch)) :
      FlusherSteps s now later { s with flusher := .waking batch, woken := s.woken ++ [request.1] }
  | wakeAll (hflusher : s.flusher = .waking []) : FlusherSteps s now later { s with flusher := .testing }
  | drain (hflusher : s.flusher = .draining) (hstop : s.stop = false) :
      FlusherSteps s now later { s with flusher := .taking }
  | takeOrphans (hflusher : s.flusher = .taking) :
      FlusherSteps s now later { s with
        batcher := (s.batcher.flush later).2
        flusher := .releasing (s.batcher.flush later).1 }
  | release {request : Event × Pair} {batch : List (Event × Pair)}
      (hflusher : s.flusher = .releasing (request :: batch)) :
      FlusherSteps s now later { s with flusher := .releasing batch, woken := s.woken ++ [request.1] }
  | releaseAll (hflusher : s.flusher = .releasing []) : FlusherSteps s now later { s with flusher := .draining }

theorem flush_cases {s s' : State Pair Time Exc n} {now later : Time} {scores : Except Exc Nat}
    (h : flush s now later scores = some s') : FlusherSteps s now later s' := by
  unfold flush at h
  cases hflusher : s.flusher with
  | testing =>
    simp only [hflusher, Option.some.injEq] at h
    subst h
    by_cases hstop : s.stop = true
    · rw [if_pos hstop]
      exact .leave (Or.inl hflusher) hstop
    · rw [if_neg hstop]
      exact .poll hflusher (Bool.eq_false_iff.mpr hstop)
  | polling =>
    simp only [hflusher] at h
    cases hflush : s.batcher.shouldFlush now with
    | none =>
      simp only [hflush, Option.some.injEq] at h
      subst h
      exact .crash hflusher hflush
    | some due =>
      cases due with
      | false =>
        simp only [hflush, Option.some.injEq] at h
        subst h
        exact .skip hflusher hflush
      | true =>
        simp only [hflush] at h
        split at h
        · rename_i hbatch
          cases h
          exact .takeNone hflusher (List.isEmpty_iff.mp hbatch)
        · rename_i hbatch
          cases h
          exact .take hflusher fun hnil => hbatch (List.isEmpty_iff.mpr hnil)
  | scoring batch =>
    simp only [hflusher, Option.some.injEq] at h
    subst h
    cases scores with
    | ok count =>
      rw [scored]
      split
      · exact .score hflusher
      · exact .fail hflusher
    | error exc => exact .fail hflusher
  | waking batch =>
    cases batch with
    | nil =>
      simp only [hflusher, Option.some.injEq] at h
      subst h
      exact .wakeAll hflusher
    | cons request batch =>
      simp only [hflusher, Option.some.injEq] at h
      subst h
      exact .wake hflusher
  | draining =>
    simp only [hflusher, Option.some.injEq] at h
    subst h
    by_cases hstop : s.stop = true
    · rw [if_pos hstop]
      exact .leave (Or.inr hflusher) hstop
    · rw [if_neg hstop]
      exact .drain hflusher (Bool.eq_false_iff.mpr hstop)
  | taking =>
    simp only [hflusher, Option.some.injEq] at h
    subst h
    exact .takeOrphans hflusher
  | releasing batch =>
    cases batch with
    | nil =>
      simp only [hflusher, Option.some.injEq] at h
      subst h
      exact .releaseAll hflusher
    | cons request batch =>
      simp only [hflusher, Option.some.injEq] at h
      subst h
      exact .release hflusher
  | exited => simp only [hflusher, reduceCtorEq] at h
  | crashed => simp only [hflusher, reduceCtorEq] at h

/-- All that a step can do. -/
inductive Steps (cap : Option Nat) (requestPairs : List Pair) (s : State Pair Time Exc n) :
    Action Time Exc n → State Pair Time Exc n → Prop where
  | refuse {i : Fin n} (hthread : s.threads i = .idle) (hfailure : s.failure ≠ []) :
      Steps cap requestPairs s (.call i) { s with outcomes := s.outcomes ++ [.scorerFailed] }
  | begin {i : Fin n} (hthread : s.threads i = .idle) (hfailure : s.failure = []) :
      Steps cap requestPairs s (.call i)
        { s with events := s.events + 1, threads := Function.update s.threads i (.tested s.events) }
  | shed {i : Fin n} {now : Time} {event : Event} (hthread : s.threads i = .tested event) :
      Steps cap requestPairs s (.submit i now)
        { s with
          shed := s.shed + 1
          threads := Function.update s.threads i .idle
          outcomes := s.outcomes ++ [.queueFull] }
  | divide {i : Fin n} {now : Time} {event : Event} (hthread : s.threads i = .tested event) (hpairs : requestPairs = []) :
      Steps cap requestPairs s (.submit i now)
        { s with
          threads := Function.update s.threads i .idle
          passed := s.passed ++ [event]
          outcomes := s.outcomes ++ [.zeroDivision] }
  | accept {i : Fin n} {now : Time} {event : Event} (pair : Pair) (hthread : s.threads i = .tested event)
      (hroom : ∀ c ∈ cap, s.batcher.items.length < c) :
      Steps cap requestPairs s (.submit i now)
        { s with
          batcher := s.batcher.add now (event, pair)
          nextIndex := s.nextIndex + 1
          threads := Function.update s.threads i (.waiting event)
          passed := s.passed ++ [event]
          accepted := s.accepted ++ [event] }
  | resume {i : Fin n} {event : Event} (hthread : s.threads i = .waiting event) (hwoken : event ∈ s.woken) :
      Steps cap requestPairs s (.resume i) (resume s i)
  | flusher {now later : Time} {scores : Except Exc Nat} {s' : State Pair Time Exc n} (h : FlusherSteps s now later s') :
      Steps cap requestPairs s (.flusher now later scores) s'
  | stop : Steps cap requestPairs s .stop { s with stop := true }

theorem step_cases {cap : Option Nat} {requestPairs : List Pair} {s s' : State Pair Time Exc n} {a : Action Time Exc n}
    (h : step cap requestPairs s a = some s') : Steps cap requestPairs s a s' := by
  cases a with
  | call i =>
    cases hthread : s.threads i with
    | idle =>
      simp only [step, hthread, Option.some.injEq] at h
      subst h
      rw [call]
      split
      · rename_i hfailure
        exact .begin hthread (List.isEmpty_iff.mp hfailure)
      · rename_i hfailure
        exact .refuse hthread fun hnil => hfailure (List.isEmpty_iff.mpr hnil)
    | tested event => simp only [step, hthread, reduceCtorEq] at h
    | waiting event => simp only [step, hthread, reduceCtorEq] at h
  | submit i now =>
    cases hthread : s.threads i with
    | idle => simp only [step, hthread, reduceCtorEq] at h
    | tested event =>
      simp only [step, hthread, Option.some.injEq] at h
      subst h
      rw [submit]
      split
      · exact .shed hthread
      · rename_i hroom
        cases hpair : requestPairs[s.nextIndex % requestPairs.length]? with
        | none =>
          refine .divide hthread (List.eq_nil_of_length_eq_zero ?_)
          by_contra hlen
          have hle := List.getElem?_eq_none_iff.mp hpair
          have hlt := Nat.mod_lt s.nextIndex (Nat.pos_of_ne_zero hlen)
          omega
        | some pair =>
          refine .accept pair hthread fun c hc => ?_
          rw [Option.mem_def.mp hc] at hroom
          simpa using hroom
    | waiting event => simp only [step, hthread, reduceCtorEq] at h
  | resume i =>
    cases hthread : s.threads i with
    | idle => simp only [step, hthread, reduceCtorEq] at h
    | tested event => simp only [step, hthread, reduceCtorEq] at h
    | waiting event =>
      simp only [step, hthread] at h
      split at h
      · rename_i hwoken
        cases h
        exact .resume hthread hwoken
      · cases h
  | flusher now later scores => exact .flusher (flush_cases h)
  | stop =>
    cases h
    exact .stop

end Stepping

end CascadeSearch.Rank.OpenLoop
