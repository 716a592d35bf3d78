import CascadeSearch.Harness.LoadGen
import CascadeSearch.Rank.Draining

/-!
# The queue-discipline experiment (`crossencoder_harness.py`, `run_queue_discipline`)

The open-loop generator drives the batched dispatch: its pool threads are the
dispatch threads, and the thread that runs the experiment is one more of them
during the warm-up. A pool thread is in `dispatch` for as many steps of the
batcher's side as its call takes, and all others go on meanwhile.
-/
namespace CascadeSearch.Rank.Discipline

open Lib.Transition Batcher OpenLoop
open Harness Harness.LoadGen Harness.Histogram

variable {Q P T S Time Exc : Type*} {n : Nat}

/-- The thread that runs it: with warm-up requests left, in `run_open_loop`, or
raising what its own call of `dispatch` raised. -/
inductive Main where
  | warming (left : Nat)
  | driving (runStartNs : Int)
  | raising (outcome : Outcome)

/-- `returned` is how the call of a pool thread that is in `dispatch` has ended. -/
structure State (Q P Time Exc : Type*) (n : Nat) where
  main : Main
  batched : OpenLoop.State (Q × P) Time Exc (n + 1)
  load : LoadGen.State Q n
  returned : Fin n → Option Outcome := fun _ => none

inductive Action (Time Exc : Type*) (n : Nat) where
  | batched (a : OpenLoop.Action Time Exc (n + 1))
  | load (a : LoadGen.Action n)
  | drive

/-- The dispatch thread whose step it is. -/
def dispatcher : OpenLoop.Action Time Exc n → Option (Fin n)
  | .call thread | .submit thread _ | .resume thread => some thread
  | .flusher _ _ _ | .stop => none

/-- How a call of `dispatch` ends, if the step ends one. -/
def ended (s s' : OpenLoop.State (Q × P) Time Exc n) : Option Outcome := s'.outcomes[s.outcomes.length]?

/-- The loop over the warm-up requests. -/
def warmed (left : Nat) : Option Outcome → Main
  | none => .warming (left + 1)
  | some .scored => .warming left
  | some outcome => .raising outcome

/-- Whether the load is over for the thread that runs it. -/
def Over (s : State Q P Time Exc n) : Prop :=
  (∃ outcome, s.main = .raising outcome) ∨ (∃ runStartNs, s.main = .driving runStartNs) ∧ Finished s.load

section Stepping

variable [Sub Time] [LE Time] [DecidableLE Time]

inductive Step (cap : Option Nat) (requestPairs : List (Q × P)) (requests : Int → List (Request Q)) :
    State Q P Time Exc n → Action Time Exc n → State Q P Time Exc n → Prop where
  | flusher {s : State Q P Time Exc n} {now later : Time} {scores : Except Exc Nat}
      {batched : OpenLoop.State (Q × P) Time Exc (n + 1)}
      (h : OpenLoop.step cap requestPairs s.batched (.flusher now later scores) = some batched) :
      Step cap requestPairs requests s (.batched (.flusher now later scores)) { s with batched := batched }
  | warm {s : State Q P Time Exc n} {left : Nat} {a : OpenLoop.Action Time Exc (n + 1)}
      {batched : OpenLoop.State (Q × P) Time Exc (n + 1)} (main : s.main = .warming (left + 1))
      (thread : dispatcher a = some (Fin.last n)) (h : OpenLoop.step cap requestPairs s.batched a = some batched) :
      Step cap requestPairs requests s (.batched a)
        { s with batched := batched, main := warmed left (ended s.batched batched) }
  | drive {s : State Q P Time Exc n} (main : s.main = .warming 0) :
      Step cap requestPairs requests s .drive
        { s with
          main := .driving s.load.nowNs
          load := { nowNs := s.load.nowNs, upcoming := requests s.load.nowNs } }
  | load {s : State Q P Time Exc n} {a : LoadGen.Action n} {load : LoadGen.State Q n}
      (own : ∀ w ok, a ≠ .finish w ok) (h : LoadGen.Step s.load a load) :
      Step cap requestPairs requests s (.load a) { s with load := load }
  | dispatch {s : State Q P Time Exc n} {w : Fin n} {request : Request Q} {startNs : Int}
      {a : OpenLoop.Action Time Exc (n + 1)} {batched : OpenLoop.State (Q × P) Time Exc (n + 1)}
      (worker : s.load.workers w = .dispatching request startNs) (pending : s.returned w = none)
      (thread : dispatcher a = some w.castSucc) (h : OpenLoop.step cap requestPairs s.batched a = some batched) :
      Step cap requestPairs requests s (.batched a)
        { s with batched := batched, returned := Function.update s.returned w (ended s.batched batched) }
  | finish {s : State Q P Time Exc n} {w : Fin n} {outcome : Outcome} {load : LoadGen.State Q n}
      (returned : s.returned w = some outcome) (h : LoadGen.Step s.load (.finish w (outcome = .scored)) load) :
      Step cap requestPairs requests s (.load (.finish w (outcome = .scored)))
        { s with load := load, returned := Function.update s.returned w none }
  | stop {s : State Q P Time Exc n} {batched : OpenLoop.State (Q × P) Time Exc (n + 1)} (ended : Over s)
      (h : OpenLoop.step cap requestPairs s.batched .stop = some batched) :
      Step cap requestPairs requests s (.batched .stop) { s with batched := batched }

def experiment (Exc : Type*) (n maxBatchSize : Nat) (maxWaitMs : Time) (cap : Option Nat) (warmupRequests : Nat)
    (requestPairs : List (Q × P)) (requests : Int → List (Request Q)) :
    System (State Q P Time Exc n) (Action Time Exc n) where
  init s := ∃ nowNs, s = {
    main := .warming warmupRequests
    batched := { batcher := { maxBatchSize := maxBatchSize, maxWaitMs := maxWaitMs } }
    load := { nowNs := nowNs, upcoming := [] } }
  step := Step cap requestPairs requests

end Stepping

/-- `_run_batched_open_loop` returns: the load is over, the flusher has ended, and
nothing is in `failure`. -/
structure Returns (s : State Q P Time Exc n) (runStartNs : Int) : Prop where
  main : s.main = .driving runStartNs
  load : Finished s.load
  flusher : s.batched.flusher = .exited ∨ s.batched.flusher = .crashed
  failure : s.batched.failure = []

structure QueueDiscipline (T S : Type*) where
  discipline : String
  arrivalRateQps : T
  achievedQps : ℚ
  dispatchedQps : ℚ
  latencyUs : Option (Summary S)
  queueDelayUs : Option (Summary S)
  shedCount : Nat

/-- The cap on the queue under a discipline. -/
def capOf (discipline : String) (maxQueueDepth : Nat) : Option Nat :=
  if discipline = "shed" then some maxQueueDepth else none

/-- The end of `run_queue_discipline`; `none` if its assertion fails. -/
def queueDiscipline [LinearOrder S] (product : ℚ → Nat → ℚ) (discipline : String) (arrivalRateQps : T)
    (result : LoadResult T S) (shedCount : Nat) : Option (QueueDiscipline T S) :=
  if result.errors = if discipline = "shed" then shedCount else 0 then
    some {
      discipline := discipline
      arrivalRateQps := arrivalRateQps
      achievedQps := if 0 < result.wallS then result.completed / result.wallS else 0
      dispatchedQps := result.achievedQps
      latencyUs := (result.latency.summary product).1
      queueDelayUs := (result.queueDelay.summary product).1
      shedCount := shedCount }
  else none

def waits : Thread → Nat
  | .waiting _ => 1
  | .idle | .tested _ => 0

def served : Option Outcome → Nat
  | none => 0
  | some outcome => if outcome = .scored then 1 else 0

def failed : Option Outcome → Nat
  | none => 0
  | some outcome => if outcome = .scored then 0 else 1

variable {cap : Option Nat} {requestPairs : List (Q × P)} {b b' : OpenLoop.State (Q × P) Time Exc n}

/-- What a step of a dispatch thread does to the counts, with no failure after it. -/
structure Dispatched (cap : Option Nat) (b : OpenLoop.State (Q × P) Time Exc n) (i : Fin n) (t : Thread)
    (outcome : Option Outcome) (b' : OpenLoop.State (Q × P) Time Exc n) : Prop where
  threads : b'.threads = Function.update b.threads i t
  outcomes : b'.outcomes = b.outcomes ++ outcome.toList
  accepted : b'.accepted.length + waits (b.threads i) = b.accepted.length + waits t + served outcome
  shed : b'.shed = b.shed + failed outcome
  uncapped : cap = none → b'.shed = b.shed
  ended : outcome ≠ none → t = .idle

theorem ended_eq {outcome : Option Outcome} (h : b'.outcomes = b.outcomes ++ outcome.toList) : ended b b' = outcome := by
  rw [ended, h]
  cases outcome with
  | none => exact List.getElem?_eq_none (by simp)
  | some outcome => exact List.getElem?_concat_length

theorem submit_uncapped (b : OpenLoop.State (Q × P) Time Exc n) (i : Fin n) (event : Event) (now : Time) :
    (submit none requestPairs b i event now).shed = b.shed := by
  rw [submit, Option.any_none, if_neg Bool.false_ne_true]
  split <;> rfl

/-- An accepted request is waited for until it is woken. -/
def Awaited (b : OpenLoop.State (Q × P) Time Exc n) : Prop :=
  ∀ event ∈ b.accepted, event ∈ b.woken ∨ ∃ i, b.threads i = .waiting event

theorem Awaited.update (h : Awaited b) {i : Fin n} {t : Thread}
    (hthread : ∀ event, b.threads i = .waiting event → event ∈ b.woken) (hthreads : b'.threads = Function.update b.threads i t)
    (hwoken : b'.woken = b.woken)
    (haccepted : ∀ event ∈ b'.accepted, event ∈ b.accepted ∨ t = .waiting event) : Awaited b' := by
  intro event hevent
  rw [hwoken, hthreads]
  rcases haccepted event hevent with hevent | rfl
  · rcases h event hevent with hwoken | ⟨j, hj⟩
    · exact Or.inl hwoken
    · by_cases hij : j = i
      · exact Or.inl (hthread event (hij ▸ hj))
      · exact Or.inr ⟨j, by rwa [Function.update_of_ne hij]⟩
  · exact Or.inr ⟨i, Function.update_self ..⟩

section Dispatching

variable [Sub Time] [LE Time] [DecidableLE Time]

theorem dispatched_of_step {a : OpenLoop.Action Time Exc n} {i : Fin n} (hthread : dispatcher a = some i)
    (hpairs : requestPairs ≠ []) (h : OpenLoop.step cap requestPairs b a = some b') (hfailure : b'.failure = []) :
    b.failure = [] ∧ ∃ t, Dispatched cap b i t (ended b b') b' := by
  suffices b.failure = [] ∧ ∃ t outcome, Dispatched cap b i t outcome b' by
    obtain ⟨hnone, t, outcome, hdispatched⟩ := this
    exact ⟨hnone, t, by rwa [ended_eq hdispatched.outcomes]⟩
  cases step_cases h with
  | refuse hidle hfailed => exact absurd hfailure hfailed
  | @begin j hidle hnone =>
    obtain rfl := Option.some.inj hthread
    refine ⟨hnone, _, none, rfl, (List.append_nil _).symm, ?_, rfl, fun _ => rfl, fun hover => absurd rfl hover⟩
    rw [hidle]
    rfl
  | @shed j now event htested =>
    obtain rfl := Option.some.inj hthread
    refine ⟨hfailure, _, some .queueFull, rfl, rfl, ?_, rfl, fun hcap => ?_, fun _ => rfl⟩
    · rw [htested]
      rfl
    · simp only [OpenLoop.step, htested, hcap, Option.some.injEq] at h
      exact (congrArg OpenLoop.State.shed h).symm.trans (submit_uncapped b j event now)
  | divide htested hnil => exact absurd hnil hpairs
  | @accept j now event pair htested hroom =>
    obtain rfl := Option.some.inj hthread
    refine ⟨hfailure, _, none, rfl, (List.append_nil _).symm, ?_, rfl, fun _ => rfl, fun hover => absurd rfl hover⟩
    rw [htested, List.length_append]
    rfl
  | @resume j event hwaiting hwoken =>
    obtain rfl := Option.some.inj hthread
    have hnone : b.failure = [] := hfailure
    refine ⟨hnone, _, some .scored, rfl, ?_, ?_, rfl, fun _ => rfl, fun _ => rfl⟩
    · rw [resume, hnone]
      rfl
    · rw [hwaiting]
      rfl
  | flusher hstep => cases hthread
  | stop => cases hthread

theorem awaited_step {a : OpenLoop.Action Time Exc n} (h : Awaited b) (hstep : Steps cap requestPairs b a b') : Awaited b' := by
  cases hstep with
  | refuse hidle hfailed => exact h
  | @begin i hidle hnone =>
    exact h.update (i := i) (fun event hwaiting => absurd (hidle.symm.trans hwaiting) (by simp)) rfl rfl fun _ => Or.inl
  | @shed i now event htested =>
    exact h.update (i := i) (fun event hwaiting => absurd (htested.symm.trans hwaiting) (by simp)) rfl rfl fun _ => Or.inl
  | @divide i now event htested hnil =>
    exact h.update (i := i) (fun event hwaiting => absurd (htested.symm.trans hwaiting) (by simp)) rfl rfl fun _ => Or.inl
  | @accept i now event pair htested hroom =>
    refine h.update (i := i) (fun event hwaiting => absurd (htested.symm.trans hwaiting) (by simp)) rfl rfl fun x hx => ?_
    rcases List.mem_append.mp hx with hx | hx
    · exact Or.inl hx
    · exact Or.inr (by rw [List.mem_singleton.mp hx])
  | @resume i event hwaiting hwoken =>
    refine h.update (i := i) (fun x hx => ?_) rfl rfl fun _ => Or.inl
    obtain rfl := Thread.waiting.inj (hwaiting.symm.trans hx)
    exact hwoken
  | flusher hstep =>
    obtain ⟨hthreads, haccepted, -, -, -⟩ := flusher_frame hstep
    intro event hevent
    rw [haccepted] at hevent
    rw [hthreads]
    refine (h event hevent).imp_left fun hwoken => ?_
    cases hstep <;> first | exact hwoken | exact List.mem_append_left _ hwoken
  | stop => exact h

end Dispatching

def Main.left : Main → Nat
  | .warming left => left
  | .driving _ | .raising _ => 0

/-- A call that has ended, on the way to its record. -/
def recording (ok : Bool) : Worker Q → Nat
  | .recording record => if record.ok = ok then 1 else 0
  | .idle | .taken _ | .dispatching _ _ => 0

def recorded (ok : Bool) (load : LoadGen.State Q n) : Nat :=
  ∑ w, recording ok (load.workers w) + load.records.countP (·.ok = ok)

theorem recorded_step {load load' : LoadGen.State Q n} {a : LoadGen.Action n} (hown : ∀ w ok, a ≠ .finish w ok)
    (h : LoadGen.Step load a load') (ok : Bool) : recorded ok load' = recorded ok load ∧
      ∀ w request startNs, load.workers w = .dispatching request startNs → load'.workers w = .dispatching request startNs := by
  have hkeep : ∀ (v : Fin n) (t : Worker Q), (∀ request startNs, load.workers v ≠ .dispatching request startNs) →
      ∀ w request startNs, load.workers w = .dispatching request startNs →
        Function.update load.workers v t w = .dispatching request startNs := by
    intro v t hv w request startNs hw
    rw [Function.update_of_ne ?_]
    · exact hw
    · rintro rfl
      exact hv request startNs hw
  cases h with
  | wait ns => exact ⟨rfl, fun w request startNs hw => hw⟩
  | submit next due => exact ⟨rfl, fun w request startNs hw => hw⟩
  | @take v request queue worker first =>
    refine ⟨?_, hkeep v _ (by simp [worker])⟩
    have hsum := sum_update (recording ok) load.workers v (.taken request)
    rw [worker] at hsum
    exact congrArg (· + _) hsum
  | @start v request worker =>
    refine ⟨?_, hkeep v _ (by simp [worker])⟩
    have hsum := sum_update (recording ok) load.workers v (.dispatching request load.nowNs)
    rw [worker] at hsum
    exact congrArg (· + _) hsum
  | finish worker ok => exact absurd rfl (hown _ _)
  | @record v record worker =>
    refine ⟨?_, hkeep v _ (by simp [worker])⟩
    have hsum := sum_update (recording ok) load.workers v .idle
    rw [worker, recording, recording] at hsum
    rw [recorded, recorded, List.countP_append, List.countP_singleton]
    dsimp only
    simp only [decide_eq_true_eq]
    omega

theorem recorded_finish {load load' : LoadGen.State Q n} {w : Fin n} {ok : Bool} (h : LoadGen.Step load (.finish w ok) load')
    (ok' : Bool) : recorded ok' load' = recorded ok' load + (if ok = ok' then 1 else 0) ∧
      ∀ v, v ≠ w → load'.workers v = load.workers v := by
  cases h with
  | @finish w request startNs worker ok =>
    refine ⟨?_, fun v hv => Function.update_of_ne hv ..⟩
    have hsum := sum_update (recording ok') load.workers w (.recording ⟨request.scheduledNs, startNs, load.nowNs, ok⟩)
    rw [worker, recording, recording] at hsum
    rw [recorded, recorded]
    dsimp only at hsum ⊢
    omega

/-- In the warm-up the generator has not started. The calls that have ended with
a score, and those that have been shed, are the records and what is on its way to
them; what the warm-up has left is still to be accepted. -/
structure Counted (warmupRequests : Nat) (s : State Q P Time Exc n) : Prop where
  caller : s.batched.threads (Fin.last n) ≠ .idle → ∃ left, s.main = .warming (left + 1)
  before : ∀ left, s.main = .warming left → ∃ nowNs, s.load = { nowNs := nowNs, upcoming := [] }
  inside : ∀ w, s.returned w ≠ none ∨ s.batched.threads w.castSucc ≠ .idle →
    ∃ request startNs, s.load.workers w = .dispatching request startNs
  apart : ∀ w, s.returned w ≠ none → s.batched.threads w.castSucc = .idle
  accepted : s.batched.accepted.length + s.main.left =
    warmupRequests + ∑ i, waits (s.batched.threads i) + ∑ w, served (s.returned w) + recorded true s.load
  shed : s.batched.shed = ∑ w, failed (s.returned w) + recorded false s.load

variable {requests : Int → List (Request Q)} {warmupRequests : Nat} {s s' : State Q P Time Exc n}

/-- When the load is over, no call of `dispatch` is under way. -/
theorem Counted.idle (h : Counted warmupRequests s) {runStartNs : Int} (hmain : s.main = .driving runStartNs)
    (hload : Finished s.load) : (∀ w, s.returned w = none) ∧ ∀ i, s.batched.threads i = .idle := by
  have hinside : ∀ w, ¬ (s.returned w ≠ none ∨ s.batched.threads w.castSucc ≠ .idle) := by
    intro w hw
    obtain ⟨request, startNs, hworker⟩ := h.inside w hw
    rw [hload.workers w] at hworker
    cases hworker
  refine ⟨fun w => of_not_not fun hne => hinside w (Or.inl hne), fun i => ?_⟩
  refine Fin.lastCases ?_ (fun w => of_not_not fun hne => hinside w (Or.inr hne)) i
  by_contra hbusy
  obtain ⟨left, hleft⟩ := h.caller hbusy
  rw [hmain] at hleft
  cases hleft

/-- The numbers of accepted and of shed requests when it is. -/
theorem Counted.finished (h : Counted warmupRequests s) {runStartNs : Int} (hmain : s.main = .driving runStartNs)
    (hload : Finished s.load) :
    s.batched.accepted.length = warmupRequests + s.load.records.countP (·.ok) ∧
      s.batched.shed = s.load.records.countP (! ·.ok) := by
  obtain ⟨hreturned, hthreads⟩ := h.idle hmain hload
  have hrecorded : ∀ ok, recorded ok s.load = s.load.records.countP (·.ok = ok) := fun ok => by
    rw [recorded, Finset.sum_eq_zero fun w _ => by rw [hload.workers w]; rfl, Nat.zero_add]
  have haccepted := h.accepted
  have hshed := h.shed
  rw [hmain, Main.left, Finset.sum_eq_zero fun w _ => by rw [hthreads w]; rfl,
    Finset.sum_eq_zero fun w _ => by rw [hreturned w]; rfl, hrecorded] at haccepted
  rw [Finset.sum_eq_zero fun w _ => by rw [hreturned w]; rfl, hrecorded] at hshed
  constructor
  · simpa using haccepted
  · simpa using hshed

section Running

variable [Sub Time] [LE Time] [DecidableLE Time]

theorem flusher_counts {now later : Time} (h : FlusherSteps b now later b') : b'.shed = b.shed ∧
    (b'.failure = [] → b.failure = []) := by
  cases h with
  | fail hflusher => exact ⟨rfl, fun hnil => absurd hnil (by simp)⟩
  | _ => exact ⟨rfl, id⟩

omit [Sub Time] [LE Time] [DecidableLE Time] in
theorem Dispatched.waiting {i : Fin n} {t : Thread} {outcome : Option Outcome} (h : Dispatched cap b i t outcome b') :
    b'.accepted.length + ∑ j, waits (b.threads j) =
      b.accepted.length + ∑ j, waits (b'.threads j) + served outcome := by
  have hsum := sum_update waits b.threads i t
  have haccepted := h.accepted
  rw [h.threads]
  omega

theorem warmed_cases {left : Nat} {outcome : Option Outcome} (h : ∀ o, warmed left outcome ≠ .raising o) :
    outcome = none ∧ warmed left outcome = .warming (left + 1) ∨
      outcome = some .scored ∧ warmed left outcome = .warming left := by
  cases outcome with
  | none => exact Or.inl ⟨rfl, rfl⟩
  | some outcome =>
    cases outcome with
    | scored => exact Or.inr ⟨rfl, rfl⟩
    | scorerFailed => exact absurd rfl (h _)
    | queueFull => exact absurd rfl (h _)
    | zeroDivision => exact absurd rfl (h _)

/-- Until there is a failure, or the warm-up raises. -/
theorem counted_step {a : Action Time Exc n} (hpairs : requestPairs ≠ [])
    (h : s.batched.failure = [] → (∀ outcome, s.main ≠ .raising outcome) → Counted warmupRequests s)
    (hstep : Step cap requestPairs requests s a s') (hfailure : s'.batched.failure = [])
    (hmain : ∀ outcome, s'.main ≠ .raising outcome) : Counted warmupRequests s' := by
  cases hstep with
  | @flusher now later scores batched hstep =>
    cases step_cases hstep with
    | flusher hflusher =>
      obtain ⟨hthreads, haccepted, -, -, -⟩ := flusher_frame hflusher
      obtain ⟨hshed, hnone⟩ := flusher_counts hflusher
      have hs := h (hnone hfailure) hmain
      refine ⟨?_, hs.before, ?_, ?_, ?_, hshed.trans hs.shed⟩
      · dsimp only
        rw [hthreads]
        exact hs.caller
      · dsimp only
        rw [hthreads]
        exact hs.inside
      · dsimp only
        rw [hthreads]
        exact hs.apart
      · dsimp only
        rw [hthreads, haccepted]
        exact hs.accepted
  | @warm left a batched main thread hstep =>
    obtain ⟨hnone, t, ht⟩ := dispatched_of_step thread hpairs hstep hfailure
    have hs := h hnone (by simp [main])
    have hwaiting := ht.waiting
    have haccepted := hs.accepted
    have hshed := hs.shed
    have hothers : ∀ w : Fin n, batched.threads w.castSucc = s.batched.threads w.castSucc := fun w => by
      rw [ht.threads, Function.update_of_ne (Fin.castSucc_lt_last w).ne]
    rw [main, Main.left] at haccepted
    refine ⟨fun hbusy => ?_, fun _ _ => hs.before _ main, fun w hw => hs.inside w (hothers w ▸ hw),
      fun w hw => (hothers w).trans (hs.apart w hw), ?_, ?_⟩
    · rcases warmed_cases hmain with ⟨-, hwarmed⟩ | ⟨hscored, -⟩
      · exact ⟨left, hwarmed⟩
      · refine absurd ?_ hbusy
        dsimp only
        rw [ht.threads, Function.update_self, ht.ended (by simp [hscored])]
    · dsimp only
      rcases warmed_cases hmain with ⟨houtcome, hwarmed⟩ | ⟨houtcome, hwarmed⟩
      · rw [houtcome, served] at hwaiting
        rw [hwarmed, Main.left]
        omega
      · rw [houtcome, served, if_pos rfl] at hwaiting
        rw [hwarmed, Main.left]
        omega
    · refine ht.shed.trans ?_
      rcases warmed_cases hmain with ⟨houtcome, -⟩ | ⟨houtcome, -⟩
      · rw [houtcome]
        exact hshed
      · rw [houtcome]
        exact hshed
  | drive main =>
    have hs := h hfailure (by simp [main])
    obtain ⟨nowNs, hload⟩ := hs.before 0 main
    have haccepted := hs.accepted
    have hshed := hs.shed
    have hinside := hs.inside
    rw [main] at haccepted
    rw [hload] at haccepted hshed hinside
    refine ⟨fun hbusy => ?_, fun left hwarming => (by cases hwarming), hinside, hs.apart, haccepted, hshed⟩
    obtain ⟨left, hleft⟩ := hs.caller hbusy
    rw [main] at hleft
    cases hleft
  | @load a load own hload =>
    have hs := h hfailure hmain
    have hkept := fun ok => (recorded_step own hload ok).1
    have hworkers := (recorded_step own hload true).2
    refine ⟨hs.caller, fun left main => ?_, fun w hw => ?_, hs.apart, ?_, ?_⟩
    · obtain ⟨nowNs, hnow⟩ := hs.before left main
      rw [hnow] at hload
      cases hload with
      | wait ns => exact ⟨_, rfl⟩
      | submit next due => cases next
      | take worker first => cases first
      | start worker => cases worker
      | finish worker ok => cases worker
      | record worker => cases worker
    · obtain ⟨request, startNs, hworker⟩ := hs.inside w hw
      exact ⟨request, startNs, hworkers w request startNs hworker⟩
    · dsimp only
      rw [hkept]
      exact hs.accepted
    · dsimp only
      rw [hkept]
      exact hs.shed
  | @dispatch w request startNs a batched worker pending thread hstep =>
    obtain ⟨hnone, t, ht⟩ := dispatched_of_step thread hpairs hstep hfailure
    have hs := h hnone hmain
    have hwaiting := ht.waiting
    have haccepted := hs.accepted
    have hshed := hs.shed
    have hservedSum := sum_update served s.returned w (ended s.batched batched)
    have hfailedSum := sum_update failed s.returned w (ended s.batched batched)
    rw [pending, served] at hservedSum
    rw [pending, failed] at hfailedSum
    refine ⟨fun hbusy => hs.caller ?_, hs.before, fun v hv => ?_, fun v hv => ?_, ?_, ?_⟩
    · dsimp only at hbusy
      rwa [ht.threads, Function.update_of_ne (Fin.castSucc_lt_last w).ne'] at hbusy
    · by_cases hvw : v = w
      · exact ⟨request, startNs, hvw ▸ worker⟩
      · dsimp only at hv
        rw [ht.threads, Function.update_of_ne hvw, Function.update_of_ne fun heq => hvw (Fin.castSucc_injective n heq)] at hv
        exact hs.inside v hv
    · dsimp only at hv ⊢
      rw [ht.threads]
      by_cases hvw : v = w
      · rw [hvw, Function.update_self] at hv ⊢
        exact ht.ended hv
      · rw [Function.update_of_ne hvw] at hv
        rw [Function.update_of_ne fun heq => hvw (Fin.castSucc_injective n heq)]
        exact hs.apart v hv
    · dsimp only
      omega
    · dsimp only
      have := ht.shed
      omega
  | @finish w outcome load returned hload =>
    have hs := h hfailure hmain
    have hcount := fun ok => (recorded_finish hload ok).1
    have haccepted := hs.accepted
    have hshed := hs.shed
    have hservedSum := sum_update served s.returned w none
    have hfailedSum := sum_update failed s.returned w none
    have hidle := hs.apart w (by simp [returned])
    rw [returned, served, served] at hservedSum
    rw [returned, failed, failed] at hfailedSum
    refine ⟨hs.caller, fun left main => ?_, fun v hv => ?_, fun v hv => ?_, ?_, ?_⟩
    · obtain ⟨nowNs, hnow⟩ := hs.before left main
      rw [hnow] at hload
      cases hload with
      | finish worker ok => cases worker
    · dsimp only at hv ⊢
      have hvw : v ≠ w := by
        rintro rfl
        rw [Function.update_self] at hv
        exact hv.elim (fun hne => hne rfl) (fun hne => hne hidle)
      rw [Function.update_of_ne hvw] at hv
      rw [(recorded_finish hload true).2 v hvw]
      exact hs.inside v hv
    · by_cases hvw : v = w
      · exact hvw ▸ hidle
      · dsimp only at hv
        rw [Function.update_of_ne hvw] at hv
        exact hs.apart v hv
    · dsimp only
      simp only [hcount, decide_eq_true_eq]
      omega
    · dsimp only
      simp only [hcount, decide_eq_false_iff_not, ite_not]
      omega
  | @stop batched ended hstep =>
    cases step_cases hstep with
    | stop =>
      have hs := h hfailure hmain
      exact ⟨hs.caller, hs.before, hs.inside, hs.apart, hs.accepted, hs.shed⟩

variable {maxBatchSize : Nat} {maxWaitMs : Time}

/-- The batcher's side of a step is a step of the batched dispatch, or none. -/
theorem batched_step {a : Action Time Exc n} (h : Step cap requestPairs requests s a s') :
    s'.batched = s.batched ∨ ∃ a', OpenLoop.step cap requestPairs s.batched a' = some s'.batched := by
  cases h with
  | flusher h => exact Or.inr ⟨_, h⟩
  | warm main thread h => exact Or.inr ⟨_, h⟩
  | drive main => exact Or.inl rfl
  | load own h => exact Or.inl rfl
  | dispatch worker pending thread h => exact Or.inr ⟨_, h⟩
  | finish returned h => exact Or.inl rfl
  | stop ended h => exact Or.inr ⟨_, h⟩

theorem batched_reachable
    (h : (experiment Exc n maxBatchSize maxWaitMs cap warmupRequests requestPairs requests).Reachable s) :
    (openLoop Exc (n + 1) maxBatchSize maxWaitMs cap requestPairs).Reachable s.batched := by
  refine h.invariant (fun s => (openLoop Exc (n + 1) maxBatchSize maxWaitMs cap requestPairs).Reachable s.batched) ?_ ?_
  · intro s hinit
    obtain ⟨nowNs, rfl⟩ := hinit
    exact .init rfl
  · intro s a s' hs hstep
    rcases batched_step hstep with hsame | ⟨a', ha'⟩
    · rwa [hsame]
    · exact hs.step ha'

theorem awaited_of_reachable (h : (openLoop Exc n maxBatchSize maxWaitMs cap requestPairs).Reachable b) : Awaited b := by
  refine h.invariant Awaited ?_ fun b a b' hb hstep => awaited_step hb (step_cases hstep)
  intro b hinit
  have hstart : b = { batcher := { maxBatchSize := maxBatchSize, maxWaitMs := maxWaitMs } } := hinit
  rw [hstart]
  exact fun event hevent => absurd hevent List.not_mem_nil

theorem load_accounts
    (h : (experiment Exc n maxBatchSize maxWaitMs cap warmupRequests requestPairs requests).Reachable s) {runStartNs : Int}
    (hmain : s.main = .driving runStartNs) : Accounts (requests runStartNs) s.load := by
  revert runStartNs
  refine h.invariant (fun s => ∀ {runStartNs}, s.main = .driving runStartNs → Accounts (requests runStartNs) s.load) ?_ ?_
  · intro s hinit
    obtain ⟨nowNs, rfl⟩ := hinit
    intro runStartNs hmain
    cases hmain
  · intro s a s' hs hstep runStartNs hmain
    cases hstep with
    | flusher h => exact hs hmain
    | @warm left a batched main thread h =>
      dsimp only at hmain
      unfold warmed at hmain
      split at hmain <;> cases hmain
    | drive main =>
      cases hmain
      exact accounts_of_reachable (.init ⟨_, rfl⟩)
    | load own h => exact (hs hmain).step h
    | dispatch worker pending thread h => exact hs hmain
    | finish returned h => exact (hs hmain).step h
    | stop ended h => exact hs hmain

theorem counted_of_reachable (hpairs : requestPairs ≠ [])
    (h : (experiment Exc n maxBatchSize maxWaitMs cap warmupRequests requestPairs requests).Reachable s)
    (hfailure : s.batched.failure = []) (hmain : ∀ outcome, s.main ≠ .raising outcome) : Counted warmupRequests s := by
  revert hfailure hmain
  refine h.invariant
    (fun s => s.batched.failure = [] → (∀ outcome, s.main ≠ .raising outcome) → Counted warmupRequests s) ?_ ?_
  · intro s hinit
    obtain ⟨nowNs, rfl⟩ := hinit
    intro _ _
    refine ⟨fun hbusy => absurd rfl hbusy, fun left _ => ⟨nowNs, rfl⟩, fun w hw => ?_, fun w _ => rfl, ?_, ?_⟩
    · exact hw.elim (fun hne => absurd rfl hne) (fun hne => absurd rfl hne)
    · simp [Main.left, waits, served, recorded, recording]
    · simp [failed, recorded, recording]
  · exact fun s a s' hs hstep hfailure hmain => counted_step hpairs hs hstep hfailure hmain

/-- The batcher never sheds without a cap. -/
theorem shed_eq_zero (h : (openLoop Exc n maxBatchSize maxWaitMs none requestPairs).Reachable b) : b.shed = 0 := by
  refine h.invariant (fun b => b.shed = 0) ?_ fun b a b' hb hstep => ?_
  · intro b hinit
    have hstart : b = { batcher := { maxBatchSize := maxBatchSize, maxWaitMs := maxWaitMs } } := hinit
    rw [hstart]
  · have hstep' : OpenLoop.step none requestPairs b a = some b' := hstep
    cases step_cases hstep' with
    | @shed i now event htested =>
      simp only [OpenLoop.step, htested, Option.some.injEq] at hstep'
      exact (congrArg OpenLoop.State.shed hstep').symm.trans ((submit_uncapped b i event now).trans hb)
    | flusher hflusher => exact (flusher_counts hflusher).1.trans hb
    | _ => exact hb

/-- With every call over, all that was accepted has been handed to the scorer. -/
theorem handed_eq_accepted (h : (openLoop Exc n maxBatchSize maxWaitMs cap requestPairs).Reachable b)
    (hthreads : ∀ i, b.threads i = .idle) (hfailure : b.failure = []) :
    b.handed.flatten.map Prod.fst = b.accepted ∧ b.queue = [] := by
  obtain ⟨hflow, hfresh⟩ := invariants h
  obtain ⟨orphans, hhanded, hnone⟩ := hflow.handed
  rw [hnone hfailure, List.append_nil] at hhanded
  have horder := hflow.order
  have hnodup := hfresh.nodup
  rw [horder, List.append_assoc] at hnodup
  have hqueue : b.queue = [] := by
    refine List.eq_nil_iff_forall_not_mem.mpr fun event hevent => ?_
    have hmem : event ∈ b.flusher.current ++ b.queue := List.mem_append_right _ hevent
    have haccepted : event ∈ b.accepted := by
      rw [horder, List.append_assoc]
      exact List.mem_append_right _ hmem
    rcases awaited_of_reachable h event haccepted with hwoken | ⟨i, hi⟩
    · exact List.disjoint_of_nodup_append hnodup hwoken hmem
    · rw [hthreads i] at hi
      cases hi
  rw [hqueue, List.append_nil] at horder
  exact ⟨(horder.trans hhanded).symm, hqueue⟩

/-- When `_run_batched_open_loop` returns, the assertion of `run_queue_discipline`
holds: every offered request was scored or shed, nothing is shed without a cap,
and the scorer was handed the accepted requests in their order, once each, which
are those that completed and those of the warm-up. -/
theorem discipline_accounts {R : Type*} [Zero R] [One R] [Add R] [Div R] [LT R] [DecidableLT R] [LinearOrder S]
    (product : ℚ → Nat → ℚ) (toUs : Int → S) (discipline : String) (maxQueueDepth : Nat) (power : Nat → R)
    (sampler : ZipfQuerySampler Q R) (hsampler : zipfQuerySampler (requestPairs.map Prod.fst) power = some sampler)
    (qps : T) (arrivals : List T) (draws : List R) (hlength : draws.length = arrivals.length) (sampled : List Q)
    (hsampled : draws.mapM sampler.sample = some sampled) (toNs : T → Int) (s : State Q P Time Exc n)
    (h : (experiment Exc n maxBatchSize maxWaitMs (capOf discipline maxQueueDepth) warmupRequests requestPairs
      fun runStartNs => schedule toNs runStartNs arrivals sampled).Reachable s)
    (runStartNs : Int) (hreturns : Returns s runStartNs) :
    let result := loadResult toUs arrivals qps runStartNs s.load.nowNs s.load.records
    ∃ answer, queueDiscipline product discipline qps result s.batched.shed = some answer ∧
      result.completed + answer.shedCount = arrivals.length ∧ (discipline ≠ "shed" → answer.shedCount = 0) ∧
      s.batched.handed.flatten.map Prod.fst = s.batched.accepted ∧
      s.batched.handed.flatten.length = warmupRequests + result.completed ∧
      (s.batched.handed.flatten.map Prod.fst).Nodup ∧ (∀ batch ∈ s.batched.handed, batch.length ≤ maxBatchSize) ∧
      s.batched.queue = [] := by
  intro result
  have hpairs : requestPairs ≠ [] := by
    rintro rfl
    rw [zipfQuerySampler, List.map_nil, if_pos rfl] at hsampler
    cases hsampler
  have hbatched := batched_reachable h
  have hcounted := counted_of_reachable hpairs h hreturns.failure fun outcome hraise => by
    rw [hreturns.main] at hraise
    cases hraise
  obtain ⟨haccepted, hshed⟩ := hcounted.finished hreturns.main hreturns.load
  obtain ⟨hhanded, hqueue⟩ := handed_eq_accepted hbatched (hcounted.idle hreturns.main hreturns.load).2 hreturns.failure
  obtain ⟨hflow, hfresh⟩ := invariants hbatched
  have hcollected : Collected toUs s.load.records result := collected_loadResult ..
  have hrecords : s.load.records.length = arrivals.length := by
    rw [length_records (load_accounts h hreturns.main) hreturns.load, schedule, List.length_zipWith,
      (sampled_spec hsampled).1, hlength, Nat.min_self]
  have huncapped : discipline ≠ "shed" → s.batched.shed = 0 := by
    intro hne
    rw [capOf, if_neg hne] at hbatched
    exact shed_eq_zero hbatched
  have hassert : result.errors = if discipline = "shed" then s.batched.shed else 0 := by
    rw [hcollected.errors, ← hshed]
    split
    · rfl
    · rename_i hne
      exact huncapped hne
  refine ⟨_, if_pos hassert, ?_, huncapped, hhanded, ?_, hhanded ▸ hfresh.nodup, hflow.batches, hqueue⟩
  · rw [hcollected.completed, ← hrecords, List.length_eq_countP_add_countP fun r : Record => r.ok]
    simpa using hshed
  · rw [hcollected.completed, ← haccepted, ← hhanded, List.length_map]

end Running

def nanoseconds (t : ℚ) : Int := (t * 10 ^ 9).floor

/-- One request, which takes half a second, and one in the warm-up before it. -/
def oneExperiment : System (State String String Int Unit 1) (Action Int Unit 1) :=
  experiment Unit 1 1 0 (capOf "shed" 1) 1 [("fox", "a fox")] fun runStartNs =>
    schedule nanoseconds runStartNs [3 / 10] ["fox"]

theorem oneExperiment_run : ∃ s, oneExperiment.Reachable s ∧ Returns s 0 := by
  have go : ∀ {s batched}, oneExperiment.Reachable s →
      OpenLoop.step (capOf "shed" 1) [("fox", "a fox")] s.batched (.flusher 0 0 (.ok 1)) = some batched →
      oneExperiment.Reachable { s with batched := batched } := fun hs hstep => hs.step (.flusher hstep)
  have hstart : oneExperiment.Reachable
      { main := .warming 1, batched := { batcher := { maxBatchSize := 1, maxWaitMs := 0 } },
        load := { nowNs := 0, upcoming := [] } } := .init ⟨0, rfl⟩
  have hcalled := (hstart.step (.warm (a := .call 1) rfl rfl rfl)).step (.warm (a := .submit 1 0) rfl rfl rfl)
  have hwoken := go (go (go (go hcalled rfl) rfl) rfl) rfl
  have hdriven := (go (hwoken.step (.warm (a := .resume 1) rfl rfl rfl)) rfl).step (.drive rfl)
  have hwaited := hdriven.step (.load (by simp) (.wait 300000000))
  have hsubmitted := hwaited.step (.load (by simp) (.submit rfl (by decide +kernel)))
  have htaken := hsubmitted.step (.load (by simp) (.take (w := 0) rfl rfl))
  have hstarted := htaken.step (.load (by simp) (.start (w := 0) rfl))
  have hbegun := hstarted.step (.dispatch (w := 0) (a := .call 0) rfl rfl rfl rfl)
  have haccepted := hbegun.step (.dispatch (w := 0) (a := .submit 0 0) rfl rfl rfl rfl)
  have hscored := go (go (go haccepted rfl) rfl) rfl
  have hset := go (hscored.step (.load (by simp) (.wait 500000000))) rfl
  have hresumed := hset.step (.dispatch (w := 0) (a := .resume 0) rfl rfl rfl rfl)
  have hfinished := hresumed.step (.finish (w := 0) rfl (.finish rfl true))
  have hrecorded := hfinished.step (.load (by simp) (.record (w := 0) rfl))
  have hstopped := hrecorded.step
    (.stop (Or.inr ⟨⟨0, rfl⟩, rfl, rfl, fun w => by rw [Subsingleton.elim w 0]; rfl⟩) rfl)
  exact ⟨_, go (go hstopped rfl) rfl, rfl, ⟨rfl, rfl, fun w => by rw [Subsingleton.elim w 0]; rfl⟩, Or.inl rfl, rfl⟩

theorem discipline_accounts_one : ∃ (s : State String String Int Unit 1) (answer : QueueDiscipline ℚ Int),
    oneExperiment.Reachable s ∧ Returns s 0 ∧ s.batched.handed.flatten.length + answer.shedCount = 2 := by
  obtain ⟨s, hreach, hreturns⟩ := oneExperiment_run
  let sampler : ZipfQuerySampler String ℚ := ⟨["fox"], [1]⟩
  have hsampler : zipfQuerySampler (List.map Prod.fst [("fox", "a fox")]) (fun rank => (rank : ℚ)) = some sampler := by
    norm_num [zipfQuerySampler, cumulativeOf, sampler]
  obtain ⟨answer, -, hall, -, -, hhanded, -⟩ := discipline_accounts (fun p n => p / 100 * n) (fun ns : Int => ns) "shed" 1
    (fun rank => (rank : ℚ)) sampler hsampler 2 [3 / 10] [1 / 2] rfl ["fox"] (by decide +kernel) nanoseconds s hreach 0
    hreturns
  refine ⟨s, answer, hreach, hreturns, ?_⟩
  rw [hhanded, Nat.add_assoc, hall]
  rfl

end CascadeSearch.Rank.Discipline
