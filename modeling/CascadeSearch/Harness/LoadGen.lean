import CascadeSearch.Harness.Histogram
import CascadeSearch.Lib.Transition
import Mathlib.Algebra.BigOperators.Fin
import Mathlib.Algebra.BigOperators.Group.Multiset.Basic
import Mathlib.Algebra.Order.Field.Basic
import Mathlib.Data.Int.ConditionallyCompleteOrder
import Mathlib.Data.List.TakeWhile

/-!
# The open-loop load generator (`loadgen.py`)

The arrival thread waits for each scheduled time and submits; the threads of the
pool take what is submitted in order, and each of their readings of the clock is
a step of its own. Time passes between any two steps, and a dispatch ends when
it likes, with or without an exception.
-/
namespace CascadeSearch.Harness.LoadGen

open Lib.OrderStatistics Lib.Transition
open Histogram

variable {T Q S : Type*} {n : Nat}

/-- The loop of `poisson_arrivals`, over the values of `expovariate`; `none` if it
needs more of them. -/
def arrivalsFrom [Add T] [LE T] [DecidableLE T] (durationS t : T) : List T → Option (List T)
  | [] => none
  | gap :: gaps =>
      let t := t + gap
      if durationS ≤ t then some [] else (arrivalsFrom durationS t gaps).map (t :: ·)

/-- `none` if it raises, too. -/
def poissonArrivals [Zero T] [Add T] [LE T] [DecidableLE T] (qps durationS : T) (gaps : List T) : Option (List T) :=
  if qps ≤ 0 then none else arrivalsFrom durationS 0 gaps

structure ZipfQuerySampler (Q R : Type*) where
  queries : List Q
  cumulative : List R

/-- The running sums of the weights over their total. -/
def cumulativeOf {R : Type*} [Zero R] [Add R] [Div R] (total : R) (weights : List R) : List R :=
  (weights.scanl (fun acc w => acc + w / total) 0).tail

/-- `power rank` is `rank**s`; `none` for no queries. -/
def zipfQuerySampler {R : Type*} [Zero R] [One R] [Add R] [Div R] (queries : List Q) (power : Nat → R) :
    Option (ZipfQuerySampler Q R) :=
  if queries = [] then none
  else
    let weights := (List.range queries.length).map fun i => 1 / power (i + 1)
    some ⟨queries, cumulativeOf (weights.foldl (· + ·) 0) weights⟩

/-- `bisect_left` on a sorted list. -/
def bisectLeft {R : Type*} [LT R] [DecidableLT R] (xs : List R) (x : R) : Nat := (xs.takeWhile (· < x)).length

/-- `none` for an index out of range. -/
def ZipfQuerySampler.sample {R : Type*} [LT R] [DecidableLT R] (sampler : ZipfQuerySampler Q R) (draw : R) : Option Q :=
  sampler.queries[bisectLeft sampler.cumulative draw]?

/-- The arguments of `work`. -/
structure Request (Q : Type*) where
  scheduledNs : Int
  query : Q
deriving DecidableEq

structure Record where
  scheduledNs : Int
  startNs : Int
  doneNs : Int
  ok : Bool

/-- A thread of the pool: free, at the top of `work`, in `dispatch`, at the `append`. -/
inductive Worker (Q : Type*) where
  | idle
  | taken (request : Request Q)
  | dispatching (request : Request Q) (startNs : Int)
  | recording (record : Record)

/-- What `perf_counter_ns` returns now, what is still to be submitted, what waits
in the pool, and what is done. -/
structure State (Q : Type*) (n : Nat) where
  nowNs : Int
  upcoming : List (Request Q)
  queue : List (Request Q) := []
  workers : Fin n → Worker Q := fun _ => .idle
  records : List Record := []

inductive Action (n : Nat) where
  | wait (ns : Nat)
  | submit
  | take (worker : Fin n)
  | start (worker : Fin n)
  | finish (worker : Fin n) (ok : Bool)
  | record (worker : Fin n)

inductive Step : State Q n → Action n → State Q n → Prop where
  | wait {s : State Q n} (ns : Nat) : Step s (.wait ns) { s with nowNs := s.nowNs + ns }
  | submit {s : State Q n} {request : Request Q} {upcoming : List (Request Q)}
      (next : s.upcoming = request :: upcoming) (due : request.scheduledNs ≤ s.nowNs) :
      Step s .submit { s with upcoming := upcoming, queue := s.queue ++ [request] }
  | take {s : State Q n} {w : Fin n} {request : Request Q} {queue : List (Request Q)} (worker : s.workers w = .idle)
      (first : s.queue = request :: queue) :
      Step s (.take w) { s with queue := queue, workers := Function.update s.workers w (.taken request) }
  | start {s : State Q n} {w : Fin n} {request : Request Q} (worker : s.workers w = .taken request) :
      Step s (.start w) { s with workers := Function.update s.workers w (.dispatching request s.nowNs) }
  | finish {s : State Q n} {w : Fin n} {request : Request Q} {startNs : Int}
      (worker : s.workers w = .dispatching request startNs) (ok : Bool) :
      Step s (.finish w ok) { s with
        workers := Function.update s.workers w (.recording ⟨request.scheduledNs, startNs, s.nowNs, ok⟩) }
  | record {s : State Q n} {w : Fin n} {record : Record} (worker : s.workers w = .recording record) :
      Step s (.record w) { s with workers := Function.update s.workers w .idle, records := s.records ++ [record] }

/-- What the arrival thread is to submit. -/
def schedule (toNs : T → Int) (runStartNs : Int) (arrivals : List T) (sampled : List Q) : List (Request Q) :=
  List.zipWith (fun offsetS query => ⟨runStartNs + toNs offsetS, query⟩) arrivals sampled

def openLoop (Q : Type*) (n : Nat) (requests : List (Request Q)) : System (State Q n) (Action n) where
  init s := ∃ nowNs, s = { nowNs := nowNs, upcoming := requests }
  step := Step

/-- The pool has been left: everything is submitted and every thread has ended. -/
structure Finished (s : State Q n) : Prop where
  upcoming : s.upcoming = []
  queue : s.queue = []
  workers : ∀ w, s.workers w = .idle

structure LoadResult (T S : Type*) where
  arrivals : List T
  offeredQps : T
  latency : LatencyRecorder S := {}
  service : LatencyRecorder S := {}
  queueDelay : LatencyRecorder S := {}
  completed : Nat := 0
  errors : Nat := 0
  achievedQps : ℚ := 0
  wallS : ℚ := 0

/-- The body of the loop over the records; `toUs` divides by a thousand. -/
def collect (toUs : Int → S) (result : LoadResult T S) (record : Record) : LoadResult T S :=
  { result with
    completed := if record.ok then result.completed + 1 else result.completed
    errors := if record.ok then result.errors else result.errors + 1
    latency := result.latency.record (toUs (record.doneNs - record.scheduledNs))
    service := result.service.record (toUs (record.doneNs - record.startNs))
    queueDelay := result.queueDelay.record (toUs (record.startNs - record.scheduledNs)) }

def loadResult (toUs : Int → S) (arrivals : List T) (qps : T) (runStartNs runEndNs : Int) (records : List Record) :
    LoadResult T S :=
  let wallS : ℚ := (runEndNs - runStartNs : Int) / 10 ^ 9
  { records.foldl (collect toUs) { arrivals := arrivals, offeredQps := qps } with
    wallS := wallS
    achievedQps := if 0 < wallS then records.length / wallS else 0 }

/-- The sum over all threads when one of them moves on. -/
theorem sum_update {ι M W : Type*} [Fintype ι] [DecidableEq ι] [AddCommMonoid M] (f : W → M) (workers : ι → W) (w : ι)
    (t : W) : ∑ v, f (Function.update workers w t v) + f (workers w) = ∑ v, f (workers v) + f t := by
  rw [← Finset.add_sum_erase Finset.univ (fun v => f (Function.update workers w t v)) (Finset.mem_univ w),
    ← Finset.add_sum_erase Finset.univ (fun v => f (workers v)) (Finset.mem_univ w)]
  have herase : ∑ v ∈ Finset.univ.erase w, f (Function.update workers w t v) = ∑ v ∈ Finset.univ.erase w, f (workers v) :=
    Finset.sum_congr rfl fun v hv => by rw [Function.update_of_ne (Finset.ne_of_mem_erase hv)]
  rw [herase, Function.update_self]
  abel

/-- The scheduled time of the request a thread has taken. -/
def Worker.held : Worker Q → Multiset Int
  | .idle => 0
  | .taken request | .dispatching request _ => {request.scheduledNs}
  | .recording record => {record.scheduledNs}

/-- The steps a thread has before it is free. -/
def Worker.left : Worker Q → Nat
  | .idle => 0
  | .taken _ => 3
  | .dispatching _ _ => 2
  | .recording _ => 1

def remaining (s : State Q n) : Nat := 5 * s.upcoming.length + 4 * s.queue.length + ∑ w, (s.workers w).left

/-- Read in this order, and by now. -/
def Record.Timely (nowNs : Int) (record : Record) : Prop :=
  record.scheduledNs ≤ record.startNs ∧ record.startNs ≤ record.doneNs ∧ record.doneNs ≤ nowNs

def Worker.Timely (nowNs : Int) : Worker Q → Prop
  | .idle => True
  | .taken request => request.scheduledNs ≤ nowNs
  | .dispatching request startNs => request.scheduledNs ≤ startNs ∧ startNs ≤ nowNs
  | .recording record => record.Timely nowNs

/-- Every request is still to come, in the pool, with a thread or recorded, in the
order of the schedule up to the pool. -/
structure Accounts (requests : List (Request Q)) (s : State Q n) : Prop where
  order : ∃ started, requests = started ++ s.queue ++ s.upcoming ∧
    (s.records.map Record.scheduledNs : Multiset Int) + ∑ w, (s.workers w).held = started.map Request.scheduledNs
  due : ∀ request ∈ s.queue, request.scheduledNs ≤ s.nowNs
  workers : ∀ w, (s.workers w).Timely s.nowNs
  records : ∀ record ∈ s.records, record.Timely s.nowNs

variable {requests : List (Request Q)} {s s' : State Q n}

theorem Record.Timely.later {record : Record} {nowNs : Int} (h : record.Timely nowNs) (ns : Nat) :
    record.Timely (nowNs + ns) := ⟨h.1, h.2.1, by have := h.2.2; omega⟩

theorem Worker.Timely.later {worker : Worker Q} {nowNs : Int} (h : worker.Timely nowNs) (ns : Nat) :
    worker.Timely (nowNs + ns) := by
  cases worker with
  | idle => trivial
  | taken request =>
    have hdue : request.scheduledNs ≤ nowNs := h
    change request.scheduledNs ≤ nowNs + ns
    omega
  | dispatching request startNs =>
    obtain ⟨hstart, hnow⟩ : request.scheduledNs ≤ startNs ∧ startNs ≤ nowNs := h
    exact ⟨hstart, by omega⟩
  | recording record => exact Record.Timely.later h ns

namespace Accounts

/-- One thread moves on with the request it holds. -/
theorem work (h : Accounts requests s) {w : Fin n} {t : Worker Q} (hheld : t.held = (s.workers w).held)
    (htimely : t.Timely s.nowNs) : Accounts requests { s with workers := Function.update s.workers w t } := by
  obtain ⟨started, horder, hplaces⟩ := h.order
  refine ⟨⟨started, horder, ?_⟩, h.due, fun v => ?_, h.records⟩
  · have hsum := sum_update Worker.held s.workers w t
    rw [hheld] at hsum
    rw [← hplaces]
    exact congrArg _ (add_right_cancel hsum)
  · dsimp only
    by_cases hv : v = w
    · rw [hv, Function.update_self]
      exact htimely
    · rw [Function.update_of_ne hv]
      exact h.workers v

theorem step (h : Accounts requests s) {a : Action n} (hstep : Step s a s') : Accounts requests s' := by
  obtain ⟨started, horder, hplaces⟩ := h.order
  cases hstep with
  | wait ns =>
    refine ⟨h.order, fun request hmem => ?_, fun w => (h.workers w).later ns, fun record hmem => (h.records record hmem).later ns⟩
    have hdue := h.due request hmem
    change request.scheduledNs ≤ s.nowNs + ns
    omega
  | @submit request upcoming next due =>
    refine ⟨⟨started, ?_, hplaces⟩, fun x hx => ?_, h.workers, h.records⟩
    · rw [horder, next]
      simp
    · rcases List.mem_append.mp hx with hx | hx
      · exact h.due x hx
      · rw [List.mem_singleton.mp hx]
        exact due
  | @take w request queue worker first =>
    refine ⟨⟨started ++ [request], ?_, ?_⟩, fun x hx => h.due x (first ▸ List.mem_cons_of_mem _ hx), fun v => ?_, h.records⟩
    · rw [horder, first]
      simp
    · have hsum := sum_update Worker.held s.workers w (.taken request)
      rw [worker, Worker.held, add_zero] at hsum
      rw [hsum, ← add_assoc, hplaces, List.map_append, ← Multiset.coe_add]
      rfl
    · dsimp only
      by_cases hv : v = w
      · rw [hv, Function.update_self]
        exact h.due request (first ▸ List.mem_cons_self)
      · rw [Function.update_of_ne hv]
        exact h.workers v
  | @start w request worker =>
    have htimely := h.workers w
    rw [worker] at htimely
    exact h.work (by rw [worker]; rfl) ⟨htimely, le_rfl⟩
  | @finish w request startNs worker ok =>
    have htimely := h.workers w
    rw [worker] at htimely
    exact h.work (by rw [worker]; rfl) ⟨htimely.1, htimely.2, le_rfl⟩
  | @record w record worker =>
    have htimely := h.workers w
    rw [worker] at htimely
    refine ⟨⟨started, horder, ?_⟩, h.due, fun v => ?_, fun x hx => ?_⟩
    · have hsum := sum_update Worker.held s.workers w .idle
      rw [worker, Worker.held, Worker.held, add_zero] at hsum
      rw [← hplaces, ← hsum, List.map_append, ← Multiset.coe_add, add_assoc, add_comm (∑ v, _)]
      rfl
    · dsimp only
      by_cases hv : v = w
      · rw [hv, Function.update_self]
        trivial
      · rw [Function.update_of_ne hv]
        exact h.workers v
    · rcases List.mem_append.mp hx with hx | hx
      · exact h.records x hx
      · rw [List.mem_singleton.mp hx]
        exact htimely

end Accounts

theorem accounts_of_reachable (h : (openLoop Q n requests).Reachable s) : Accounts requests s := by
  refine h.invariant (Accounts requests) ?_ fun _ _ _ hs hstep => hs.step hstep
  intro s hinit
  obtain ⟨nowNs, rfl⟩ := hinit
  exact ⟨⟨[], rfl, by simp [Worker.held]⟩, fun x hx => absurd hx List.not_mem_nil, fun w => trivial,
    fun x hx => absurd hx List.not_mem_nil⟩

/-- Any step but the passing of time. -/
def Action.counted : Action n → Bool
  | .wait _ => false
  | _ => true

def steps (trace : List (Action n)) : Nat := trace.countP Action.counted

/-- A thread that moves on takes one step. -/
theorem remaining_update {w : Fin n} {t : Worker Q} (hleft : t.left + 1 = (s.workers w).left) :
    remaining { s with workers := Function.update s.workers w t } + 1 = remaining s := by
  have hsum := sum_update Worker.left s.workers w t
  rw [remaining, remaining]
  dsimp only
  omega

theorem remaining_step {a : Action n} (h : Step s a s') : steps [a] + remaining s' = remaining s := by
  cases h with
  | wait ns => exact Nat.zero_add _
  | @submit request upcoming next due =>
    have hone : steps [(.submit : Action n)] = 1 := rfl
    rw [remaining, remaining, next, hone, List.length_append, List.length_singleton, List.length_cons]
    dsimp only
    omega
  | @take w request queue worker first =>
    have hone : steps [Action.take w] = 1 := rfl
    have hsum := sum_update Worker.left s.workers w (.taken request)
    rw [worker, Worker.left, Worker.left] at hsum
    rw [remaining, remaining, first, hone, List.length_cons]
    dsimp only
    omega
  | start worker => exact (Nat.add_comm _ _).trans (remaining_update (by rw [worker]; rfl))
  | finish worker ok => exact (Nat.add_comm _ _).trans (remaining_update (by rw [worker]; rfl))
  | record worker => exact (Nat.add_comm _ _).trans (remaining_update (by rw [worker]; rfl))

/-- Five steps for each request: it is submitted, taken, started, ended and recorded. -/
theorem steps_of_run {trace : List (Action n)} (h : (openLoop Q n requests).Run trace s) :
    steps trace + remaining s = 5 * requests.length := by
  apply h.invariant fun trace s => steps trace + remaining s = 5 * requests.length
  · intro s hinit
    obtain ⟨nowNs, rfl⟩ := hinit
    simp [steps, remaining, Worker.left]
  · intro trace s a s' ih hstep
    have hone := remaining_step hstep
    rw [steps] at hone ih ⊢
    rw [List.countP_append]
    omega

theorem finished_iff : Finished s ↔ remaining s = 0 := by
  have hsum : ∑ w, (s.workers w).left = 0 ↔ ∀ w, s.workers w = .idle := by
    rw [Finset.sum_eq_zero_iff]
    refine ⟨fun h w => ?_, fun h w _ => by rw [h w]; rfl⟩
    have hw := h w (Finset.mem_univ w)
    cases hworker : s.workers w with
    | idle => rfl
    | taken request => rw [hworker] at hw; cases hw
    | dispatching request startNs => rw [hworker] at hw; cases hw
    | recording record => rw [hworker] at hw; cases hw
  constructor
  · intro h
    rw [remaining, h.upcoming, h.queue, hsum.mpr h.workers]
    rfl
  · intro h
    rw [remaining] at h
    exact ⟨List.length_eq_zero_iff.mp (by omega), List.length_eq_zero_iff.mp (by omega), hsum.mp (by omega)⟩

/-- As long as something is left, some step other than waiting becomes possible. -/
theorem exists_step (hn : 0 < n) (h : ¬ Finished s) :
    ∃ ns s₁ a s₂, Step s (.wait ns) s₁ ∧ a.counted = true ∧ Step s₁ a s₂ := by
  by_cases hbusy : ∃ w, s.workers w ≠ .idle
  · obtain ⟨w, hw⟩ := hbusy
    let t : State Q n := { s with nowNs := s.nowNs + (0 : Nat) }
    have hwait : Step s (.wait 0) t := .wait 0
    cases hworker : s.workers w with
    | idle => exact absurd hworker hw
    | taken request => exact ⟨0, _, .start w, _, hwait, rfl, .start (s := t) hworker⟩
    | dispatching request startNs => exact ⟨0, _, .finish w true, _, hwait, rfl, .finish (s := t) hworker true⟩
    | recording record => exact ⟨0, _, .record w, _, hwait, rfl, .record (s := t) hworker⟩
  · push Not at hbusy
    cases hqueue : s.queue with
    | cons request queue => exact ⟨0, _, .take ⟨0, hn⟩, _, .wait 0, rfl, .take (hbusy _) hqueue⟩
    | nil =>
      cases hupcoming : s.upcoming with
      | nil => exact absurd ⟨hupcoming, hqueue, hbusy⟩ h
      | cons request upcoming =>
        refine ⟨(request.scheduledNs - s.nowNs).toNat, _, .submit, _, .wait _, rfl, .submit hupcoming ?_⟩
        change request.scheduledNs ≤ s.nowNs + _
        omega

theorem length_records (h : Accounts requests s) (hfinished : Finished s) : s.records.length = requests.length := by
  obtain ⟨started, horder, hplaces⟩ := h.order
  have hheld : ∑ w, (s.workers w).held = 0 := Finset.sum_eq_zero fun w _ => by rw [hfinished.workers w]; rfl
  have hcard := congrArg Multiset.card hplaces
  rw [hheld, add_zero, Multiset.coe_card, Multiset.coe_card, List.length_map, List.length_map] at hcard
  rw [hcard, horder, hfinished.upcoming, hfinished.queue]
  simp

section Result

variable [LinearOrder S] {toUs : Int → S} {records : List Record}

/-- What the loop over the records has made of them. -/
structure Collected (toUs : Int → S) (records : List Record) (result : LoadResult T S) : Prop where
  latency : Fresh (records.map fun r => toUs (r.doneNs - r.scheduledNs)) result.latency
  service : Fresh (records.map fun r => toUs (r.doneNs - r.startNs)) result.service
  queueDelay : Fresh (records.map fun r => toUs (r.startNs - r.scheduledNs)) result.queueDelay
  completed : result.completed = records.countP (·.ok)
  errors : result.errors = records.countP (! ·.ok)

theorem collected_collect {result : LoadResult T S} (h : Collected toUs records result) (record : Record) :
    Collected toUs (records ++ [record]) (collect toUs result record) := by
  have hfresh : ∀ {samples : List S} {r : LatencyRecorder S}, Fresh samples r → ∀ x, Fresh (samples ++ [x]) (r.record x) :=
    fun h x => ⟨congrArg (· ++ [x]) h.samples, fun sorted hmem => nomatch hmem⟩
  constructor
  · rw [List.map_append]
    exact hfresh h.latency _
  · rw [List.map_append]
    exact hfresh h.service _
  · rw [List.map_append]
    exact hfresh h.queueDelay _
  · rw [List.countP_append, collect, h.completed]
    cases hok : record.ok <;> simp [hok]
  · rw [List.countP_append, collect, h.errors]
    cases hok : record.ok <;> simp [hok]

theorem collected_loadResult (toUs : Int → S) (arrivals : List T) (qps : T) (runStartNs runEndNs : Int) (records : List Record) :
    Collected toUs records (loadResult toUs arrivals qps runStartNs runEndNs records) := by
  have hall : ∀ (seen : List Record) (result : LoadResult T S), Collected toUs seen result →
      Collected toUs (seen ++ records) (records.foldl (collect toUs) result) := by
    induction records with
    | nil =>
      intro seen result h
      rwa [List.append_nil]
    | cons record records ih =>
      intro seen result h
      have hnext := ih _ _ (collected_collect h record)
      rwa [List.append_assoc] at hnext
  have hempty : Fresh [] ({} : LatencyRecorder S) := ⟨rfl, fun sorted hmem => nomatch hmem⟩
  have h := hall [] { arrivals := arrivals, offeredQps := qps } ⟨hempty, hempty, hempty, rfl, rfl⟩
  exact ⟨h.latency, h.service, h.queueDelay, h.completed, h.errors⟩

/-- Latency is at least service and at least queue delay, percentile by percentile. -/
theorem percentiles_le {product : ℚ → Nat → ℚ} {result : LoadResult T S} (hus : Monotone toUs)
    (h : Collected toUs records result) {nowNs : Int} (htimely : ∀ record ∈ records, record.Timely nowNs) {p : ℚ}
    {latency service queueDelay : S} (hlatency : (result.latency.percentile product p).1 = some latency)
    (hservice : (result.service.percentile product p).1 = some service)
    (hqueue : (result.queueDelay.percentile product p).1 = some queueDelay) :
    service ≤ latency ∧ queueDelay ≤ latency := by
  constructor
  · refine percentile_mono h.service h.latency ?_ hservice hlatency
    rw [List.forall₂_map_left_iff, List.forall₂_map_right_iff, List.forall₂_same]
    intro record hrecord
    have := (htimely record hrecord).1
    exact hus (by omega)
  · refine percentile_mono h.queueDelay h.latency ?_ hqueue hlatency
    rw [List.forall₂_map_left_iff, List.forall₂_map_right_iff, List.forall₂_same]
    intro record hrecord
    have := (htimely record hrecord).2.1
    exact hus (by omega)

end Result

/-- Arrivals are in order and before the end, for any addition that never goes back. -/
theorem arrivalsFrom_spec [LinearOrder T] [Zero T] [Add T] (hadd : ∀ t gap : T, 0 ≤ gap → t ≤ t + gap)
    {durationS t : T} {gaps arrivals : List T} (h : arrivalsFrom durationS t gaps = some arrivals)
    (hgaps : ∀ gap ∈ gaps, 0 ≤ gap) :
    arrivals.Pairwise (· ≤ ·) ∧ ∀ offsetS ∈ arrivals, t ≤ offsetS ∧ offsetS < durationS := by
  induction gaps generalizing t arrivals with
  | nil => cases h
  | cons gap gaps ih =>
    have hgap := hadd t gap (hgaps gap List.mem_cons_self)
    rw [arrivalsFrom] at h
    split at h
    · obtain rfl := Option.some.inj h
      exact ⟨List.Pairwise.nil, fun x hx => absurd hx List.not_mem_nil⟩
    · rename_i hbefore
      obtain ⟨later, hlater, rfl⟩ := Option.map_eq_some_iff.mp h
      obtain ⟨hsorted, hbounds⟩ := ih hlater fun g hg => hgaps g (List.mem_cons_of_mem _ hg)
      refine ⟨List.pairwise_cons.mpr ⟨fun x hx => (hbounds x hx).1, hsorted⟩, fun x hx => ?_⟩
      rcases List.mem_cons.mp hx with rfl | hx
      · exact ⟨hgap, not_le.mp hbefore⟩
      · exact ⟨hgap.trans (hbounds x hx).1, (hbounds x hx).2⟩

theorem mem_schedule {toNs : T → Int} {runStartNs : Int} {arrivals : List T} {sampled : List Q} {request : Request Q}
    (h : request ∈ schedule toNs runStartNs arrivals sampled) :
    request.query ∈ sampled ∧ ∃ offsetS ∈ arrivals, request.scheduledNs = runStartNs + toNs offsetS := by
  obtain ⟨i, hi⟩ := List.mem_iff_getElem?.mp h
  obtain ⟨offsetS, query, hoffset, hquery, rfl⟩ := List.getElem?_zipWith_eq_some.mp hi
  exact ⟨List.mem_of_getElem? hquery, offsetS, List.mem_of_getElem? hoffset, rfl⟩

theorem sampled_spec {R : Type*} [LT R] [DecidableLT R] {sampler : ZipfQuerySampler Q R} {draws : List R}
    {sampled : List Q} (h : draws.mapM sampler.sample = some sampled) :
    sampled.length = draws.length ∧ sampled ⊆ sampler.queries := by
  induction draws generalizing sampled with
  | nil =>
    obtain rfl := Option.some.inj h
    exact ⟨rfl, List.nil_subset _⟩
  | cons draw draws ih =>
    rw [List.mapM_cons] at h
    obtain ⟨query, hquery, h⟩ := Option.bind_eq_some_iff.mp h
    obtain ⟨later, hlater, h⟩ := Option.bind_eq_some_iff.mp h
    obtain rfl := Option.some.inj h
    obtain ⟨hlength, hsub⟩ := ih hlater
    exact ⟨congrArg Nat.succ hlength, List.cons_subset.mpr ⟨List.mem_of_getElem? hquery, hsub⟩⟩

/-- Every arrival is submitted in order, taken in order and recorded once, in five
steps that can always be taken, and its times are in order. In the end every
arrival has completed or failed, and the latency is at least the service and the
queue delay at every percentile. -/
theorem open_loop_accounts {R : Type*} [LinearOrder T] [Zero T] [Add T] [Zero R] [One R] [Add R] [Div R] [LT R]
    [DecidableLT R] [LinearOrder S] (hadd : ∀ t gap : T, 0 ≤ gap → t ≤ t + gap) (qps durationS : T)
    (gaps arrivals : List T) (hgaps : ∀ gap ∈ gaps, 0 ≤ gap) (harrivals : poissonArrivals qps durationS gaps = some arrivals)
    (queries : List Q) (power : Nat → R) (sampler : ZipfQuerySampler Q R)
    (hsampler : zipfQuerySampler queries power = some sampler) (draws : List R) (hlength : draws.length = arrivals.length)
    (sampled : List Q) (hsampled : draws.mapM sampler.sample = some sampled) (toNs : T → Int) (runStartNs : Int) (n : Nat) :
    let requests := schedule toNs runStartNs arrivals sampled
    arrivals.Pairwise (· ≤ ·) ∧ (∀ offsetS ∈ arrivals, offsetS < durationS) ∧ requests.length = arrivals.length ∧
      (∀ request ∈ requests, request.query ∈ queries) ∧
      ∀ trace (s : State Q n), (openLoop Q n requests).Run trace s →
        Accounts requests s ∧ steps trace ≤ 5 * arrivals.length ∧ (steps trace = 5 * arrivals.length ↔ Finished s) ∧
        (0 < n → ¬ Finished s → ∃ ns s₁ a s₂, Step s (.wait ns) s₁ ∧ a.counted = true ∧ Step s₁ a s₂) ∧
        (Finished s → ∀ toUs : Int → S, Monotone toUs →
          let result := loadResult toUs arrivals qps runStartNs s.nowNs s.records
          result.completed + result.errors = arrivals.length ∧ result.latency.samples.length = arrivals.length ∧
            ∀ product p latency service queueDelay, (result.latency.percentile product p).1 = some latency →
              (result.service.percentile product p).1 = some service →
              (result.queueDelay.percentile product p).1 = some queueDelay →
              service ≤ latency ∧ queueDelay ≤ latency) := by
  rw [poissonArrivals] at harrivals
  split at harrivals
  · cases harrivals
  obtain ⟨hsorted, hbounds⟩ := arrivalsFrom_spec hadd harrivals hgaps
  obtain ⟨hsampledLength, hsub⟩ := sampled_spec hsampled
  have hqueries : sampler.queries = queries := by
    rw [zipfQuerySampler] at hsampler
    split at hsampler
    · cases hsampler
    · obtain rfl := Option.some.inj hsampler
      rfl
  have hrequests : (schedule toNs runStartNs arrivals sampled).length = arrivals.length := by
    rw [schedule, List.length_zipWith, hsampledLength, hlength, Nat.min_self]
  refine ⟨hsorted, fun x hx => (hbounds x hx).2, hrequests, fun request hrequest => ?_, fun trace s hrun => ?_⟩
  · exact hqueries ▸ hsub (mem_schedule hrequest).1
  · have haccounts := accounts_of_reachable hrun.reachable
    have hsteps := steps_of_run hrun
    rw [hrequests] at hsteps
    refine ⟨haccounts, by omega, by rw [finished_iff]; omega, exists_step, fun hfinished toUs hus => ?_⟩
    have hcollected := collected_loadResult toUs arrivals qps runStartNs s.nowNs s.records
    have hrecords := (length_records haccounts hfinished).trans hrequests
    refine ⟨?_, ?_, fun product p latency service queueDelay => percentiles_le hus hcollected haccounts.records⟩
    · rw [hcollected.completed, hcollected.errors, ← hrecords, List.length_eq_countP_add_countP fun r : Record => r.ok]
      simp
    · rw [hcollected.latency.samples, List.length_map, hrecords]

/-- Two arrivals and one thread: the second waits for the first, which takes a second. -/
def twoRequests : List (Request String) := [⟨1300000000, "fox"⟩, ⟨1700000000, "dog"⟩]

theorem twoRequests_run : ∃ (trace : List (Action 1)) (s : State String 1), (openLoop String 1 twoRequests).Run trace s ∧
    s.records = [⟨1300000000, 1300000000, 2300000000, true⟩, ⟨1700000000, 2300000000, 2300000000, false⟩] ∧
    Finished s := by
  have hstart : (openLoop String 1 twoRequests).Run [] { nowNs := 1000000000, upcoming := twoRequests } :=
    .init ⟨1000000000, rfl⟩
  have hfirst := (hstart.step (.wait 300000000)).step (.submit rfl (by decide))
  have hstarted := (hfirst.step (.take (w := 0) rfl rfl)).step (.start (w := 0) rfl)
  have hsecond := (hstarted.step (.wait 1000000000)).step (.submit rfl (by decide))
  have hrecorded := (hsecond.step (.finish (w := 0) rfl true)).step (.record (w := 0) rfl)
  have hnext := ((hrecorded.step (.take (w := 0) rfl rfl)).step (.start (w := 0) rfl)).step (.finish (w := 0) rfl false)
  exact ⟨_, _, hnext.step (.record (w := 0) rfl), rfl, rfl, rfl, fun w => by rw [Subsingleton.elim w 0]; rfl⟩

theorem open_loop_accounts_two : ∃ s : State String 1, (openLoop String 1 twoRequests).Reachable s ∧
    Accounts twoRequests s ∧ s.records.length = 2 := by
  obtain ⟨trace, s, hrun, hrecords, -⟩ := twoRequests_run
  have hschedule : schedule (fun t : ℚ => (t * 10 ^ 9).floor) 1000000000 [3 / 10, 7 / 10] ["fox", "dog"] = twoRequests := by
    decide +kernel
  obtain ⟨-, -, -, -, h⟩ := open_loop_accounts (S := Int) (fun t gap hgap => le_add_of_nonneg_right hgap) (2 : ℚ) 1
    [3 / 10, 4 / 10, 5 / 10] [3 / 10, 7 / 10] (by decide +kernel) (by decide +kernel) ["fox", "dog"]
    (fun rank => (rank : ℚ)) _ rfl [1 / 2, 9 / 10] rfl ["fox", "dog"] (by decide +kernel) (fun t => (t * 10 ^ 9).floor)
    1000000000 1
  rw [hschedule] at h
  exact ⟨s, hrun.reachable, (h trace s hrun).1, by rw [hrecords]; rfl⟩

end CascadeSearch.Harness.LoadGen
