import CascadeSearch.Server.SearchService
import CascadeSearch.Server.WorkerPool

/-!
# The `Query` call (`search_service.cc`)

A handler thread submits a task to the pool and waits for its promise. A worker
that has popped the task notes how long it was queued, runs `handle_query` and
fulfils the promise. Handlers and workers interleave at these points.
-/
namespace CascadeSearch.Server.Rpc

open Lib.Transition
open Query.Heap Query.Reader Query.Search
open SearchService WorkerPool

inductive StatusCode where
  | ok
  | resourceExhausted
deriving DecidableEq

structure Status where
  code : StatusCode
  message : String := ""
deriving DecidableEq

def Status.ok : Status := { code := .ok }

def Status.queueFull : Status := { code := .resourceExhausted, message := "queue full" }

theorem Status.queueFull_ne_ok : Status.queueFull ≠ Status.ok := by decide

/-- Where the thread that handles a call stands. -/
inductive Handler where
  | idle
  | called
  | waiting
  | returned (status : Status)
deriving DecidableEq

/-- Where a worker stands in the task it runs. -/
inductive Stage where
  | taken
  | handling
  | fulfilled

/-- `static_cast<uint32_t>` of a duration in microseconds. -/
def microsecondsBetween (start stop : Nat) : Nat := (stop - start) % 2 ^ 32

variable {S ι : Type} {n : Nat}

/-- The tasks are the calls themselves. `promises` counts `set_value`;
`queueWaitUs` is the field of the response that `handle_query` leaves alone. -/
structure State (S ι : Type) (n : Nat) where
  pool : Pool ι n
  service : Service S ι
  handlers : ι → Handler := fun _ => .idle
  stages : Fin n → Stage := fun _ => .taken
  promises : ι → Nat := fun _ => 0
  clock : Nat := 0
  queuedAt : ι → Nat := fun _ => 0
  queueWaitUs : ι → Nat := fun _ => 0

inductive Action (ι : Type) (n : Nat) where
  | query (call : ι)
  | trySubmit (call : ι)
  | pop (worker : Fin n)
  | setQueueWait (worker : Fin n)
  | handleQuery (worker : Fin n) (part : SearchService.Action ι)
  | setValue (worker : Fin n)
  | finish (worker : Fin n)
  | ret (call : ι)
  | tick (us : Nat)
  | shutdown

/-- The call that a step of `handle_query` belongs to. -/
def caller : SearchService.Action ι → ι
  | .get call | .search call | .put call => call

/-- What `try_submit` answers decides whether the handler waits. -/
def Handler.submitted (accepted : Bool) : Handler := if accepted then .waiting else .returned .queueFull

section Model

variable [LinearOrder S] [Zero S] [One S] [Neg S] [Add S] [DecidableEq ι]

inductive Steps (ix : Index S) (algorithm : Algorithm) (requests : ι → SearchRequest) :
    State S ι n → Action ι n → State S ι n → Prop where
  | query {s : State S ι n} {i : ι} (handler : s.handlers i = .idle) :
      Steps ix algorithm requests s (.query i)
        { s with handlers := Function.update s.handlers i .called, queuedAt := Function.update s.queuedAt i s.clock }
  | trySubmit {s : State S ι n} {i : ι} {pool : Pool ι n} (handler : s.handlers i = .called)
      (submit : WorkerPool.step s.pool (.trySubmit i) = some pool) :
      Steps ix algorithm requests s (.trySubmit i)
        { s with
          pool := pool
          handlers := Function.update s.handlers i (.submitted (s.pool.queue.tryPush i).1) }
  | pop {s : State S ι n} {w : Fin n} {pool : Pool ι n} (pop : WorkerPool.step s.pool (.pop w) = some pool) :
      Steps ix algorithm requests s (.pop w) { s with pool := pool, stages := Function.update s.stages w .taken }
  | setQueueWait {s : State S ι n} {w : Fin n} {i : ι} (running : s.pool.workers w = .running i)
      (stage : s.stages w = .taken) :
      Steps ix algorithm requests s (.setQueueWait w)
        { s with
          stages := Function.update s.stages w .handling
          queueWaitUs := Function.update s.queueWaitUs i (microsecondsBetween (s.queuedAt i) s.clock) }
  | handleQuery {s : State S ι n} {w : Fin n} {part : SearchService.Action ι} {service : Service S ι}
      (running : s.pool.workers w = .running (caller part)) (stage : s.stages w = .handling)
      (step : HandleQuery ix algorithm requests s.service part service) :
      Steps ix algorithm requests s (.handleQuery w part) { s with service := service }
  | setValue {s : State S ι n} {w : Fin n} {i : ι} (running : s.pool.workers w = .running i)
      (stage : s.stages w = .handling) (handled : (s.service.calls i).phase = .finished) :
      Steps ix algorithm requests s (.setValue w)
        { s with
          stages := Function.update s.stages w .fulfilled
          promises := Function.update s.promises i (s.promises i + 1) }
  | finish {s : State S ι n} {w : Fin n} {pool : Pool ι n} (stage : s.stages w = .fulfilled)
      (finish : WorkerPool.step s.pool (.finish w) = some pool) :
      Steps ix algorithm requests s (.finish w) { s with pool := pool }
  | ret {s : State S ι n} {i : ι} (handler : s.handlers i = .waiting) (ready : 0 < s.promises i) :
      Steps ix algorithm requests s (.ret i) { s with handlers := Function.update s.handlers i (.returned .ok) }
  | tick {s : State S ι n} {us : Nat} : Steps ix algorithm requests s (.tick us) { s with clock := s.clock + us }
  | shutdown {s : State S ι n} {pool : Pool ι n} (shutdown : WorkerPool.step s.pool .shutdown = some pool) :
      Steps ix algorithm requests s .shutdown { s with pool := pool }

def start (S ι : Type) (n queueDepth cacheCapacity : Nat) : State S ι n where
  pool := { queue := { capacity := queueDepth } }
  service := { cache := { capacity := cacheCapacity }, calls := fun _ => {} }

/-- `SearchServiceImpl` with `n` workers. -/
def server (ix : Index S) (algorithm : Algorithm) (n queueDepth cacheCapacity : Nat) (requests : ι → SearchRequest) :
    System (State S ι n) (Action ι n) where
  init s := s = start S ι n queueDepth cacheCapacity
  step := Steps ix algorithm requests

variable {ix : Index S} {algorithm : Algorithm} {requests : ι → SearchRequest} {queueDepth cacheCapacity : Nat}
  {s s' : State S ι n}

theorem reachable_pool (h : (server ix algorithm n queueDepth cacheCapacity requests).Reachable s) :
    (workerPool ι n queueDepth).Reachable s.pool := by
  refine h.invariant (fun s => (workerPool ι n queueDepth).Reachable s.pool) ?_ ?_
  · intro s hinit
    cases hinit
    exact .init rfl
  · intro s a s' hs hstep
    cases hstep with
    | query | setQueueWait | handleQuery | setValue | ret | tick => exact hs
    | trySubmit _ hpool => exact hs.step hpool
    | pop hpool => exact hs.step hpool
    | finish _ hpool => exact hs.step hpool
    | shutdown hpool => exact hs.step hpool

theorem reachable_service (h : (server ix algorithm n queueDepth cacheCapacity requests).Reachable s) :
    (service ix algorithm cacheCapacity requests).Reachable s.service := by
  refine h.invariant (fun s => (service ix algorithm cacheCapacity requests).Reachable s.service) ?_ ?_
  · intro s hinit
    cases hinit
    exact .init rfl
  · intro s a s' hs hstep
    cases hstep with
    | query | trySubmit | pop | setQueueWait | setValue | finish | ret | tick | shutdown => exact hs
    | handleQuery _ _ hservice => exact hs.step hservice

/-- A step of `handle_query` is one of its own call. -/
theorem calls_of_ne {s s' : Service S ι} {part : SearchService.Action ι} (h : HandleQuery ix algorithm requests s part s')
    {j : ι} (hj : j ≠ caller part) : s'.calls j = s.calls j := by
  cases h with
  | get | search | put => exact Function.update_of_ne hj _ _

end Model

theorem mem_unfinished {workers : Fin n → Worker ι} {i : ι} : i ∈ unfinished workers ↔ ∃ w, workers w = .running i := by
  rw [unfinished, List.mem_filterMap]
  constructor
  · rintro ⟨w, -, hw⟩
    refine ⟨w, ?_⟩
    cases hworker : workers w with
    | running task =>
      rw [hworker] at hw
      cases hw
      rfl
    | popping =>
      rw [hworker] at hw
      cases hw
    | exited =>
      rw [hworker] at hw
      cases hw
  · rintro ⟨w, hw⟩
    exact ⟨w, List.mem_finRange w, by rw [hw]; rfl⟩

theorem unique_worker {workers : Fin n → Worker ι} {i : ι} {w w' : Fin n} (hnodup : (unfinished workers).Nodup)
    (h : workers w = .running i) (h' : workers w' = .running i) : w' = w := by
  by_contra hne
  have hcons := (unfinished_finish h).nodup_iff.mp hnodup
  refine (List.nodup_cons.mp hcons).1 (mem_unfinished.mpr ⟨w', ?_⟩)
  rw [Function.update_of_ne hne]
  exact h'

theorem tryPush_of_lt {q : BoundedQueue ι} (h : q.items.length < q.capacity) (i : ι) : (q.tryPush i).1 = true := by
  rw [BoundedQueue.tryPush, if_neg (Nat.not_le_of_lt h)]

theorem tryPush_of_le {q : BoundedQueue ι} (h : q.capacity ≤ q.items.length) (i : ι) : (q.tryPush i).1 = false := by
  rw [BoundedQueue.tryPush, if_pos h]

/-- No worker has begun with the call. -/
def Untouched (s : State S ι n) (i : ι) : Prop :=
  s.service.calls i = {} ∧ s.promises i = 0 ∧ s.queueWaitUs i = 0

def Fulfilled (s : State S ι n) (i : ι) : Prop := (s.service.calls i).phase = .finished ∧ s.promises i = 1

/-- What a worker's stage says about the call it runs. -/
def Held (s : State S ι n) (i : ι) : Stage → Prop
  | .taken => Untouched s i
  | .handling => s.promises i = 0
  | .fulfilled => Fulfilled s i

structure Sound (s : State S ι n) : Prop where
  nodup : s.pool.accepted.Nodup
  accepted : ∀ i, i ∈ s.pool.accepted ↔ s.handlers i = .waiting ∨ s.handlers i = .returned .ok
  status : ∀ i status, s.handlers i = .returned status → status = .ok ∨ status = .queueFull
  untouched : ∀ i, i ∉ s.pool.popped → Untouched s i
  held : ∀ w i, s.pool.workers w = .running i → Held s i (s.stages w)
  executed : ∀ i ∈ s.pool.executed, Fulfilled s i
  returned : ∀ i, s.handlers i = .returned .ok → s.promises i = 1

section Invariant

variable {queueDepth : Nat} {s s' : State S ι n}

theorem sound_start (cacheCapacity : Nat) : Sound (start S ι n queueDepth cacheCapacity) where
  nodup := List.nodup_nil
  accepted i := by simp [start]
  status i status h := by cases h
  untouched i _ := ⟨rfl, rfl, rfl⟩
  held w i h := by cases h
  executed i h := absurd h List.not_mem_nil
  returned i h := by cases h

namespace Sound

/-- The tasks that were popped are all different. -/
theorem nodup_popped (h : Sound s) (hfifo : Fifo queueDepth s.pool) :
    (s.pool.executed ++ unfinished s.pool.workers).Nodup := by
  have haccepted := h.nodup
  rw [hfifo.order] at haccepted
  exact hfifo.once.nodup_iff.mp (List.nodup_append.mp haccepted).1

theorem unique (h : Sound s) (hfifo : Fifo queueDepth s.pool) {w w' : Fin n} {i : ι}
    (hw : s.pool.workers w = .running i) (hw' : s.pool.workers w' = .running i) : w' = w :=
  unique_worker (List.nodup_append.mp (h.nodup_popped hfifo)).2.1 hw hw'

theorem not_executed (h : Sound s) (hfifo : Fifo queueDepth s.pool) {w : Fin n} {i : ι}
    (hw : s.pool.workers w = .running i) : i ∉ s.pool.executed := fun hi =>
  (List.nodup_append.mp (h.nodup_popped hfifo)).2.2 i hi i (mem_unfinished.mpr ⟨w, hw⟩) rfl

/-- A popped task is done or some worker runs it. -/
theorem popped_cases (hfifo : Fifo queueDepth s.pool) {i : ι} (hi : i ∈ s.pool.popped) :
    i ∈ s.pool.executed ∨ ∃ w, s.pool.workers w = .running i := by
  rcases List.mem_append.mp (hfifo.once.mem_iff.mp hi) with hi | hi
  · exact Or.inl hi
  · exact Or.inr (mem_unfinished.mp hi)

theorem popped_of_running (hfifo : Fifo queueDepth s.pool) {w : Fin n} {i : ι} (hw : s.pool.workers w = .running i) :
    i ∈ s.pool.popped :=
  hfifo.once.mem_iff.mpr (List.mem_append_right _ (mem_unfinished.mpr ⟨w, hw⟩))

/-- A worker moves the call it runs, and no other. -/
theorem work (h : Sound s) (hfifo : Fifo queueDepth s.pool) {w : Fin n} {i : ι} (hw : s.pool.workers w = .running i)
    (hpending : s.promises i = 0) (hpool : s'.pool = s.pool) (hhandlers : s'.handlers = s.handlers)
    (hstages : ∀ v, v ≠ w → s'.stages v = s.stages v)
    (hcalls : ∀ j, j ≠ i → s'.service.calls j = s.service.calls j)
    (hpromises : ∀ j, j ≠ i → s'.promises j = s.promises j)
    (hwaits : ∀ j, j ≠ i → s'.queueWaitUs j = s.queueWaitUs j) (hheld : Held s' i (s'.stages w)) : Sound s' := by
  have huntouched : ∀ j, j ≠ i → Untouched s j → Untouched s' j := fun j hj hs =>
    ⟨(hcalls j hj).trans hs.1, (hpromises j hj).trans hs.2.1, (hwaits j hj).trans hs.2.2⟩
  have hfulfilled : ∀ j, j ≠ i → Fulfilled s j → Fulfilled s' j := fun j hj hs =>
    ⟨by rw [hcalls j hj]; exact hs.1, (hpromises j hj).trans hs.2⟩
  refine ⟨?_, ?_, ?_, ?_, ?_, ?_, ?_⟩
  · rw [hpool]
    exact h.nodup
  · rw [hpool, hhandlers]
    exact h.accepted
  · rw [hhandlers]
    exact h.status
  · intro j hj
    rw [hpool] at hj
    exact huntouched j (fun heq => hj (heq ▸ popped_of_running hfifo hw)) (h.untouched j hj)
  · intro v j hv
    rw [hpool] at hv
    by_cases hvw : v = w
    · subst hvw
      rw [hw] at hv
      cases hv
      exact hheld
    · have hj : j ≠ i := fun heq => hvw (h.unique hfifo hw (heq ▸ hv))
      have hold := h.held v j hv
      rw [hstages v hvw]
      cases hstage : s.stages v with
      | taken =>
        rw [hstage] at hold
        exact huntouched j hj hold
      | handling =>
        rw [hstage] at hold
        exact (hpromises j hj).trans hold
      | fulfilled =>
        rw [hstage] at hold
        exact hfulfilled j hj hold
  · intro j hj
    rw [hpool] at hj
    exact hfulfilled j (fun heq => h.not_executed hfifo hw (heq ▸ hj)) (h.executed j hj)
  · intro j hj
    rw [hhandlers] at hj
    have hone := h.returned j hj
    by_cases heq : j = i
    · rw [heq, hpending] at hone
      cases hone
    · exact (hpromises j heq).trans hone

/-- A handler moves its own call. -/
theorem handle (h : Sound s) {i : ι} [DecidableEq ι] {handler : Handler}
    (hwaiting : handler = .waiting ∨ handler = .returned .ok ↔ i ∈ s.pool.accepted)
    (hstatus : ∀ status, handler = .returned status → status = .ok ∨ status = .queueFull)
    (hreturned : handler = .returned .ok → s.promises i = 1)
    (hs' : s' = { s with handlers := Function.update s.handlers i handler, queuedAt := s'.queuedAt, clock := s'.clock }) :
    Sound s' := by
  rw [hs']
  refine { h with accepted := fun j => ?_, status := fun j status hj => ?_, returned := fun j hj => ?_ }
  · by_cases hji : j = i
    · subst hji
      dsimp only
      rw [Function.update_self, hwaiting]
    · dsimp only
      rw [Function.update_of_ne hji]
      exact h.accepted j
  · by_cases hji : j = i
    · subst hji
      dsimp only at hj
      rw [Function.update_self] at hj
      exact hstatus status hj
    · dsimp only at hj
      rw [Function.update_of_ne hji] at hj
      exact h.status j status hj
  · by_cases hji : j = i
    · subst hji
      dsimp only at hj
      rw [Function.update_self] at hj
      exact hreturned hj
    · dsimp only at hj
      rw [Function.update_of_ne hji] at hj
      exact h.returned j hj

theorem trySubmit [DecidableEq ι] (h : Sound s) {i : ι} {pool : Pool ι n} (hhandler : s.handlers i = .called)
    (hsubmit : WorkerPool.step s.pool (.trySubmit i) = some pool) :
    Sound { s with
      pool := pool
      handlers := Function.update s.handlers i (.submitted (s.pool.queue.tryPush i).1) } := by
  have hnew : i ∉ s.pool.accepted := by
    rw [h.accepted, hhandler]
    simp
  cases step_cases hsubmit with
  | accept hroom =>
    rw [tryPush_of_lt hroom]
    refine { h with nodup := ?_, accepted := fun j => ?_, status := fun j status hj => ?_, returned := fun j hj => ?_ }
    · exact List.nodup_append_comm.mp (List.nodup_cons.mpr ⟨hnew, h.nodup⟩)
    · by_cases hji : j = i
      · subst hji
        simp [Handler.submitted]
      · simp [hji, h.accepted]
    · dsimp only at hj
      by_cases hji : j = i
      · subst hji
        simp [Handler.submitted] at hj
      · rw [Function.update_of_ne hji] at hj
        exact h.status j status hj
    · dsimp only at hj
      by_cases hji : j = i
      · subst hji
        simp [Handler.submitted] at hj
      · rw [Function.update_of_ne hji] at hj
        exact h.returned j hj
  | reject hfull =>
    rw [tryPush_of_le hfull]
    refine h.handle ⟨fun hor => ?_, fun hi => absurd hi hnew⟩ (fun status hj => ?_) (fun hj => ?_) rfl
    · simp [Handler.submitted, Status.queueFull_ne_ok] at hor
    · cases hj
      exact Or.inr rfl
    · simp [Handler.submitted, Status.queueFull_ne_ok] at hj

theorem pop (h : Sound s) (hfifo : Fifo queueDepth s.pool) {w : Fin n} {pool : Pool ι n}
    (hpop : WorkerPool.step s.pool (.pop w) = some pool) :
    Sound { s with pool := pool, stages := Function.update s.stages w .taken } := by
  cases step_cases hpop with
  | @run _ task items hworker hitems =>
    have hqueued : task ∉ s.pool.popped := by
      have haccepted := h.nodup
      rw [hfifo.order, hitems] at haccepted
      exact fun hmem => (List.nodup_append.mp haccepted).2.2 task hmem task List.mem_cons_self rfl
    refine { h with untouched := fun j hj => ?_, held := fun v j hv => ?_ }
    · exact h.untouched j fun hmem => hj (List.mem_append_left _ hmem)
    · dsimp only at hv ⊢
      by_cases hvw : v = w
      · subst hvw
        rw [Function.update_self] at hv ⊢
        cases hv
        exact h.untouched task hqueued
      · rw [Function.update_of_ne hvw] at hv ⊢
        exact h.held v j hv
  | exit hworker hitems hshutdown =>
    refine { h with held := fun v j hv => ?_ }
    dsimp only at hv ⊢
    by_cases hvw : v = w
    · subst hvw
      rw [Function.update_self] at hv
      cases hv
    · rw [Function.update_of_ne hvw] at hv ⊢
      exact h.held v j hv

theorem finish (h : Sound s) {w : Fin n} {pool : Pool ι n} (hstage : s.stages w = .fulfilled)
    (hfinish : WorkerPool.step s.pool (.finish w) = some pool) : Sound { s with pool := pool } := by
  cases step_cases hfinish with
  | @finish _ task hworker =>
    have htask := h.held w task hworker
    rw [hstage] at htask
    refine { h with held := fun v j hv => ?_, executed := fun j hj => ?_ }
    · dsimp only at hv
      by_cases hvw : v = w
      · subst hvw
        rw [Function.update_self] at hv
        cases hv
      · rw [Function.update_of_ne hvw] at hv
        exact h.held v j hv
    · rcases List.mem_append.mp hj with hj | hj
      · exact h.executed j hj
      · cases List.mem_singleton.mp hj
        exact htask

/-- The promise of a call that waits is set once at most. -/
theorem promise_le (h : Sound s) (hfifo : Fifo queueDepth s.pool) (i : ι) : s.promises i ≤ 1 := by
  by_cases hi : i ∈ s.pool.popped
  · rcases popped_cases hfifo hi with hi | ⟨w, hw⟩
    · exact (h.executed i hi).2.le
    · have hheld := h.held w i hw
      cases hstage : s.stages w with
      | taken =>
        rw [hstage] at hheld
        exact hheld.2.1.le.trans (Nat.zero_le 1)
      | handling =>
        rw [hstage] at hheld
        exact (Nat.le_of_eq hheld).trans (Nat.zero_le 1)
      | fulfilled =>
        rw [hstage] at hheld
        exact hheld.2.le
  · exact (h.untouched i hi).2.1.le.trans (Nat.zero_le 1)

/-- A worker that still runs a call that has returned has fulfilled its promise. -/
theorem settled (h : Sound s) (hfifo : Fifo queueDepth s.pool) {i : ι} {status : Status} {w : Fin n}
    (hreturned : s.handlers i = .returned status) (hw : s.pool.workers w = .running i) : s.stages w = .fulfilled := by
  have haccepted : i ∈ s.pool.accepted := by
    rw [hfifo.order]
    exact List.mem_append_left _ (popped_of_running hfifo hw)
  have hone : s.promises i = 1 := by
    rcases (h.accepted i).mp haccepted with hwaiting | hok
    · rw [hreturned] at hwaiting
      cases hwaiting
    · exact h.returned i hok
  have hheld := h.held w i hw
  cases hstage : s.stages w with
  | taken =>
    rw [hstage] at hheld
    exact absurd (hone.symm.trans hheld.2.1) (by decide)
  | handling =>
    rw [hstage] at hheld
    exact absurd (hone.symm.trans hheld) (by decide)
  | fulfilled => rfl

/-- A handler that waits for its promise keeps a worker or a place in the queue. -/
theorem blocked_le (h : Sound s) (hfifo : Fifo queueDepth s.pool) {calls : Finset ι}
    (hcalls : ∀ i ∈ calls, s.handlers i = .waiting ∧ s.promises i = 0) : calls.card ≤ n + queueDepth := by
  classical
  have hsubset : calls ⊆ (unfinished s.pool.workers ++ s.pool.queue.items).toFinset := by
    intro i hi
    obtain ⟨hwaiting, hpromise⟩ := hcalls i hi
    have haccepted := (h.accepted i).mpr (Or.inl hwaiting)
    rw [hfifo.order] at haccepted
    rw [List.mem_toFinset, List.mem_append]
    rcases List.mem_append.mp haccepted with hpopped | hqueued
    · rcases popped_cases hfifo hpopped with hexecuted | hrunning
      · exact absurd (hpromise.symm.trans (h.executed i hexecuted).2) (by decide)
      · exact Or.inl (mem_unfinished.mpr hrunning)
    · exact Or.inr hqueued
  calc calls.card ≤ (unfinished s.pool.workers ++ s.pool.queue.items).toFinset.card := Finset.card_le_card hsubset
    _ ≤ (unfinished s.pool.workers ++ s.pool.queue.items).length := List.toFinset_card_le _
    _ = (unfinished s.pool.workers).length + s.pool.queue.items.length := List.length_append
    _ ≤ n + queueDepth := Nat.add_le_add (length_unfinished_le _) hfifo.bounded

end Sound

end Invariant

section Run

variable [LinearOrder S] [Zero S] [One S] [Neg S] [Add S] [DecidableEq ι]

variable {ix : Index S} {algorithm : Algorithm} {requests : ι → SearchRequest} {queueDepth cacheCapacity : Nat}
  {s s' : State S ι n}

theorem Sound.step (h : Sound s) (hfifo : Fifo queueDepth s.pool) {a : Action ι n}
    (hstep : Steps ix algorithm requests s a s') : Sound s' := by
  cases hstep with
  | @query i hhandler =>
    have hidle : i ∉ s.pool.accepted := by
      rw [h.accepted, hhandler]
      simp
    exact h.handle ⟨by simp, fun hi => absurd hi hidle⟩ (by simp) (by simp) rfl
  | trySubmit hhandler hsubmit => exact h.trySubmit hhandler hsubmit
  | pop hpop => exact h.pop hfifo hpop
  | @setQueueWait w i hw hstage =>
    have hheld := h.held w i hw
    rw [hstage] at hheld
    refine h.work hfifo hw hheld.2.1 rfl rfl (fun v hv => Function.update_of_ne hv _ _) (fun _ _ => rfl) (fun _ _ => rfl)
      (fun j hj => Function.update_of_ne hj _ _) ?_
    dsimp only
    rw [Function.update_self]
    exact hheld.2.1
  | @handleQuery w part service hw hstage hservice =>
    have hheld := h.held w _ hw
    rw [hstage] at hheld
    refine h.work hfifo hw hheld rfl rfl (fun _ _ => rfl) (fun j hj => calls_of_ne hservice hj) (fun _ _ => rfl)
      (fun _ _ => rfl) ?_
    dsimp only
    rw [hstage]
    exact hheld
  | @setValue w i hw hstage hhandled =>
    have hheld := h.held w i hw
    rw [hstage] at hheld
    refine h.work hfifo hw hheld rfl rfl (fun v hv => Function.update_of_ne hv _ _) (fun _ _ => rfl)
      (fun j hj => Function.update_of_ne hj _ _) (fun _ _ => rfl) ?_
    dsimp only
    rw [Function.update_self]
    refine ⟨hhandled, ?_⟩
    dsimp only
    rw [Function.update_self, show s.promises i = 0 from hheld]
  | finish hstage hfinish => exact h.finish hstage hfinish
  | @ret i hhandler hready =>
    have hone : s.promises i = 1 := Nat.le_antisymm (h.promise_le hfifo i) hready
    have haccepted : i ∈ s.pool.accepted := (h.accepted i).mpr (Or.inl hhandler)
    refine h.handle ⟨fun _ => haccepted, fun _ => Or.inr rfl⟩ (fun status hs => ?_) (fun _ => hone) rfl
    cases hs
    exact Or.inl rfl
  | tick => exact { h with }
  | shutdown hshutdown =>
    cases step_cases hshutdown with
    | shutdown => exact { h with }

theorem sound_of_reachable (h : (server ix algorithm n queueDepth cacheCapacity requests).Reachable s) : Sound s := by
  suffices hboth : Sound s ∧ Fifo queueDepth s.pool from hboth.1
  induction h with
  | init hinit =>
    cases hinit
    exact ⟨sound_start cacheCapacity, fifo_start⟩
  | step hs hstep ih => exact ⟨ih.1.step ih.2 hstep, fifo_of_reachable (reachable_pool (hs.step hstep))⟩

/-- Nothing is written to a response that was returned. -/
theorem Sound.frozen (h : Sound s) (hfifo : Fifo queueDepth s.pool) {a : Action ι n}
    (hstep : Steps ix algorithm requests s a s') {i : ι} {status : Status} (hreturned : s.handlers i = .returned status) :
    s'.handlers i = .returned status ∧ s'.service.calls i = s.service.calls i ∧ s'.queueWaitUs i = s.queueWaitUs i := by
  have hhandler : ∀ {j : ι} {handler : Handler}, s.handlers j ≠ .returned status →
      Function.update s.handlers j handler i = .returned status := fun {j handler} hj => by
    rw [Function.update_of_ne]
    · exact hreturned
    · rintro rfl
      exact hj hreturned
  have hwork : ∀ {j : ι} {w : Fin n}, s.pool.workers w = .running j → s.stages w ≠ .fulfilled → i ≠ j :=
    fun {j w} hw hstage heq => hstage (h.settled hfifo hreturned (heq ▸ hw))
  cases hstep with
  | query hidle => exact ⟨hhandler (by simp [hidle]), rfl, rfl⟩
  | trySubmit hcalled _ => exact ⟨hhandler (by simp [hcalled]), rfl, rfl⟩
  | ret hwaiting _ => exact ⟨hhandler (by simp [hwaiting]), rfl, rfl⟩
  | setQueueWait hw hstage => exact ⟨hreturned, rfl, Function.update_of_ne (hwork hw (by simp [hstage])) _ _⟩
  | handleQuery hw hstage hservice => exact ⟨hreturned, calls_of_ne hservice (hwork hw (by simp [hstage])), rfl⟩
  | pop | setValue | finish | tick | shutdown => exact ⟨hreturned, rfl, rfl⟩

/-- A call is turned away when the queue is full, and only then. -/
theorem queueFull_iff (hfifo : Fifo queueDepth s.pool) {i : ι} (hstep : Steps ix algorithm requests s (.trySubmit i) s') :
    s'.handlers i = .returned .queueFull ↔ s.pool.queue.items.length = queueDepth := by
  have hbounded := hfifo.bounded
  have hcapacity := hfifo.capacity
  cases hstep with
  | trySubmit hcalled hsubmit =>
    dsimp only
    rw [Function.update_self]
    by_cases hfull : s.pool.queue.capacity ≤ s.pool.queue.items.length
    · rw [tryPush_of_le hfull]
      exact iff_of_true rfl (by omega)
    · rw [tryPush_of_lt (by omega)]
      exact iff_of_false (by simp [Handler.submitted]) (by omega)

/-- What a call has returned: turned away, never enqueued and its response untouched,
or answered once with what the index answers to its own request. -/
def Returned (ix : Index S) (algorithm : Algorithm) (requests : ι → SearchRequest) (s : State S ι n) (i : ι)
    (status : Status) : Prop :=
  status = .queueFull ∧ i ∉ s.pool.accepted ∧ Untouched s i ∨
    status = .ok ∧ s.promises i = 1 ∧
      SearchReturns ix (requests i).query (requests i).k algorithm (s.service.calls i).response.results

theorem returned_of_reachable (h : (server ix algorithm n queueDepth cacheCapacity requests).Reachable s) {i : ι}
    {status : Status} (hreturned : s.handlers i = .returned status) : Returned ix algorithm requests s i status := by
  have hsound := sound_of_reachable h
  have hfifo := fifo_of_reachable (reachable_pool h)
  rcases hsound.status i status hreturned with rfl | rfl
  · have hone := hsound.returned i hreturned
    have haccepted := (hsound.accepted i).mpr (Or.inr hreturned)
    refine Or.inr ⟨rfl, hone, (transparent_of_reachable (reachable_service h)).answered i ?_⟩
    by_cases hpopped : i ∈ s.pool.popped
    · rcases Sound.popped_cases hfifo hpopped with hexecuted | ⟨w, hw⟩
      · rw [(hsound.executed i hexecuted).1]
        trivial
      · have hheld := hsound.held w i hw
        rw [hsound.settled hfifo hreturned hw] at hheld
        rw [hheld.1]
        trivial
    · exact absurd (hone.symm.trans (hsound.untouched i hpopped).2.1) (by decide)
  · have hnever : i ∉ s.pool.accepted := by
      rw [hsound.accepted, hreturned]
      simp [Status.queueFull_ne_ok]
    refine Or.inl ⟨rfl, hnever, hsound.untouched i fun hpopped => hnever ?_⟩
    rw [hfifo.order]
    exact List.mem_append_left _ hpopped

end Run

section Results

variable [LinearOrder S] [Zero S] [One S] [Neg S] [Add S] [DecidableEq ι]

/-- Whatever the order of steps, every call that returns was turned away by a
full queue or answered with its own results; its response is final then, and no
more handlers wait than there are workers and places in the queue. -/
theorem calls_returned (ix : Index S) (algorithm : Algorithm) (n queueDepth cacheCapacity : Nat)
    (requests : ι → SearchRequest) (trace : List (Recorded (State S ι n) (Action ι n))) (s : State S ι n)
    (hrun : (server ix algorithm n queueDepth cacheCapacity requests).recorded.Run trace s) :
    (∀ i status, s.handlers i = .returned status → Returned ix algorithm requests s i status) ∧
      (∀ i, s.promises i ≤ 1) ∧
      (∀ calls : Finset ι, (∀ i ∈ calls, s.handlers i = .waiting ∧ s.promises i = 0) → calls.card ≤ n + queueDepth) ∧
      ∀ x ∈ trace,
        (∀ i, x.action = .trySubmit i →
          (x.after.handlers i = .returned .queueFull ↔ x.before.pool.queue.items.length = queueDepth)) ∧
        ∀ i status, x.before.handlers i = .returned status →
          x.after.handlers i = .returned status ∧ x.after.service.calls i = x.before.service.calls i ∧
            x.after.queueWaitUs i = x.before.queueWaitUs i := by
  have hs := hrun.reachable.of_recorded
  have hsound := sound_of_reachable hs
  have hfifo := fifo_of_reachable (reachable_pool hs)
  refine ⟨fun i status => returned_of_reachable hs, hsound.promise_le hfifo, fun calls => hsound.blocked_le hfifo, ?_⟩
  refine hrun.forall_mem fun t a t' ht hstep => ?_
  have hfifo' := fifo_of_reachable (reachable_pool ht)
  refine ⟨fun i ha => ?_, fun i status => (sound_of_reachable ht).frozen hfifo' hstep⟩
  dsimp only at ha ⊢
  subst ha
  exact queueFull_iff hfifo' hstep

/-- A call by itself is answered with what the index answers. -/
theorem exists_answered {ix : Index S} {algorithm : Algorithm} {request : SearchRequest} {results : List (Result S)}
    (h : SearchReturns ix request.query request.k algorithm results) :
    ∃ s : State S Unit 1, (server ix algorithm 1 1 0 fun _ => request).Reachable s ∧ s.handlers () = .returned .ok ∧
      (s.service.calls ()).response.results = results := by
  have hstart : (server ix algorithm 1 1 0 fun _ => request).Reachable (start S Unit 1 1 0) := .init rfl
  have hqueued := (hstart.step (.query (i := ()) rfl)).step (.trySubmit (i := ()) rfl rfl)
  have htaken := (hqueued.step (.pop (w := 0) rfl)).step (.setQueueWait (w := 0) (i := ()) rfl rfl)
  have hmissed := htaken.step (.handleQuery (w := 0) rfl rfl (.get (i := ()) rfl rfl))
  have hsearched := hmissed.step (.handleQuery (w := 0) rfl rfl (.search (i := ()) rfl h))
  have hcons := (transparent_of_reachable (reachable_service hsearched)).consistent
  obtain ⟨cache, hput, -⟩ := hcons.put_spec (cacheKey request) results
  have hstored := hsearched.step (.handleQuery (w := 0) rfl rfl (.put (i := ()) rfl hput))
  have hset := hstored.step (.setValue (w := 0) (i := ()) rfl rfl rfl)
  exact ⟨_, hset.step (.ret (i := ()) rfl Nat.one_pos), rfl, rfl⟩

def foxServer : System (State ℚ Bool 1) (Action Bool 1) := server foxIndex .wand 1 1 1 foxRequests

theorem foxServer_run : ∃ (trace : List (Recorded (State ℚ Bool 1) (Action Bool 1))) (s : State ℚ Bool 1),
    foxServer.recorded.Run trace s ∧ s.handlers false = .returned .ok ∧ s.handlers true = .returned .queueFull := by
  have hstart : foxServer.recorded.Run [] (start ℚ Bool 1 1 1) := .init rfl
  have hcalled := (hstart.extend (.query false) (.query rfl)).extend (.query true) (.query rfl)
  have hsubmitted := (hcalled.extend (.trySubmit false) (.trySubmit rfl rfl)).extend (.trySubmit true) (.trySubmit rfl rfl)
  have htaken := (hsubmitted.extend (.pop 0) (.pop rfl)).extend (.setQueueWait 0) (.setQueueWait rfl rfl)
  have hmissed := htaken.extend (.handleQuery 0 (.get false)) (.handleQuery rfl rfl (.get rfl rfl))
  have hsearched := hmissed.extend (.handleQuery 0 (.search false)) (.handleQuery rfl rfl (.search rfl foxIndex_answers))
  have hstored := hsearched.extend (.handleQuery 0 (.put false)) (.handleQuery rfl rfl (.put rfl rfl))
  have hset := hstored.extend (.setValue 0) (.setValue rfl rfl rfl)
  exact ⟨_, _, hset.extend (.ret false) (.ret rfl (by decide)), rfl, rfl⟩

theorem calls_returned_fox : ∃ s : State ℚ Bool 1, foxServer.Reachable s ∧
    Returned foxIndex .wand foxRequests s false .ok ∧ Returned foxIndex .wand foxRequests s true .queueFull := by
  obtain ⟨trace, s, hrun, hok, hfull⟩ := foxServer_run
  obtain ⟨hreturned, -⟩ := calls_returned foxIndex .wand 1 1 1 foxRequests trace s hrun
  exact ⟨s, hrun.reachable.of_recorded, hreturned false .ok hok, hreturned true .queueFull hfull⟩

end Results

end CascadeSearch.Server.Rpc
