import CascadeSearch.Lib.Transition
import Mathlib.Data.Fin.Basic
import Mathlib.Data.List.FinRange
import Mathlib.Data.List.Perm.Basic
import Mathlib.Logic.Function.Basic

/-!
# The worker pool (`bounded_queue.h`, `worker_pool.h`)

Any number of threads submit tasks and call `shutdown`, `n` workers pop and run
them. Every critical section is one step; a `pop` that goes on waiting is none.
The joins of `shutdown` leave the queue alone and are left out.
-/
namespace CascadeSearch.Server.WorkerPool

open Lib.Transition

structure BoundedQueue (T : Type) where
  items : List T := []
  capacity : Nat
  shuttingDown : Bool := false

variable {T : Type}

def BoundedQueue.tryPush (q : BoundedQueue T) (item : T) : Bool × BoundedQueue T :=
  if q.capacity ≤ q.items.length then (false, q) else (true, { q with items := q.items ++ [item] })

/-- What `pop` returns and leaves; `none` while it waits. -/
def BoundedQueue.pop (q : BoundedQueue T) : Option (Option T × BoundedQueue T) :=
  match q.items with
  | [] => if q.shuttingDown then some (none, q) else none
  | item :: items => some (some item, { q with items := items })

def BoundedQueue.shutdown (q : BoundedQueue T) : BoundedQueue T := { q with shuttingDown := true }

inductive Worker (T : Type) where
  | popping
  | running (task : T)
  | exited
deriving DecidableEq

def Worker.task : Worker T → Option T
  | .running task => some task
  | _ => none

/-- The pool, and its tasks as they were accepted, popped and executed. -/
structure Pool (T : Type) (n : Nat) where
  queue : BoundedQueue T
  workers : Fin n → Worker T := fun _ => .popping
  accepted : List T := []
  popped : List T := []
  executed : List T := []

inductive Action (T : Type) (n : Nat) where
  | trySubmit (task : T)
  | pop (worker : Fin n)
  | finish (worker : Fin n)
  | shutdown

variable {n : Nat}

def step (s : Pool T n) : Action T n → Option (Pool T n)
  | .trySubmit task =>
      match s.queue.tryPush task with
      | (true, queue) => some { s with queue := queue, accepted := s.accepted ++ [task] }
      | (false, queue) => some { s with queue := queue }
  | .pop worker =>
      match s.workers worker, s.queue.pop with
      | .popping, some (some task, queue) =>
          some { s with
            queue := queue
            workers := Function.update s.workers worker (.running task)
            popped := s.popped ++ [task] }
      | .popping, some (none, queue) =>
          some { s with queue := queue, workers := Function.update s.workers worker .exited }
      | _, _ => none
  | .finish worker =>
      match s.workers worker with
      | .running task =>
          some { s with workers := Function.update s.workers worker .popping, executed := s.executed ++ [task] }
      | _ => none
  | .shutdown => some { s with queue := s.queue.shutdown }

def workerPool (T : Type) (n queueDepth : Nat) : System (Pool T n) (Action T n) where
  init s := s = { queue := { capacity := queueDepth } }
  step s a s' := step s a = some s'

/-- All that a step can do. -/
inductive Steps (s : Pool T n) : Action T n → Pool T n → Prop where
  | accept {task : T} (hroom : s.queue.items.length < s.queue.capacity) :
      Steps s (.trySubmit task)
        { s with queue := { s.queue with items := s.queue.items ++ [task] }, accepted := s.accepted ++ [task] }
  | reject {task : T} (hfull : s.queue.capacity ≤ s.queue.items.length) : Steps s (.trySubmit task) s
  | run {worker : Fin n} {task : T} {items : List T} (hworker : s.workers worker = .popping)
      (hitems : s.queue.items = task :: items) :
      Steps s (.pop worker)
        { s with
          queue := { s.queue with items := items }
          workers := Function.update s.workers worker (.running task)
          popped := s.popped ++ [task] }
  | exit {worker : Fin n} (hworker : s.workers worker = .popping) (hitems : s.queue.items = [])
      (hshutdown : s.queue.shuttingDown = true) :
      Steps s (.pop worker) { s with workers := Function.update s.workers worker .exited }
  | finish {worker : Fin n} {task : T} (hworker : s.workers worker = .running task) :
      Steps s (.finish worker)
        { s with workers := Function.update s.workers worker .popping, executed := s.executed ++ [task] }
  | shutdown : Steps s .shutdown { s with queue := { s.queue with shuttingDown := true } }

theorem step_cases {s s' : Pool T n} {a : Action T n} (h : step s a = some s') : Steps s a s' := by
  cases a with
  | trySubmit task =>
    rw [step, BoundedQueue.tryPush] at h
    by_cases hfull : s.queue.capacity ≤ s.queue.items.length
    · rw [if_pos hfull] at h
      cases h
      exact .reject hfull
    · rw [if_neg hfull] at h
      cases h
      exact .accept (Nat.lt_of_not_le hfull)
  | pop worker =>
    rw [step, BoundedQueue.pop] at h
    cases hworker : s.workers worker with
    | popping =>
      cases hitems : s.queue.items with
      | nil =>
        cases hshutdown : s.queue.shuttingDown with
        | false => simp [hworker, hitems, hshutdown] at h
        | true =>
          simp only [hworker, hitems, hshutdown, if_true, Option.some.injEq] at h
          subst h
          exact .exit hworker hitems hshutdown
      | cons task items =>
        simp only [hworker, hitems, Option.some.injEq] at h
        subst h
        exact .run hworker hitems
    | running task => simp [hworker] at h
    | exited => simp [hworker] at h
  | finish worker =>
    rw [step] at h
    cases hworker : s.workers worker with
    | popping => simp [hworker] at h
    | running task =>
      simp only [hworker, Option.some.injEq] at h
      subst h
      exact .finish hworker
    | exited => simp [hworker] at h
  | shutdown =>
    cases h
    exact .shutdown

def unfinished (workers : Fin n → Worker T) : List T := (List.finRange n).filterMap fun i => (workers i).task

theorem length_unfinished_le (workers : Fin n → Worker T) : (unfinished workers).length ≤ n := by
  refine (List.length_filterMap_le _ _).trans ?_
  rw [List.length_finRange]

theorem unfinished_update {workers : Fin n → Worker T} {i : Fin n} (h : (workers i).task = none) (w : Worker T) :
    (unfinished (Function.update workers i w)).Perm (w.task.toList ++ unfinished workers) := by
  obtain ⟨front, back, hsplit⟩ := List.append_of_mem (List.mem_finRange i)
  have hnodup := List.nodup_finRange n
  rw [hsplit, List.nodup_middle, List.nodup_cons, List.mem_append, not_or] at hnodup
  have hcongr : ∀ l : List (Fin n), i ∉ l →
      l.filterMap (fun j => (Function.update workers i w j).task) = l.filterMap fun j => (workers j).task := by
    intro l hi
    apply List.filterMap_congr
    intro j hj
    rw [Function.update_of_ne (ne_of_mem_of_not_mem hj hi)]
  rw [unfinished, unfinished, hsplit, List.filterMap_append, List.filterMap_append, hcongr front hnodup.1.1,
    List.filterMap_cons, List.filterMap_cons, hcongr back hnodup.1.2, Function.update_self, h]
  cases w.task with
  | none => exact List.Perm.refl _
  | some task => exact List.perm_middle

theorem unfinished_finish {workers : Fin n → Worker T} {i : Fin n} {task : T} (h : workers i = .running task) :
    (unfinished workers).Perm (task :: unfinished (Function.update workers i .popping)) := by
  have hidle : (Function.update workers i (Worker.popping (T := T)) i).task = none := by
    rw [Function.update_self]
    rfl
  have hperm := unfinished_update hidle (.running task)
  rw [Function.update_idem, ← h, Function.update_eq_self, h] at hperm
  exact hperm

/-- Accepted tasks are popped in order and executed once each. -/
structure Fifo (queueDepth : Nat) (s : Pool T n) : Prop where
  capacity : s.queue.capacity = queueDepth
  order : s.accepted = s.popped ++ s.queue.items
  bounded : s.queue.items.length ≤ queueDepth
  once : s.popped.Perm (s.executed ++ unfinished s.workers)

variable {queueDepth : Nat} {s s' : Pool T n}

theorem fifo_start : Fifo queueDepth ({ queue := { capacity := queueDepth } } : Pool T n) where
  capacity := rfl
  order := rfl
  bounded := Nat.zero_le _
  once := by
    have hidle : unfinished (fun _ : Fin n => (Worker.popping : Worker T)) = [] :=
      List.filterMap_eq_nil_iff.mpr fun _ _ => rfl
    rw [hidle]
    exact List.Perm.refl _

theorem fifo_step {a : Action T n} (h : Fifo queueDepth s) (hstep : Steps s a s') : Fifo queueDepth s' := by
  cases hstep with
  | accept hroom =>
    refine ⟨h.capacity, ?_, ?_, h.once⟩
    · simp [h.order]
    · rw [h.capacity] at hroom
      rw [List.length_append]
      exact hroom
  | reject hfull => exact h
  | @run worker task items hworker hitems =>
    have hidle : (s.workers worker).task = none := by rw [hworker]; rfl
    refine ⟨h.capacity, ?_, ?_, ?_⟩
    · simp [h.order, hitems]
    · have hbounded := h.bounded
      rw [hitems, List.length_cons] at hbounded
      exact Nat.le_of_succ_le hbounded
    · have hrun := unfinished_update hidle (.running task)
      refine (h.once.append_right [task]).trans ?_
      rw [List.append_assoc]
      exact (List.Perm.append_left _ (List.perm_append_comm.trans hrun.symm))
  | @exit worker hworker hitems hshutdown =>
    have hidle : (s.workers worker).task = none := by rw [hworker]; rfl
    exact ⟨h.capacity, h.order, h.bounded, h.once.trans (List.Perm.append_left _ (unfinished_update hidle .exited).symm)⟩
  | @finish worker task hworker =>
    refine ⟨h.capacity, h.order, h.bounded, h.once.trans ?_⟩
    rw [List.append_assoc]
    exact List.Perm.append_left _ (unfinished_finish hworker)
  | shutdown => exact ⟨h.capacity, h.order, h.bounded, h.once⟩

theorem fifo_of_reachable (h : (workerPool T n queueDepth).Reachable s) : Fifo queueDepth s :=
  h.invariant (Fifo queueDepth) (fun _ hinit => hinit ▸ fifo_start) fun _ _ _ hs hstep => fifo_step hs (step_cases hstep)

/-- Bounded first-in first-out execution. -/
theorem bounded_fifo (h : (workerPool T n queueDepth).Reachable s) :
    s.popped <+: s.accepted ∧ s.accepted.drop s.popped.length = s.queue.items ∧ s.queue.items.length ≤ queueDepth ∧
      s.popped.Perm (s.executed ++ unfinished s.workers) ∧ (unfinished s.workers).length ≤ n ∧
      s.accepted.length ≤ s.executed.length + (n + queueDepth) ∧
      ∀ task, (s.queue.tryPush task).1 = false →
        (s.queue.tryPush task).2 = s.queue ∧ s.queue.items.length = queueDepth := by
  have hfifo := fifo_of_reachable h
  have hworkers := length_unfinished_le s.workers
  refine ⟨⟨s.queue.items, hfifo.order.symm⟩, ?_, hfifo.bounded, hfifo.once, hworkers, ?_, ?_⟩
  · rw [hfifo.order, List.drop_left]
  · have honce := hfifo.once.length_eq
    have hbounded := hfifo.bounded
    rw [List.length_append] at honce
    rw [hfifo.order, List.length_append]
    omega
  · intro task hrejected
    rw [BoundedQueue.tryPush] at hrejected ⊢
    split at hrejected
    · rename_i hfull
      rw [hfifo.capacity] at hfull
      rw [if_pos (hfifo.capacity ▸ hfull)]
      exact ⟨rfl, Nat.le_antisymm hfifo.bounded hfull⟩
    · cases hrejected

/-- Two tasks accepted, the first being run, and a third one rejected. -/
theorem bounded_fifo_two :
    ∃ s : Pool Nat 1, (workerPool Nat 1 1).Reachable s ∧ s.accepted = [7, 8] ∧ s.popped = [7] ∧
      s.popped <+: s.accepted ∧ (s.queue.tryPush 9).2 = s.queue ∧ s.queue.items.length = 1 := by
  have hstart : (workerPool Nat 1 1).recorded.Run [] { queue := { capacity := 1 } } := .init rfl
  have hrun := ((hstart.extend (.trySubmit 7) rfl).extend (.pop 0) rfl).extend (.trySubmit 8) rfl
  obtain ⟨hfirst, -, -, -, -, -, hreject⟩ := bounded_fifo hrun.reachable.of_recorded
  obtain ⟨hsame, hfull⟩ := hreject 9 rfl
  exact ⟨_, hrun.reachable.of_recorded, rfl, rfl, hfirst, hsame, hfull⟩

def AllExited (s : Pool T n) : Prop := ∀ worker, s.workers worker = .exited

/-- A task submitted when nobody is left to run it, with room in the queue. -/
def Late (s : Pool T n) (a : Action T n) : Prop :=
  AllExited s ∧ s.queue.items.length < s.queue.capacity ∧ ∃ task, a = .trySubmit task

theorem not_allExited {worker : Fin n} {w : Worker T} (h : s.workers worker = w) (hw : w ≠ .exited) :
    ¬ AllExited s := fun hall => hw (h.symm.trans (hall worker))

/-- What is left in the queue then was submitted late. -/
theorem late_step {a : Action T n} {trace : List (Recorded (Pool T n) (Action T n))}
    (h : (∃ x ∈ trace, Late x.before x.action) ↔ AllExited s ∧ s.queue.items ≠ []) (hstep : Steps s a s') :
    (∃ x ∈ trace ++ [⟨s, a, s'⟩], Late x.before x.action) ↔ AllExited s' ∧ s'.queue.items ≠ [] := by
  have hcons : (∃ x ∈ trace ++ [⟨s, a, s'⟩], Late x.before x.action) ↔ (AllExited s ∧ s.queue.items ≠ []) ∨ Late s a := by
    rw [← h]
    simp [or_and_right, exists_or]
  rw [hcons]
  cases hstep with
  | @accept task hroom => simp [Late, AllExited, hroom]; tauto
  | @reject task hfull => simp [Late, Nat.not_lt.mpr hfull]
  | @run worker task items hworker hitems =>
    have hbefore : ¬ AllExited s := not_allExited hworker (by simp)
    have hafter := not_allExited (s := { s with
      queue := { s.queue with items := items }
      workers := Function.update s.workers worker (.running task)
      popped := s.popped ++ [task] }) (Function.update_self worker _ _) (by simp)
    exact iff_of_false (by simp [hbefore, Late]) fun h => hafter h.1
  | @exit worker hworker hitems hshutdown => simp [Late, hitems]
  | @finish worker task hworker =>
    have hbefore : ¬ AllExited s := not_allExited hworker (by simp)
    have hafter := not_allExited (s := { s with
      workers := Function.update s.workers worker .popping
      executed := s.executed ++ [task] }) (Function.update_self worker _ _) (by simp)
    exact iff_of_false (by simp [hbefore, Late]) fun h => hafter h.1
  | shutdown => simp [Late, AllExited]

theorem late_of_run {trace : List (Recorded (Pool T n) (Action T n))} (h : (workerPool T n queueDepth).recorded.Run trace s) :
    (∃ x ∈ trace, Late x.before x.action) ↔ AllExited s ∧ s.queue.items ≠ [] := by
  refine h.invariant (fun trace s => (∃ x ∈ trace, Late x.before x.action) ↔ AllExited s ∧ s.queue.items ≠ []) ?_ ?_
  · intro s hinit
    have hstart : s = { queue := { capacity := queueDepth } } := hinit
    simp [hstart]
  · intro trace s x s' hs hstep
    obtain ⟨rfl, rfl, hstep⟩ := hstep
    exact late_step hs (step_cases hstep)

theorem unfinished_of_allExited (h : AllExited s) : unfinished s.workers = [] :=
  List.filterMap_eq_nil_iff.mpr fun worker _ => by rw [h worker]; rfl

/-- Once every worker has exited, all accepted tasks have been executed, once
each, unless one was submitted after the last worker had gone. -/
theorem executed_iff (n queueDepth : Nat) (trace : List (Recorded (Pool T n) (Action T n))) (s : Pool T n)
    (hrun : (workerPool T n queueDepth).recorded.Run trace s) (hexited : AllExited s) :
    s.executed.Perm s.accepted ↔ ∀ x ∈ trace, ¬ Late x.before x.action := by
  have hfifo := fifo_of_reachable hrun.reachable.of_recorded
  have hlate := late_of_run hrun
  have honce := hfifo.once
  rw [unfinished_of_allExited hexited, List.append_nil] at honce
  have hempty : s.executed.Perm s.accepted ↔ s.queue.items = [] := by
    rw [hfifo.order]
    constructor
    · intro hperm
      have hlength := hperm.length_eq
      rw [List.length_append, honce.length_eq] at hlength
      exact List.eq_nil_of_length_eq_zero (by omega)
    · intro hitems
      rw [hitems, List.append_nil]
      exact honce.symm
  rw [hempty]
  constructor
  · intro hitems x hx hxlate
    exact (hlate.mp ⟨x, hx, hxlate⟩).2 hitems
  · intro hnone
    by_contra hitems
    obtain ⟨x, hx, hxlate⟩ := hlate.mpr ⟨hexited, hitems⟩
    exact hnone x hx hxlate

theorem allExited_one {s : Pool T 1} (h : s.workers 0 = .exited) : AllExited s := fun worker =>
  Subsingleton.elim 0 worker ▸ h

/-- One task, executed before the shutdown is over. -/
theorem executed_seven :
    ∃ (trace : List (Recorded (Pool Nat 1) (Action Nat 1))) (s : Pool Nat 1), (workerPool Nat 1 1).recorded.Run trace s ∧
      AllExited s ∧ s.accepted = [7] ∧ s.executed.Perm s.accepted := by
  have hstart : (workerPool Nat 1 1).recorded.Run [] { queue := { capacity := 1 } } := .init rfl
  have hpopped := (hstart.extend (.trySubmit 7) rfl).extend (.pop 0) rfl
  have hrun := ((hpopped.extend .shutdown rfl).extend (.finish 0) rfl).extend (.pop 0) rfl
  refine ⟨_, _, hrun, allExited_one rfl, rfl, (executed_iff 1 1 _ _ hrun (allExited_one rfl)).mpr fun x hx hlate => ?_⟩
  exact ((late_of_run hrun).mp ⟨x, hx, hlate⟩).2 rfl

/-- A task submitted after the only worker has exited is accepted and never executed. -/
theorem lost_task :
    ∃ (trace : List (Recorded (Pool Nat 1) (Action Nat 1))) (s : Pool Nat 1), (workerPool Nat 1 1).recorded.Run trace s ∧
      trace.map Recorded.action = [.shutdown, .pop 0, .trySubmit 7] ∧ AllExited s ∧ s.accepted = [7] ∧ s.executed = [] := by
  have hstart : (workerPool Nat 1 1).recorded.Run [] { queue := { capacity := 1 } } := .init rfl
  have hrun := ((hstart.extend .shutdown rfl).extend (.pop 0) rfl).extend (.trySubmit 7) rfl
  exact ⟨_, _, hrun, rfl, allExited_one rfl, rfl, rfl⟩

end CascadeSearch.Server.WorkerPool
