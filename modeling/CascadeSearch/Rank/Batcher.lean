import CascadeSearch.Lib.Transition
import Mathlib.Algebra.Order.Group.Int
import Mathlib.Tactic.Linarith

/-!
# Dynamic batching (`batcher.py`)

The queue and the start of its wait window. A call that reads the clock is given
the reading; an item carries the reading at which it was added. `should_flush`
is `none` where Python would subtract from `None`.
-/
namespace CascadeSearch.Rank.Batcher

open Lib.Transition

structure DynamicBatcher (T Time : Type*) where
  maxBatchSize : Nat
  maxWaitMs : Time
  items : List T := []
  windowStart : Option Time := none

namespace DynamicBatcher

variable {T Time : Type*}

def add (b : DynamicBatcher T Time) (now : Time) (item : T) : DynamicBatcher T Time :=
  { b with
    items := b.items ++ [item]
    windowStart := if b.items.isEmpty then some now else b.windowStart }

def shouldFlush [Sub Time] [LE Time] [DecidableLE Time] (b : DynamicBatcher T Time) (now : Time) : Option Bool :=
  if b.items.isEmpty then some false
  else if b.maxBatchSize ≤ b.items.length then some true
  else b.windowStart.map fun start => decide (b.maxWaitMs ≤ now - start)

/-- The batch and what is left; the items left behind get a new window. -/
def flush (b : DynamicBatcher T Time) (now : Time) : List T × DynamicBatcher T Time :=
  let left := b.items.drop b.maxBatchSize
  (b.items.take b.maxBatchSize, { b with items := left, windowStart := if left.isEmpty then none else some now })

end DynamicBatcher

variable {T Time : Type*} [AddCommGroup Time] [LinearOrder Time]

inductive Call (T : Type*) where
  | add (item : T)
  | shouldFlush
  | flush

/-- The batcher and the last reading of the clock. -/
structure State (T Time : Type*) where
  batcher : DynamicBatcher (T × Time) Time
  now : Time

def call (b : DynamicBatcher (T × Time) Time) (t : Time) : Call T → DynamicBatcher (T × Time) Time
  | .add item => b.add t (item, t)
  | .shouldFlush => b
  | .flush => (b.flush t).2

/-- Calls at readings of a clock that never goes back. -/
def batching (T : Type*) (maxBatchSize : Nat) (maxWaitMs : Time) : System (State T Time) (Time × Call T) where
  init s := s.batcher = { maxBatchSize := maxBatchSize, maxWaitMs := maxWaitMs }
  step s a s' := s.now ≤ a.1 ∧ s' = ⟨call s.batcher a.1 a.2, a.1⟩

/-- `should_flush` returns true once the oldest item has waited for `max_wait_ms`. -/
def Deadline (s : State T Time) : Prop :=
  ∀ t, s.now ≤ t → ∀ oldest ∈ s.batcher.items.head?, s.batcher.maxWaitMs ≤ t - oldest.2 →
    s.batcher.shouldFlush t = some true

/-- A capped flush that leaves less than a batch behind, the oldest of it added
before the flush. -/
def Postpones (s : State T Time) (a : Time × Call T) : Prop :=
  a.2 = .flush ∧ 0 < s.batcher.maxWaitMs ∧
    (s.batcher.items.drop s.batcher.maxBatchSize).length < s.batcher.maxBatchSize ∧
    ∃ oldest ∈ (s.batcher.items.drop s.batcher.maxBatchSize).head?, oldest.2 < a.1

/-- The window of less than a batch starts no later than its oldest item. -/
structure Timely (s : State T Time) : Prop where
  added : ∀ item ∈ s.batcher.items, item.2 ≤ s.now
  window : s.batcher.items ≠ [] → ∃ start ∈ s.batcher.windowStart, start ≤ s.now ∧
    (0 < s.batcher.maxWaitMs → s.batcher.items.length < s.batcher.maxBatchSize →
      ∀ oldest ∈ s.batcher.items.head?, start ≤ oldest.2)

variable {s : State T Time}

theorem timely_start {maxBatchSize : Nat} {maxWaitMs : Time} (h : (batching T maxBatchSize maxWaitMs).init s) :
    Timely s := by
  rw [batching] at h
  dsimp only at h
  refine ⟨fun x hx => ?_, fun hne => ?_⟩
  · rw [h] at hx
    cases hx
  · rw [h] at hne
    exact absurd rfl hne

theorem timely_step {a : Time × Call T} (h : Timely s) (hle : s.now ≤ a.1) (hkept : ¬ Postpones s a) :
    Timely ⟨call s.batcher a.1 a.2, a.1⟩ := by
  obtain ⟨t, c⟩ := a
  cases c with
  | add item =>
    refine ⟨fun x hx => ?_, fun _ => ?_⟩
    · rcases List.mem_append.mp hx with hx | hx
      · exact (h.added x hx).trans hle
      · rw [List.mem_singleton.mp hx]
    · dsimp only [call, DynamicBatcher.add]
      cases hitems : s.batcher.items with
      | nil => exact ⟨t, rfl, le_rfl, fun _ _ oldest holdest => by cases holdest; exact le_rfl⟩
      | cons first rest =>
        obtain ⟨start, hstart, hpast, hwindow⟩ := h.window (by rw [hitems]; exact List.cons_ne_nil _ _)
        refine ⟨start, hstart, hpast.trans hle, fun hpos hlen oldest holdest => ?_⟩
        rw [List.length_append] at hlen
        exact hwindow hpos (by rw [hitems]; omega) oldest (by rw [hitems]; exact holdest)
  | shouldFlush =>
    refine ⟨fun x hx => (h.added x hx).trans hle, fun hne => ?_⟩
    obtain ⟨start, hstart, hpast, hwindow⟩ := h.window hne
    exact ⟨start, hstart, hpast.trans hle, hwindow⟩
  | flush =>
    refine ⟨fun x hx => (h.added x (List.mem_of_mem_drop hx)).trans hle, fun hne => ?_⟩
    dsimp only [call, DynamicBatcher.flush] at hne ⊢
    rw [if_neg (by simpa using hne)]
    refine ⟨t, rfl, le_rfl, fun hpos hlen oldest holdest => not_lt.mp fun hlt => ?_⟩
    exact hkept ⟨rfl, hpos, hlen, oldest, holdest, hlt⟩

variable [IsOrderedAddMonoid Time]

theorem deadline_of_timely (h : Timely s) : Deadline s := by
  intro t ht oldest holdest hwait
  have hne : s.batcher.items ≠ [] := by
    intro hnil
    rw [hnil] at holdest
    cases holdest
  obtain ⟨start, hstart, hpast, hwindow⟩ := h.window hne
  rw [DynamicBatcher.shouldFlush, if_neg (by simpa using hne)]
  by_cases hfull : s.batcher.maxBatchSize ≤ s.batcher.items.length
  · rw [if_pos hfull]
  · rw [if_neg hfull, Option.mem_def.mp hstart, Option.map_some, Option.some.injEq, decide_eq_true_iff]
    by_cases hpos : 0 < s.batcher.maxWaitMs
    · have hle := hwindow hpos (not_le.mp hfull) oldest holdest
      exact hwait.trans (sub_le_sub_left hle t)
    · exact (not_lt.mp hpos).trans (sub_nonneg.mpr (hpast.trans ht))

/-- Such a flush leaves a state in which the deadline is missed. -/
theorem not_deadline_of_postpones {a : Time × Call T} (h : Postpones s a) :
    ¬ Deadline ⟨call s.batcher a.1 a.2, a.1⟩ := by
  obtain ⟨t, c⟩ := a
  obtain ⟨rfl, hpos, hlen, oldest, holdest, hlt⟩ := h
  intro hdeadline
  have hne : s.batcher.items.drop s.batcher.maxBatchSize ≠ [] := by
    intro hnil
    rw [hnil] at holdest
    cases holdest
  have hflush := hdeadline (max t (oldest.2 + s.batcher.maxWaitMs)) (le_max_left _ _) oldest holdest
    (le_sub_iff_add_le'.mpr (le_max_right _ _))
  dsimp only [call, DynamicBatcher.flush] at hflush
  rw [DynamicBatcher.shouldFlush, if_neg (by simpa using hne), if_neg (not_le.mpr hlen)] at hflush
  dsimp only at hflush
  rw [if_neg (by simpa using hne), Option.map_some, Option.some.injEq, decide_eq_true_iff, le_sub_iff_add_le',
    le_max_iff] at hflush
  rcases hflush with hnow | hlater
  · exact absurd hnow (not_le.mpr (lt_add_of_pos_right t hpos))
  · exact absurd hlater (not_le.mpr (add_lt_add_left hlt _))

/-- Along every run the deadline is kept exactly if no flush postpones it. -/
theorem deadline_kept_iff {maxBatchSize : Nat} {maxWaitMs : Time}
    {trace : List (Recorded (State T Time) (Time × Call T))} (s : State T Time)
    (hrun : (batching T maxBatchSize maxWaitMs).recorded.Run trace s) :
    (∀ x ∈ trace, Deadline x.after) ↔ ∀ x ∈ trace, ¬ Postpones x.before x.action := by
  constructor
  · intro hkept x hx hpostpones
    have hafter : ∀ x ∈ trace, x.after = ⟨call x.before.batcher x.action.1 x.action.2, x.action.1⟩ := by
      refine hrun.forall_mem ?_
      intro s a s' _ hstep
      exact hstep.2
    exact not_deadline_of_postpones hpostpones (hafter x hx ▸ hkept x hx)
  · intro hkept
    have hinv := hrun.invariant
      (fun trace s => (∀ x ∈ trace, ¬ Postpones x.before x.action) → Timely s ∧ ∀ x ∈ trace, Timely x.after)
      (fun s hinit _ => ⟨timely_start hinit, by simp⟩) ?_ hkept
    · exact fun x hx => deadline_of_timely (hinv.2 x hx)
    · intro trace s x s' ih hstep hall
      obtain ⟨rfl, rfl, hle, hafter⟩ := hstep
      obtain ⟨hbefore, hearlier⟩ := ih fun y hy => hall y (List.mem_append_left _ hy)
      have hnext : Timely x.after := by
        rw [hafter]
        exact timely_step hbefore hle (hall x (List.mem_append_right _ (List.mem_singleton_self x)))
      refine ⟨hnext, fun y hy => ?_⟩
      rcases List.mem_append.mp hy with hy | hy
      · exact hearlier y hy
      · rwa [List.mem_singleton.mp hy]

theorem deadline_kept_iff_two :
    ∃ (trace : List (Recorded (State Nat Int) (Int × Call Nat))) (s : State Nat Int),
      (batching Nat 2 5).recorded.Run trace s ∧ trace.map Recorded.action = [(0, .add 1), (3, .add 2), (4, .flush)] ∧
      ((∀ x ∈ trace, Deadline x.after) ↔ ∀ x ∈ trace, ¬ Postpones x.before x.action) := by
  have hstart : (batching Nat 2 (5 : Int)).recorded.Run [] ⟨{ maxBatchSize := 2, maxWaitMs := 5 }, 0⟩ := .init rfl
  have hrun := ((hstart.extend (0, .add 1) ⟨by decide, rfl⟩).extend (3, .add 2) ⟨by decide, rfl⟩).extend
    (4, .flush) ⟨by decide, rfl⟩
  exact ⟨_, _, hrun, rfl, deadline_kept_iff _ hrun⟩

/-- Three items added at 0, a batch of two flushed at 4: the third is due at 5,
and its window runs to 9. -/
theorem leftover_misses_deadline :
    ∃ s : State Nat Int, (batching Nat 2 5).Reachable s ∧ s.batcher.items = [(3, 0)] ∧ s.now = 4 ∧
      s.batcher.shouldFlush 5 = some false ∧ ¬ Deadline s := by
  have hstart : (batching Nat 2 (5 : Int)).Reachable ⟨{ maxBatchSize := 2, maxWaitMs := 5 }, 0⟩ := .init rfl
  have hadded := ((hstart.step (a := (0, .add 1)) ⟨by decide, rfl⟩).step (a := (0, .add 2)) ⟨by decide, rfl⟩).step
    (a := (0, .add 3)) ⟨by decide, rfl⟩
  refine ⟨_, hadded.step (a := (4, .flush)) ⟨by decide, rfl⟩, rfl, rfl, by decide, fun h => ?_⟩
  have hdue := h 5 (by decide) (3, 0) rfl (by decide)
  revert hdue
  decide

end CascadeSearch.Rank.Batcher
