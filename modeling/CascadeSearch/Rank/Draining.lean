import CascadeSearch.Rank.OpenLoop
import Mathlib.Data.List.Nodup

/-!
# No batched request is stranded

A request goes from the queue through a batch of the flusher to the woken ones.
After a failure of the scorer the flusher stays in its draining loop, which
reaches every request that is queued or will be.
-/
namespace CascadeSearch.Rank.OpenLoop

open Lib.Transition Batcher

variable {Pair Time Exc : Type*} {n : Nat}

/-- The loops of the flusher belong to the time before a failure and after one. -/
def Flusher.Sound (failed stop : Prop) : Flusher Pair → Prop
  | .testing | .polling | .scoring _ | .waking _ => ¬ failed
  | .draining | .taking | .releasing _ => failed
  | .exited => stop
  | .crashed => False

/-- Requests go from the queue through a batch to the woken ones, in order. -/
structure Flow (maxBatchSize : Nat) (cap : Option Nat) (s : State Pair Time Exc n) : Prop where
  size : s.batcher.maxBatchSize = maxBatchSize
  window : s.batcher.items ≠ [] → s.batcher.windowStart.isSome
  bounded : ∀ c ∈ cap, s.batcher.items.length ≤ c
  order : s.accepted = s.woken ++ s.flusher.current ++ s.queue
  handed : ∃ orphans, s.woken ++ s.flusher.current = s.handed.flatten.map Prod.fst ++ orphans ∧
    (s.failure = [] → orphans = [])
  batches : ∀ batch ∈ s.handed, batch.length ≤ maxBatchSize
  phase : s.flusher.Sound (s.failure ≠ []) (s.stop = true)

/-- An event is created for one call and enters the queue once. -/
structure Fresh (requestPairs : List Pair) (s : State Pair Time Exc n) : Prop where
  nodup : s.accepted.Nodup
  created : ∀ event ∈ s.accepted, event < s.events
  tested : ∀ i event, s.threads i = .tested event → event < s.events ∧ event ∉ s.accepted
  apart : ∀ i j event, s.threads i = .tested event → s.threads j = .tested event → i = j
  waiting : ∀ i event, s.threads i = .waiting event → event ∈ s.accepted
  passed : requestPairs ≠ [] → s.passed = s.accepted

variable {maxBatchSize : Nat} {cap : Option Nat} {requestPairs : List Pair} {s s' : State Pair Time Exc n}

/-- The flusher goes from one phase to another with what it holds. -/
theorem Flow.move (h : Flow maxBatchSize cap s) {f : Flusher Pair} (hcurrent : f.current = s.flusher.current)
    (hphase : f.Sound (s.failure ≠ []) (s.stop = true)) : Flow maxBatchSize cap { s with flusher := f } := by
  refine { h with order := ?_, handed := ?_, phase := hphase }
  · rw [hcurrent]
    exact h.order
  · rw [hcurrent]
    exact h.handed

/-- The first of the requests it holds is woken. -/
theorem Flow.wake (h : Flow maxBatchSize cap s) {f : Flusher Pair} {event : Event}
    (hcurrent : s.flusher.current = event :: f.current) (hphase : f.Sound (s.failure ≠ []) (s.stop = true)) :
    Flow maxBatchSize cap { s with flusher := f, woken := s.woken ++ [event] } := by
  refine { h with order := ?_, handed := ?_, phase := hphase }
  · rw [h.order, hcurrent, List.append_assoc s.woken [event]]
    rfl
  · obtain ⟨orphans, hsplit, hnone⟩ := h.handed
    refine ⟨orphans, ?_, hnone⟩
    rw [← hsplit, hcurrent, List.append_assoc]
    rfl

theorem flush_items (b : DynamicBatcher (Event × Pair) Time) (now : Time) :
    (b.flush now).1.map Prod.fst ++ (b.flush now).2.items.map Prod.fst = b.items.map Prod.fst := by
  rw [← List.map_append]
  exact congrArg _ (List.take_append_drop _ _)

theorem flush_window (b : DynamicBatcher (Event × Pair) Time) (now : Time) (hne : (b.flush now).2.items ≠ []) :
    (b.flush now).2.windowStart.isSome := by
  have hleft : ¬ (b.items.drop b.maxBatchSize).isEmpty = true := fun hnil => hne (List.isEmpty_iff.mp hnil)
  change (if (b.items.drop b.maxBatchSize).isEmpty then none else some now).isSome
  rw [if_neg hleft]
  rfl

/-- With nothing in its hands it takes a batch from the queue, for `score` or not. -/
theorem Flow.take (h : Flow maxBatchSize cap s) (hcurrent : s.flusher.current = []) {f : Flusher Pair} {now : Time}
    {handed : List (List (Event × Pair))} (hf : f.current = (s.batcher.flush now).1.map Prod.fst)
    (hhanded : handed = s.handed ++ [(s.batcher.flush now).1] ∧ s.failure = [] ∨
      handed = s.handed ∧ ((s.batcher.flush now).1 = [] ∨ s.failure ≠ []))
    (hphase : f.Sound (s.failure ≠ []) (s.stop = true)) :
    Flow maxBatchSize cap { s with batcher := (s.batcher.flush now).2, flusher := f, handed := handed } := by
  have hitems := flush_items s.batcher now
  obtain ⟨orphans, hsplit, hnone⟩ := h.handed
  rw [hcurrent, List.append_nil] at hsplit
  refine ⟨h.size, flush_window s.batcher now, fun c hc => ?_, ?_, ?_, ?_, hphase⟩
  · refine le_trans ?_ (h.bounded c hc)
    exact (List.drop_sublist _ _).length_le
  · rw [h.order, hcurrent, List.append_nil, hf, List.append_assoc]
    exact congrArg (s.woken ++ ·) hitems.symm
  · rcases hhanded with ⟨rfl, hfailure⟩ | ⟨rfl, hor⟩
    · refine ⟨[], ?_, fun _ => rfl⟩
      rw [hf, hsplit, hnone hfailure]
      simp
    · refine ⟨orphans ++ f.current, by rw [hsplit, List.append_assoc], fun hfailure => ?_⟩
      rw [hnone hfailure, hf, hor.resolve_right (not_not.mpr hfailure)]
      rfl
  · intro batch hbatch
    rcases hhanded with ⟨rfl, -⟩ | ⟨rfl, -⟩
    · rcases List.mem_append.mp hbatch with hbatch | hbatch
      · exact h.batches batch hbatch
      · rw [List.mem_singleton.mp hbatch, ← h.size]
        exact List.length_take_le _ _
    · exact h.batches batch hbatch

/-- A thread that leaves the state it is in changes nothing for the others. -/
theorem Fresh.update (h : Fresh requestPairs s) (i : Fin n) (t : Thread) (accepted : List Event)
    (htested : ∀ event, t ≠ .tested event) (hwaiting : ∀ event, t = .waiting event → event ∈ accepted) :
    (∀ j event, Function.update s.threads i t j = .tested event → j ≠ i ∧ s.threads j = .tested event) ∧
      ∀ j event, Function.update s.threads i t j = .waiting event → event ∈ accepted ∨ event ∈ s.accepted := by
  constructor
  · intro j event hj
    by_cases hij : j = i
    · rw [hij, Function.update_self] at hj
      exact absurd hj (htested event)
    · rw [Function.update_of_ne hij] at hj
      exact ⟨hij, hj⟩
  · intro j event hj
    by_cases hij : j = i
    · rw [hij, Function.update_self] at hj
      exact Or.inl (hwaiting event hj)
    · rw [Function.update_of_ne hij] at hj
      exact Or.inr (h.waiting j event hj)

/-- A thread that goes back to idle. -/
theorem Fresh.idle (h : Fresh requestPairs s) (i : Fin n) {passed : List Event}
    (hpassed : requestPairs ≠ [] → passed = s.accepted) {s' : State Pair Time Exc n}
    (hs' : s'.threads = Function.update s.threads i .idle ∧ s'.accepted = s.accepted ∧ s'.events = s.events ∧
      s'.passed = passed) : Fresh requestPairs s' := by
  obtain ⟨hthreads, haccepted, hevents, hpassed'⟩ := hs'
  obtain ⟨htested, hwaiting⟩ := h.update i .idle s.accepted (by simp) (by simp)
  rw [← hthreads] at htested hwaiting
  refine ⟨?_, ?_, ?_, ?_, ?_, ?_⟩
  · rw [haccepted]
    exact h.nodup
  · rw [haccepted, hevents]
    exact h.created
  · rw [haccepted, hevents]
    exact fun j event hj => h.tested j event (htested j event hj).2
  · exact fun j l event hj hl => h.apart j l event (htested j event hj).2 (htested l event hl).2
  · rw [haccepted]
    exact fun j event hj => (hwaiting j event hj).elim id id
  · rw [hpassed', haccepted]
    exact hpassed

/-- Whatever leaves the threads and the events alone. -/
theorem Fresh.congr (h : Fresh requestPairs s) (hthreads : s'.threads = s.threads)
    (haccepted : s'.accepted = s.accepted) (hevents : s'.events = s.events) (hpassed : s'.passed = s.passed) :
    Fresh requestPairs s' := by
  refine ⟨?_, ?_, ?_, ?_, ?_, ?_⟩
  · rw [haccepted]
    exact h.nodup
  · rw [haccepted, hevents]
    exact h.created
  · rw [hthreads, haccepted, hevents]
    exact h.tested
  · rw [hthreads]
    exact h.apart
  · rw [hthreads, haccepted]
    exact h.waiting
  · rw [hpassed, haccepted]
    exact h.passed

/-- A thread creates the next event. -/
theorem Fresh.create (h : Fresh requestPairs s) (i : Fin n) :
    Fresh requestPairs
      { s with events := s.events + 1, threads := Function.update s.threads i (.tested s.events) } := by
  have hfresh : s.events ∉ s.accepted := fun hmem => lt_irrefl _ (h.created _ hmem)
  have hold : ∀ j event, Function.update s.threads i (.tested s.events) j = .tested event →
      j = i ∧ event = s.events ∨ s.threads j = .tested event ∧ event < s.events := by
    intro j event hj
    by_cases hij : j = i
    · rw [hij, Function.update_self] at hj
      cases hj
      exact Or.inl ⟨hij, rfl⟩
    · rw [Function.update_of_ne hij] at hj
      exact Or.inr ⟨hj, (h.tested j event hj).1⟩
  have hwaiting : ∀ j event, Function.update s.threads i (.tested s.events) j = .waiting event →
      event ∈ s.accepted := by
    intro j event hj
    by_cases hij : j = i
    · rw [hij, Function.update_self] at hj
      cases hj
    · rw [Function.update_of_ne hij] at hj
      exact h.waiting j event hj
  refine ⟨h.nodup, fun event hevent => (h.created event hevent).trans (Nat.lt_succ_self _), ?_, ?_, hwaiting, h.passed⟩
  · intro j event hj
    rcases hold j event hj with ⟨-, rfl⟩ | ⟨hj, hlt⟩
    · exact ⟨Nat.lt_succ_self _, hfresh⟩
    · exact ⟨hlt.trans (Nat.lt_succ_self _), (h.tested j event hj).2⟩
  · intro j l event hj hl
    rcases hold j event hj with ⟨rfl, rfl⟩ | ⟨hj, hlt⟩
    · rcases hold l s.events hl with ⟨rfl, -⟩ | ⟨-, hlt⟩
      · rfl
      · exact absurd hlt (lt_irrefl _)
    · rcases hold l event hl with ⟨-, rfl⟩ | ⟨hl, -⟩
      · exact absurd hlt (lt_irrefl _)
      · exact h.apart j l event hj hl

/-- The event a thread has created enters the queue. -/
theorem Fresh.accept (h : Fresh requestPairs s) {i : Fin n} {event : Event} (hthread : s.threads i = .tested event)
    (hthreads : s'.threads = Function.update s.threads i (.waiting event))
    (haccepted : s'.accepted = s.accepted ++ [event]) (hevents : s'.events = s.events)
    (hpassed : s'.passed = s.passed ++ [event]) : Fresh requestPairs s' := by
  obtain ⟨hcreated, hnew⟩ := h.tested i event hthread
  obtain ⟨htested, hwaiting⟩ := h.update i (.waiting event) [event] (by simp)
    (fun x hx => by cases hx; exact List.mem_singleton_self _)
  rw [← hthreads] at htested hwaiting
  refine ⟨?_, ?_, ?_, ?_, ?_, ?_⟩
  · rw [haccepted]
    exact List.nodup_append.mpr ⟨h.nodup, List.nodup_singleton _, fun x hx y hy hxy =>
      hnew (List.mem_singleton.mp hy ▸ hxy ▸ hx)⟩
  · rw [haccepted, hevents]
    intro x hx
    rcases List.mem_append.mp hx with hx | hx
    · exact h.created x hx
    · rw [List.mem_singleton.mp hx]
      exact hcreated
  · rw [haccepted, hevents]
    intro j x hj
    obtain ⟨hne, hj⟩ := htested j x hj
    refine ⟨(h.tested j x hj).1, fun hmem => ?_⟩
    rcases List.mem_append.mp hmem with hmem | hmem
    · exact (h.tested j x hj).2 hmem
    · rw [List.mem_singleton.mp hmem] at hj
      exact hne (h.apart j i event hj hthread)
  · exact fun j l x hj hl => h.apart j l x (htested j x hj).2 (htested l x hl).2
  · rw [haccepted]
    intro j x hj
    rcases hwaiting j x hj with hx | hx
    · exact List.mem_append_right _ hx
    · exact List.mem_append_left _ hx
  · intro hpairs
    rw [hpassed, haccepted, h.passed hpairs]

/-- The steps of the draining loop before it sets an event. -/
def Flusher.toGo : Flusher Pair → Nat
  | .releasing [] => 3
  | .draining => 2
  | .taking => 1
  | _ => 0

theorem Flusher.toGo_le (f : Flusher Pair) : f.toGo ≤ 3 := by
  unfold Flusher.toGo
  split <;> decide

/-- How many steps of the flusher an event behind `ahead` others may take to be set. -/
def left (ahead : Nat) (s : State Pair Time Exc n) : Nat := 4 * (ahead + 1 - s.woken.length) + s.flusher.toGo

variable [Sub Time] [LE Time] [DecidableLE Time]

theorem flow_flusher (h : Flow maxBatchSize cap s) {now later : Time} (hstep : FlusherSteps s now later s') :
    Flow maxBatchSize cap s' := by
  have hphase := h.phase
  cases hstep with
  | leave hflusher hstop => exact h.move (by rcases hflusher with hf | hf <;> rw [hf] <;> rfl) hstop
  | poll hflusher hstop =>
    rw [hflusher] at hphase
    exact h.move (by rw [hflusher]; rfl) hphase
  | crash hflusher hflush =>
    -- A window is open while something is queued.
    rw [DynamicBatcher.shouldFlush] at hflush
    split at hflush
    · cases hflush
    · rename_i hne
      split at hflush
      · cases hflush
      · have hwindow := h.window fun hnil => hne (List.isEmpty_iff.mpr hnil)
        rw [Option.map_eq_none_iff.mp hflush] at hwindow
        cases hwindow
  | skip hflusher hflush =>
    rw [hflusher] at hphase
    exact h.move (by rw [hflusher]; rfl) hphase
  | takeNone hflusher hbatch =>
    rw [hflusher] at hphase
    exact h.take (by rw [hflusher]; rfl) (by rw [hbatch]; rfl) (Or.inr ⟨rfl, Or.inl hbatch⟩) hphase
  | take hflusher hbatch =>
    rw [hflusher] at hphase
    exact h.take (by rw [hflusher]; rfl) rfl (Or.inl ⟨rfl, not_not.mp hphase⟩) hphase
  | score hflusher =>
    rw [hflusher] at hphase
    exact h.move (by rw [hflusher]; rfl) hphase
  | @fail batch failure hflusher =>
    rw [hflusher] at hphase
    have horder := h.order
    obtain ⟨orphans, hsplit, hnone⟩ := h.handed
    rw [hflusher] at horder hsplit
    have hfailed : s.failure ++ [failure] ≠ [] := by simp
    exact { h with
      order := horder
      handed := ⟨orphans, hsplit, fun hnil => absurd hnil hfailed⟩
      phase := hfailed }
  | wake hflusher =>
    rw [hflusher] at hphase
    exact h.wake (by rw [hflusher]; rfl) hphase
  | wakeAll hflusher =>
    rw [hflusher] at hphase
    exact h.move (by rw [hflusher]; rfl) hphase
  | drain hflusher hstop =>
    rw [hflusher] at hphase
    exact h.move (by rw [hflusher]; rfl) hphase
  | takeOrphans hflusher =>
    rw [hflusher] at hphase
    exact h.take (by rw [hflusher]; rfl) rfl (Or.inr ⟨rfl, Or.inr hphase⟩) hphase
  | release hflusher =>
    rw [hflusher] at hphase
    exact h.wake (by rw [hflusher]; rfl) hphase
  | releaseAll hflusher =>
    rw [hflusher] at hphase
    exact h.move (by rw [hflusher]; rfl) hphase

theorem flow_step {a : Action Time Exc n} (h : Flow maxBatchSize cap s) (hstep : Steps cap requestPairs s a s') :
    Flow maxBatchSize cap s' := by
  cases hstep with
  | refuse hthread hfailure => exact { h with }
  | begin hthread hfailure => exact { h with }
  | shed hthread => exact { h with }
  | divide hthread hpairs => exact { h with }
  | @accept i now event pair hthread hroom =>
    refine { h with size := h.size, window := fun _ => ?_, bounded := fun c hc => ?_, order := ?_ }
    · dsimp only [DynamicBatcher.add]
      split
      · rfl
      · rename_i hne
        exact h.window fun hnil => hne (List.isEmpty_iff.mpr hnil)
    · exact List.length_append.trans_le (hroom c hc)
    · rw [h.order, List.append_assoc]
      simp [State.queue, DynamicBatcher.add]
  | resume hthread hwoken => exact { h with }
  | flusher hstep => exact flow_flusher h hstep
  | stop =>
    refine { h with phase := ?_ }
    have hphase := h.phase
    cases hflusher : s.flusher <;> rw [hflusher] at hphase <;> first | exact hphase | rfl

theorem flusher_frame {now later : Time} (h : FlusherSteps s now later s') :
    s'.threads = s.threads ∧ s'.accepted = s.accepted ∧ s'.events = s.events ∧ s'.passed = s.passed ∧
      s'.stop = s.stop := by
  cases h <;> exact ⟨rfl, rfl, rfl, rfl, rfl⟩

theorem fresh_step {a : Action Time Exc n} (h : Fresh requestPairs s) (hstep : Steps cap requestPairs s a s') :
    Fresh requestPairs s' := by
  cases hstep with
  | refuse hthread hfailure => exact { h with }
  | @begin i hthread hfailure => exact h.create i
  | @shed i now event hthread => exact h.idle i h.passed ⟨rfl, rfl, rfl, rfl⟩
  | @divide i now event hthread hpairs => exact h.idle i (fun hne => absurd hpairs hne) ⟨rfl, rfl, rfl, rfl⟩
  | accept pair hthread hroom => exact h.accept hthread rfl rfl rfl rfl
  | @resume i event hthread hwoken => exact h.idle i h.passed ⟨rfl, rfl, rfl, rfl⟩
  | flusher hstep =>
    obtain ⟨hthreads, haccepted, hevents, hpassed, -⟩ := flusher_frame hstep
    exact h.congr hthreads haccepted hevents hpassed
  | stop => exact { h with }

variable {maxWaitMs : Time}

theorem invariants (h : (openLoop Exc n maxBatchSize maxWaitMs cap requestPairs).Reachable s) :
    Flow maxBatchSize cap s ∧ Fresh requestPairs s := by
  refine h.invariant (fun s => Flow maxBatchSize cap s ∧ Fresh requestPairs s) ?_ fun s a s' hs hstep =>
    ⟨flow_step hs.1 (step_cases hstep), fresh_step hs.2 (step_cases hstep)⟩
  intro s hinit
  have hstart : s = { batcher := { maxBatchSize := maxBatchSize, maxWaitMs := maxWaitMs } } := hinit
  rw [hstart]
  refine ⟨⟨rfl, fun hne => absurd rfl hne, fun c _ => Nat.zero_le c, rfl, ⟨[], rfl, fun _ => rfl⟩, ?_, not_not.mpr rfl⟩,
    ⟨List.nodup_nil, ?_, ?_, ?_, ?_, fun _ => rfl⟩⟩
  · exact fun batch hbatch => absurd hbatch List.not_mem_nil
  · exact fun event hevent => absurd hevent List.not_mem_nil
  · exact fun i event hthread => by cases hthread
  · exact fun i j event hthread => by cases hthread
  · exact fun i event hthread => by cases hthread

/-- Before the run is torn down the flusher can always go on. -/
theorem flusher_enabled (h : Flow maxBatchSize cap s) (hstop : s.stop = false) (now later : Time)
    (scores : Except Exc Nat) : ∃ s', flush s now later scores = some s' := by
  have hphase := h.phase
  unfold flush
  cases hflusher : s.flusher with
  | polling =>
    cases hflush : s.batcher.shouldFlush now with
    | none => exact ⟨_, rfl⟩
    | some due =>
      cases due with
      | false => exact ⟨_, rfl⟩
      | true =>
        dsimp only
        split <;> exact ⟨_, rfl⟩
  | waking batch => cases batch <;> exact ⟨_, rfl⟩
  | releasing batch => cases batch <;> exact ⟨_, rfl⟩
  | exited =>
    rw [hflusher, hstop] at hphase
    cases hphase
  | crashed =>
    rw [hflusher] at hphase
    exact hphase.elim
  | testing => exact ⟨_, rfl⟩
  | scoring batch => exact ⟨_, rfl⟩
  | draining => exact ⟨_, rfl⟩
  | taking => exact ⟨_, rfl⟩

/-- What is never undone. -/
theorem step_frame {a : Action Time Exc n} (h : Steps cap requestPairs s a s') :
    (s'.stop = false → s.stop = false) ∧ (∃ more, s'.accepted = s.accepted ++ more) ∧
      s.woken.length ≤ s'.woken.length ∧ (s.failure ≠ [] → s'.failure ≠ []) := by
  cases h with
  | accept pair hthread hroom => exact ⟨id, ⟨_, rfl⟩, le_rfl, id⟩
  | flusher h =>
    obtain ⟨-, haccepted, -, -, hstop⟩ := flusher_frame h
    refine ⟨fun hs => hstop ▸ hs, ⟨[], by rw [haccepted, List.append_nil]⟩, ?_, ?_⟩
    · cases h <;> first | exact le_rfl | exact List.length_append.symm ▸ Nat.le_add_right _ _
    · cases h <;> first | exact id | exact fun _ => by simp
  | stop =>
    refine ⟨fun hs => ?_, ⟨[], (List.append_nil _).symm⟩, le_rfl, id⟩
    cases hs
  | _ => exact ⟨id, ⟨[], (List.append_nil _).symm⟩, le_rfl, id⟩

/-- After a failure every step of the flusher brings a pending event closer. -/
theorem flusher_left (hmax : 1 ≤ maxBatchSize) (h : Flow maxBatchSize cap s) (hfailure : s.failure ≠ []) {ahead : Nat}
    (hpending : s.woken.length ≤ ahead ∧ ahead < s.accepted.length) {now later : Time} (hstop : s.stop = false)
    (hstep : FlusherSteps s now later s') : left ahead s' + 1 ≤ left ahead s := by
  have hphase := h.phase
  cases hstep with
  | leave hflusher hstopped =>
    rw [hstop] at hstopped
    cases hstopped
  | drain hflusher _ =>
    rw [left, left, hflusher]
    exact le_rfl
  | takeOrphans hflusher =>
    have hsome : ∃ request batch, (s.batcher.flush later).1 = request :: batch := by
      have hlength := congrArg List.length h.order
      have hcurrent : s.flusher.current = [] := by
        rw [hflusher]
        rfl
      rw [hcurrent, List.append_nil, List.length_append, State.queue, List.length_map] at hlength
      refine List.exists_cons_of_ne_nil fun hnil => ?_
      have htake : (s.batcher.items.take s.batcher.maxBatchSize).length = 0 := by
        rw [show s.batcher.items.take s.batcher.maxBatchSize = [] from hnil]
        rfl
      rw [List.length_take, h.size] at htake
      omega
    obtain ⟨request, batch, hbatch⟩ := hsome
    rw [left, left, hflusher, hbatch]
    exact le_rfl
  | release hflusher =>
    rename_i request batch
    have hgo := (Flusher.releasing batch).toGo_le
    have hbefore : (Flusher.releasing (request :: batch)).toGo = 0 := rfl
    rw [left, left, hflusher, hbefore]
    dsimp only
    rw [List.length_append, List.length_singleton]
    omega
  | releaseAll hflusher =>
    rw [left, left, hflusher]
    exact le_rfl
  | poll hflusher _ => rw [hflusher] at hphase; exact absurd hfailure hphase
  | crash hflusher _ => rw [hflusher] at hphase; exact absurd hfailure hphase
  | skip hflusher _ => rw [hflusher] at hphase; exact absurd hfailure hphase
  | takeNone hflusher _ => rw [hflusher] at hphase; exact absurd hfailure hphase
  | take hflusher _ => rw [hflusher] at hphase; exact absurd hfailure hphase
  | score hflusher => rw [hflusher] at hphase; exact absurd hfailure hphase
  | fail hflusher => rw [hflusher] at hphase; exact absurd hfailure hphase
  | wake hflusher => rw [hflusher] at hphase; exact absurd hfailure hphase
  | wakeAll hflusher => rw [hflusher] at hphase; exact absurd hfailure hphase

/-- An event that is still pending when the flusher has gone on for a while after a failure. -/
structure Pending (s₀ s : State Pair Time Exc n) (front : List Event) (event : Event) (steps : Nat) : Prop where
  accepted : ∃ back, s.accepted = front ++ event :: back
  budget : s.stop = false → front.length < s.woken.length ∨
    s₀.woken.length ≤ front.length ∧ steps + left front.length s ≤ left front.length s₀

theorem pending_step (hmax : 1 ≤ maxBatchSize) {s₀ : State Pair Time Exc n} {front : List Event} {event : Event}
    {steps : Nat} (hflow : Flow maxBatchSize cap s) (hfailure : s.failure ≠ [])
    (h : Pending s₀ s front event steps) {a : Action Time Exc n} (hstep : Steps cap requestPairs s a s') :
    Pending s₀ s' front event (steps + if a.isFlusher then 1 else 0) := by
  obtain ⟨back, haccepted⟩ := h.accepted
  obtain ⟨hrunning, ⟨more, hmore⟩, hwoken, -⟩ := step_frame hstep
  refine ⟨⟨back ++ more, by rw [hmore, haccepted, List.append_assoc]; rfl⟩, fun hstop => ?_⟩
  rcases h.budget (hrunning hstop) with hset | ⟨hnotset, hbudget⟩
  · exact Or.inl (hset.trans_le hwoken)
  · by_cases hset : front.length < s.woken.length
    · exact Or.inl (hset.trans_le hwoken)
    · refine Or.inr ⟨hnotset, ?_⟩
      cases hstep with
      | flusher hstep =>
        have hlater : front.length < s.accepted.length := by
          rw [haccepted, List.length_append, List.length_cons]
          omega
        have hleft := flusher_left hmax hflow hfailure ⟨not_lt.mp hset, hlater⟩ (hrunning hstop) hstep
        change steps + 1 + _ ≤ _
        omega
      | _ => exact hbudget

/-- After a failure the draining loop sets every pending event, four steps of the
flusher for each, whatever the other threads do meanwhile. -/
theorem drained (hmax : 1 ≤ maxBatchSize) (hflow : Flow maxBatchSize cap s) (hfailure : s.failure ≠ []) {event : Event}
    (hevent : event ∈ s.accepted) {trace : List (Action Time Exc n)}
    (hrun : ((openLoop Exc n maxBatchSize maxWaitMs cap requestPairs).startingAt s).Run trace s') (hstop : s'.stop = false)
    (hsteps : 4 * (s.flusher.current ++ s.queue).length ≤ trace.countP Action.isFlusher) : event ∈ s'.woken := by
  obtain ⟨front, back, haccepted⟩ := List.append_of_mem hevent
  have hinv := hrun.invariant
    (fun trace t => Flow maxBatchSize cap t ∧ t.failure ≠ [] ∧
      Pending s t front event (trace.countP Action.isFlusher)) ?_ ?_
  · obtain ⟨hflow', -, hpending⟩ := hinv
    obtain ⟨back', haccepted'⟩ := hpending.accepted
    have horder := hflow'.order
    have hset : front.length < s'.woken.length := by
      by_contra hset
      obtain ⟨hnotset, hbudget⟩ := (hpending.budget hstop).resolve_left hset
      have hlength := congrArg List.length hflow.order
      have hgo := Flusher.toGo_le s.flusher
      rw [haccepted, List.append_assoc, List.length_append, List.length_append, List.length_cons] at hlength
      rw [left, left] at hbudget
      omega
    rw [haccepted', List.append_assoc] at horder
    have hget := congrArg (fun l : List Event => l[front.length]?) horder
    rw [List.getElem?_append_right le_rfl, Nat.sub_self, List.getElem?_append_left hset] at hget
    exact List.mem_of_getElem? hget.symm
  · rintro t rfl
    refine ⟨hflow, hfailure, ⟨back, haccepted⟩, fun _ => ?_⟩
    rcases Nat.lt_or_ge front.length t.woken.length with hset | hnotset
    · exact Or.inl hset
    · exact Or.inr ⟨hnotset, by simp⟩
  · intro trace t a t' ih hstep
    obtain ⟨hflow', hfailure', hpending⟩ := ih
    have hsteps := step_cases hstep
    refine ⟨flow_step hflow' hsteps, (step_frame hsteps).2.2.2 hfailure', ?_⟩
    have hnext := pending_step hmax hflow' hfailure' hpending hsteps
    rwa [List.countP_append, List.countP_singleton]

/-- Every request that passed the depth check is in one place, once; it is scored
in the order of arrival; and after a failure nothing stays in the queue. -/
theorem no_request_stranded (hmax : 1 ≤ maxBatchSize) (hpairs : requestPairs ≠ [])
    (h : (openLoop Exc n maxBatchSize maxWaitMs cap requestPairs).Reachable s) :
    (∀ event ∈ s.passed, (s.queue ++ s.flusher.current ++ s.woken).count event = 1) ∧ s.woken.Nodup ∧
      (∀ i event, s.threads i = .waiting event → event ∈ s.passed) ∧
      s.handed.flatten.map Prod.fst <+: s.passed ∧ (∀ batch ∈ s.handed, batch.length ≤ maxBatchSize) ∧
      (∀ c ∈ cap, s.queue.length ≤ c) ∧
      (s.stop = false → ∀ now later (scores : Except Exc Nat),
        ∃ s', step cap requestPairs s (.flusher now later scores) = some s') ∧
      (s.stop = false → s.failure ≠ [] → ∀ event ∈ s.passed, ∀ trace s',
        ((openLoop Exc n maxBatchSize maxWaitMs cap requestPairs).startingAt s).Run trace s' → s'.stop = false →
        4 * (s.flusher.current ++ s.queue).length ≤ trace.countP Action.isFlusher → event ∈ s'.woken) := by
  obtain ⟨hflow, hfresh⟩ := invariants h
  have hpassed := hfresh.passed hpairs
  obtain ⟨orphans, hhanded, -⟩ := hflow.handed
  rw [hpassed]
  refine ⟨fun event hevent => ?_, ?_, hfresh.waiting, ?_, hflow.batches, fun c hc => ?_, ?_, ?_⟩
  · have hperm : (s.queue ++ s.flusher.current ++ s.woken).Perm s.accepted := by
      rw [hflow.order, List.append_assoc]
      exact List.perm_append_comm.trans ((List.perm_append_comm).append_right _)
    rw [hperm.count_eq]
    exact List.count_eq_one_of_mem hfresh.nodup hevent
  · have hnodup := hfresh.nodup
    rw [hflow.order, List.append_assoc] at hnodup
    exact (List.nodup_append.mp hnodup).1
  · rw [hflow.order, hhanded, List.append_assoc]
    exact List.prefix_append _ _
  · rw [State.queue, List.length_map]
    exact hflow.bounded c hc
  · exact fun hstop now later scores => flusher_enabled hflow hstop now later scores
  · exact fun _ hfailure event hevent trace s' hrun hstop hsteps =>
      drained hmax hflow hfailure hevent hrun hstop hsteps

/-- `score` raises on the first batch; the request that was queued meanwhile is woken. -/
theorem no_request_stranded_failing :
    ∃ s : State Nat Int Unit 2, (openLoop Unit 2 1 (0 : Int) none [5]).Reachable s ∧
      (s.queue ++ s.flusher.current ++ s.woken).count 1 = 1 ∧ ∃ trace s',
        ((openLoop Unit 2 1 (0 : Int) none [5]).startingAt s).Run trace s' ∧ 1 ∈ s'.woken := by
  let start : State Nat Int Unit 2 := { batcher := { maxBatchSize := 1, maxWaitMs := 0 } }
  let go : Action Int Unit 2 := .flusher 0 0 (.ok 0)
  let actions : List (Action Int Unit 2) :=
    [.call 0, .submit 0 0, go, go, .call 1, .submit 1 0, .flusher 0 0 (.error ())]
  obtain ⟨s, hs⟩ := Option.isSome_iff_exists.mp (by decide +kernel : (actions.foldlM (step none [5]) start).isSome = true)
  have hfacts : (actions.foldlM (step none [5]) start).map
      (fun s => (s.stop, s.failure.isEmpty, s.passed, (s.flusher.current ++ s.queue).length)) =
        some (false, false, [0, 1], 2) := by decide +kernel
  have hmore : ((actions ++ List.replicate 8 go).foldlM (step none [5]) start).map State.stop = some false := by
    decide +kernel
  rw [List.foldlM_append, hs, Option.bind_eq_bind, Option.bind_some, Option.map_eq_some_iff] at hmore
  rw [hs, Option.map_some, Option.some.injEq, Prod.mk.injEq, Prod.mk.injEq, Prod.mk.injEq] at hfacts
  obtain ⟨hstop, hfailure, hpassed, hlength⟩ := hfacts
  obtain ⟨s', hs', hstop'⟩ := hmore
  have hinit : (openLoop Unit 2 1 (0 : Int) none [5]).Run [] start := .init rfl
  have hagain : ((openLoop Unit 2 1 (0 : Int) none [5]).startingAt s).Run [] s := .init rfl
  have hrun := hinit.of_foldlM (fun _ _ _ h => h) hs
  have hlater := hagain.of_foldlM (fun _ _ _ h => h) hs'
  obtain ⟨hplace, -, -, -, -, -, -, hdrained⟩ := no_request_stranded (by decide) (by decide) hrun.reachable
  have hone : 1 ∈ s.passed := by simp [hpassed]
  refine ⟨s, hrun.reachable, hplace 1 hone, _, s', hlater, ?_⟩
  refine hdrained hstop (fun hnil => ?_) 1 hone _ s' hlater hstop' (by rw [hlength]; decide)
  rw [hnil] at hfailure
  cases hfailure

end CascadeSearch.Rank.OpenLoop
