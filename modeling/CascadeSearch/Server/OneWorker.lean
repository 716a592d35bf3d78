import CascadeSearch.Server.Lru
import CascadeSearch.Server.Rpc

/-!
# Cache hits behind one worker

With one worker the calls are handled in the order in which they were accepted,
so this order alone decides which of them the cache answers.
-/
namespace CascadeSearch.Server.Rpc

open Lib.Transition Lib.Recency Lib.Decimal
open Index.Format
open Query.Heap Query.Reader Query.Search
open SearchService WorkerPool Cache Lru

/-- The words of a request, whatever their case and the blanks between them, and
how many results it wants. -/
def asked (request : SearchRequest) : Str × Nat := (normalize request.query, request.k)

def encodeAsked (a : Str × Nat) : Str := a.1 ++ bar :: decimal a.2

theorem cacheKey_eq (request : SearchRequest) : cacheKey request = encodeAsked (asked request) := rfl

theorem encodeAsked_injective : Function.Injective encodeAsked := by
  rintro ⟨query, k⟩ ⟨query', k'⟩ h
  obtain ⟨hquery, hk⟩ := append_cons_inj (bar_notMem_decimal _) (bar_notMem_decimal _) h
  rw [Prod.mk.injEq]
  exact ⟨hquery, decimal_injective hk⟩

/-- The different things asked for since the request's own was. -/
def askedSince (request : SearchRequest) (before : List SearchRequest) : List (Str × Nat) :=
  ((before.reverse.map asked).takeWhile fun a => a ≠ asked request).dedup

/-- Asked before, and fewer than `capacity` other things since. -/
def Recent (capacity : Nat) (request : SearchRequest) (before : List SearchRequest) : Prop :=
  asked request ∈ before.map asked ∧ (askedSince request before).length < capacity

instance (capacity : Nat) (request : SearchRequest) (before : List SearchRequest) :
    Decidable (Recent capacity request before) := inferInstanceAs (Decidable (_ ∧ _))

/-- A cache whose keys were touched by these requests in turn. -/
def TouchedBy {Value : Type} (capacity : Nat) (before : List SearchRequest) (c : LruCache Value) : Prop :=
  ∃ trace, Tracks capacity trace c ∧ (touches trace).map Prod.fst = (before.map cacheKey).reverse

theorem since_map_fst {V : Type} (key : Str) (touched : List (Str × V)) :
    (since key touched).map Prod.fst = (touched.map Prod.fst).takeWhile fun k => k ≠ key := by
  rw [List.takeWhile_map]
  rfl

variable {Value : Type} {capacity : Nat} {before : List SearchRequest} {c : LruCache Value}

/-- Such a cache has what was asked recently. -/
theorem lookup_isSome_iff (h : TouchedBy capacity before c) (request : SearchRequest) :
    (c.contents.lookup (cacheKey request)).isSome ↔ Recent capacity request before := by
  obtain ⟨trace, htracks, hkeys⟩ := h
  have hsame : (before.map cacheKey).reverse = (before.reverse.map asked).map encodeAsked := by
    rw [List.map_reverse, List.map_reverse, List.map_map]
    rfl
  have hsince : (touchedSince (cacheKey request) trace).length = (askedSince request before).length := by
    rw [touchedSince, since_map_fst, hkeys, hsame, List.takeWhile_map, askedSince]
    have hpred : (fun k : Str => decide (k ≠ cacheKey request)) ∘ encodeAsked = fun a => decide (a ≠ asked request) := by
      funext a
      rw [Function.comp, cacheKey_eq]
      exact decide_eq_decide.mpr encodeAsked_injective.ne_iff
    rw [hpred, List.dedup_map_of_injective encodeAsked_injective, List.length_map]
  have hput : (lastPut (cacheKey request) trace).isSome ↔ asked request ∈ before.map asked := by
    have hmem : cacheKey request ∈ (touches trace).map Prod.fst ↔ asked request ∈ before.map asked := by
      rw [hkeys, hsame, List.map_reverse, List.map_reverse, List.mem_reverse, cacheKey_eq,
        List.mem_map_of_injective encodeAsked_injective]
    rw [← htracks.lookup_eq, List.lookup_isSome_iff, ← hmem, List.mem_map]
    exact exists_congr fun e => and_congr_right fun _ => by rw [beq_iff_eq, eq_comm]
  rw [htracks.lookup_contents, hsince, Recent]
  split
  · rename_i hfew
    rw [hput]
    exact (and_iff_left hfew).symm
  · rename_i hmany
    exact iff_of_false (by simp) fun h => hmany h.2

theorem touchedBy_empty (capacity : Nat) : TouchedBy capacity [] ({ capacity := capacity } : LruCache Value) :=
  ⟨[], tracks_empty capacity, rfl⟩

/-- A hit touches the key, a miss does not. -/
theorem TouchedBy.get (h : TouchedBy capacity before c) (request : SearchRequest) {result : Option Value}
    {c' : LruCache Value} (hget : c.get (cacheKey request) = some (result, c')) :
    (result.isSome ↔ Recent capacity request before) ∧
      TouchedBy capacity (if result.isSome then before ++ [request] else before) c' := by
  have hrecent := lookup_isSome_iff h request
  obtain ⟨trace, htracks, hkeys⟩ := h
  obtain ⟨c'', hget', htracks'⟩ := htracks.get (cacheKey request)
  rw [hget', Option.some.injEq, Prod.mk.injEq] at hget
  obtain ⟨rfl, rfl⟩ := hget
  refine ⟨hrecent, _, htracks', ?_⟩
  cases hlookup : c.contents.lookup (cacheKey request) with
  | none =>
    rw [touches_miss]
    exact hkeys
  | some value =>
    rw [touches_hit, List.map_cons, hkeys]
    simp

theorem TouchedBy.put (h : TouchedBy capacity before c) (request : SearchRequest) {value : Value} {c' : LruCache Value}
    (hput : c.put (cacheKey request) value = some c') : TouchedBy capacity (before ++ [request]) c' := by
  obtain ⟨trace, htracks, hkeys⟩ := h
  obtain ⟨c'', hput', htracks'⟩ := htracks.put (cacheKey request) value
  rw [hput', Option.some.injEq] at hput
  subst hput
  refine ⟨_, htracks', ?_⟩
  rw [touches_put, List.map_cons, hkeys]
  simp

variable {S ι : Type}

/-- Nothing more of the call is to come. -/
def done (call : SearchService.Call S) : Bool :=
  match call.phase with
  | .finished => true
  | _ => false

/-- The calls that have touched the cache, in order. -/
def settled (s : State S ι 1) : List ι :=
  s.pool.executed ++ (s.pool.workers 0).task.toList.filter fun i => done (s.service.calls i)

variable [DecidableEq ι]

/-- The calls are handled one after the other. -/
structure Serial (cacheCapacity : Nat) (requests : ι → SearchRequest) (s : State S ι 1) : Prop where
  order : s.pool.popped = s.pool.executed ++ (s.pool.workers 0).task.toList
  touched : TouchedBy cacheCapacity ((settled s).map requests) s.service.cache
  missed : ∀ i, (s.service.calls i).phase = .missed → (s.service.calls i).response.cacheHit = false
  hits : ∀ i ∈ s.pool.popped, (s.service.calls i).phase ≠ .arrived →
    ((s.service.calls i).response.cacheHit = true ↔
      Recent cacheCapacity (requests i) ((s.pool.popped.takeWhile fun j => j ≠ i).map requests))

variable {cacheCapacity queueDepth : Nat} {requests : ι → SearchRequest} {s s' : State S ι 1}

theorem takeWhile_append {before after : List ι} {i : ι} (hi : i ∉ before) :
    (before ++ i :: after).takeWhile (fun j => j ≠ i) = before := by
  have hother : ∀ j ∈ before, decide (j ≠ i) = true := fun j hj => decide_eq_true fun heq => hi (heq ▸ hj)
  rw [List.takeWhile_append_of_pos hother, List.takeWhile_cons_of_neg (by simp), List.append_nil]

/-- The calls before one of a list stay the same when others come after it. -/
theorem takeWhile_of_mem {before after : List ι} {i : ι} (hi : i ∈ before) :
    (before ++ after).takeWhile (fun j => j ≠ i) = before.takeWhile fun j => j ≠ i := by
  obtain ⟨front, back, rfl, hfront⟩ := List.eq_append_cons_of_mem hi
  rw [takeWhile_append hfront, List.append_assoc, List.cons_append, takeWhile_append hfront]

namespace Serial

/-- A step that leaves the tasks, the cache and the calls alone. -/
theorem congr (h : Serial cacheCapacity requests s) (hservice : s'.service = s.service)
    (hpopped : s'.pool.popped = s.pool.popped) (hexecuted : s'.pool.executed = s.pool.executed)
    (htask : (s'.pool.workers 0).task = (s.pool.workers 0).task) : Serial cacheCapacity requests s' := by
  refine ⟨?_, ?_, ?_, ?_⟩
  · rw [hpopped, hexecuted, htask]
    exact h.order
  · rw [settled, hservice, hexecuted, htask]
    exact h.touched
  · rw [hservice]
    exact h.missed
  · rw [hservice, hpopped]
    exact h.hits

theorem pop (h : Serial cacheCapacity requests s) (hsound : Sound s) (hfifo : Fifo queueDepth s.pool) {w : Fin 1}
    {pool : Pool ι 1} (hpop : WorkerPool.step s.pool (.pop w) = some pool) {stages : Fin 1 → Stage} :
    Serial cacheCapacity requests { s with pool := pool, stages := stages } := by
  obtain rfl := Subsingleton.elim 0 w
  cases step_cases hpop with
  | @run _ task items hworker hitems =>
    have hqueued : task ∉ s.pool.popped := by
      have haccepted := hsound.nodup
      rw [hfifo.order, hitems] at haccepted
      exact fun hmem => (List.nodup_append.mp haccepted).2.2 task hmem task List.mem_cons_self rfl
    have hnew := (hsound.untouched task hqueued).1
    have hidle : (s.pool.workers 0).task = none := by rw [hworker]; rfl
    have horder := h.order
    have htouched := h.touched
    rw [settled, hidle] at htouched
    rw [hidle] at horder
    refine ⟨?_, ?_, h.missed, fun i hi hphase => ?_⟩
    · simp [Worker.task, horder]
    · simpa [settled, Worker.task, hnew, done] using htouched
    · dsimp only at hi hphase ⊢
      rcases List.mem_append.mp hi with hi | hi
      · rw [takeWhile_of_mem hi]
        exact h.hits i hi hphase
      · cases List.mem_singleton.mp hi
        rw [hnew] at hphase
        exact absurd rfl hphase
  | exit hworker hitems hshutdown =>
    refine h.congr rfl rfl rfl ?_
    rw [hworker]
    dsimp only
    rw [Function.update_self]
    rfl

theorem finish (h : Serial cacheCapacity requests s) (hsound : Sound s) {w : Fin 1} {pool : Pool ι 1}
    (hstage : s.stages w = .fulfilled) (hfinish : WorkerPool.step s.pool (.finish w) = some pool) :
    Serial cacheCapacity requests { s with pool := pool } := by
  obtain rfl := Subsingleton.elim 0 w
  cases step_cases hfinish with
  | @finish _ task hworker =>
    have hheld := hsound.held 0 task hworker
    rw [hstage] at hheld
    have htouched := h.touched
    have horder := h.order
    rw [settled, hworker, Worker.task] at htouched
    rw [hworker, Worker.task] at horder
    refine ⟨?_, ?_, h.missed, h.hits⟩
    · simpa [Worker.task] using horder
    · simpa [settled, Worker.task, hheld.1, done] using htouched

variable [LinearOrder S] [Zero S] [One S] [Neg S] [Add S] {ix : Index S} {algorithm : Algorithm}

/-- A step of `handle_query`, seen at the call it belongs to. -/
theorem part (h : Serial cacheCapacity requests s) (hsound : Sound s) (hfifo : Fifo queueDepth s.pool) {w : Fin 1}
    {part : SearchService.Action ι} {service : Service S ι} (hw : s.pool.workers w = .running (caller part))
    (hservice : HandleQuery ix algorithm requests s.service part service)
    (htouched : TouchedBy cacheCapacity
      ((s.pool.executed ++ [caller part].filter fun i => done (service.calls i)).map requests) service.cache)
    (hmissed : (service.calls (caller part)).phase = .missed →
      (service.calls (caller part)).response.cacheHit = false)
    (hhit : (service.calls (caller part)).response.cacheHit = true ↔
      Recent cacheCapacity (requests (caller part)) (s.pool.executed.map requests)) :
    Serial cacheCapacity requests { s with service := service } := by
  obtain rfl := Subsingleton.elim 0 w
  have horder := h.order
  rw [hw, Worker.task, Option.toList_some] at horder
  refine ⟨h.order, ?_, fun i => ?_, fun i hi hphase => ?_⟩
  · rw [settled, hw, Worker.task]
    exact htouched
  · by_cases hi : i = caller part
    · rw [hi]
      exact hmissed
    · dsimp only
      rw [calls_of_ne hservice hi]
      exact h.missed i
  · dsimp only at hi hphase ⊢
    by_cases hic : i = caller part
    · rw [hic, horder, takeWhile_append (hsound.not_executed hfifo hw)]
      exact hhit
    · rw [calls_of_ne hservice hic] at hphase ⊢
      exact h.hits i hi hphase

theorem handleQuery (h : Serial cacheCapacity requests s) (hsound : Sound s) (hfifo : Fifo queueDepth s.pool) {w : Fin 1}
    {part : SearchService.Action ι} {service : Service S ι} (hw : s.pool.workers w = .running (caller part))
    (hservice : HandleQuery ix algorithm requests s.service part service) :
    Serial cacheCapacity requests { s with service := service } := by
  have hw0 := hw
  obtain rfl := Subsingleton.elim 0 w
  have horder := h.order
  have htouched := h.touched
  rw [hw, Worker.task, Option.toList_some] at horder
  rw [settled, hw, Worker.task, Option.toList_some] at htouched
  have hpopped : caller part ∈ s.pool.popped := by
    rw [horder]
    simp
  have hhits := h.hits _ hpopped
  rw [horder, takeWhile_append (hsound.not_executed hfifo hw)] at hhits
  have hcopy := hservice
  cases hcopy with
  | @get i call cache hphase hlookup =>
    dsimp only [caller] at htouched hhits hw0
    rw [List.filter_cons_of_neg (by simp [done, hphase]), List.filter_nil, List.append_nil] at htouched
    obtain ⟨⟨result, cache'⟩, hget, hcall⟩ := Option.map_eq_some_iff.mp hlookup
    obtain ⟨hrecent, hcache⟩ := htouched.get (requests i) hget
    cases result with
    | none =>
      cases hcall
      refine h.part hsound hfifo hw0 hservice ?_ ?_ ?_
      · simpa [caller, done] using hcache
      · simp [caller]
      · simpa [caller] using hrecent
    | some results =>
      cases hcall
      refine h.part hsound hfifo hw0 hservice ?_ ?_ ?_
      · simpa [caller, done] using hcache
      · simp [caller]
      · simpa [caller] using hrecent
  | @search i results hphase hsearch =>
    dsimp only [caller] at htouched hhits hw0
    rw [List.filter_cons_of_neg (by simp [done, hphase]), List.filter_nil, List.append_nil] at htouched
    have hmiss := hhits (by simp [hphase])
    rw [h.missed i hphase] at hmiss
    refine h.part hsound hfifo hw0 hservice ?_ ?_ ?_
    · simpa [caller, done, fill] using htouched
    · simp [caller, fill]
    · simpa [caller, fill] using hmiss
  | @put i results cache hphase hput =>
    dsimp only [caller] at htouched hhits hw0
    rw [List.filter_cons_of_neg (by simp [done, hphase]), List.filter_nil, List.append_nil] at htouched
    have hcache := htouched.put (requests i) hput
    refine h.part hsound hfifo hw0 hservice ?_ ?_ ?_
    · simpa [caller, done] using hcache
    · simp [caller]
    · simpa [caller] using hhits (by simp [hphase])

theorem step (h : Serial cacheCapacity requests s) (hsound : Sound s) (hfifo : Fifo queueDepth s.pool) {a : Action ι 1}
    (hstep : Steps ix algorithm requests s a s') : Serial cacheCapacity requests s' := by
  cases hstep with
  | trySubmit _ hsubmit =>
    cases step_cases hsubmit with
    | accept | reject => exact h.congr rfl rfl rfl rfl
  | pop hpop => exact h.pop hsound hfifo hpop
  | handleQuery hw _ hservice => exact h.handleQuery hsound hfifo hw hservice
  | finish hstage hfinish => exact h.finish hsound hstage hfinish
  | shutdown hshutdown =>
    cases step_cases hshutdown with
    | shutdown => exact h.congr rfl rfl rfl rfl
  | query | setQueueWait | setValue | ret | tick => exact h.congr rfl rfl rfl rfl

end Serial

section Results

variable [LinearOrder S] [Zero S] [One S] [Neg S] [Add S] {ix : Index S} {algorithm : Algorithm}

theorem serial_of_reachable (h : (server ix algorithm 1 queueDepth cacheCapacity requests).Reachable s) :
    Serial cacheCapacity requests s := by
  induction h with
  | init hinit =>
    cases hinit
    refine ⟨rfl, touchedBy_empty cacheCapacity, fun i hi => ?_, fun i hi => absurd hi List.not_mem_nil⟩
    cases hi
  | step hs hstep ih => exact ih.step (sound_of_reachable hs) (fifo_of_reachable (reachable_pool hs)) hstep

/-- The calls accepted before this one. -/
def acceptedBefore (s : State S ι 1) (i : ι) : List ι := s.pool.accepted.takeWhile fun j => j ≠ i

/-- With one worker a response says `cache_hit` exactly if the same was asked by
a call accepted before, with fewer than `capacity` other things asked since. -/
theorem cacheHit_iff_recent (ix : Index S) (algorithm : Algorithm) (queueDepth cacheCapacity : Nat)
    (requests : ι → SearchRequest) (s : State S ι 1)
    (h : (server ix algorithm 1 queueDepth cacheCapacity requests).Reachable s) (i : ι)
    (hok : s.handlers i = .returned .ok) :
    (s.service.calls i).response.cacheHit = true ↔
      Recent cacheCapacity (requests i) ((acceptedBefore s i).map requests) := by
  have hsound := sound_of_reachable h
  have hfifo := fifo_of_reachable (reachable_pool h)
  have hpopped : i ∈ s.pool.popped := by
    by_contra hi
    exact absurd ((hsound.returned i hok).symm.trans (hsound.untouched i hi).2.1) (by decide)
  have hphase : (s.service.calls i).phase ≠ .arrived := by
    rcases Sound.popped_cases hfifo hpopped with hi | ⟨w, hw⟩
    · simp [(hsound.executed i hi).1]
    · have hheld := hsound.held w i hw
      rw [hsound.settled hfifo hok hw] at hheld
      simp [hheld.1]
  have hbefore : acceptedBefore s i = s.pool.popped.takeWhile fun j => j ≠ i := by
    rw [acceptedBefore, hfifo.order, takeWhile_of_mem hpopped]
  rw [hbefore]
  exact (serial_of_reachable h).hits i hpopped hphase

end Results

/-- The second of two calls for the same finds what the first has stored. -/
theorem cacheHit_iff_recent_fox : ∃ s : State ℚ Bool 1,
    (server foxIndex .wand 1 2 1 foxRequests).Reachable s ∧ acceptedBefore s true = [false] ∧
      ((s.service.calls true).response.cacheHit = true ↔ Recent 1 (foxRequests true) [foxRequests false]) := by
  have hstart : (server foxIndex .wand 1 2 1 foxRequests).Reachable (start ℚ Bool 1 2 1) := .init rfl
  have hcalled := (hstart.step (.query (i := false) rfl)).step (.query (i := true) rfl)
  have hqueued := (hcalled.step (.trySubmit (i := false) rfl rfl)).step (.trySubmit (i := true) rfl rfl)
  have htaken := (hqueued.step (.pop (w := 0) rfl)).step (.setQueueWait (w := 0) (i := false) rfl rfl)
  have hmissed := htaken.step (.handleQuery (w := 0) rfl rfl (.get (i := false) rfl rfl))
  have hsearched := hmissed.step (.handleQuery (w := 0) rfl rfl (.search (i := false) rfl foxIndex_answers))
  have hstored := hsearched.step (.handleQuery (w := 0) rfl rfl (.put (i := false) rfl rfl))
  have hfirst := (hstored.step (.setValue (w := 0) (i := false) rfl rfl rfl)).step (.finish (w := 0) rfl rfl)
  have htaken' := (hfirst.step (.pop (w := 0) rfl)).step (.setQueueWait (w := 0) (i := true) rfl rfl)
  have hhit := htaken'.step (.handleQuery (w := 0) rfl rfl (.get (i := true) rfl rfl))
  have hset := hhit.step (.setValue (w := 0) (i := true) rfl rfl rfl)
  have hreturned := hset.step (.ret (i := true) rfl (by decide))
  exact ⟨_, hreturned, by decide, cacheHit_iff_recent foxIndex .wand 2 1 foxRequests _ hreturned true rfl⟩

end CascadeSearch.Server.Rpc
