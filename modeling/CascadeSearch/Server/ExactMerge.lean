import CascadeSearch.Lib.StableSort
import CascadeSearch.Server.Broker

/-!
# Merging truncated answers is exact (`broker.py`)

A shard answers with the first `k` of a list it holds sorted. Whatever the order
in which the calls finish, a response is the head of the sorted whole: an
element cut from a shard's list has `k` elements of that shard above it.
-/
namespace CascadeSearch.Server.ExactMerge

open Lib.StableSort Lib.Transition
open Broker

variable {S ε : Type}

def Descending [LinearOrder S] (l : List (SearchResult S)) : Prop := l.Pairwise fun a b => b.score ≤ a.score

/-- A call ends with the first `k` results of its shard, or with an exception. -/
def AnswersWith (k : Nat) (answer : Answer S ε) (l : List (SearchResult S)) : Prop :=
  answer = .ok (l.take k) ∨ ∃ exc, answer = .error exc

theorem responses_eq {full responses : List (List (SearchResult S))}
    {answers : List (Answer S ε)} {k : Nat} (h : List.Forall₂ (AnswersWith k) answers full) (hall : responses.map Except.ok = answers) :
    responses = full.map (List.take k) := by
  induction h generalizing responses with
  | nil => exact List.map_eq_nil_iff.mp hall
  | @cons answer l answers full hanswer _ ih =>
    cases responses with
    | nil => cases hall
    | cons response responses =>
      rw [List.map_cons, List.cons.injEq] at hall
      obtain ⟨rfl, hrest⟩ := hall
      rcases hanswer with hok | ⟨exc, herror⟩
      · cases hok
        rw [ih hrest, List.map_cons]
      · cases herror

def tag (shardIndex : Nat) (r : SearchResult S) : MergedResult S := ⟨r.docid, r.score, shardIndex⟩

/-- Asking every shard for `k` results loses nothing of the first `k` merged. -/
theorem mergeResponses_take [LinearOrder S] {full : List (List (SearchResult S))} (h : ∀ l ∈ full, Descending l)
    (k : Nat) : mergeResponses (full.map (List.take k)) k = mergeResponses full k := by
  have htagged : ∀ lists : List (List (SearchResult S)), mergeResponses lists k =
      { results := ((lists.mapIdx fun i l => l.map (tag i)).flatten.insertionSort
          fun a b => b.score ≤ a.score).take k } := by
    intro lists
    rw [mergeResponses, List.mapIdx_eq_zipIdx_map, List.flatMap_def]
    rfl
  have hcut : List.Forall₂ (CutAt (fun a b : MergedResult S => b.score ≤ a.score) k)
      (full.mapIdx fun i l => l.map (tag i)) ((full.map (List.take k)).mapIdx fun i l => l.map (tag i)) := by
    apply List.forall₂_iff_get.mpr
    refine ⟨by simp, fun i hi hi' => ?_⟩
    have hlt : i < full.length := by simpa using hi
    have hpair : (full[i].map (tag i)).Pairwise fun a b => b.score ≤ a.score :=
      List.pairwise_map.mpr (h full[i] (List.getElem_mem hlt))
    simp only [List.get_eq_getElem, List.getElem_mapIdx, List.getElem_map, List.map_take]
    exact cutAt_take hpair k
  rw [htagged, htagged, take_insertionSort_flatten hcut]

structure Gathering (S ε : Type) where
  done : Nat → Bool := fun _ => false
  phase : Phase S ε := .resolving 0 []

inductive PlainAction where
  | completes (i : Nat)
  | resolve (i : Nat)
  | merge

/-- `future.result()` waits for the call of its shard, whichever others are done. -/
inductive PlainStep [LinearOrder S] (answers : List (Answer S ε)) (k : Nat) :
    Gathering S ε → PlainAction → Gathering S ε → Prop where
  | completes {s : Gathering S ε} {i : Nat} (lt : i < answers.length) (running : s.done i = false) :
      PlainStep answers k s (.completes i) { s with done := Function.update s.done i true }
  | resolve {s : Gathering S ε} {i : Nat} {results : List (List (SearchResult S))} {answer : Answer S ε}
      (phase : s.phase = .resolving i results) (shard : answers[i]? = some answer) (done : s.done i = true) :
      PlainStep answers k s (.resolve i) { s with phase := settle answer i results }
  | merge {s : Gathering S ε} {results : List (List (SearchResult S))}
      (phase : s.phase = .resolving answers.length results) :
      PlainStep answers k s .merge { s with phase := .finished (.ok (mergeResponses results k)) }

def plainDispatch [LinearOrder S] (answers : List (Answer S ε)) (k : Nat) : System (Gathering S ε) PlainAction where
  init s := s = {}
  step := PlainStep answers k

variable [LinearOrder S] {answers : List (Answer S ε)} {k : Nat}

/-- What the thread has gathered, and what it may return. -/
def Gathered (answers : List (Answer S ε)) (k : Nat) : Phase S ε → Prop
  | .resolving i results => i ≤ answers.length ∧ results.map Except.ok = answers.take i
  | .finished outcome =>
      (∃ responses, responses.map Except.ok = answers ∧ outcome = .ok (mergeResponses responses k)) ∨
        ∃ exc, .error exc ∈ answers ∧ outcome = .error exc
  | .waiting | .submitting _ _ => False

theorem gathered_step {s s' : Gathering S ε} {action : PlainAction} (hg : Gathered answers k s.phase)
    (h : PlainStep answers k s action s') : Gathered answers k s'.phase := by
  cases h with
  | completes hlt hrunning => exact hg
  | @resolve i results answer hphase hshard hdone =>
    rw [hphase] at hg
    obtain ⟨hlt, hget⟩ := List.getElem?_eq_some_iff.mp hshard
    cases answer with
    | ok response =>
      refine ⟨hlt, ?_⟩
      rw [List.map_append, hg.2, List.take_add_one, hshard]
      rfl
    | error exc => exact Or.inr ⟨exc, List.mem_of_getElem? hshard, rfl⟩
  | @merge results hphase =>
    rw [hphase] at hg
    refine Or.inl ⟨results, ?_, rfl⟩
    rw [hg.2, List.take_length]

/-- Calls still to complete and steps of the thread that are left. -/
def remainingSteps (n : Nat) (s : Gathering S ε) : Nat := unset n s.done + phaseRank n s.phase

theorem remainingSteps_step {s s' : Gathering S ε} {action : PlainAction} (h : PlainStep answers k s action s') :
    remainingSteps answers.length s' < remainingSteps answers.length s := by
  cases h with
  | completes hlt hrunning => exact Nat.add_lt_add_right (unset_update_lt hlt hrunning) _
  | resolve hphase hshard hdone =>
    apply Nat.add_lt_add_left
    rw [hphase]
    exact rank_settle_lt (List.getElem?_eq_some_iff.mp hshard).1
  | merge hphase =>
    apply Nat.add_lt_add_left
    rw [hphase]
    exact Nat.succ_pos _

theorem plain_run_step {trace : List PlainAction} {s s' : Gathering S ε} {action : PlainAction}
    (hrun : (plainDispatch answers k).Run trace s) (h : PlainStep answers k s action s') :
    (plainDispatch answers k).Run (trace ++ [action]) s' := .step hrun h

theorem run_gathered {trace : List PlainAction} {s : Gathering S ε} (h : (plainDispatch answers k).Run trace s) :
    Gathered answers k s.phase := by
  apply h.invariant fun _ s => Gathered answers k s.phase
  · rintro s rfl
    exact ⟨Nat.zero_le _, rfl⟩
  · exact fun trace s action s' hg hstep => gathered_step hg hstep

theorem plain_length_le {trace : List PlainAction} {s : Gathering S ε} (h : (plainDispatch answers k).Run trace s) :
    trace.length ≤ 2 * answers.length + 1 := by
  have hle : trace.length + remainingSteps answers.length s ≤ 2 * answers.length + 1 := by
    refine h.invariant (fun trace s => trace.length + remainingSteps answers.length s ≤ 2 * answers.length + 1) ?_ ?_
    · rintro s rfl
      have hunset : unset answers.length (fun _ => false) ≤ answers.length :=
        (Finset.card_filter_le _ _).trans_eq (Finset.card_range _)
      change 0 + (unset answers.length (fun _ => false) + (answers.length - 0 + 1)) ≤ _
      omega
    · intro trace s action s' hle hstep
      have hless := remainingSteps_step hstep
      rw [List.length_append, List.length_singleton]
      omega
  omega

theorem plain_not_stuck {s : Gathering S ε} (hg : Gathered answers k s.phase)
    (hrun : ∀ outcome, s.phase ≠ .finished outcome) : ∃ action s', PlainStep answers k s action s' := by
  cases hphase : s.phase with
  | waiting =>
    rw [hphase] at hg
    exact hg.elim
  | submitting i notDone =>
    rw [hphase] at hg
    exact hg.elim
  | resolving i results =>
    rw [hphase] at hg
    rcases Nat.lt_or_eq_of_le hg.1 with hlt | rfl
    · cases hdone : s.done i with
      | false => exact ⟨_, _, .completes hlt hdone⟩
      | true => exact ⟨_, _, .resolve hphase (List.getElem?_eq_getElem hlt) hdone⟩
    · exact ⟨_, _, .merge hphase⟩
  | finished outcome => exact absurd hphase (hrun outcome)

/-- The calls whose results the run took answered as their shards do. -/
def WinnersAnswer (shards : List (ShardCalls S ε)) (full : List (List (SearchResult S))) (k : Nat)
    (trace : List Action) : Prop :=
  ∀ i calls l, shards[i]? = some calls → full[i]? = some l →
    (.resolvePrimary i ∈ trace → calls.primary = .ok (l.take k)) ∧
      (.resolveBackup i ∈ trace → calls.backup = .ok (l.take k))

/-- The results the hedged dispatch holds are those of the shards. -/
def Resolved (full : List (List (SearchResult S))) (k : Nat) : Phase S ε → Prop
  | .waiting | .submitting _ _ => True
  | .resolving i results => results = (full.map (List.take k)).take i
  | .finished outcome => outcome = .ok (mergeResponses (full.map (List.take k)) k)

theorem resolved_settle {full : List (List (SearchResult S))} {i : Nat} {l : List (SearchResult S)}
    {results : List (List (SearchResult S))} (hl : full[i]? = some l)
    (hresults : results = (full.map (List.take k)).take i) :
    Resolved (ε := ε) full k (settle (.ok (l.take k)) i results) := by
  change results ++ [l.take k] = _
  rw [List.take_add_one, List.getElem?_map, hl, hresults]
  rfl

theorem resolved_step {shards : List (ShardCalls S ε)} {full : List (List (SearchResult S))}
    (hlen : shards.length = full.length) {trace : List Action} {s s' : Hedging S ε} {action : Action}
    (hwin : WinnersAnswer shards full k (trace ++ [action])) (hr : Resolved full k s.phase)
    (h : Step shards k s action s') : Resolved full k s'.phase := by
  have hlast : ∀ a : Action, a ∈ trace ++ [a] := fun a => List.mem_append_right _ (List.mem_singleton_self a)
  have hshards : ∀ {i : Nat} {calls}, shards[i]? = some calls → ∃ l, full[i]? = some l := by
    intro i calls hshard
    have hlt := (List.getElem?_eq_some_iff.mp hshard).1
    exact ⟨_, List.getElem?_eq_getElem (hlen ▸ hlt)⟩
  cases h with
  | primaryCompletes hlt hrunning => exact hr
  | backupCompletes hlt hsent hrunning => exact hr
  | waitReturns hphase => trivial
  | submit hphase hlt => trivial
  | submitted hphase => rfl
  | @resolvePrimary i results calls hphase hshard hdone =>
    rw [hphase] at hr
    obtain ⟨l, hl⟩ := hshards hshard
    dsimp only
    rw [(hwin i calls l hshard hl).1 (hlast _)]
    exact resolved_settle hl hr
  | @resolveBackup i results calls hphase hshard hsent hdone =>
    rw [hphase] at hr
    obtain ⟨l, hl⟩ := hshards hshard
    dsimp only
    rw [(hwin i calls l hshard hl).2 (hlast _)]
    exact resolved_settle hl hr
  | @merge results hphase =>
    rw [hphase] at hr
    have hall : results = full.map (List.take k) := by
      rw [show results = (full.map (List.take k)).take shards.length from hr]
      exact List.take_of_length_le (by rw [List.length_map, hlen])
    exact congrArg (fun r => Except.ok (mergeResponses r k)) hall

theorem run_resolved {shards : List (ShardCalls S ε)} {full : List (List (SearchResult S))}
    (hlen : shards.length = full.length) {trace : List Action} {s : Hedging S ε}
    (h : (hedgedDispatch shards k).Run trace s) (hwin : WinnersAnswer shards full k trace) :
    Resolved full k s.phase := by
  refine h.invariant (fun trace s => WinnersAnswer shards full k trace → Resolved full k s.phase) ?_ ?_ hwin
  · rintro s rfl hwin
    trivial
  · intro trace s action s' ih hstep hwin
    apply resolved_step hlen hwin _ hstep
    apply ih
    intro i calls l hshard hl
    obtain ⟨hprimary, hbackup⟩ := hwin i calls l hshard hl
    exact ⟨fun hmem => hprimary (List.mem_append_left _ hmem), fun hmem => hbackup (List.mem_append_left _ hmem)⟩

/-- A response is the head of the sorted whole, whatever the order of the
completions and whichever call wins; without all shards there is none. -/
theorem merge_exact {full : List (List (SearchResult S))} (hsorted : ∀ l ∈ full, Descending l) (k : Nat) :
    (∀ answers : List (Answer S ε), List.Forall₂ (AnswersWith k) answers full →
      ∀ trace s, (plainDispatch answers k).Run trace s →
        (∀ outcome, s.phase = .finished outcome →
          ((∀ answer ∈ answers, ∃ response, answer = .ok response) ∧ outcome = .ok (mergeResponses full k)) ∨
            ∃ exc, .error exc ∈ answers ∧ outcome = .error exc) ∧
        trace.length ≤ 2 * answers.length + 1 ∧
        ((∀ outcome, s.phase ≠ .finished outcome) → ∃ action s', (plainDispatch answers k).step s action s')) ∧
    ∀ shards : List (ShardCalls S ε), shards.length = full.length →
      ∀ trace s, (hedgedDispatch shards k).Run trace s → WinnersAnswer shards full k trace →
        (∀ outcome, s.phase = .finished outcome → outcome = .ok (mergeResponses full k)) ∧
        trace.length ≤ 4 * shards.length + 3 ∧
        ((∀ outcome, s.phase ≠ .finished outcome) → ∃ action s', (hedgedDispatch shards k).step s action s') := by
  constructor
  · intro answers hanswers trace s hrun
    have hg := run_gathered hrun
    refine ⟨?_, plain_length_le hrun, plain_not_stuck hg⟩
    intro outcome hphase
    rw [hphase] at hg
    rcases hg with ⟨responses, hall, rfl⟩ | herror
    · refine Or.inl ⟨fun answer hanswer => ?_, ?_⟩
      · rw [← hall] at hanswer
        obtain ⟨response, -, rfl⟩ := List.mem_map.mp hanswer
        exact ⟨response, rfl⟩
      · rw [responses_eq hanswers hall, mergeResponses_take hsorted]
    · exact Or.inr herror
  · intro shards hlen trace s hrun hwin
    have hr := run_resolved hlen hrun hwin
    refine ⟨?_, (Nat.le_add_right _ _).trans (trace_length_le hrun), not_stuck (run_inRange hrun)⟩
    intro outcome hphase
    rw [hphase] at hr
    rw [← mergeResponses_take hsorted]
    exact hr

/-- Two shards with equal scores; the second call finishes first. -/
theorem merge_exact_tied :
    ∃ trace s, (plainDispatch [(.ok [⟨3, 2⟩] : Answer Nat String), .ok [⟨4, 2⟩]] 1).Run trace s ∧
      s.phase = .finished (.ok ⟨[⟨3, 2, 0⟩], false⟩) := by
  have hstart : (plainDispatch [(.ok [⟨3, 2⟩] : Answer Nat String), .ok [⟨4, 2⟩]] 1).Run [] {} := .init rfl
  have hsecond := plain_run_step hstart (.completes (i := 1) (by decide) rfl)
  have hfirst := plain_run_step hsecond (.completes (i := 0) (by decide) rfl)
  have hresolved := plain_run_step (plain_run_step hfirst (.resolve (i := 0) rfl rfl rfl)) (.resolve (i := 1) rfl rfl rfl)
  have hmerged := plain_run_step hresolved (.merge rfl)
  have hanswers : List.Forall₂ (AnswersWith 1) [(.ok [⟨3, 2⟩] : Answer Nat String), .ok [⟨4, 2⟩]]
      [[⟨3, 2⟩, ⟨9, 1⟩], [⟨4, 2⟩]] := .cons (.inl rfl) (.cons (.inl rfl) .nil)
  have hsorted : ∀ l ∈ [[(⟨3, 2⟩ : SearchResult Nat), ⟨9, 1⟩], [⟨4, 2⟩]], Descending l := by
    simp [Descending]
  refine ⟨_, _, hmerged, ?_⟩
  rcases ((merge_exact hsorted 1).1 _ hanswers _ _ hmerged).1 _ rfl with ⟨-, hok⟩ | ⟨exc, hmem, -⟩
  · rw [hok]
    rfl
  · simp at hmem

end CascadeSearch.Server.ExactMerge
