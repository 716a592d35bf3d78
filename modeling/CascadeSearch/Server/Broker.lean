import CascadeSearch.Lib.Transition
import Mathlib.Data.List.Sort
import Mathlib.Tactic

/-!
# Fan-out over shards, with and without hedging (`broker.py`)

A call to a shard ends with its results or with an exception. `Broker.dispatch`
takes the answers in shard order whatever the order they arrive in.
`HedgedBroker.dispatch` sends a backup call for every primary that is not done
after the delay, and takes one of the two futures that is done; a step is one
completion, or one step of the dispatching thread.
-/
namespace CascadeSearch.Server.Broker

open Lib.Transition

structure SearchResult (S : Type) where
  docid : Nat
  score : S

structure MergedResult (S : Type) where
  docid : Nat
  score : S
  shardIndex : Nat
deriving DecidableEq

structure MergedResponse (S : Type) where
  results : List (MergedResult S)
  cacheHit : Bool := false
deriving DecidableEq

/-- What a future holds: the results of the response, or the exception. -/
abbrev Answer (S ε : Type) := Except ε (List (SearchResult S))

variable {S ε : Type}

/-- The results tagged with their shard, stably sorted by score, the first `k`. -/
def mergeResponses [LinearOrder S] (responses : List (List (SearchResult S))) (k : Nat) : MergedResponse S :=
  let merged := responses.zipIdx.flatMap fun (response, shardIndex) =>
    response.map fun r => (⟨r.docid, r.score, shardIndex⟩ : MergedResult S)
  { results := (merged.insertionSort fun a b => b.score ≤ a.score).take k }

/-- `Broker.dispatch`: the first exception in shard order propagates. -/
def dispatch [LinearOrder S] (answers : List (Answer S ε)) (k : Nat) : Except ε (MergedResponse S) := do
  let responses ← answers.mapM id
  return mergeResponses responses k

/-- What the two calls to a shard come to when they complete. -/
structure ShardCalls (S ε : Type) where
  primary : Answer S ε
  backup : Answer S ε

/-- Where the dispatching thread stands. -/
inductive Phase (S ε : Type) where
  | waiting
  | submitting (i : Nat) (notDone : Nat → Bool)
  | resolving (i : Nat) (results : List (List (SearchResult S)))
  | finished (outcome : Except ε (MergedResponse S))

structure Hedging (S ε : Type) where
  primaryDone : Nat → Bool := fun _ => false
  backups : Nat → Bool := fun _ => false
  backupDone : Nat → Bool := fun _ => false
  backupCallsSent : Nat := 0
  phase : Phase S ε := .waiting

inductive Action where
  | primaryCompletes (i : Nat)
  | backupCompletes (i : Nat)
  | waitReturns
  | submit (i : Nat)
  | submitted
  | resolvePrimary (i : Nat)
  | resolveBackup (i : Nat)
  | merge
deriving DecidableEq

/-- `results[i] = future.result()`, which may raise. -/
def settle (answer : Answer S ε) (i : Nat) (results : List (List (SearchResult S))) : Phase S ε :=
  match answer with
  | .ok response => .resolving (i + 1) (results ++ [response])
  | .error exc => .finished (.error exc)

/-- `wait` returns when all primaries are done or when the delay is over, which
may be at any time. Of two done futures `next(iter(done))` is either. -/
inductive Step [LinearOrder S] (shards : List (ShardCalls S ε)) (k : Nat) :
    Hedging S ε → Action → Hedging S ε → Prop where
  | primaryCompletes {s : Hedging S ε} {i : Nat} (lt : i < shards.length)
      (running : s.primaryDone i = false) :
      Step shards k s (.primaryCompletes i) { s with primaryDone := Function.update s.primaryDone i true }
  | backupCompletes {s : Hedging S ε} {i : Nat} (lt : i < shards.length) (sent : s.backups i = true)
      (running : s.backupDone i = false) :
      Step shards k s (.backupCompletes i) { s with backupDone := Function.update s.backupDone i true }
  | waitReturns {s : Hedging S ε} (phase : s.phase = .waiting) :
      Step shards k s .waitReturns { s with phase := .submitting 0 fun i => !s.primaryDone i }
  | submit {s : Hedging S ε} {i : Nat} {notDone : Nat → Bool} (phase : s.phase = .submitting i notDone)
      (lt : i < shards.length) :
      Step shards k s (.submit i)
        { s with
          backups := Function.update s.backups i (notDone i)
          backupCallsSent := s.backupCallsSent + if notDone i then 1 else 0
          phase := .submitting (i + 1) notDone }
  | submitted {s : Hedging S ε} {notDone : Nat → Bool}
      (phase : s.phase = .submitting shards.length notDone) :
      Step shards k s .submitted { s with phase := .resolving 0 [] }
  | resolvePrimary {s : Hedging S ε} {i : Nat} {results : List (List (SearchResult S))}
      {calls : ShardCalls S ε} (phase : s.phase = .resolving i results) (shard : shards[i]? = some calls)
      (done : s.primaryDone i = true) :
      Step shards k s (.resolvePrimary i) { s with phase := settle calls.primary i results }
  | resolveBackup {s : Hedging S ε} {i : Nat} {results : List (List (SearchResult S))}
      {calls : ShardCalls S ε} (phase : s.phase = .resolving i results) (shard : shards[i]? = some calls)
      (sent : s.backups i = true) (done : s.backupDone i = true) :
      Step shards k s (.resolveBackup i) { s with phase := settle calls.backup i results }
  | merge {s : Hedging S ε} {results : List (List (SearchResult S))}
      (phase : s.phase = .resolving shards.length results) :
      Step shards k s .merge { s with phase := .finished (.ok (mergeResponses results k)) }

def hedgedDispatch [LinearOrder S] (shards : List (ShardCalls S ε)) (k : Nat) : System (Hedging S ε) Action where
  init s := s = {}
  step := Step shards k

/-- No resolution of the run took a backup call that raised. -/
def NoFailedBackup (shards : List (ShardCalls S ε)) (trace : List Action) : Prop :=
  ∀ i, .resolveBackup i ∈ trace → ∃ calls response, shards[i]? = some calls ∧ calls.backup = .ok response

theorem noFailedBackup_concat {shards : List (ShardCalls S ε)} {trace : List Action}
    {action : Action} (h : ∀ i, action ≠ .resolveBackup i) :
    NoFailedBackup shards (trace ++ [action]) ↔ NoFailedBackup shards trace := by
  have hmem : ∀ i, .resolveBackup i ∈ trace ++ [action] ↔ .resolveBackup i ∈ trace := fun i => by
    rw [List.mem_append, List.mem_singleton]
    exact or_iff_left fun heq => h i heq.symm
  simp only [NoFailedBackup, hmem]

/-- Calls still to complete, or never to be made. -/
def unset (n : Nat) (flag : Nat → Bool) : Nat := ((Finset.range n).filter fun i => flag i = false).card

theorem unset_update_lt {n i : Nat} {flag : Nat → Bool} (hi : i < n) (hflag : flag i = false) :
    unset n (Function.update flag i true) < unset n flag := by
  apply Finset.card_lt_card
  rw [Finset.ssubset_iff_of_subset]
  · refine ⟨i, Finset.mem_filter.mpr ⟨Finset.mem_range.mpr hi, hflag⟩, ?_⟩
    simp
  · intro j hj
    obtain ⟨hj, hunset⟩ := Finset.mem_filter.mp hj
    apply Finset.mem_filter.mpr ⟨hj, ?_⟩
    by_cases hji : j = i
    · rw [hji, Function.update_self] at hunset
      cases hunset
    · rwa [Function.update_of_ne hji] at hunset

/-- Steps of the dispatching thread that are left. -/
def phaseRank (n : Nat) : Phase S ε → Nat
  | .waiting => 2 * n + 3
  | .submitting i _ => n - i + (n + 2)
  | .resolving i _ => n - i + 1
  | .finished _ => 0

def variant (n : Nat) (s : Hedging S ε) : Nat :=
  unset n s.primaryDone + unset n s.backupDone + phaseRank n s.phase

theorem rank_settle_lt {answer : Answer S ε} {i n : Nat} {results : List (List (SearchResult S))}
    (h : i < n) : phaseRank n (settle answer i results) < n - i + 1 := by
  cases answer with
  | ok response =>
    change n - (i + 1) + 1 < n - i + 1
    omega
  | error exc =>
    change 0 < n - i + 1
    omega

variable [LinearOrder S] {shards : List (ShardCalls S ε)} {k : Nat} {trace : List Action}
  {s s' : Hedging S ε}

/-- Every completion and every step of the thread brings the run closer to its end. -/
theorem variant_step {action : Action} (h : Step shards k s action s') :
    variant shards.length s' < variant shards.length s := by
  cases h with
  | primaryCompletes hlt hrunning =>
    have hless := unset_update_lt hlt hrunning
    exact Nat.add_lt_add_right (Nat.add_lt_add_right hless _) _
  | backupCompletes hlt hsent hrunning =>
    have hless := unset_update_lt hlt hrunning
    exact Nat.add_lt_add_right (Nat.add_lt_add_left hless _) _
  | waitReturns hphase =>
    apply Nat.add_lt_add_left
    rw [hphase]
    change shards.length - 0 + (shards.length + 2) < 2 * shards.length + 3
    omega
  | @submit i notDone hphase hlt =>
    apply Nat.add_lt_add_left
    rw [hphase]
    change shards.length - (i + 1) + (shards.length + 2) < shards.length - i + (shards.length + 2)
    omega
  | submitted hphase =>
    apply Nat.add_lt_add_left
    rw [hphase]
    change shards.length - 0 + 1 < shards.length - shards.length + (shards.length + 2)
    omega
  | resolvePrimary hphase hshard hdone =>
    apply Nat.add_lt_add_left
    rw [hphase]
    exact rank_settle_lt (List.getElem?_eq_some_iff.mp hshard).1
  | resolveBackup hphase hshard hsent hdone =>
    apply Nat.add_lt_add_left
    rw [hphase]
    exact rank_settle_lt (List.getElem?_eq_some_iff.mp hshard).1
  | merge hphase =>
    apply Nat.add_lt_add_left
    rw [hphase]
    exact Nat.succ_pos _

/-- The loop indices stay within the list of shards. -/
def InRange (n : Nat) : Phase S ε → Prop
  | .submitting i _ | .resolving i _ => i ≤ n
  | .waiting | .finished _ => True

theorem inRange_step {action : Action} (hr : InRange shards.length s.phase)
    (h : Step shards k s action s') : InRange shards.length s'.phase := by
  have hsettle : ∀ {answer : Answer S ε} {i results}, i < shards.length →
      InRange shards.length (settle answer i results) := by
    intro answer i results hlt
    cases answer with
    | ok response => exact hlt
    | error exc => trivial
  cases h with
  | primaryCompletes hlt hrunning => exact hr
  | backupCompletes hlt hsent hrunning => exact hr
  | waitReturns hphase => exact Nat.zero_le _
  | submit hphase hlt => exact hlt
  | submitted hphase => exact Nat.zero_le _
  | resolvePrimary hphase hshard hdone => exact hsettle (List.getElem?_eq_some_iff.mp hshard).1
  | resolveBackup hphase hshard hsent hdone => exact hsettle (List.getElem?_eq_some_iff.mp hshard).1
  | merge hphase => trivial

/-- Until the dispatch has returned, some call completes or the thread moves on. -/
theorem not_stuck (hr : InRange shards.length s.phase) (hrun : ∀ outcome, s.phase ≠ .finished outcome) :
    ∃ action s', Step shards k s action s' := by
  cases hphase : s.phase with
  | waiting => exact ⟨_, _, .waitReturns hphase⟩
  | submitting i notDone =>
    rw [hphase] at hr
    rcases Nat.lt_or_eq_of_le hr with hlt | rfl
    · exact ⟨_, _, .submit hphase hlt⟩
    · exact ⟨_, _, .submitted hphase⟩
  | resolving i results =>
    rw [hphase] at hr
    rcases Nat.lt_or_eq_of_le hr with hlt | rfl
    · cases hdone : s.primaryDone i with
      | false => exact ⟨_, _, .primaryCompletes hlt hdone⟩
      | true => exact ⟨_, _, .resolvePrimary hphase (List.getElem?_eq_getElem hlt) hdone⟩
    · exact ⟨_, _, .merge hphase⟩
  | finished outcome => exact absurd hphase (hrun outcome)

/-- Up to the first failed backup, the results are the primaries' own. -/
def Agrees (shards : List (ShardCalls S ε)) (k : Nat) (trace : List Action) : Phase S ε → Prop
  | .waiting | .submitting _ _ => NoFailedBackup shards trace
  | .resolving i results =>
      NoFailedBackup shards trace ∧ results.map Except.ok = (shards.take i).map ShardCalls.primary
  | .finished outcome =>
      outcome = dispatch (shards.map ShardCalls.primary) k ↔ NoFailedBackup shards trace

theorem dispatch_ok {responses : List (List (SearchResult S))} {answers : List (Answer S ε)}
    (h : responses.map Except.ok = answers) : dispatch answers k = .ok (mergeResponses responses k) := by
  have hmap : List.mapM (m := Except ε) id answers = .ok responses := by
    rw [← h]
    clear h
    induction responses with
    | nil => rfl
    | cons response responses ih =>
      rw [List.map_cons, List.mapM_cons, ih]
      rfl
  rw [dispatch, hmap]
  rfl

theorem dispatch_returns (hprimary : ∀ calls ∈ shards, ∃ response, calls.primary = .ok response) (k : Nat) :
    ∃ merged, dispatch (shards.map ShardCalls.primary) k = .ok merged := by
  have hall : ∃ responses : List (List (SearchResult S)),
      responses.map Except.ok = shards.map ShardCalls.primary := by
    induction shards with
    | nil => exact ⟨[], rfl⟩
    | cons calls shards ih =>
      obtain ⟨response, hok⟩ := hprimary calls List.mem_cons_self
      obtain ⟨responses, hresponses⟩ := ih fun c hc => hprimary c (List.mem_cons_of_mem _ hc)
      exact ⟨response :: responses, by rw [List.map_cons, List.map_cons, hok, hresponses]⟩
  obtain ⟨responses, hresponses⟩ := hall
  exact ⟨_, dispatch_ok hresponses⟩

omit [LinearOrder S] in
/-- One more primary answer is gathered. -/
theorem gather_next {i : Nat} {calls : ShardCalls S ε} {results : List (List (SearchResult S))}
    {response : List (SearchResult S)} (hshard : shards[i]? = some calls) (hok : calls.primary = .ok response)
    (hresults : results.map Except.ok = (shards.take i).map ShardCalls.primary) :
    (results ++ [response]).map Except.ok = (shards.take (i + 1)).map ShardCalls.primary := by
  rw [List.map_append, hresults, List.take_add_one, hshard, List.map_append]
  change _ ++ [Except.ok response] = _ ++ [calls.primary]
  rw [hok]

/-- Steps that resolve no backup decide nothing. -/
theorem Agrees.quiet {action : Action} {phase : Phase S ε} (hne : ∀ i, action ≠ .resolveBackup i)
    (h : Agrees shards k trace phase) : Agrees shards k (trace ++ [action]) phase := by
  cases phase with
  | waiting => exact (noFailedBackup_concat hne).mpr h
  | submitting i notDone => exact (noFailedBackup_concat hne).mpr h
  | resolving i results => exact ⟨(noFailedBackup_concat hne).mpr h.1, h.2⟩
  | finished outcome => exact Iff.trans h (noFailedBackup_concat hne).symm

omit [LinearOrder S] in
/-- A backup that answers has not failed. -/
theorem noFailedBackup_ok {i : Nat} {calls : ShardCalls S ε} {response : List (SearchResult S)}
    (h : NoFailedBackup shards trace) (hshard : shards[i]? = some calls) (hbackup : calls.backup = .ok response) :
    NoFailedBackup shards (trace ++ [.resolveBackup i]) := by
  intro j hj
  rcases List.mem_append.mp hj with hj | hj
  · exact h j hj
  · obtain rfl : j = i := by
      cases List.mem_singleton.mp hj
      rfl
    exact ⟨calls, response, hshard, hbackup⟩

omit [LinearOrder S] in
theorem not_noFailedBackup {i : Nat} {calls : ShardCalls S ε} {exc : ε} (hshard : shards[i]? = some calls)
    (hbackup : calls.backup = .error exc) : ¬ NoFailedBackup shards (trace ++ [.resolveBackup i]) := by
  intro hnone
  obtain ⟨calls', response, hshard', hbackup'⟩ := hnone i (List.mem_append_right _ (List.mem_singleton_self _))
  rw [hshard] at hshard'
  cases hshard'
  rw [hbackup] at hbackup'
  cases hbackup'

theorem agrees_step (hprimary : ∀ calls ∈ shards, ∃ response, calls.primary = .ok response)
    (hreplica : ∀ calls ∈ shards, ∀ response, calls.backup = .ok response → calls.primary = .ok response)
    (ha : Agrees shards k trace s.phase) {action : Action} (h : Step shards k s action s') :
    Agrees shards k (trace ++ [action]) s'.phase := by
  cases h with
  | primaryCompletes hlt hrunning => exact ha.quiet (by intro i h; cases h)
  | backupCompletes hlt hsent hrunning => exact ha.quiet (by intro i h; cases h)
  | waitReturns hphase =>
    rw [hphase] at ha
    exact (noFailedBackup_concat (by intro i h; cases h)).mpr ha
  | submit hphase hlt =>
    rw [hphase] at ha
    exact (noFailedBackup_concat (by intro i h; cases h)).mpr ha
  | submitted hphase =>
    rw [hphase] at ha
    exact ⟨(noFailedBackup_concat (by intro i h; cases h)).mpr ha, rfl⟩
  | @resolvePrimary i results calls hphase hshard hdone =>
    rw [hphase] at ha
    obtain ⟨response, hok⟩ := hprimary calls (List.mem_of_getElem? hshard)
    dsimp only
    rw [hok]
    exact ⟨(noFailedBackup_concat (by intro i h; cases h)).mpr ha.1, gather_next hshard hok ha.2⟩
  | @resolveBackup i results calls hphase hshard hsent hdone =>
    rw [hphase] at ha
    dsimp only
    cases hbackup : calls.backup with
    | ok response =>
      have hok := hreplica calls (List.mem_of_getElem? hshard) response hbackup
      exact ⟨noFailedBackup_ok ha.1 hshard hbackup, gather_next hshard hok ha.2⟩
    | error exc =>
      -- The exception propagates, although no primary raises.
      have hraises : Except.error exc ≠ dispatch (shards.map ShardCalls.primary) k := by
        obtain ⟨merged, hmerged⟩ := dispatch_returns hprimary k
        rw [hmerged]
        intro h
        cases h
      exact iff_of_false hraises (not_noFailedBackup hshard hbackup)
  | merge hphase =>
    rw [hphase] at ha
    have hall := ha.2
    rw [List.take_length] at hall
    exact iff_of_true (dispatch_ok hall).symm ((noFailedBackup_concat (by intro i h; cases h)).mpr ha.1)

theorem run_step {action : Action} (hrun : (hedgedDispatch shards k).Run trace s)
    (h : Step shards k s action s') : (hedgedDispatch shards k).Run (trace ++ [action]) s' :=
  .step hrun h

theorem trace_length_le (h : (hedgedDispatch shards k).Run trace s) :
    trace.length + variant shards.length s ≤ 4 * shards.length + 3 := by
  refine h.invariant (fun trace s => trace.length + variant shards.length s ≤ 4 * shards.length + 3) ?_ ?_
  · rintro s rfl
    have hunset : unset shards.length (fun _ => false) ≤ shards.length :=
      (Finset.card_filter_le _ _).trans_eq (Finset.card_range _)
    change 0 + (unset shards.length (fun _ => false) + unset shards.length (fun _ => false)
      + (2 * shards.length + 3)) ≤ _
    omega
  · intro trace s action s' hle hstep
    have hless := variant_step hstep
    rw [List.length_append, List.length_singleton]
    omega

theorem run_inRange (h : (hedgedDispatch shards k).Run trace s) : InRange shards.length s.phase := by
  apply h.invariant fun _ s => InRange shards.length s.phase
  · rintro s rfl
    trivial
  · exact fun trace s action s' hr hstep => inRange_step hr hstep

theorem run_agrees (hprimary : ∀ calls ∈ shards, ∃ response, calls.primary = .ok response)
    (hreplica : ∀ calls ∈ shards, ∀ response, calls.backup = .ok response → calls.primary = .ok response)
    (h : (hedgedDispatch shards k).Run trace s) : Agrees shards k trace s.phase := by
  apply h.invariant fun trace s => Agrees shards k trace s.phase
  · rintro s rfl i hi
    cases hi
  · exact fun trace s action s' ha hstep => agrees_step hprimary hreplica ha hstep

/-- With primaries that all succeed, a run of the hedged dispatch ends, and it
ends with the plain broker's response unless it picked a backup that raised. -/
theorem hedged_eq_plain_iff (hprimary : ∀ calls ∈ shards, ∃ response, calls.primary = .ok response)
    (hreplica : ∀ calls ∈ shards, ∀ response, calls.backup = .ok response → calls.primary = .ok response)
    (hrun : (hedgedDispatch shards k).Run trace s) :
    (∀ outcome, s.phase = .finished outcome →
      (outcome = dispatch (shards.map ShardCalls.primary) k ↔ NoFailedBackup shards trace)) ∧
    trace.length ≤ 4 * shards.length + 3 ∧
    ((∀ outcome, s.phase ≠ .finished outcome) →
      ∃ action s', (hedgedDispatch shards k).step s action s') := by
  refine ⟨?_, (Nat.le_add_right _ _).trans (trace_length_le hrun), not_stuck (run_inRange hrun)⟩
  intro outcome hphase
  have hagrees := run_agrees hprimary hreplica hrun
  rw [hphase] at hagrees
  exact hagrees

/-- One shard, hedged: the backup completes first and is taken. -/
theorem backup_taken (calls : ShardCalls S ε) (k : Nat) :
    ∃ s, (hedgedDispatch [calls] k).Run
        [.waitReturns, .submit 0, .submitted, .backupCompletes 0, .resolveBackup 0] s ∧
      s.phase = settle calls.backup 0 [] := by
  have hrun : (hedgedDispatch [calls] k).Run [] {} := .init rfl
  have hsubmitting := run_step hrun (.waitReturns rfl)
  have hsubmitted := run_step (run_step hsubmitting (.submit (i := 0) rfl Nat.one_pos)) (.submitted rfl)
  have hdone := run_step hsubmitted (.backupCompletes (i := 0) Nat.one_pos rfl rfl)
  exact ⟨_, run_step hdone (.resolveBackup (i := 0) rfl rfl rfl rfl), rfl⟩

/-- A shard that answers, and whose replica sheds the backup call. -/
def shedByReplica : ShardCalls Nat String := ⟨.ok [⟨4, 2⟩], .error "RESOURCE_EXHAUSTED"⟩

/-- The delay passes, the backup raises, and so does the dispatch. -/
theorem raising_backup_propagates :
    (∃ trace s, (hedgedDispatch [shedByReplica] 10).Run trace s ∧
      s.phase = .finished (.error "RESOURCE_EXHAUSTED")) ∧
    (∀ calls ∈ [shedByReplica], ∃ response, calls.primary = .ok response) ∧
    (∀ calls ∈ [shedByReplica], ∀ response, calls.backup = .ok response → calls.primary = .ok response) ∧
    dispatch ([shedByReplica].map ShardCalls.primary) 10 = .ok ⟨[⟨4, 2, 0⟩], false⟩ := by
  obtain ⟨s, hrun, hphase⟩ := backup_taken shedByReplica 10
  refine ⟨⟨_, s, hrun, hphase⟩, ?_, ?_, rfl⟩
  · intro calls hcalls
    rw [List.mem_singleton.mp hcalls]
    exact ⟨_, rfl⟩
  · intro calls hcalls response hbackup
    rw [List.mem_singleton.mp hcalls] at hbackup
    cases hbackup

/-- A shard whose two calls succeed. -/
def bothAnswer : ShardCalls Nat String := ⟨.ok [⟨4, 2⟩], .ok [⟨4, 2⟩]⟩

theorem hedged_eq_plain_iff_bothAnswer :
    ∃ trace s, (hedgedDispatch [bothAnswer] 10).Run trace s ∧
      s.phase = .finished (.ok ⟨[⟨4, 2, 0⟩], false⟩) ∧
      (Except.ok ⟨[⟨4, 2, 0⟩], false⟩ = dispatch ([bothAnswer].map ShardCalls.primary) 10 ↔
        NoFailedBackup [bothAnswer] trace) := by
  obtain ⟨s, hrun, hphase⟩ := backup_taken bothAnswer 10
  have hmerged := run_step hrun (.merge hphase)
  refine ⟨_, _, hmerged, rfl, ?_⟩
  refine (hedged_eq_plain_iff ?_ ?_ hmerged).1 _ rfl
  · intro calls hcalls
    rw [List.mem_singleton.mp hcalls]
    exact ⟨_, rfl⟩
  · intro calls hcalls response hbackup
    rw [List.mem_singleton.mp hcalls] at hbackup ⊢
    exact hbackup

end CascadeSearch.Server.Broker
