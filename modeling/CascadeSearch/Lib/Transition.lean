import Mathlib.Logic.Relation
import Mathlib.Order.RelClasses
import Mathlib.Tactic.Common

/-!
# Labelled transition systems

The states a system can be in, whatever the order of its steps, and the rule
that proves an invariant of them.
-/
namespace CascadeSearch.Lib.Transition

structure System (σ α : Type*) where
  init : σ → Prop
  step : σ → α → σ → Prop

variable {σ α : Type*}

inductive System.Reachable (sys : System σ α) : σ → Prop where
  | init {s : σ} (h : sys.init s) : sys.Reachable s
  | step {s s' : σ} {a : α} (hs : sys.Reachable s) (h : sys.step s a s') : sys.Reachable s'

/-- What holds at the start and is kept by every step holds in every reachable state. -/
theorem System.Reachable.invariant {sys : System σ α} (Inv : σ → Prop)
    (init : ∀ s, sys.init s → Inv s)
    (step : ∀ s a s', Inv s → sys.step s a s' → Inv s') {s : σ} (h : sys.Reachable s) : Inv s := by
  induction h with
  | init h => exact init _ h
  | step _ h ih => exact step _ _ _ ih h

/-- A run and the labels of its steps, in order. -/
inductive System.Run (sys : System σ α) : List α → σ → Prop where
  | init {s : σ} (h : sys.init s) : sys.Run [] s
  | step {s s' : σ} {a : α} {trace : List α} (hs : sys.Run trace s) (h : sys.step s a s') :
      sys.Run (trace ++ [a]) s'

/-- The same for what a state has to do with the steps that led to it. -/
theorem System.Run.invariant {sys : System σ α} (Inv : List α → σ → Prop)
    (init : ∀ s, sys.init s → Inv [] s)
    (step : ∀ trace s a s', Inv trace s → sys.step s a s' → Inv (trace ++ [a]) s')
    {trace : List α} {s : σ} (h : sys.Run trace s) : Inv trace s := by
  induction h with
  | init h => exact init _ h
  | step _ h ih => exact step _ _ _ _ ih h

/-- A step between two states. -/
structure Recorded (σ α : Type*) where
  before : σ
  action : α
  after : σ

/-- The runs that record their steps with the states around them. -/
def System.recorded (sys : System σ α) : System σ (Recorded σ α) where
  init := sys.init
  step s x s' := x.before = s ∧ x.after = s' ∧ sys.step s x.action s'

theorem System.Run.reachable {sys : System σ α} {trace : List α} {s : σ} (h : sys.Run trace s) : sys.Reachable s := by
  induction h with
  | init h => exact .init h
  | step _ h ih => exact ih.step h

theorem System.Reachable.of_recorded {sys : System σ α} {s : σ} (h : sys.recorded.Reachable s) : sys.Reachable s := by
  induction h with
  | init h => exact .init h
  | step _ h ih => exact ih.step h.2.2

theorem System.Run.extend {sys : System σ α} {trace : List (Recorded σ α)} {s s' : σ}
    (h : sys.recorded.Run trace s) (a : α) (hstep : sys.step s a s') : sys.recorded.Run (trace ++ [⟨s, a, s'⟩]) s' :=
  h.step ⟨rfl, rfl, hstep⟩

/-- What holds of every step out of a reachable state holds of every recorded step. -/
theorem System.Run.forall_mem {sys : System σ α} {P : Recorded σ α → Prop}
    (hstep : ∀ s a s', sys.Reachable s → sys.step s a s' → P ⟨s, a, s'⟩) {trace : List (Recorded σ α)} {s : σ}
    (h : sys.recorded.Run trace s) : ∀ x ∈ trace, P x := by
  induction h with
  | init _ => exact fun x hx => absurd hx List.not_mem_nil
  | @step s s' x trace hs h ih =>
    intro y hy
    rcases List.mem_append.mp hy with hy | hy
    · exact ih y hy
    · obtain ⟨hbefore, hafter, hx⟩ := h
      rw [List.mem_singleton.mp hy]
      subst hbefore hafter
      exact hstep _ _ _ hs.reachable.of_recorded hx

/-- A run of a system whose steps are computed. -/
theorem System.Run.of_foldlM {sys : System σ α} {next : σ → α → Option σ}
    (hnext : ∀ s a s', next s a = some s' → sys.step s a s') {trace actions : List α} {s s' : σ} (hs : sys.Run trace s)
    (h : actions.foldlM next s = some s') : sys.Run (trace ++ actions) s' := by
  induction actions generalizing trace s with
  | nil =>
    cases h
    rwa [List.append_nil]
  | cons a actions ih =>
    rw [List.foldlM_cons, Option.bind_eq_bind, Option.bind_eq_some_iff] at h
    obtain ⟨t, ht, h⟩ := h
    have hrun := ih (hs.step (hnext s a t ht)) h
    rwa [List.append_assoc] at hrun

/-- The runs that start in a given state. -/
def System.startingAt (sys : System σ α) (s : σ) : System σ α := { sys with init := (· = s) }

/-- A step with one of the labels. -/
def System.Via (sys : System σ α) (labels : α → Prop) (s s' : σ) : Prop := ∃ a, labels a ∧ sys.step s a s'

/-- No run from here takes counted steps for ever, whatever quiet steps come
between them. -/
def System.Terminates (sys : System σ α) (quiet counted : α → Prop) (s : σ) : Prop :=
  Acc (fun s' s => ∃ t, Relation.ReflTransGen (sys.Via quiet) s t ∧ sys.Via counted t s') s

theorem System.terminates_of_measure {β : Type*} [Preorder β] [WellFoundedLT β] {sys : System σ α}
    {quiet counted : α → Prop} (Inv : σ → Prop) (measure : σ → β)
    (hquiet : ∀ s s', Inv s → sys.Via quiet s s' → Inv s' ∧ measure s' = measure s)
    (hcounted : ∀ s s', Inv s → sys.Via counted s s' → Inv s' ∧ measure s' < measure s) {s : σ} (h : Inv s) :
    sys.Terminates quiet counted s := by
  induction hm : measure s using WellFoundedLT.induction generalizing s with
  | ind m ih =>
    refine ⟨s, fun s' hround => ?_⟩
    obtain ⟨t, hidle, hstep⟩ := hround
    have hidle' : Inv t ∧ measure t = m := by
      clear hstep
      induction hidle with
      | refl => exact ⟨h, hm⟩
      | tail _ hlast hbefore =>
        obtain ⟨hnext, heq⟩ := hquiet _ _ hbefore.1 hlast
        exact ⟨hnext, heq.trans hbefore.2⟩
    obtain ⟨ht, hmeasure⟩ := hidle'
    obtain ⟨hnext, hlt⟩ := hcounted t s' ht hstep
    exact ih (measure s') (hmeasure ▸ hlt) hnext rfl

/-- Where every state has a counted step to another such state there is no end. -/
theorem System.not_terminates {sys : System σ α} {quiet counted : α → Prop} (Inv : σ → Prop)
    (hnext : ∀ s, Inv s → ∃ s', Inv s' ∧ sys.Via counted s s') {s : σ} (h : Inv s) :
    ¬ sys.Terminates quiet counted s := by
  intro hacc
  induction hacc with
  | intro s _ ih =>
    obtain ⟨s', hs', hstep⟩ := hnext s h
    exact ih s' ⟨s, .refl, hstep⟩ hs'

end CascadeSearch.Lib.Transition
