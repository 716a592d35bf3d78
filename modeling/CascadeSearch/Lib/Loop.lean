import Mathlib.Data.Nat.Basic
import Mathlib.Tactic.Common

/-!
# Loops as step functions

The body of a `while (true)` loop is a function from the loop's state to the
next state or to the value the loop ends with. Fuel bounds a run from outside;
it never supplies a result of its own. `Returns` hides the fuel: a loop that
returns does so with every larger fuel, and with one value only.
-/
namespace CascadeSearch.Lib.Loop

/-- What one pass through a loop body does. -/
inductive Step (σ β : Type*) where
  | next (state : σ)
  | done (value : β)

variable {σ β : Type*}

/-- Run the body until it is done; `none` is spent fuel, never a result. -/
def run (step : σ → Step σ β) : Nat → σ → Option β
  | 0, _ => none
  | fuel + 1, s =>
      match step s with
      | .next s' => run step fuel s'
      | .done b => some b

def Returns (step : σ → Step σ β) (s : σ) (b : β) : Prop :=
  ∃ fuel, run step fuel s = some b

theorem run_next {step : σ → Step σ β} {s s' : σ} (h : step s = .next s') (fuel : Nat) :
    run step (fuel + 1) s = run step fuel s' := by
  simp [run, h]

theorem run_done {step : σ → Step σ β} {s : σ} {b : β} (h : step s = .done b) (fuel : Nat) :
    run step (fuel + 1) s = some b := by
  simp [run, h]

theorem run_stable {step : σ → Step σ β} {b : β} :
    ∀ {fuel : Nat} {s : σ}, run step fuel s = some b →
      ∀ {more : Nat}, fuel ≤ more → run step more s = some b := by
  intro fuel
  induction fuel with
  | zero => intro s h; simp [run] at h
  | succ fuel ih =>
    intro s h more hle
    obtain ⟨more, rfl⟩ : ∃ m, more = m + 1 := ⟨more - 1, by omega⟩
    cases hs : step s with
    | next s' =>
      rw [run_next hs] at h ⊢
      exact ih h (by omega)
    | done b' =>
      rw [run_done hs] at h ⊢
      exact h

theorem Returns.unique {step : σ → Step σ β} {s : σ} {b b' : β}
    (h : Returns step s b) (h' : Returns step s b') : b = b' := by
  obtain ⟨m, hm⟩ := h
  obtain ⟨n, hn⟩ := h'
  rcases le_total m n with hle | hle
  · rw [run_stable hm hle] at hn
    exact Option.some.inj hn
  · rw [run_stable hn hle] at hm
    exact (Option.some.inj hm).symm

theorem returns_done {step : σ → Step σ β} {s : σ} {b : β} (h : step s = .done b) :
    Returns step s b := ⟨1, run_done h 0⟩

theorem returns_next {step : σ → Step σ β} {s s' : σ} {b : β} (h : step s = .next s')
    (hr : Returns step s' b) : Returns step s b := by
  obtain ⟨fuel, hf⟩ := hr
  exact ⟨fuel + 1, by rw [run_next h]; exact hf⟩

/-- The rule for a loop with an invariant and a variant: the loop returns, and
what it returns satisfies what every last pass establishes. -/
theorem returns_of_variant (step : σ → Step σ β) (Inv : σ → Prop) (Post : β → Prop)
    (variant : σ → Nat)
    (next : ∀ s s', Inv s → step s = .next s' → Inv s' ∧ variant s' < variant s)
    (done : ∀ s b, Inv s → step s = .done b → Post b) :
    ∀ s, Inv s → ∃ b, Returns step s b ∧ Post b := by
  intro s
  induction hv : variant s using Nat.strong_induction_on generalizing s with
  | h n ih =>
    intro hi
    cases hs : step s with
    | next s' =>
      obtain ⟨hi', hlt⟩ := next s s' hi hs
      obtain ⟨b, hr, hp⟩ := ih (variant s') (hv ▸ hlt) s' rfl hi'
      exact ⟨b, returns_next hs hr, hp⟩
    | done b => exact ⟨b, returns_done hs, done s b hi hs⟩

end CascadeSearch.Lib.Loop
