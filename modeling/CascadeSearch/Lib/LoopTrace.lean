import CascadeSearch.Lib.Loop

/-!
# What the passes of a loop report

A claim about every pass of a loop is one about the states it goes through, and
a claim about all its passes together is one about what each of them reported.
`Reaches` pairs a state with the reports of the passes that led to it, the
latest first; `Ends` is a run to the end with all of its reports. Reports are
read off the state before a pass, so they never change what the loop does.
-/
namespace CascadeSearch.Lib.LoopTrace

open Lib.Loop

variable {σ β ρ : Type*} {step : σ → Step σ β} {report : σ → Option ρ} {s t : σ}
  {log log' : List ρ} {b b' : β}

inductive Reaches (step : σ → Step σ β) (report : σ → Option ρ) (s : σ) : List ρ → σ → Prop
  | start : Reaches step report s [] s
  | pass {log : List ρ} {t t' : σ} : Reaches step report s log t → step t = .next t' →
      Reaches step report s ((report t).toList ++ log) t'

/-- The loop with its reports collected beside its state. -/
def logged (step : σ → Step σ β) (report : σ → Option ρ) (p : List ρ × σ) :
    Step (List ρ × σ) (List ρ × β) :=
  match step p.2 with
  | .next s => .next ((report p.2).toList ++ p.1, s)
  | .done b => .done (p.1, b)

/-- From `s` the loop ends with `b`, and its passes have reported `log`. -/
def Ends (step : σ → Step σ β) (report : σ → Option ρ) (s : σ) (log : List ρ) (b : β) : Prop :=
  Returns (logged step report) ([], s) (log, b)

theorem logged_next (h : step s = .next t) (log : List ρ) :
    logged step report (log, s) = .next ((report s).toList ++ log, t) := by
  simp [logged, h]

theorem logged_done (h : step s = .done b) (log : List ρ) :
    logged step report (log, s) = .done (log, b) := by
  simp [logged, h]

/-- What holds at the start and is kept by every pass holds of all that is reached. -/
theorem Reaches.invariant {Inv : List ρ → σ → Prop} (h : Reaches step report s log t)
    (start : Inv [] s)
    (pass : ∀ log t t', Inv log t → step t = .next t' → Inv ((report t).toList ++ log) t') :
    Inv log t := by
  induction h with
  | start => exact start
  | pass _ hstep ih => exact pass _ _ _ ih hstep

/-- A loop ends one way only, reports included. -/
theorem Ends.unique (h : Ends step report s log b) (h' : Ends step report s log' b') :
    log = log' ∧ b = b' := Prod.mk.inj (Returns.unique h h')

theorem returns_of_logged {fuel : Nat} : ∀ {log : List ρ} {s : σ} {log' : List ρ},
    run (logged step report) fuel (log, s) = some (log', b) → run step fuel s = some b := by
  induction fuel with
  | zero => intro log s log' h; simp [run] at h
  | succ fuel ih =>
    intro log s log' h
    cases hs : step s with
    | next t =>
      rw [run_next (logged_next hs log)] at h
      rw [run_next hs]
      exact ih h
    | done b' =>
      rw [run_done (logged_done hs log)] at h
      rw [run_done hs]
      exact congrArg some (Prod.mk.inj (Option.some.inj h)).2

/-- Collecting reports changes nothing about what the loop returns. -/
theorem Ends.returns (h : Ends step report s log b) : Returns step s b := by
  obtain ⟨fuel, hrun⟩ := h
  exact ⟨fuel, returns_of_logged hrun⟩

/-- The rule for a loop with an invariant over reports and state, and a variant. -/
theorem ends_of_variant (Inv : List ρ → σ → Prop) (Post : List ρ → β → Prop) (variant : σ → Nat)
    (next : ∀ log s s', Inv log s → step s = .next s' →
      Inv ((report s).toList ++ log) s' ∧ variant s' < variant s)
    (done : ∀ log s b, Inv log s → step s = .done b → Post log b) (h : Inv [] s) :
    ∃ log b, Ends step report s log b ∧ Post log b := by
  have hnext : ∀ p p', Inv p.1 p.2 → logged step report p = .next p' →
      Inv p'.1 p'.2 ∧ variant p'.2 < variant p.2 := by
    intro p p' hinv hstep
    cases hs : step p.2 with
    | next t =>
      obtain rfl := Step.next.inj ((logged_next hs p.1).symm.trans hstep)
      exact next p.1 p.2 t hinv hs
    | done b => cases (logged_done hs p.1).symm.trans hstep
  have hdone : ∀ p q, Inv p.1 p.2 → logged step report p = .done q → Post q.1 q.2 := by
    intro p q hinv hstep
    cases hs : step p.2 with
    | next t => cases (logged_next hs p.1).symm.trans hstep
    | done b =>
      obtain rfl := Step.done.inj ((logged_done hs p.1).symm.trans hstep)
      exact done p.1 p.2 b hinv hs
  obtain ⟨⟨log, b⟩, hret, hpost⟩ := returns_of_variant (logged step report)
    (fun p => Inv p.1 p.2) (fun p => Post p.1 p.2) (fun p => variant p.2) hnext hdone ([], s) h
  exact ⟨log, b, hret, hpost⟩

end CascadeSearch.Lib.LoopTrace
