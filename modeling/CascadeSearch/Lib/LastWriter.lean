import Mathlib.Data.List.Basic
import Mathlib.Data.List.Induction
import Mathlib.Tactic.Common

/-!
# The last writer

Of a run of attempts some set a value, some keep what they find and the others
lose it. What can be read at the end was set by the last one, if all attempts
after it kept it.
-/
namespace CascadeSearch.Lib.LastWriter

variable {A S X : Type*} {Sets Keeps : A → Prop} {as before : List A} {a b : A}

/-- The attempt that set the value, and those before it. -/
def LastOf (Sets Keeps : A → Prop) (as before : List A) (a : A) : Prop :=
  ∃ after, as = before ++ a :: after ∧ Sets a ∧ ∀ c ∈ after, Keeps c

theorem lastOf_concat_sets (h : ∀ a, Sets a → ¬ Keeps a) (ha : Sets a) :
    LastOf Sets Keeps (as ++ [a]) before b ↔ before = as ∧ b = a := by
  constructor
  · rintro ⟨after, heq, -, hafter⟩
    rcases List.eq_nil_or_concat' after with rfl | ⟨init, last, rfl⟩
    · obtain ⟨rfl, hb⟩ := List.append_inj' heq rfl
      exact ⟨rfl, (List.singleton_inj.mp hb).symm⟩
    · rw [← List.cons_append, ← List.append_assoc] at heq
      obtain rfl := List.singleton_inj.mp (List.append_inj' heq rfl).2
      exact absurd (hafter a (List.mem_append_right _ List.mem_cons_self)) (h a ha)
  · rintro ⟨rfl, rfl⟩
    exact ⟨[], rfl, ha, fun c hc => absurd hc List.not_mem_nil⟩

theorem lastOf_concat_keeps (h : ∀ a, Sets a → ¬ Keeps a) (ha : Keeps a) :
    LastOf Sets Keeps (as ++ [a]) before b ↔ LastOf Sets Keeps as before b := by
  constructor
  · rintro ⟨after, heq, hb, hafter⟩
    rcases List.eq_nil_or_concat' after with rfl | ⟨init, last, rfl⟩
    · obtain rfl := List.singleton_inj.mp (List.append_inj' heq rfl).2
      exact absurd ha (h a hb)
    · rw [← List.cons_append, ← List.append_assoc] at heq
      obtain ⟨rfl, -⟩ := List.append_inj' heq rfl
      exact ⟨init, rfl, hb, fun c hc => hafter c (List.mem_append_left _ hc)⟩
  · rintro ⟨after, rfl, hb, hafter⟩
    refine ⟨after ++ [a], by rw [List.append_assoc, List.cons_append], hb, ?_⟩
    exact List.forall_mem_append.mpr ⟨hafter, List.forall_mem_singleton.mpr ha⟩

theorem not_lastOf_concat (hset : ¬ Sets a) (hkeep : ¬ Keeps a) : ¬ LastOf Sets Keeps (as ++ [a]) before b := by
  rintro ⟨after, heq, hb, hafter⟩
  rcases List.eq_nil_or_concat' after with rfl | ⟨init, last, rfl⟩
  · obtain rfl := List.singleton_inj.mp (List.append_inj' heq rfl).2
    exact hset hb
  · rw [← List.cons_append, ← List.append_assoc] at heq
    obtain rfl := List.singleton_inj.mp (List.append_inj' heq rfl).2
    exact hkeep (hafter a (List.mem_append_right _ List.mem_cons_self))

theorem lastOf_append_keeps (h : ∀ a, Sets a → ¬ Keeps a) {rest : List A} (hrest : ∀ c ∈ rest, Keeps c) :
    LastOf Sets Keeps (as ++ rest) before b ↔ LastOf Sets Keeps as before b := by
  induction rest using List.reverseRecOn with
  | nil => rw [List.append_nil]
  | append_singleton rest c ih =>
    obtain ⟨hrest, hc⟩ := List.forall_mem_append.mp hrest
    rw [← List.append_assoc, lastOf_concat_keeps h (List.forall_mem_singleton.mp hc), ih hrest]

/-- If only setting changes the value, there is a last one as soon as there is one. -/
theorem exists_lastOf : (∃ before a, LastOf Sets (¬ Sets ·) as before a) ↔ ∃ a ∈ as, Sets a := by
  constructor
  · rintro ⟨before, a, after, rfl, ha, -⟩
    exact ⟨a, List.mem_append_right _ List.mem_cons_self, ha⟩
  · induction as using List.reverseRecOn with
    | nil => exact fun ⟨a, hmem, _⟩ => absurd hmem List.not_mem_nil
    | append_singleton as a ih =>
      rintro ⟨b, hmem, hb⟩
      by_cases ha : Sets a
      · exact ⟨as, a, [], rfl, ha, fun c hc => absurd hc List.not_mem_nil⟩
      · rcases List.mem_append.mp hmem with hmem | hmem
        · obtain ⟨before, c, hlast⟩ := ih ⟨b, hmem, hb⟩
          exact ⟨before, c, (lastOf_concat_keeps (fun _ => not_not_intro) ha).mpr hlast⟩
        · exact absurd (List.mem_singleton.mp hmem ▸ hb) ha

/-- What is read after a run. -/
theorem read_foldl (read : S → Option X) {step : S → A → S} {value : A → X} (h : ∀ a, Sets a → ¬ Keeps a)
    (hset : ∀ s a, Sets a → read (step s a) = some (value a)) (hkeep : ∀ s a, Keeps a → read (step s a) = read s)
    (hlose : ∀ s a, ¬ Sets a → ¬ Keeps a → read (step s a) = none) {s : S} (hinit : read s = none) (as : List A) (x : X) :
    read (as.foldl step s) = some x ↔ ∃ before a, LastOf Sets Keeps as before a ∧ x = value a := by
  induction as using List.reverseRecOn with
  | nil =>
    rw [List.foldl_nil, hinit]
    refine ⟨fun hnone => (nomatch hnone), ?_⟩
    rintro ⟨before, a, ⟨after, heq, -⟩, -⟩
    exact absurd heq.symm (by simp)
  | append_singleton as a ih =>
    rw [List.foldl_append, List.foldl_cons, List.foldl_nil]
    by_cases ha : Sets a
    · rw [hset _ a ha, Option.some.injEq]
      simp only [lastOf_concat_sets h ha]
      exact ⟨fun heq => ⟨as, a, ⟨rfl, rfl⟩, heq.symm⟩, fun ⟨_, _, ⟨_, heq⟩, hx⟩ => (hx.trans (congrArg value heq)).symm⟩
    · by_cases hk : Keeps a
      · rw [hkeep _ a hk, ih]
        simp only [lastOf_concat_keeps h hk]
      · rw [hlose _ a ha hk]
        refine ⟨fun hnone => (nomatch hnone), ?_⟩
        rintro ⟨before, b, hlast, -⟩
        exact absurd hlast (not_lastOf_concat ha hk)

end CascadeSearch.Lib.LastWriter
