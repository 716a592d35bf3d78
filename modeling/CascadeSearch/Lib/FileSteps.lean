import Mathlib.Data.List.Basic
import Mathlib.Data.List.Infix
import Mathlib.Logic.Function.Basic
import Mathlib.Tactic.Common

/-!
# Files written step by step

Creating, writing and closing a file are steps of their own, and a process can
be killed between any two of them. What a file holds afterwards depends only on
what it held and on the steps that name it.
-/
namespace CascadeSearch.Lib.FileSteps

/-- The files there are, and what each holds. -/
abbrev Store (P C : Type) := P → Option (List C)

/-- Creating a file empties it. -/
inductive FileStep (P C : Type) where
  | create (path : P)
  | write (path : P) (data : List C)
  | close (path : P)
  | remove (path : P)

variable {P C : Type}

def FileStep.path : FileStep P C → P
  | .create p | .write p _ | .close p | .remove p => p

/-- Open for writing, write, close. -/
def writeFile (p : P) (writes : List (List C)) : List (FileStep P C) :=
  .create p :: (writes.map (.write p) ++ [.close p])

/-- The steps name only paths with this property. -/
def Within (allowed : P → Prop) (steps : List (FileStep P C)) : Prop := ∀ step ∈ steps, allowed step.path

theorem within_writeFile {allowed : P → Prop} {p : P} (hp : allowed p) (writes : List (List C)) :
    Within allowed (writeFile p writes) := by
  intro step hstep
  rcases List.mem_cons.mp hstep with rfl | hstep
  · exact hp
  · rcases List.mem_append.mp hstep with hstep | hstep
    · obtain ⟨data, -, rfl⟩ := List.mem_map.mp hstep
      exact hp
    · rw [List.mem_singleton.mp hstep]
      exact hp

theorem Within.append {allowed : P → Prop} {steps steps' : List (FileStep P C)} (h : Within allowed steps)
    (h' : Within allowed steps') : Within allowed (steps ++ steps') := fun step hstep =>
  (List.mem_append.mp hstep).elim (h step) (h' step)

theorem Within.imp {allowed allowed' : P → Prop} {steps : List (FileStep P C)} (h : Within allowed steps)
    (himp : ∀ p, allowed p → allowed' p) : Within allowed' steps := fun step hstep => himp _ (h step hstep)

theorem Within.take {allowed : P → Prop} {steps : List (FileStep P C)} (h : Within allowed steps) (k : Nat) :
    Within allowed (steps.take k) := fun step hstep => h step (List.mem_of_mem_take hstep)

/-- The process is killed after `k` steps with the file created and something
still to be written to it. -/
def Inside (p : P) (steps : List (FileStep P C)) (k : Nat) : Prop :=
  .create p ∈ steps.take k ∧ ∃ data, data ≠ [] ∧ .write p data ∈ steps.drop k

/-- No step creates the file a second time. -/
def CreatesOnce (p : P) (steps : List (FileStep P C)) : Prop :=
  steps.Pairwise fun step later => ¬ (step = .create p ∧ later = .create p)

theorem createsOnce_of_notMem {p : P} {steps : List (FileStep P C)} (h : .create p ∉ steps) : CreatesOnce p steps :=
  List.pairwise_of_forall_mem_list fun _ hstep _ _ heq => h (heq.1 ▸ hstep)

theorem createsOnce_append {p : P} {steps steps' : List (FileStep P C)} (h : CreatesOnce p steps)
    (h' : CreatesOnce p steps') (hone : .create p ∉ steps ∨ .create p ∉ steps') : CreatesOnce p (steps ++ steps') := by
  refine List.pairwise_append.mpr ⟨h, h', ?_⟩
  rintro step hstep later hlater ⟨rfl, rfl⟩
  exact hone.elim (fun hnot => hnot hstep) fun hnot => hnot hlater

theorem create_notMem_writes (p : P) (writes : List (List C)) :
    FileStep.create p ∉ writes.map (.write p) ++ [.close p] := by
  simp

theorem createsOnce_writeFile (p : P) (writes : List (List C)) : CreatesOnce p (writeFile p writes) := by
  refine List.pairwise_cons.mpr ⟨fun later hlater heq => ?_, createsOnce_of_notMem (create_notMem_writes p writes)⟩
  exact create_notMem_writes p writes (heq.2 ▸ hlater)

theorem Inside.append_right {p : P} {steps : List (FileStep P C)} {k : Nat} (h : Inside p steps k)
    (steps' : List (FileStep P C)) : Inside p (steps ++ steps') k := by
  obtain ⟨hcreated, data, hdata, hwrite⟩ := h
  refine ⟨?_, data, hdata, ?_⟩
  · rw [List.take_append]
    exact List.mem_append_left _ hcreated
  · rw [List.drop_append]
    exact List.mem_append_left _ hwrite

theorem Inside.append_left {p : P} {steps' : List (FileStep P C)} {k : Nat} (h : Inside p steps' k)
    (steps : List (FileStep P C)) : Inside p (steps ++ steps') (steps.length + k) := by
  rw [Inside, List.take_length_add_append, List.drop_length_add_append]
  exact ⟨List.mem_append_right _ h.1, h.2⟩

variable [DecidableEq P]

def FileStep.apply : FileStep P C → Store P C → Store P C
  | .create p, s => Function.update s p (some [])
  | .write p data, s => Function.update s p ((s p).map (· ++ data))
  | .close _, s => s
  | .remove p, s => Function.update s p none

def exec (steps : List (FileStep P C)) (s : Store P C) : Store P C := steps.foldl (fun s step => step.apply s) s

theorem exec_cons (step : FileStep P C) (steps : List (FileStep P C)) (s : Store P C) :
    exec (step :: steps) s = exec steps (step.apply s) := rfl

theorem exec_append (steps steps' : List (FileStep P C)) (s : Store P C) :
    exec (steps ++ steps') s = exec steps' (exec steps s) := List.foldl_append

theorem apply_of_ne {step : FileStep P C} {p : P} (h : step.path ≠ p) (s : Store P C) : step.apply s p = s p := by
  cases step with
  | create q => exact Function.update_of_ne (Ne.symm h) _ _
  | write q data => exact Function.update_of_ne (Ne.symm h) _ _
  | close q => rfl
  | remove q => exact Function.update_of_ne (Ne.symm h) _ _

theorem apply_congr {s s' : Store P C} {p : P} (h : s p = s' p) (step : FileStep P C) :
    step.apply s p = step.apply s' p := by
  by_cases hp : step.path = p
  · subst hp
    cases step with
    | create q => simp [FileStep.apply, FileStep.path]
    | write q data =>
      simp only [FileStep.apply, FileStep.path, Function.update_self]
      exact congrArg _ h
    | close q => exact h
    | remove q => simp [FileStep.apply, FileStep.path]
  · rw [apply_of_ne hp, apply_of_ne hp, h]

/-- What a file holds depends on nothing but what it held. -/
theorem exec_congr {s s' : Store P C} {p : P} (h : s p = s' p) (steps : List (FileStep P C)) :
    exec steps s p = exec steps s' p := by
  induction steps generalizing s s' with
  | nil => exact h
  | cons step steps ih => exact ih (apply_congr h step)

/-- A file no step names keeps what it held. -/
theorem exec_of_within {allowed : P → Prop} {steps : List (FileStep P C)} (h : Within allowed steps) {p : P}
    (hp : ¬ allowed p) (s : Store P C) : exec steps s p = s p := by
  induction steps generalizing s with
  | nil => rfl
  | cons step steps ih =>
    have hne : step.path ≠ p := fun heq => hp (heq ▸ h step List.mem_cons_self)
    rw [exec_cons, ih fun st hst => h st (List.mem_cons_of_mem _ hst), apply_of_ne hne]

/-- Once created a file stays, unless it is removed. -/
theorem exec_isSome {p : P} {steps : List (FileStep P C)} (hremove : .remove p ∉ steps) :
    ∀ {s : Store P C}, (s p).isSome ∨ .create p ∈ steps → (exec steps s p).isSome := by
  induction steps with
  | nil => exact fun h => h.resolve_right List.not_mem_nil
  | cons step steps ih =>
    intro s h
    rw [exec_cons]
    apply ih fun hmem => hremove (List.mem_cons_of_mem _ hmem)
    by_cases hp : step.path = p
    · subst hp
      cases step with
      | create q => exact Or.inl (by simp [FileStep.apply, FileStep.path])
      | write q data =>
        rcases h with h | h
        · exact Or.inl (by simpa [FileStep.apply, FileStep.path] using h)
        · exact Or.inr ((List.mem_cons.mp h).resolve_left (by simp))
      | close q =>
        rcases h with h | h
        · exact Or.inl h
        · exact Or.inr ((List.mem_cons.mp h).resolve_left (by simp))
      | remove q => exact absurd List.mem_cons_self hremove
    · rw [apply_of_ne hp]
      refine h.imp_right fun h => (List.mem_cons.mp h).resolve_left ?_
      rintro rfl
      exact hp rfl

/-- A file that is not there is created before it is there. -/
theorem exec_isNone {p : P} {steps : List (FileStep P C)} (hcreate : .create p ∉ steps) :
    ∀ {s : Store P C}, s p = none → exec steps s p = none := by
  induction steps with
  | nil => exact fun h => h
  | cons step steps ih =>
    intro s h
    rw [exec_cons]
    apply ih fun hmem => hcreate (List.mem_cons_of_mem _ hmem)
    by_cases hp : step.path = p
    · subst hp
      cases step with
      | create q => exact absurd List.mem_cons_self hcreate
      | write q data => simpa [FileStep.apply, FileStep.path] using h
      | close q => exact h
      | remove q => simp [FileStep.apply, FileStep.path]
    · rw [apply_of_ne hp, h]

/-- From its creation on a file does not depend on what there was before. -/
theorem exec_of_create {p : P} {steps : List (FileStep P C)} (h : .create p ∈ steps) (s s' : Store P C) :
    exec steps s p = exec steps s' p := by
  obtain ⟨front, back, rfl⟩ := List.append_of_mem h
  rw [exec_append, exec_append, exec_cons, exec_cons]
  apply exec_congr
  rw [FileStep.apply, FileStep.apply, Function.update_self, Function.update_self]

/-- What the steps still write to a file. -/
def written (p : P) (steps : List (FileStep P C)) : List C :=
  steps.flatMap fun step => match step with
    | .write q data => if q = p then data else []
    | _ => []

theorem written_eq_nil_iff {p : P} {steps : List (FileStep P C)} :
    written p steps = [] ↔ ∀ data, .write p data ∈ steps → data = [] := by
  rw [written, List.flatMap_eq_nil_iff]
  constructor
  · intro h data hmem
    simpa using h _ hmem
  · intro h step hstep
    cases step with
    | write q data =>
      dsimp only
      split
      · rename_i hq
        subst hq
        exact h data hstep
      · rfl
    | create q => rfl
    | close q => rfl
    | remove q => rfl

/-- A file that is neither created anew nor removed only grows. -/
theorem exec_written {p : P} {steps : List (FileStep P C)} (hcreate : .create p ∉ steps)
    (hremove : .remove p ∉ steps) : ∀ {s : Store P C}, exec steps s p = (s p).map (· ++ written p steps) := by
  induction steps with
  | nil =>
    intro s
    change s p = (s p).map (· ++ [])
    simp
  | cons step steps ih =>
    intro s
    have hrest := @ih (fun hmem => hcreate (List.mem_cons_of_mem _ hmem))
      (fun hmem => hremove (List.mem_cons_of_mem _ hmem)) (step.apply s)
    rw [exec_cons, hrest]
    by_cases hp : step.path = p
    · subst hp
      cases step with
      | create q => exact absurd List.mem_cons_self hcreate
      | write q data =>
        simp only [FileStep.apply, FileStep.path, Function.update_self, Option.map_map, written, List.flatMap_cons,
          if_true]
        congr 1
        funext held
        exact List.append_assoc _ _ _
      | close q => rfl
      | remove q => exact absurd List.mem_cons_self hremove
    · rw [apply_of_ne hp]
      congr 2
      funext held
      congr 1
      cases step with
      | write q data => simp [written, show ¬ q = p from hp]
      | create q => rfl
      | close q => rfl
      | remove q => rfl

/-- A file the process was killed inside of is not what it would have become. -/
theorem inside_ne {p : P} {steps : List (FileStep P C)} {k : Nat} (honce : CreatesOnce p steps)
    (hremove : .remove p ∉ steps) (hinside : Inside p steps k) (s : Store P C) :
    exec (steps.take k) s p ≠ exec steps s p := by
  obtain ⟨hcreated, data, hdata, hwrite⟩ := hinside
  have hsplit := List.take_append_drop k steps
  have hremoveTake : .remove p ∉ steps.take k := fun hmem => hremove (List.mem_of_mem_take hmem)
  have hremoveDrop : .remove p ∉ steps.drop k := fun hmem => hremove (List.mem_of_mem_drop hmem)
  have hcreateDrop : .create p ∉ steps.drop k := by
    intro hmem
    rw [CreatesOnce, ← hsplit] at honce
    exact (List.pairwise_append.mp honce).2.2 _ hcreated _ hmem ⟨rfl, rfl⟩
  have hwritten : written p (steps.drop k) ≠ [] := fun hnil => hdata (written_eq_nil_iff.mp hnil data hwrite)
  obtain ⟨held, hheld⟩ := Option.isSome_iff_exists.mp (exec_isSome hremoveTake (s := s) (Or.inr hcreated))
  conv_rhs => rw [← hsplit, exec_append, exec_written hcreateDrop hremoveDrop, hheld]
  rw [hheld, Option.map_some, ne_eq, Option.some.injEq]
  exact fun heq => hwritten (List.self_eq_append_right.mp heq)

/-- A file nothing more is written to is finished. -/
theorem exec_finished {p : P} {steps : List (FileStep P C)} (hcreate : .create p ∉ steps) (hremove : .remove p ∉ steps)
    (hwrite : ∀ data, .write p data ∈ steps → data = []) (s : Store P C) : exec steps s p = s p := by
  rw [exec_written hcreate hremove, written_eq_nil_iff.mpr hwrite]
  simp

/-- A run killed outside of the file it had created last is finished. -/
theorem exec_take_of_not_inside {p q : P} {pre post : List (FileStep P C)} {writes : List (List C)} {k : Nat}
    (hpre : .create q ∉ pre) (hpost : Within (· ≠ p) post)
    (hcreated : .create q ∈ (pre ++ (writeFile q writes ++ post)).take k)
    (hinside : ¬ Inside q (pre ++ (writeFile q writes ++ post)) k) (s : Store P C) :
    exec ((pre ++ (writeFile q writes ++ post)).take k) s p = exec (pre ++ (writeFile q writes ++ post)) s p := by
  have hlt : pre.length < k := by
    by_contra hle
    rw [List.take_append_of_le_length (Nat.le_of_not_lt hle)] at hcreated
    exact hpre (List.mem_of_mem_take hcreated)
  have hleft : ∀ step ∈ (pre ++ (writeFile q writes ++ post)).drop k,
      (∃ data, step = .write q data) ∨ step = .close q ∨ step.path ≠ p := by
    intro step hstep
    obtain ⟨m, rfl⟩ := Nat.exists_eq_add_of_lt hlt
    rw [Nat.add_assoc, List.drop_length_add_append, writeFile, List.cons_append, List.drop_succ_cons] at hstep
    rcases List.mem_append.mp (List.mem_of_mem_drop hstep) with hstep | hstep
    · rcases List.mem_append.mp hstep with hstep | hstep
      · obtain ⟨data, -, rfl⟩ := List.mem_map.mp hstep
        exact Or.inl ⟨data, rfl⟩
      · exact Or.inr (Or.inl (List.mem_singleton.mp hstep))
    · exact Or.inr (Or.inr (hpost step hstep))
  conv_rhs => rw [← List.take_append_drop k (pre ++ (writeFile q writes ++ post)), exec_append]
  refine (exec_finished ?_ ?_ ?_ _).symm
  · intro hmem
    simpa [FileStep.path] using hleft _ hmem
  · intro hmem
    simpa [FileStep.path] using hleft _ hmem
  · intro data hmem
    by_contra hdata
    rcases hleft _ hmem with ⟨data', heq⟩ | heq | hne
    · cases heq
      exact hinside ⟨hcreated, data, hdata, hmem⟩
    · cases heq
    · exact hne rfl

/-- Running everything again where a killed run has begun on nothing. -/
theorem exec_again {p : P} {s : Store P C} (hs : s p = none) (steps : List (FileStep P C)) (k : Nat) :
    exec steps (exec (steps.take k) s) p = exec steps s p := by
  by_cases hcreate : .create p ∈ steps
  · exact exec_of_create hcreate _ _
  · apply exec_congr
    rw [hs]
    exact exec_isNone (fun hmem => hcreate (List.mem_of_mem_take hmem)) hs

end CascadeSearch.Lib.FileSteps
