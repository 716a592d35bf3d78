import Mathlib.Data.List.Forall2
import Mathlib.Data.List.Perm.Basic
import Mathlib.Tactic.Common

/-!
# Lists related round by round

`mapM` in `Except` succeeds exactly if every round does, and then its result is
related to the list round by round. What is known of such a pair of lists is
known of each of their members.
-/
namespace CascadeSearch.Lib.Fallible

variable {α β ε : Type*} {P : α → β → Prop} {l : List α} {ys : List β}

theorem mapM_ok_iff {f : α → Except ε β} :
    l.mapM f = .ok ys ↔ List.Forall₂ (fun x y => f x = .ok y) l ys := by
  induction l generalizing ys with
  | nil => cases ys <;> simp [pure, Except.pure]
  | cons x l ih =>
    rw [List.mapM_cons]
    cases hx : f x with
    | error e => cases ys <;> simp [bind, Except.bind, hx]
    | ok y =>
      cases hl : l.mapM f with
      | error e => cases ys <;> simp [bind, Except.bind, hx, ← ih, hl]
      | ok rest => cases ys <;> simp [bind, Except.bind, pure, Except.pure, hx, ← ih, hl]

theorem mapM_eq_map {f : α → Option β} {g : α → β} (h : ∀ x ∈ l, f x = some (g x)) :
    l.mapM f = some (l.map g) := by
  induction l with
  | nil => rfl
  | cons x l ih =>
    rw [List.mapM_cons, h x List.mem_cons_self, ih fun y hy => h y (List.mem_cons_of_mem _ hy)]
    rfl

/-- What every member was mapped to is in the result. -/
theorem exists_of_mapM {f : α → Option β} (h : l.mapM f = some ys) {x : α} (hx : x ∈ l) : ∃ y ∈ ys, f x = some y := by
  induction l generalizing ys with
  | nil => cases hx
  | cons x' l ih =>
    rw [List.mapM_cons] at h
    obtain ⟨y, hy, h⟩ := Option.bind_eq_some_iff.mp h
    obtain ⟨rest, hrest, h⟩ := Option.bind_eq_some_iff.mp h
    obtain rfl := Option.some.inj h
    rcases List.mem_cons.mp hx with rfl | hx
    · exact ⟨y, List.mem_cons_self, hy⟩
    · obtain ⟨z, hz, hfz⟩ := ih hrest hx
      exact ⟨z, List.mem_cons_of_mem _ hz, hfz⟩

theorem exists_forall₂ (h : ∀ x ∈ l, ∃ y, P x y) : ∃ ys, List.Forall₂ P l ys := by
  induction l with
  | nil => exact ⟨[], .nil⟩
  | cons x l ih =>
    obtain ⟨y, hy⟩ := h x List.mem_cons_self
    obtain ⟨ys, hys⟩ := ih fun z hz => h z (List.mem_cons_of_mem _ hz)
    exact ⟨y :: ys, .cons hy hys⟩

theorem exists_right (h : List.Forall₂ P l ys) {x : α} (hx : x ∈ l) : ∃ y ∈ ys, P x y := by
  induction h with
  | nil => cases hx
  | cons hP _ ih =>
    rcases List.mem_cons.mp hx with rfl | hx
    · exact ⟨_, List.mem_cons_self, hP⟩
    · obtain ⟨y, hy, hP⟩ := ih hx
      exact ⟨y, List.mem_cons_of_mem _ hy, hP⟩

theorem exists_left (h : List.Forall₂ P l ys) {y : β} (hy : y ∈ ys) : ∃ x ∈ l, P x y :=
  exists_right h.flip hy

/-- However a list is split, its results split with it. -/
theorem forall₂_split {l₁ l₂ : List α} (hsplit : l.Perm (l₁ ++ l₂)) (h : List.Forall₂ P l ys) :
    ∃ ys₁ ys₂, ys.Perm (ys₁ ++ ys₂) ∧ List.Forall₂ P l₁ ys₁ ∧ List.Forall₂ P l₂ ys₂ := by
  obtain ⟨zs, hzs, hperm⟩ := List.perm_comp_forall₂ hsplit.symm h
  refine ⟨zs.take l₁.length, zs.drop l₁.length, ?_, ?_, ?_⟩
  · rw [List.take_append_drop]
    exact hperm.symm
  · exact (List.forall₂_take_append zs l₁ l₂ hzs.flip).flip
  · exact (List.forall₂_drop_append zs l₁ l₂ hzs.flip).flip

/-- Results that carry the key of their round can be told apart again. -/
theorem filter_flatten {κ : Type*} [DecidableEq κ] {key : α → κ} {keyOf : β → κ} {groups : List (List β)}
    (h : List.Forall₂ (fun x group => ∀ y ∈ group, keyOf y = key x) l groups) (hnodup : (l.map key).Nodup) :
    List.Forall₂ (fun x group => groups.flatten.filter (fun y => keyOf y = key x) = group) l groups := by
  induction h with
  | nil => exact .nil
  | @cons x group l groups hgroup hrest ih =>
    rw [List.map_cons, List.nodup_cons] at hnodup
    have hother : ∀ y ∈ groups.flatten, keyOf y ∈ l.map key := by
      intro y hy
      obtain ⟨group', hgroup', hy⟩ := List.mem_flatten.mp hy
      obtain ⟨x', hx', hkeys⟩ := exists_left hrest hgroup'
      rw [hkeys y hy]
      exact List.mem_map_of_mem hx'
    refine .cons ?_ ?_
    · rw [List.flatten_cons, List.filter_append, List.filter_eq_self.mpr, List.filter_eq_nil_iff.mpr, List.append_nil]
      · intro y hy hkey
        rw [decide_eq_true_iff] at hkey
        exact hnodup.1 (hkey ▸ hother y hy)
      · exact fun y hy => decide_eq_true (hgroup y hy)
    · have hkeys := (List.forall₂_and_left _ _).mpr ⟨fun x' hx' => List.mem_map_of_mem (f := key) hx', ih hnodup.2⟩
      refine hkeys.imp fun x' group' hx' => ?_
      rw [List.flatten_cons, List.filter_append, List.filter_eq_nil_iff.mpr, List.nil_append]
      · exact hx'.2
      · intro y hy hkey
        rw [decide_eq_true_iff, hgroup y hy] at hkey
        exact hnodup.1 (hkey ▸ hx'.1)

end CascadeSearch.Lib.Fallible
