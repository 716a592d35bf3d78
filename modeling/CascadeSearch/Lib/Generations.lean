import Mathlib.Algebra.Group.Action.Defs
import Mathlib.Algebra.Order.BigOperators.Group.List
import Mathlib.Algebra.Order.Ring.Nat
import Mathlib.Tactic.Common

/-!
# Stores that keep few groups

A store keeps its items in at most `b` groups. A new item is a group of its own,
and there is room for it once other groups have been rewritten into one. However
the groups are chosen, only `b ^ (c + 1)` items get by with `c` rewrites, so the
rewritten items outgrow every multiple of the items.
-/
namespace CascadeSearch.Lib.Generations

/-- A store after `n` items and `cost` rewrites of an item. A group lists how
often each of its items was rewritten. -/
inductive Grows (b : Nat) : Nat → Nat → List (List Nat) → Prop where
  | empty : Grows b 0 0 []
  | add {n cost : Nat} {groups : List (List Nat)} (h : Grows b n cost groups) (hroom : groups.length < b) :
      Grows b (n + 1) cost (groups ++ [[0]])
  | rewrite {n cost : Nat} {groups chosen rest : List (List Nat)} (h : Grows b n cost groups)
      (hsplit : groups.Perm (chosen ++ rest)) (hchosen : chosen ≠ []) :
      Grows b n (cost + chosen.flatten.length) (rest ++ [chosen.flatten.map (· + 1)])

/-- All items but the young ones count more than `c` times. -/
theorem succ_mul_length_le (items : List Nat) (c : Nat) :
    (c + 1) * items.length ≤ items.sum + (c + 1) * items.countP (· ≤ c) := by
  induction items with
  | nil => exact Nat.zero_le _
  | cons item items ih =>
    rw [List.length_cons, List.sum_cons, Nat.mul_succ]
    by_cases hyoung : item ≤ c
    · have hcount : (item :: items).countP (· ≤ c) = items.countP (· ≤ c) + 1 :=
        List.countP_cons_of_pos (by simpa using hyoung)
      rw [hcount, Nat.mul_succ]
      omega
    · have hcount : (item :: items).countP (· ≤ c) = items.countP (· ≤ c) :=
        List.countP_cons_of_neg (by simpa using hyoung)
      rw [hcount]
      omega

theorem sum_map_succ (items : List Nat) : (items.map (· + 1)).sum = items.sum + items.length := by
  induction items with
  | nil => rfl
  | cons item items ih =>
    rw [List.map_cons, List.sum_cons, List.sum_cons, List.length_cons, ih]
    omega

theorem countP_flatten_le {groups : List (List Nat)} {p : Nat → Bool} {m : Nat}
    (h : ∀ group ∈ groups, group.countP p ≤ m) : groups.flatten.countP p ≤ groups.length * m := by
  rw [List.countP_flatten]
  have hsum : (groups.map (List.countP p)).sum ≤ (groups.map (List.countP p)).length • m :=
    List.sum_le_card_nsmul _ m fun count hcount => by
      obtain ⟨group, hgroup, rfl⟩ := List.mem_map.mp hcount
      exact h group hgroup
  rwa [List.length_map, smul_eq_mul] at hsum

namespace Grows

variable {b n cost : Nat} {groups : List (List Nat)}

theorem length_le (h : Grows b n cost groups) : groups.length ≤ b := by
  induction h with
  | empty => exact Nat.zero_le _
  | add h hroom ih =>
    rw [List.length_append, List.length_singleton]
    exact hroom
  | @rewrite n cost groups chosen rest h hsplit hchosen ih =>
    have hlength := hsplit.length_eq
    have hpos := List.length_pos_of_ne_nil hchosen
    rw [List.length_append] at hlength ⊢
    rw [List.length_singleton]
    omega

/-- The groups hold all items, and their rewrites are the cost. -/
theorem flatten_spec (h : Grows b n cost groups) : groups.flatten.length = n ∧ groups.flatten.sum = cost := by
  induction h with
  | empty => exact ⟨rfl, rfl⟩
  | add h hroom ih =>
    rw [List.flatten_append, List.length_append, List.sum_append, ih.1, ih.2]
    exact ⟨rfl, rfl⟩
  | @rewrite n cost groups chosen rest h hsplit hchosen ih =>
    have hlength := hsplit.flatten.length_eq
    have hsum := hsplit.flatten.sum_eq
    rw [List.flatten_append, List.length_append, ih.1] at hlength
    rw [List.flatten_append, List.sum_append, ih.2] at hsum
    rw [List.flatten_append, List.flatten_singleton, List.length_append, List.length_map, List.sum_append,
      sum_map_succ]
    omega

/-- A group of items rewritten together holds few young ones. -/
theorem countP_le (h : Grows b n cost groups) (c : Nat) : ∀ group ∈ groups, group.countP (· ≤ c) ≤ b ^ c := by
  induction h generalizing c with
  | empty => exact fun group hgroup => absurd hgroup List.not_mem_nil
  | add h hroom ih =>
    intro group hgroup
    rcases List.mem_append.mp hgroup with hgroup | hgroup
    · exact ih c group hgroup
    · rw [List.mem_singleton.mp hgroup]
      exact List.countP_le_length.trans (Nat.pow_pos (Nat.zero_lt_of_lt hroom))
  | @rewrite n cost groups chosen rest h hsplit hchosen ih =>
    intro group hgroup
    rcases List.mem_append.mp hgroup with hgroup | hgroup
    · exact ih c group (hsplit.symm.subset (List.mem_append_right _ hgroup))
    · rw [List.mem_singleton.mp hgroup, List.countP_map]
      cases c with
      | zero =>
        have hnone : chosen.flatten.countP ((fun x => decide (x ≤ 0)) ∘ (· + 1)) = 0 := by
          rw [List.countP_eq_zero]
          intro item _
          simp
        rw [hnone]
        exact Nat.zero_le _
      | succ c =>
        -- Every chosen group brings the items that were younger by one rewrite.
        have hyounger : ((fun x => decide (x ≤ c + 1)) ∘ (· + 1)) = fun x => decide (x ≤ c) := by
          funext item
          simp
        have hfew : chosen.length ≤ b := by
          have hlength := hsplit.length_eq
          rw [List.length_append] at hlength
          exact (Nat.le.intro hlength.symm).trans h.length_le
        have hcount := countP_flatten_le fun group hgroup =>
          ih c group (hsplit.symm.subset (List.mem_append_left rest hgroup))
        rw [hyounger, Nat.pow_succ']
        exact hcount.trans (Nat.mul_le_mul_right _ hfew)

theorem countP_all_le (h : Grows b n cost groups) (c : Nat) : groups.flatten.countP (· ≤ c) ≤ b ^ (c + 1) := by
  rw [Nat.pow_succ']
  exact (countP_flatten_le (h.countP_le c)).trans (Nat.mul_le_mul_right _ h.length_le)

/-- No multiple of the items bounds the rewrites. -/
theorem mul_lt_cost (h : Grows b n cost groups) {c : Nat} (hn : (c + 1) * b ^ (c + 1) < n) : c * n < cost := by
  have hlow := succ_mul_length_le groups.flatten c
  have hyoung := Nat.mul_le_mul_left (c + 1) (h.countP_all_le c)
  rw [h.flatten_spec.1, h.flatten_spec.2] at hlow
  have hmul : (c + 1) * n = c * n + n := Nat.succ_mul c n
  omega

end Grows

end CascadeSearch.Lib.Generations
