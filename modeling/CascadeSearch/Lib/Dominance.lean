import Mathlib.Algebra.BigOperators.Ring.Finset
import Mathlib.Algebra.Order.BigOperators.Group.List
import Mathlib.Algebra.Order.Ring.Defs
import Mathlib.Data.List.Sort
import Mathlib.Tactic.LinearCombination
import Mathlib.Tactic.Linarith

/-!
# Sums under decreasing weights

If every prefix of one sequence sums to at most the same prefix of another, so
does the whole under positive decreasing weights; under strictly decreasing ones
the two sums agree only if all prefixes do. The greatest elements of a list have
the greatest prefixes.
-/
namespace CascadeSearch.Lib.Dominance

open Finset (range)

section Weights

variable {R : Type*} [CommRing R] [LinearOrder R] [IsStrictOrderedRing R] {c d x y : ℕ → R} {n : ℕ}

theorem sum_mul_weight_le (hanti : StrictAnti c) (h : ∀ m ≤ n, 0 ≤ ∑ i ∈ range m, d i) :
    (∑ i ∈ range n, d i) * c n ≤ ∑ i ∈ range n, d i * c i := by
  induction n with
  | zero => simp
  | succ n ih =>
    have hprev := ih fun m hm => h m (Nat.le_succ_of_le hm)
    have hlast := mul_le_mul_of_nonneg_left (hanti n.lt_succ_self).le (h (n + 1) le_rfl)
    rw [Finset.sum_range_succ] at hlast ⊢
    rw [Finset.sum_range_succ (fun i => d i * c i)]
    linarith [add_mul (∑ i ∈ range n, d i) (d n) (c n)]

/-- The sum is only that small if all prefixes vanish. -/
theorem prefix_eq_zero_of_le (hanti : StrictAnti c) (h : ∀ m ≤ n, 0 ≤ ∑ i ∈ range m, d i)
    (hle : ∑ i ∈ range n, d i * c i ≤ (∑ i ∈ range n, d i) * c n) : ∀ m ≤ n, ∑ i ∈ range m, d i = 0 := by
  induction n with
  | zero =>
    intro m hm
    rw [Nat.le_zero.mp hm, Finset.sum_range_zero]
  | succ n ih =>
    have hbefore : ∀ m ≤ n, 0 ≤ ∑ i ∈ range m, d i := fun m hm => h m (Nat.le_succ_of_le hm)
    have hprev := sum_mul_weight_le hanti hbefore
    have hlt := hanti n.lt_succ_self
    have hlast := h (n + 1) le_rfl
    rw [Finset.sum_range_succ] at hlast hle
    rw [Finset.sum_range_succ] at hle
    have hzero : ∑ i ∈ range n, d i + d n = 0 := by
      by_contra hne
      have hpos := mul_lt_mul_of_pos_left hlt (lt_of_le_of_ne hlast (Ne.symm hne))
      linarith [add_mul (∑ i ∈ range n, d i) (d n) (c n)]
    have hdn : d n * c n = -((∑ i ∈ range n, d i) * c n) := by linear_combination c n * hzero
    rw [hzero, zero_mul, hdn] at hle
    intro m hm
    rcases Nat.le_succ_iff.mp hm with hm | rfl
    · exact ih hbefore (by linarith) m hm
    · rw [Finset.sum_range_succ, hzero]

theorem weighted_le (hanti : StrictAnti c) (hpos : ∀ i, 0 < c i)
    (h : ∀ m ≤ n, ∑ i ∈ range m, x i ≤ ∑ i ∈ range m, y i) :
    ∑ i ∈ range n, x i * c i ≤ ∑ i ∈ range n, y i * c i := by
  have hdiff : ∀ m ≤ n, 0 ≤ ∑ i ∈ range m, (y i - x i) := fun m hm => by
    rw [Finset.sum_sub_distrib]
    exact sub_nonneg.mpr (h m hm)
  have hsum := (mul_nonneg (hdiff n le_rfl) (hpos n).le).trans (sum_mul_weight_le hanti hdiff)
  simp only [sub_mul, Finset.sum_sub_distrib] at hsum
  exact sub_nonneg.mp hsum

theorem weighted_eq_iff (hanti : StrictAnti c) (hpos : ∀ i, 0 < c i)
    (h : ∀ m ≤ n, ∑ i ∈ range m, x i ≤ ∑ i ∈ range m, y i) :
    ∑ i ∈ range n, x i * c i = ∑ i ∈ range n, y i * c i ↔
      ∀ m ≤ n, ∑ i ∈ range m, x i = ∑ i ∈ range m, y i := by
  constructor
  · intro heq
    have hdiff : ∀ m ≤ n, 0 ≤ ∑ i ∈ range m, (y i - x i) := fun m hm => by
      rw [Finset.sum_sub_distrib]
      exact sub_nonneg.mpr (h m hm)
    have hzero : ∑ i ∈ range n, (y i - x i) * c i = 0 := by
      simp only [sub_mul, Finset.sum_sub_distrib, heq, sub_self]
    have hpre := prefix_eq_zero_of_le hanti hdiff (hzero.trans_le (mul_nonneg (hdiff n le_rfl) (hpos n).le))
    intro m hm
    have hm := hpre m hm
    rw [Finset.sum_sub_distrib] at hm
    exact (sub_eq_zero.mp hm).symm
  · intro heq
    refine Finset.sum_congr rfl fun i hi => ?_
    have hi := Finset.mem_range.mp hi
    have hnext := heq (i + 1) hi
    rw [Finset.sum_range_succ, Finset.sum_range_succ, heq i hi.le] at hnext
    rw [add_left_cancel hnext]

end Weights

section Lists

variable {M : Type*} [AddCommMonoid M]

theorem sum_range_getD (l : List M) (m : ℕ) : ∑ i ∈ range m, l.getD i 0 = (l.take m).sum := by
  induction m with
  | zero => rfl
  | succ m ih =>
    rw [Finset.sum_range_succ, ih, List.take_add_one, List.sum_append, List.getD_eq_getElem?_getD]
    cases l[m]? with
    | none => simp
    | some a => simp

/-- The sum over a list whose elements carry their ranks. -/
theorem sum_zipIdx {α : Type*} (l : List α) (a : α) (f : α → ℕ → M) (rank : ℕ) :
    ((l.zipIdx rank).map fun entry => f entry.1 entry.2).sum = ∑ i ∈ range l.length, f (l.getD i a) (rank + i) := by
  induction l generalizing rank with
  | nil => rfl
  | cons b l ih =>
    rw [List.zipIdx_cons, List.map_cons, List.sum_cons, ih, List.length_cons, Finset.sum_range_succ']
    rw [add_comm]
    congr 1
    refine Finset.sum_congr rfl fun i _ => ?_
    rw [List.getD_cons_succ, Nat.add_right_comm, Nat.add_assoc]

/-- Equal prefixes determine a list that has no zeros. -/
theorem take_eq_of_prefixes [IsLeftCancelAdd M] {l' : List M} :
    ∀ {l : List M} {n : ℕ}, (∀ a ∈ l', a ≠ 0) → l'.length ≤ n → (∀ m ≤ n, (l.take m).sum = (l'.take m).sum) →
      l.take l'.length = l' := by
  induction l' with
  | nil => exact fun _ _ _ => List.take_zero
  | cons a l' ih =>
    intro l n hne hlen h
    obtain ⟨ha, hrest⟩ := List.forall_mem_cons.mp hne
    rw [List.length_cons] at hlen
    have hfirst := h 1 (by omega)
    cases l with
    | nil =>
      rw [List.take_nil, List.sum_nil, List.take_succ_cons, List.take_zero, List.sum_singleton] at hfirst
      exact absurd hfirst.symm ha
    | cons b l =>
      rw [List.take_succ_cons, List.take_succ_cons, List.take_zero, List.take_zero, List.sum_singleton,
        List.sum_singleton] at hfirst
      subst hfirst
      rw [List.length_cons, List.take_succ_cons]
      refine congrArg (b :: ·) (ih (n := n - 1) hrest (by omega) fun m hm => ?_)
      have hnext := h (m + 1) (by omega)
      rw [List.take_succ_cons, List.take_succ_cons, List.sum_cons, List.sum_cons] at hnext
      exact add_left_cancel hnext

end Lists

/-- Among all choices of at most `m` elements of a list the greatest ones have the greatest sum. -/
theorem sum_le_sum_take {M : Type*} [AddCommMonoid M] [LinearOrder M] [IsOrderedAddMonoid M] {l : List M} :
    ∀ {s : List M} {m : ℕ}, l.Pairwise (· ≥ ·) → (∀ a ∈ l, 0 ≤ a) → s.Subperm l → s.length ≤ m →
      s.sum ≤ (l.take m).sum := by
  induction l with
  | nil =>
    intro s m _ _ hsub _
    rw [List.subperm_nil.mp hsub, List.take_nil]
  | cons a l ih =>
    intro s m hsorted hnonneg hsub hlen
    obtain ⟨hhead, htail⟩ := List.pairwise_cons.mp hsorted
    have hrest : ∀ b ∈ l, 0 ≤ b := fun b hb => hnonneg b (List.mem_cons_of_mem _ hb)
    have herase := hsub.erase a
    rw [List.erase_cons_head] at herase
    cases m with
    | zero => rw [List.length_eq_zero_iff.mp (Nat.le_zero.mp hlen), List.take_zero]
    | succ m =>
      rw [List.take_succ_cons, List.sum_cons]
      by_cases ha : a ∈ s
      · have hperm := List.perm_cons_erase ha
        rw [hperm.sum_eq, List.sum_cons]
        rw [hperm.length_eq, List.length_cons] at hlen
        exact add_le_add_right (ih htail hrest herase (Nat.le_of_succ_le_succ hlen)) a
      · rw [List.erase_of_not_mem ha] at herase
        cases s with
        | nil =>
          exact add_nonneg (hnonneg a List.mem_cons_self)
            (List.sum_nonneg fun b hb => hrest b (List.mem_of_mem_take hb))
        | cons b s =>
          rw [List.sum_cons]
          exact add_le_add (hhead b (herase.subset List.mem_cons_self)) (ih htail hrest
            ((List.sublist_cons_self b s).subperm.trans herase) (Nat.le_of_succ_le_succ hlen))

end CascadeSearch.Lib.Dominance
