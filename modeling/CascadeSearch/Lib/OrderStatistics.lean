import Mathlib.Data.List.Sort
import Mathlib.Order.Basic

/-!
# Order statistics

The entry at `i` of a list in ascending order is at most `x` exactly if more
than `i` entries are. So it is the smallest entry with that many at most it, and
it only grows where the entries grow.
-/
namespace CascadeSearch.Lib.OrderStatistics

variable {S : Type*} [LinearOrder S] {l l' : List S} {i : Nat} {x : S}

def ascending (l : List S) : List S := l.insertionSort (· ≤ ·)

theorem ascending_perm (l : List S) : (ascending l).Perm l := List.perm_insertionSort _ l

@[simp] theorem length_ascending (l : List S) : (ascending l).length = l.length := (ascending_perm l).length_eq

theorem pairwise_ascending (l : List S) : (ascending l).Pairwise (· ≤ ·) := List.pairwise_insertionSort _ l

theorem getElem_le_iff_of_pairwise (hsort : l.Pairwise (· ≤ ·)) (hi : i < l.length) :
    l[i] ≤ x ↔ i < l.countP (· ≤ x) := by
  induction l generalizing i with
  | nil => exact absurd hi (Nat.not_lt_zero i)
  | cons y l ih =>
    have hle : ∀ z ∈ l, y ≤ z := fun z hz => List.rel_of_pairwise_cons hsort hz
    by_cases hy : y ≤ x
    · rw [List.countP_cons_of_pos (by simpa using hy)]
      cases i with
      | zero => exact iff_of_true hy (Nat.succ_pos _)
      | succ i =>
        rw [List.getElem_cons_succ, ih hsort.of_cons (Nat.lt_of_succ_lt_succ hi)]
        omega
    · have hnone : l.countP (· ≤ x) = 0 :=
        List.countP_eq_zero.mpr fun z hz => by simpa using (not_le.mp hy).trans_le (hle z hz)
      rw [List.countP_cons_of_neg (by simpa using hy), hnone]
      refine iff_of_false (fun hget => hy (le_trans ?_ hget)) (Nat.not_lt_zero i)
      cases i with
      | zero => exact le_rfl
      | succ i => exact hle _ (List.getElem_mem _)

theorem getElem_le_iff (hi : i < (ascending l).length) : (ascending l)[i] ≤ x ↔ i < l.countP (· ≤ x) := by
  rw [getElem_le_iff_of_pairwise (pairwise_ascending l) hi, (ascending_perm l).countP_eq]

theorem getElem_mem_ascending (hi : i < (ascending l).length) : (ascending l)[i] ∈ l :=
  (ascending_perm l).subset (List.getElem_mem hi)

theorem countP_le_of_forall₂ (h : List.Forall₂ (· ≤ ·) l l') : l'.countP (· ≤ x) ≤ l.countP (· ≤ x) := by
  induction h with
  | nil => exact le_rfl
  | @cons a b l l' hab _ ih =>
    rw [List.countP_cons, List.countP_cons]
    by_cases hb : b ≤ x
    · rw [if_pos (decide_eq_true hb), if_pos (decide_eq_true (hab.trans hb))]
      omega
    · rw [if_neg (by simpa using hb)]
      exact ih.trans (Nat.le_add_right _ _)

/-- Where every entry is at most the one beside it, so is every order statistic. -/
theorem getElem_le_getElem (h : List.Forall₂ (· ≤ ·) l l') (hi : i < (ascending l).length)
    (hi' : i < (ascending l').length) : (ascending l)[i] ≤ (ascending l')[i] := by
  rw [getElem_le_iff]
  exact ((getElem_le_iff hi').mp le_rfl).trans_le (countP_le_of_forall₂ h)

theorem getElem_le_getElem_of_le {j : Nat} (hij : i ≤ j) (hj : j < (ascending l).length) :
    (ascending l)[i] ≤ (ascending l)[j] := by
  rcases hij.eq_or_lt with rfl | hlt
  · exact le_rfl
  · exact List.pairwise_iff_getElem.mp (pairwise_ascending l) i j _ hj hlt

end CascadeSearch.Lib.OrderStatistics
