import Mathlib.Data.List.Sort
import Mathlib.Order.RelClasses

/-!
# Sorting by a key

Python's `sorted` is stable and asks nothing but whether one key is less than
another. On a strict weak order, such as the floats without NaN, its result has
no element that is less than an earlier one.
-/
namespace CascadeSearch.Lib.Sorted

variable {α β : Type*}

/-- `sorted(l)`. -/
def sorted (lt : α → α → Prop) [DecidableRel lt] (l : List α) : List α := l.insertionSort fun a b => ¬lt b a

/-- `sorted(l, reverse=True)`. -/
def sortedReverse (lt : α → α → Prop) [DecidableRel lt] (l : List α) : List α := l.insertionSort fun a b => ¬lt a b

/-- The comparison of tuples: the first parts that are not equal decide. -/
def pairLt (lt : α → α → Prop) (lt' : β → β → Prop) (a b : α × β) : Prop :=
  lt a.1 b.1 ∨ ¬lt b.1 a.1 ∧ lt' a.2 b.2

instance (lt : α → α → Prop) (lt' : β → β → Prop) [DecidableRel lt] [DecidableRel lt'] :
    DecidableRel (pairLt lt lt') := fun _ _ => inferInstanceAs (Decidable (_ ∨ _))

theorem not_pairLt_iff {lt : α → α → Prop} {lt' : β → β → Prop} {a b : α × β} :
    ¬pairLt lt lt' a b ∧ ¬pairLt lt lt' b a ↔
      (¬lt a.1 b.1 ∧ ¬lt b.1 a.1) ∧ ¬lt' a.2 b.2 ∧ ¬lt' b.2 a.2 := by
  unfold pairLt
  tauto

variable {lt lt' : α → α → Prop} [DecidableRel lt] [DecidableRel lt'] {l : List α}

theorem sorted_perm : (sorted lt l).Perm l := List.perm_insertionSort _ l

theorem sortedReverse_perm : (sortedReverse lt l).Perm l := List.perm_insertionSort _ l

/-- Only the order matters, not how it is computed. -/
theorem sorted_eq_sortedReverse (h : ∀ a b, lt a b ↔ lt' b a) : sorted lt l = sortedReverse lt' l := by
  have hrel : (fun a b => ¬lt b a) = fun a b => ¬lt' a b := by
    funext a b
    rw [h b a]
  unfold sorted sortedReverse
  congr 1

instance (priority := low) strictWeakOrder_of_total {α : Type*} {lt : α → α → Prop} [IsStrictTotalOrder α lt] : IsStrictWeakOrder α lt :=
  isStrictWeakOrder_of_isOrderConnected

section StrictWeakOrder

variable [IsStrictWeakOrder α lt]

omit [DecidableRel lt] in
theorem not_lt_trans {a b c : α} (hab : ¬lt a b) (hbc : ¬lt b c) : ¬lt a c := by
  intro hac
  have hba : ¬lt b a := fun hba => hbc (trans_of lt hba hac)
  have hcb : ¬lt c b := fun hcb => hab (trans_of lt hac hcb)
  exact (IsStrictWeakOrder.incomp_trans a b c ⟨hab, hba⟩ ⟨hbc, hcb⟩).1 hac

omit [DecidableRel lt] in
/-- What is neither less nor greater compares alike. -/
theorem lt_congr {a b c d : α} (hab : ¬lt a b ∧ ¬lt b a) (hcd : ¬lt c d ∧ ¬lt d c) : lt a c ↔ lt b d := by
  have hflip : ∀ {a b c d : α}, ¬lt a b → ¬lt d c → ¬lt b d → ¬lt a c := fun hab hdc hbd =>
    not_lt_trans hab (not_lt_trans hbd hdc)
  exact ⟨fun h => not_not.mp fun hbd => hflip hab.1 hcd.2 hbd h, fun h => not_not.mp fun hac => hflip hab.2 hcd.1 hac h⟩

instance isTrans_not_lt : IsTrans α fun a b => ¬lt a b := ⟨fun _ _ _ => not_lt_trans⟩

instance total_not_lt : Std.Total fun a b => ¬lt a b := ⟨fun _ _ => not_and_or.mp fun h => asymm_of lt h.1 h.2⟩

theorem pairwise_sortedReverse (l : List α) : (sortedReverse lt l).Pairwise fun a b => ¬lt a b :=
  List.pairwise_insertionSort _ l

omit [IsStrictWeakOrder α lt] in
theorem sortedReverse_eq_self (h : l.Pairwise fun a b => ¬lt a b) : sortedReverse lt l = l := h.insertionSort_eq

/-- What is left of a sorted list after a cut is sorted. -/
theorem sortedReverse_take (n : Nat) :
    sortedReverse lt ((sortedReverse lt l).take n) = (sortedReverse lt l).take n :=
  sortedReverse_eq_self ((pairwise_sortedReverse l).sublist (List.take_sublist n _))

/-- Where no two elements compare alike, the order of the list does not matter. -/
theorem sortedReverse_eq_of_perm {l l' : List α} (hperm : l.Perm l')
    (h : ∀ a ∈ l, ∀ b ∈ l, ¬lt a b → ¬lt b a → a = b) : sortedReverse lt l = sortedReverse lt l' := by
  refine (sortedReverse_perm.trans (hperm.trans sortedReverse_perm.symm)).eq_of_pairwise (fun a b ha hb hab hba => ?_)
    (pairwise_sortedReverse l) (pairwise_sortedReverse l')
  exact h a (sortedReverse_perm.mem_iff.mp ha) b (hperm.mem_iff.mpr (sortedReverse_perm.mem_iff.mp hb)) hab hba

omit [IsStrictWeakOrder α lt] in
/-- A change that the comparison does not see can be made before or after sorting. -/
theorem sortedReverse_map {f : α → α} (h : ∀ a ∈ l, ∀ b ∈ l, lt a b ↔ lt (f a) (f b)) :
    sortedReverse lt (l.map f) = (sortedReverse lt l).map f :=
  (List.map_insertionSort _ _ f l fun a ha b hb => not_congr (h a ha b hb)).symm

end StrictWeakOrder

instance [IsStrictWeakOrder α lt] {ltβ : β → β → Prop} [IsStrictWeakOrder β ltβ] :
    IsStrictWeakOrder (α × β) (pairLt lt ltβ) where
  irrefl a := by
    rintro (h | ⟨-, h⟩)
    · exact irrefl_of lt a.1 h
    · exact irrefl_of ltβ a.2 h
  trans a b c := by
    rintro (hab | ⟨hab, hab'⟩) (hbc | ⟨hbc, hbc'⟩)
    · exact .inl (trans_of lt hab hbc)
    · exact .inl (not_not.mp fun h => not_lt_trans h hbc hab)
    · exact .inl (not_not.mp fun h => not_lt_trans hab h hbc)
    · exact .inr ⟨not_lt_trans hbc hab, trans_of ltβ hab' hbc'⟩
  incomp_trans a b c := by
    rw [not_pairLt_iff, not_pairLt_iff, not_pairLt_iff]
    rintro ⟨hab, hab'⟩ ⟨hbc, hbc'⟩
    exact ⟨IsStrictWeakOrder.incomp_trans _ _ _ hab hbc, IsStrictWeakOrder.incomp_trans _ _ _ hab' hbc'⟩

end CascadeSearch.Lib.Sorted
