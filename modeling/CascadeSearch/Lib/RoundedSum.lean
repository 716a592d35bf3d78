import Mathlib.Data.List.Sort
import Mathlib.Data.List.Perm.Basic
import Mathlib.Data.List.Permutation
import Mathlib.Tactic.Ring
import Mathlib.Algebra.Order.Field.Rat

/-!
# Sums under an addition that need not associate

Rounded addition of non-negative numbers is commutative, monotone and has zero
as identity, and nothing more: the sum of a list depends on the order it is
taken in. `RoundedAdd` states these laws on the non-negative elements only.
`NoScoreBetween` says how much two orders may disagree without consequence: no
element of the type lies strictly between their sums. Exact addition satisfies
it because the two sums are equal.
-/
namespace CascadeSearch.Lib.RoundedSum

/-- The laws of rounded addition, on non-negative elements. The element `-1` is
only ever told apart from them. -/
class RoundedAdd (S : Type) [LinearOrder S] [Zero S] [One S] [Neg S] [Add S] : Prop where
  add_comm : ∀ {a b : S}, 0 ≤ a → 0 ≤ b → a + b = b + a
  add_le_add : ∀ {a b c : S}, 0 ≤ a → a ≤ b → 0 ≤ c → a + c ≤ b + c
  zero_add : ∀ {a : S}, 0 ≤ a → 0 + a = a
  neg_one_lt : (-1 : S) < 0

instance : RoundedAdd ℚ where
  add_comm _ _ := by ring
  add_le_add _ h _ := add_le_add_left h _
  zero_add _ := by ring
  neg_one_lt := by decide +kernel

/-- The sum in list order, as an accumulator starting from zero forms it. -/
def sum {S : Type} [Zero S] [Add S] (l : List S) : S := l.foldl (· + ·) 0

variable {S : Type} [LinearOrder S] [Zero S] [One S] [Neg S] [Add S] [RoundedAdd S]

def NonNeg (l : List S) : Prop := ∀ x ∈ l, 0 ≤ x

theorem add_nonneg {a b : S} (ha : 0 ≤ a) (hb : 0 ≤ b) : 0 ≤ a + b := by
  calc (0 : S) ≤ b := hb
    _ = 0 + b := (RoundedAdd.zero_add hb).symm
    _ ≤ a + b := RoundedAdd.add_le_add le_rfl ha hb

theorem le_add_right {a b : S} (ha : 0 ≤ a) (hb : 0 ≤ b) : a ≤ a + b := by
  calc a = 0 + a := (RoundedAdd.zero_add ha).symm
    _ ≤ b + a := RoundedAdd.add_le_add le_rfl hb ha
    _ = a + b := RoundedAdd.add_comm hb ha

theorem add_le_add' {a b c d : S} (ha : 0 ≤ a) (hab : a ≤ b) (hc : 0 ≤ c) (hcd : c ≤ d) :
    a + c ≤ b + d := by
  have hb : 0 ≤ b := ha.trans hab
  calc a + c ≤ b + c := RoundedAdd.add_le_add ha hab hc
    _ = c + b := RoundedAdd.add_comm hb hc
    _ ≤ d + b := RoundedAdd.add_le_add hc hcd hb
    _ = b + d := RoundedAdd.add_comm (hc.trans hcd) hb

theorem foldl_nonneg {l : List S} (hl : NonNeg l) {a : S} (ha : 0 ≤ a) :
    0 ≤ l.foldl (· + ·) a := by
  induction l generalizing a with
  | nil => exact ha
  | cons x l ih =>
    have hx := hl x List.mem_cons_self
    exact ih (fun y hy => hl y (List.mem_cons_of_mem _ hy)) (add_nonneg ha hx)

theorem sum_nonneg {l : List S} (hl : NonNeg l) : 0 ≤ sum l := foldl_nonneg hl le_rfl

theorem sum_eq_zero {l : List S} (h : ∀ x ∈ l, x = 0) : sum l = 0 := by
  induction l with
  | nil => rfl
  | cons x l ih =>
    have hx : (0 : S) + x = 0 := by
      rw [h x List.mem_cons_self]
      exact RoundedAdd.zero_add le_rfl
    have hstep : sum (x :: l) = l.foldl (· + ·) (0 + x) := rfl
    rw [hstep, hx]
    exact ih fun y hy => h y (List.mem_cons_of_mem _ hy)

/-- Dropping summands and starting lower can only lower an accumulated sum. -/
theorem foldl_le_of_sublist {l l' : List S} (h : l.Sublist l') (hl : NonNeg l') :
    ∀ {a a' : S}, 0 ≤ a → a ≤ a' → l.foldl (· + ·) a ≤ l'.foldl (· + ·) a' := by
  induction h with
  | slnil => intro a a' _ haa; exact haa
  | cons x h ih =>
    intro a a' ha haa
    have hx := hl x List.mem_cons_self
    have hl' : NonNeg _ := fun y hy => hl y (List.mem_cons_of_mem _ hy)
    exact ih hl' ha (haa.trans (le_add_right (ha.trans haa) hx))
  | cons_cons x h ih =>
    intro a a' ha haa
    have hx := hl x List.mem_cons_self
    have hl' : NonNeg _ := fun y hy => hl y (List.mem_cons_of_mem _ hy)
    exact ih hl' (add_nonneg ha hx) (RoundedAdd.add_le_add ha haa hx)

theorem sum_le_of_sublist {l l' : List S} (h : l.Sublist l') (hl : NonNeg l') :
    sum l ≤ sum l' := foldl_le_of_sublist h hl le_rfl le_rfl

/-- Raising every summand raises the accumulated sum. -/
theorem foldl_map_le {α : Type*} {f g : α → S} {l : List α}
    (hf : ∀ x ∈ l, 0 ≤ f x) (hfg : ∀ x ∈ l, f x ≤ g x) :
    ∀ {a a' : S}, 0 ≤ a → a ≤ a' →
      (l.map f).foldl (· + ·) a ≤ (l.map g).foldl (· + ·) a' := by
  induction l with
  | nil => intro a a' _ haa; exact haa
  | cons x l ih =>
    intro a a' ha haa
    have hx := hf x List.mem_cons_self
    exact ih (fun y hy => hf y (List.mem_cons_of_mem _ hy))
      (fun y hy => hfg y (List.mem_cons_of_mem _ hy)) (add_nonneg ha hx)
      (add_le_add' ha haa hx (hfg x List.mem_cons_self))

theorem sum_map_le {α : Type*} {f g : α → S} {l : List α}
    (hf : ∀ x ∈ l, 0 ≤ f x) (hfg : ∀ x ∈ l, f x ≤ g x) :
    sum (l.map f) ≤ sum (l.map g) := foldl_map_le hf hfg le_rfl le_rfl

/-- Whatever the order, an element exceeding one sum of at most `n` summands is
at least the other. -/
def NoScoreBetween (S : Type) [LinearOrder S] [Zero S] [Add S] (n : Nat) : Prop :=
  ∀ l l' : List S, NonNeg l → l.Perm l' → l.length ≤ n → ∀ c, sum l < c → sum l' ≤ c

theorem sum_perm_rat {l l' : List ℚ} (h : l.Perm l') : sum l = sum l' := by
  unfold sum
  exact h.foldl_eq 0

theorem noScoreBetween_rat (n : Nat) : NoScoreBetween ℚ n := by
  intro l l' _ hp _ c hc
  rw [← sum_perm_rat hp]
  exact hc.le

variable {l l' p : List S} {a c : S} {n : Nat}

theorem add_zero {a : S} (ha : 0 ≤ a) : a + 0 = a :=
  (RoundedAdd.add_comm ha le_rfl).trans (RoundedAdd.zero_add ha)

theorem foldl_filter_pos (hl : NonNeg l) :
    ∀ {a : S}, 0 ≤ a → (l.filter (0 < ·)).foldl (· + ·) a = l.foldl (· + ·) a := by
  induction l with
  | nil => intro a _; rfl
  | cons x l ih =>
    intro a ha
    have hx := hl x List.mem_cons_self
    have ih := @ih fun y hy => hl y (List.mem_cons_of_mem _ hy)
    rcases hx.lt_or_eq with hpos | hzero
    · rw [List.filter_cons_of_pos (by simpa using hpos), List.foldl_cons, List.foldl_cons]
      exact ih (add_nonneg ha hx)
    · rw [List.filter_cons_of_neg (by simp [← hzero]), List.foldl_cons, ← hzero, add_zero ha]
      exact ih ha

/-- Zeros contribute nothing, wherever they stand. -/
theorem sum_filter_pos (hl : NonNeg l) : sum (l.filter (0 < ·)) = sum l := foldl_filter_pos hl le_rfl

theorem sum_map_of_sublist {α : Type*} {f : α → S} {l l' : List α} (h : l.Sublist l') :
    l'.Nodup → (∀ x ∈ l', 0 ≤ f x) → (∀ x ∈ l', x ∉ l → f x = 0) → sum (l.map f) = sum (l'.map f) := by
  have hfold : l'.Nodup → (∀ x ∈ l', 0 ≤ f x) → (∀ x ∈ l', x ∉ l → f x = 0) →
      ∀ {a : S}, 0 ≤ a → (l.map f).foldl (· + ·) a = (l'.map f).foldl (· + ·) a := by
    induction h with
    | slnil => intro _ _ _ a _; rfl
    | @cons l l' x h ih =>
      intro hnd hf hzero a ha
      obtain ⟨hx, hnd⟩ := List.nodup_cons.mp hnd
      rw [List.map_cons, List.foldl_cons, hzero x List.mem_cons_self fun hm => hx (h.mem hm), add_zero ha]
      exact ih hnd (fun y hy => hf y (List.mem_cons_of_mem _ hy))
        (fun y hy => hzero y (List.mem_cons_of_mem _ hy)) ha
    | @cons_cons l l' x h ih =>
      intro hnd hf hzero a ha
      obtain ⟨hx, hnd⟩ := List.nodup_cons.mp hnd
      refine ih hnd (fun y hy => hf y (List.mem_cons_of_mem _ hy)) (fun y hy hout => ?_)
        (add_nonneg ha (hf x List.mem_cons_self))
      refine hzero y (List.mem_cons_of_mem _ hy) fun hm => ?_
      rcases List.mem_cons.mp hm with rfl | hm
      · exact hx hy
      · exact hout hm
  exact fun hnd hf hzero => hfold hnd hf hzero le_rfl

/-- What bounds every order of some summands bounds every order of fewer. -/
theorem sum_lt_of_subperm (h : l.Subperm l') (hn : NonNeg l') (hall : ∀ m, m.Perm l' → sum m < c) :
    ∀ m, m.Perm l → sum m < c := by
  intro m hm
  obtain ⟨listed, hperm, hsub⟩ := h
  obtain ⟨rest, hrest⟩ := hsub.exists_perm_append
  have hall' := hall (m ++ rest) (((hm.trans hperm.symm).append_right rest).trans hrest.symm)
  refine (sum_le_of_sublist (List.sublist_append_left m rest) fun x hx => hn x ?_).trans_lt hall'
  exact hrest.mem_iff.mpr ((((hm.trans hperm.symm).append_right rest).mem_iff).mp hx)

/-- Leaving a positive one out of at most `n` summands, and taking the others in
a different order, never gives more. -/
def NoGain (S : Type) [LinearOrder S] [Zero S] [Add S] (n : Nat) : Prop :=
  ∀ (p l : List S) (c : S), NonNeg p → 0 < c → p.Perm (c :: l) → p.length ≤ n → sum l ≤ sum p

/-- Only the positive summands count. -/
theorem NoGain.sum_le (h : NoGain S n) (hp : NonNeg p) (hc : 0 < c) (hperm : p.Perm (c :: l))
    (hlen : (p.filter (0 < ·)).length ≤ n) : sum l ≤ sum p := by
  have hl : NonNeg l := fun x hx => hp x (hperm.mem_iff.mpr (List.mem_cons_of_mem _ hx))
  have hpos := hperm.filter (fun x => decide (0 < x))
  rw [List.filter_cons_of_pos (by simpa using hc)] at hpos
  rw [← sum_filter_pos hl, ← sum_filter_pos hp]
  exact h _ _ c (fun x hx => hp x (List.mem_of_mem_filter hx)) hc hpos hlen

theorem noGain_rat (n : Nat) : NoGain ℚ n := by
  intro p l c hp _ hperm _
  rw [sum_perm_rat hperm]
  exact sum_le_of_sublist (List.sublist_cons_self c l) fun x hx => hp x (hperm.mem_iff.mpr hx)

/-- Two summands come to the same in both orders. -/
theorem sum_perm_of_length_le_two (hl : NonNeg l) (h : l.Perm l') (hlen : l.length ≤ 2) : sum l' = sum l := by
  have hlen' : l.length = 0 ∨ l.length = 1 ∨ l.length = 2 := by omega
  rcases hlen' with hzero | hone | htwo
  · obtain rfl := List.length_eq_zero_iff.mp hzero
    rw [List.nil_perm.mp h]
  · obtain ⟨x, rfl⟩ := List.length_eq_one_iff.mp hone
    rw [List.singleton_perm.mp h]
  · obtain ⟨x, y, rfl⟩ := List.length_eq_two.mp htwo
    have hx := hl x (by simp)
    have hy := hl y (by simp)
    rcases List.pair_perm.mp h with rfl | rfl
    · rfl
    · show (0 + y) + x = (0 + x) + y
      rw [RoundedAdd.zero_add hx, RoundedAdd.zero_add hy]
      exact RoundedAdd.add_comm hy hx

/-- For two summands commutativity is enough. -/
theorem noScoreBetween_two : NoScoreBetween S 2 := by
  intro l l' hl hperm hlen c hc
  rw [sum_perm_of_length_le_two hl hperm hlen]
  exact hc.le

/-- To leave one out of three it is enough as well. -/
theorem noGain_three : NoGain S 3 := by
  intro p l c hp _ hperm hlen
  obtain ⟨m, hm, hsub⟩ := hperm.subperm_left.mpr (List.sublist_cons_self c l).subperm
  have hlen' : m.length ≤ 2 := by
    have := hperm.length_eq
    rw [List.length_cons, ← hm.length_eq] at this
    omega
  rw [sum_perm_of_length_le_two (fun x hx => hp x (hsub.mem hx)) hm hlen']
  exact sum_le_of_sublist hsub hp

end CascadeSearch.Lib.RoundedSum
