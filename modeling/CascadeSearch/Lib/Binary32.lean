import CascadeSearch.Lib.RoundedSum
import Mathlib.Data.Nat.Log

/-!
# Integral single-precision values

Integers of at most 24 significant bits, with addition rounded to nearest and
ties to even. On these values binary32 addition below overflow is exactly this
operation, so they are an instance of `RoundedAdd` that does not associate.
-/
namespace CascadeSearch.Lib.Binary32

open RoundedSum (RoundedAdd)

/-- Nearest multiple of `u`, the even one of two. -/
def roundTo (u n : Nat) : Nat :=
  if u < 2 * (n % u) ∨ 2 * (n % u) = u ∧ n / u % 2 = 1 then (n / u + 1) * u else n / u * u

/-- The distance between neighbours of 24 bits around `n`. -/
def spacing (n : Nat) : Nat := 2 ^ (n.log2 - 23)

def round (n : Nat) : Nat := roundTo (spacing n) n

theorem spacing_pos (n : Nat) : 0 < spacing n := Nat.two_pow_pos _

theorem roundTo_mul {u : Nat} (hu : 0 < u) (k : Nat) : roundTo u (k * u) = k * u := by
  have hmod : k * u % u = 0 := Nat.mul_mod_left k u
  have hdiv : k * u / u = k := Nat.mul_div_cancel k hu
  unfold roundTo
  rw [hmod, hdiv, if_neg (by omega)]

theorem roundTo_mono {u m n : Nat} (h : m ≤ n) : roundTo u m ≤ roundTo u n := by
  have hq : m / u ≤ n / u := Nat.div_le_div_right h
  have hm : m % u + u * (m / u) = m := Nat.mod_add_div m u
  have hn : n % u + u * (n / u) = n := Nat.mod_add_div n u
  have hlow : roundTo u m ≤ (m / u + 1) * u := by
    unfold roundTo
    split
    · exact le_rfl
    · exact Nat.mul_le_mul_right u (Nat.le_succ _)
  have hhigh : n / u * u ≤ roundTo u n := by
    unfold roundTo
    split
    · exact Nat.mul_le_mul_right u (Nat.le_succ _)
    · exact le_rfl
  rcases Nat.lt_or_eq_of_le hq with hlt | heq
  · calc roundTo u m ≤ (m / u + 1) * u := hlow
      _ ≤ n / u * u := Nat.mul_le_mul_right u hlt
      _ ≤ roundTo u n := hhigh
  · have hr : m % u ≤ n % u := by rw [heq] at hm; omega
    unfold roundTo
    rw [heq]
    split
    · rename_i hup
      rw [if_pos (by omega)]
    · split
      · exact Nat.mul_le_mul_right u (Nat.le_succ _)
      · exact le_rfl

theorem round_of_lt {n : Nat} (h : n < 2 ^ 24) : round n = n := by
  have hlog : n.log2 - 23 = 0 := by
    rcases Nat.eq_zero_or_pos n with rfl | hpos
    · rfl
    · have := (Nat.log2_lt hpos.ne').mpr h
      omega
  unfold round spacing
  rw [hlog]
  simpa using roundTo_mul (u := 1) Nat.one_pos n

/-- From `2 ^ 24` on, rounding stays between the powers of two around `n`. -/
theorem round_between {n : Nat} (h : 2 ^ 24 ≤ n) :
    2 ^ 23 * spacing n ≤ round n ∧ round n ≤ 2 ^ 24 * spacing n := by
  have hpos : n ≠ 0 := by omega
  have hlog : 24 ≤ n.log2 := (Nat.le_log2 hpos).mpr h
  have hlow : 2 ^ 23 * spacing n ≤ n := by
    unfold spacing
    rw [← Nat.pow_add, show 23 + (n.log2 - 23) = n.log2 by omega]
    exact Nat.log2_self_le hpos
  have hhigh : n ≤ 2 ^ 24 * spacing n := by
    unfold spacing
    rw [← Nat.pow_add, show 24 + (n.log2 - 23) = n.log2 + 1 by omega]
    exact Nat.lt_log2_self.le
  constructor
  · rw [← roundTo_mul (spacing_pos n)]
    exact roundTo_mono hlow
  · rw [← roundTo_mul (spacing_pos n)]
    exact roundTo_mono hhigh

theorem round_mono {m n : Nat} (h : m ≤ n) : round m ≤ round n := by
  rcases Nat.lt_or_ge n (2 ^ 24) with hn | hn
  · rw [round_of_lt hn, round_of_lt (by omega)]
    exact h
  · have hlog : m.log2 ≤ n.log2 := by
      rw [Nat.log2_eq_log_two, Nat.log2_eq_log_two]
      exact Nat.log_mono_right h
    rcases Nat.lt_or_eq_of_le (show m.log2 - 23 ≤ n.log2 - 23 by omega) with hlt | heq
    · have hm : round m ≤ 2 ^ 24 * spacing m := by
        rcases Nat.lt_or_ge m (2 ^ 24) with hm | hm
        · rw [round_of_lt hm]
          have := spacing_pos m
          omega
        · exact (round_between hm).2
      have hspacing : 2 * spacing m ≤ spacing n := by
        unfold spacing
        rw [← Nat.pow_succ']
        exact Nat.pow_le_pow_right (by decide) hlt
      have := (round_between hn).1
      omega
    · unfold round
      rw [show spacing m = spacing n by unfold spacing; rw [heq]]
      exact roundTo_mono h

theorem round_of_multiple {n k : Nat} (h : n = k * spacing n) : round n = n := by
  calc roundTo (spacing n) n = roundTo (spacing n) (k * spacing n) := congrArg _ h
    _ = k * spacing n := roundTo_mul (spacing_pos n) k
    _ = n := h.symm

theorem round_round (n : Nat) : round (round n) = round n := by
  rcases Nat.lt_or_ge n (2 ^ 24) with hn | hn
  · rw [round_of_lt hn, round_of_lt hn]
  · obtain ⟨hlow, hhigh⟩ := round_between hn
    obtain ⟨k, hk⟩ : ∃ k, round n = k * spacing n := by
      unfold round roundTo
      split
      · exact ⟨_, rfl⟩
      · exact ⟨_, rfl⟩
    have hlog : 24 ≤ n.log2 := (Nat.le_log2 (by omega)).mpr hn
    have hexp : ∀ j, 2 ^ j * spacing n = 2 ^ (j + (n.log2 - 23)) := fun j => by
      rw [spacing, ← Nat.pow_add]
    rw [hexp] at hlow hhigh
    have hne : round n ≠ 0 := by
      have := Nat.two_pow_pos (23 + (n.log2 - 23))
      omega
    rcases Nat.lt_or_eq_of_le hhigh with hlt | heq
    · have hsame : (round n).log2 = 23 + (n.log2 - 23) := by
        refine (Nat.log2_eq_iff hne).mpr ⟨hlow, ?_⟩
        rw [show 23 + (n.log2 - 23) + 1 = 24 + (n.log2 - 23) by omega]
        exact hlt
      refine round_of_multiple (k := k) ?_
      rw [show spacing (round n) = spacing n by unfold spacing; rw [hsame]; congr 1; omega]
      exact hk
    · -- a carry into the next power of two lands on a multiple of the wider spacing
      have hcarry : (round n).log2 = 24 + (n.log2 - 23) := by
        rw [heq]
        exact Nat.log2_two_pow
      refine round_of_multiple (k := 2 ^ 23) ?_
      rw [spacing, hcarry, ← Nat.pow_add, heq]
      congr 1
      omega

/-- An integral value and the proof that rounding leaves it alone. -/
structure Single where
  value : Int
  exact : round value.natAbs = value.natAbs

namespace Single

theorem value_injective : Function.Injective Single.value := by
  rintro ⟨a, ha⟩ ⟨b, hb⟩ h
  cases h
  rfl

instance : LinearOrder Single := LinearOrder.lift' Single.value value_injective

instance : Zero Single := ⟨⟨0, by decide +kernel⟩⟩

instance : One Single := ⟨⟨1, by decide +kernel⟩⟩

instance : Neg Single := ⟨fun a => ⟨-a.value, by rw [Int.natAbs_neg]; exact a.exact⟩⟩

/-- The exact sum, rounded; the sign of a rounded value is that of the sum. -/
instance : Add Single := ⟨fun a b =>
  if 0 ≤ a.value + b.value then
    ⟨round (a.value + b.value).natAbs, by rw [Int.natAbs_natCast]; exact round_round _⟩
  else
    ⟨-round (a.value + b.value).natAbs, by
      rw [Int.natAbs_neg, Int.natAbs_natCast]; exact round_round _⟩⟩

theorem le_iff {a b : Single} : a ≤ b ↔ a.value ≤ b.value := Iff.rfl

theorem value_add {a b : Single} (ha : 0 ≤ a) (hb : 0 ≤ b) :
    (a + b).value = round (a.value.natAbs + b.value.natAbs) := by
  have ha' : 0 ≤ a.value := ha
  have hb' : 0 ≤ b.value := hb
  have hsum : a + b = ⟨round (a.value + b.value).natAbs, by
      rw [Int.natAbs_natCast]; exact round_round _⟩ := if_pos (by omega)
  rw [hsum]
  show (round (a.value + b.value).natAbs : Int) = _
  rw [show (a.value + b.value).natAbs = a.value.natAbs + b.value.natAbs by omega]

instance : RoundedAdd Single where
  add_comm ha hb := by
    apply value_injective
    rw [value_add ha hb, value_add hb ha, Nat.add_comm]
  add_le_add {a b c} ha hab hc := by
    have hb : 0 ≤ b := ha.trans hab
    have hab' : a.value ≤ b.value := hab
    have ha' : 0 ≤ a.value := ha
    rw [le_iff, value_add ha hc, value_add hb hc]
    have := @round_mono (a.value.natAbs + c.value.natAbs) (b.value.natAbs + c.value.natAbs)
      (by omega)
    omega
  zero_add {a} ha := by
    have ha' : 0 ≤ a.value := ha
    apply value_injective
    rw [value_add le_rfl ha]
    show (round ((0 : Int).natAbs + a.value.natAbs) : Int) = a.value
    rw [Int.natAbs_zero, Nat.zero_add, a.exact]
    omega
  neg_one_lt := by decide +kernel

end Single

end CascadeSearch.Lib.Binary32
