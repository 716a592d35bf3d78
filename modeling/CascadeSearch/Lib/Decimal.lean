import CascadeSearch.Lib.Memory
import Mathlib.Data.Nat.Digits.Lemmas

/-!
# Decimal numerals

The digits of a natural number as ASCII bytes, most significant first, and that
they determine the number.
-/
namespace CascadeSearch.Lib.Decimal

open Lib.Memory (Byte)

def decimal (n : Nat) : List Byte :=
  if n = 0 then [0x30] else (Nat.digits 10 n).reverse.map fun d => Fin.ofNat 256 (0x30 + d)

/-- `decimal` read back. -/
def readDecimal (digits : List Byte) : Nat :=
  Nat.ofDigits 10 (digits.reverse.map fun c => c.val - 0x30)

theorem digit_val {d : Nat} (h : d < 10) : (Fin.ofNat 256 (0x30 + d) : Byte).val = 0x30 + d :=
  Nat.mod_eq_of_lt (by omega)

theorem readDecimal_decimal (n : Nat) : readDecimal (decimal n) = n := by
  unfold readDecimal decimal
  split
  · rename_i hn
    rw [hn]
    decide
  · rw [← List.map_reverse, List.reverse_reverse, List.map_map]
    have hid : ∀ d ∈ Nat.digits 10 n,
        ((fun c : Byte => c.val - 0x30) ∘ fun d => Fin.ofNat 256 (0x30 + d)) d = id d := fun d hd => by
      have hlt := Nat.digits_lt_base (by decide : 1 < 10) hd
      change (Fin.ofNat 256 (0x30 + d) : Byte).val - 0x30 = d
      rw [digit_val hlt, Nat.add_sub_cancel_left]
    rw [List.map_congr_left hid, List.map_id, Nat.ofDigits_digits]

theorem decimal_injective : Function.Injective decimal :=
  Function.LeftInverse.injective readDecimal_decimal

theorem decimal_digits (n : Nat) : ∀ c ∈ decimal n, 0x30 ≤ c.val ∧ c.val < 0x3A := by
  unfold decimal
  split
  · intro c hc
    rw [List.mem_singleton.mp hc]
    decide
  · intro c hc
    obtain ⟨d, hd, rfl⟩ := List.mem_map.mp hc
    have hlt := Nat.digits_lt_base (by decide : 1 < 10) (List.mem_reverse.mp hd)
    rw [digit_val hlt]
    omega

end CascadeSearch.Lib.Decimal
