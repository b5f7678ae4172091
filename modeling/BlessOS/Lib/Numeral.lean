import Mathlib.Data.List.Basic
import Mathlib.Data.Nat.Digits.Defs

/-!
# Numerals of a fixed width

The digits of a number at the lowest places, and that they are its numeral with zeros in front.
-/

set_option autoImplicit false

namespace BlessOS.Lib.Numeral

variable {b w n : Nat}

/-- The digits at the `w` lowest places, the highest first. -/
def places (b w n : Nat) : List Char :=
  (List.range w).reverse.map fun i => Nat.digitChar (n / b ^ i % b)

theorem places_high (b w n : Nat) :
    places b (w + 1) n = Nat.digitChar (n / b ^ w % b) :: places b w n := by
  simp [places, List.range_succ]

theorem places_low (b w n : Nat) :
    places b (w + 1) n = places b w (n / b) ++ [Nat.digitChar (n % b)] := by
  simp [places, List.range_succ_eq_map, Nat.div_div_eq_div_mul, Nat.pow_succ', Function.comp_def]

theorem leftpad_append_singleton (zero x : Char) (l : List Char) :
    List.leftpad (w + 1) zero (l ++ [x]) = List.leftpad w zero l ++ [x] := by
  simp [List.leftpad]

theorem leftpad_toDigits_low (base : 1 < b) :
    List.leftpad (w + 2) '0' (Nat.toDigits b n) =
      List.leftpad (w + 1) '0' (Nat.toDigits b (n / b)) ++ [Nat.digitChar (n % b)] := by
  rw [Nat.toDigits_eq_if base]
  split
  · next digit =>
    -- The quotient is 0, and its numeral is one of the zeros in front.
    rw [Nat.div_eq_of_lt digit, Nat.mod_eq_of_lt digit, Nat.toDigits_zero]
    have zeros : List.leftpad (w + 1) '0' ['0'] = List.leftpad (w + 1) '0' [] := by
      simp [List.leftpad, List.replicate_succ']
    rw [zeros]
    exact leftpad_append_singleton '0' _ []
  · exact leftpad_append_singleton '0' _ _

/-- The numeral of a number that the places suffice for. -/
theorem leftpad_toDigits (base : 1 < b) (fits : n < b ^ (w + 1)) :
    List.leftpad (w + 1) '0' (Nat.toDigits b n) = places b (w + 1) n := by
  induction w generalizing n with
  | zero =>
    have digit : n < b := by simpa using fits
    rw [Nat.toDigits_of_lt_base digit, places_low, Nat.mod_eq_of_lt digit]
    rfl
  | succ w ih =>
    have fewer : n / b < b ^ (w + 1) := by
      rw [Nat.div_lt_iff_lt_mul (Nat.zero_lt_of_lt base)]
      rwa [Nat.pow_succ] at fits
    rw [leftpad_toDigits_low base, ih fewer, places_low b (w + 1) n]

end BlessOS.Lib.Numeral
