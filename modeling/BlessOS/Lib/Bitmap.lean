import Mathlib.Data.BitVec
import Mathlib.Logic.Function.Basic
import Mathlib.Order.Bounds.Basic

/-!
# Bitmaps

The bits of a row of `w`-bit words, numbered from the lowest bit of the first word on, and
what a search through consecutive ranges finds: the least number with a property, or none.
-/

set_option autoImplicit false

namespace BlessOS.Lib.Bitmap

section Bits

variable {w : Nat} {words : Nat → BitVec w} {f g : Nat}

def bit (words : Nat → BitVec w) (f : Nat) : Bool := (words (f / w)).getLsbD (f % w)

/-- One bit set, and one bit cleared. -/
def setBit (words : Nat → BitVec w) (f : Nat) : Nat → BitVec w :=
  Function.update words (f / w) (words (f / w) ||| BitVec.twoPow w (f % w))

def clearBit (words : Nat → BitVec w) (f : Nat) : Nat → BitVec w :=
  Function.update words (f / w) (words (f / w) &&& ~~~BitVec.twoPow w (f % w))

/-- Numbers in one word differ by their places there. -/
theorem place_ne (same : g / w = f / w) (other : g ≠ f) : f % w ≠ g % w := by
  intro equal
  have left := Nat.div_add_mod g w
  have right := Nat.div_add_mod f w
  rw [same, ← equal] at left
  exact other (left.symm.trans right)

/-- A bit by its word and its place there. -/
theorem bit_word (i : Nat) {j : Nat} (place : j < w) : bit words (w * i + j) = (words i).getLsbD j := by
  have wide : 0 < w := Nat.zero_lt_of_lt place
  unfold bit
  rw [Nat.mul_add_div wide, Nat.div_eq_of_lt place, Nat.add_zero, Nat.mul_add_mod,
    Nat.mod_eq_of_lt place]

theorem bit_setBit (wide : 0 < w) (f g : Nat) :
    bit (setBit words f) g = (decide (g = f) || bit words g) := by
  have place := Nat.mod_lt f wide
  unfold bit setBit
  by_cases word : g / w = f / w
  · rw [word, Function.update_self, BitVec.getLsbD_or, BitVec.getLsbD_twoPow]
    by_cases same : g = f
    · simp [same, place]
    · simp [same, place_ne word same]
  · have other : g ≠ f := fun same => word (by rw [same])
    rw [Function.update_of_ne word]
    simp [other]

theorem bit_clearBit (wide : 0 < w) (f g : Nat) :
    bit (clearBit words f) g = (!decide (g = f) && bit words g) := by
  have place := Nat.mod_lt f wide
  have inside := Nat.mod_lt g wide
  unfold bit clearBit
  by_cases word : g / w = f / w
  · rw [word, Function.update_self, BitVec.getLsbD_and, BitVec.getLsbD_not,
      BitVec.getLsbD_twoPow]
    by_cases same : g = f
    · simp [same, place]
    · simp [same, place_ne word same, inside]
  · have other : g ≠ f := fun same => word (by rw [same])
    rw [Function.update_of_ne word]
    simp [other]

end Bits

section Search

variable {p : Nat → Prop} {a m b : Nat} {found : Option Nat}

/-- What a search of `[a, b)` for the property arrives at: the first number that has it, or
nothing when none does. -/
def Searched (p : Nat → Prop) (a b : Nat) : Option Nat → Prop
  | none => ∀ l, a ≤ l → l < b → ¬ p l
  | some k => a ≤ k ∧ k < b ∧ p k ∧ ∀ l, a ≤ l → l < k → ¬ p l

theorem searched_here (inside : a < b) (holds : p a) : Searched p a b (some a) :=
  ⟨Nat.le_refl a, inside, holds, fun _ low high => absurd high (Nat.not_lt.mpr low)⟩

theorem searched_empty (empty : b ≤ a) : Searched p a b none :=
  fun _ low high => absurd high (Nat.not_lt.mpr (Nat.le_trans empty low))

/-- A search that goes on behind a range without the property. -/
theorem Searched.after (nothing : Searched p a m none) (before : a ≤ m)
    (searched : Searched p m b found) : Searched p a b found := by
  cases found with
  | none =>
    intro l low high
    by_cases early : l < m
    · exact nothing l low early
    · exact searched l (Nat.not_lt.mp early) high
  | some k =>
    obtain ⟨low, high, holds, first⟩ := searched
    refine ⟨Nat.le_trans before low, high, holds, fun l below above => ?_⟩
    by_cases early : l < m
    · exact nothing l below early
    · exact first l (Nat.not_lt.mp early) above

/-- What is found in a range is found in a longer one. -/
theorem Searched.stop {k : Nat} (searched : Searched p a m (some k)) (more : m ≤ b) :
    Searched p a b (some k) :=
  ⟨searched.1, Nat.lt_of_lt_of_le searched.2.1 more, searched.2.2⟩

/-- A search of a range by the places in it. -/
theorem Searched.shift {q : Nat → Prop} {n : Nat} (same : ∀ j < n, q j ↔ p (a + j))
    (searched : Searched q 0 n found) : Searched p a (a + n) (found.map (a + ·)) := by
  have offset : ∀ l, a ≤ l → a + (l - a) = l := fun l low => Nat.add_sub_of_le low
  cases found with
  | none =>
    intro l low high holds
    refine searched (l - a) (Nat.zero_le _) (by omega) ((same _ (by omega)).mpr ?_)
    rw [offset l low]
    exact holds
  | some k =>
    obtain ⟨-, high, holds, first⟩ := searched
    refine ⟨Nat.le_add_right a k, Nat.add_lt_add_left high a, (same k high).mp holds,
      fun l low above early => ?_⟩
    have above : l < a + k := above
    refine first (l - a) (Nat.zero_le _) (by omega) ((same _ (by omega)).mpr ?_)
    rw [offset l low]
    exact early

theorem Searched.isLeast {k : Nat} (searched : Searched p 0 b (some k)) :
    IsLeast {l | l < b ∧ p l} k := by
  obtain ⟨-, high, holds, first⟩ := searched
  refine ⟨⟨high, holds⟩, fun l member => ?_⟩
  by_contra early
  exact first l (Nat.zero_le l) (Nat.not_le.mp early) member.2

end Search

end BlessOS.Lib.Bitmap
