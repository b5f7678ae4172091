import Mathlib.Order.Basic
import Mathlib.Tactic.Ring

/-!
# The next aligned address

An address is aligned when a fixed distance behind it lies a multiple of the alignment. `shift`
is how far the first such address is away.
-/

set_option autoImplicit false

namespace BlessOS.Lib.Alignment

variable {n k a q size limit : Nat}

def shift (n k a : Nat) : Nat := (n - (a + k) % n) % n

theorem shift_lt (positive : 0 < n) (k a : Nat) : shift n k a < n := Nat.mod_lt _ positive

/-- Either the address is aligned, or the rest of the modulus is missing. -/
theorem shift_cases (positive : 0 < n) (k a : Nat) :
    ((a + k) % n = 0 ∧ shift n k a = 0) ∨ (0 < (a + k) % n ∧ shift n k a + (a + k) % n = n) := by
  unfold shift
  have less := Nat.mod_lt (a + k) positive
  by_cases aligned : (a + k) % n = 0
  · rw [aligned, Nat.sub_zero, Nat.mod_self]
    exact .inl ⟨rfl, rfl⟩
  · have outer : n - (a + k) % n < n := by omega
    rw [Nat.mod_eq_of_lt outer]
    exact .inr ⟨Nat.zero_lt_of_ne_zero aligned, by omega⟩

theorem shift_aligned (positive : 0 < n) (k a : Nat) : (a + shift n k a + k) % n = 0 := by
  have split := Nat.div_add_mod (a + k) n
  obtain ⟨aligned, zero⟩ | ⟨-, rest⟩ := shift_cases positive k a
  · rw [zero, Nat.add_zero, aligned]
  · have next : a + shift n k a + k = n * ((a + k) / n + 1) := by
      rw [Nat.mul_add, Nat.mul_one]
      omega
    rw [next, Nat.mul_mod_right]

theorem shift_least (positive : 0 < n) (behind : a ≤ q) (aligned : (q + k) % n = 0) :
    a + shift n k a ≤ q := by
  obtain ⟨-, zero⟩ | ⟨some, rest⟩ := shift_cases positive k a
  · omega
  · -- The multiple behind `q` is at least the next one behind `a`.
    have split := Nat.div_add_mod (a + k) n
    have whole := Nat.div_add_mod (q + k) n
    have later : (a + k) / n < (q + k) / n := by
      by_contra early
      have below := Nat.mul_le_mul_left n (Nat.not_lt.mp early)
      omega
    have above := Nat.mul_le_mul_left n (Nat.succ_le_of_lt later)
    rw [Nat.mul_succ] at above
    omega

/-- There is room behind an aligned address if and only if there is behind the first. -/
theorem exists_aligned_iff (positive : 0 < n) :
    (∃ q, a ≤ q ∧ (q + k) % n = 0 ∧ q + size ≤ limit) ↔ a + shift n k a + size ≤ limit := by
  constructor
  · rintro ⟨q, behind, aligned, room⟩
    have first := shift_least positive behind aligned
    omega
  · intro room
    exact ⟨a + shift n k a, Nat.le_add_right _ _, shift_aligned positive k a, room⟩

end BlessOS.Lib.Alignment
