import Mathlib.Logic.Function.Basic
import Mathlib.Data.Nat.ModEq

/-!
# FIFO windows of a ring of cells

A ring of `n` cells holds a queue as the window of consecutive cells that starts
at `tail` and wraps at `n`. Appending writes the first cell after the window,
removing moves the window's start; neither looks at cells outside the window,
whose contents are unrestricted.
-/

set_option autoImplicit false

namespace BlessOS.Lib.RingWindow

variable {α : Type*}

/-- The queue `q` lies in the cells `tail, tail + 1, ...` of a ring of size `n`. -/
def Window (n : Nat) (cell : Nat → α) (tail : Nat) (q : List α) : Prop :=
  ∀ i (inside : i < q.length), cell ((tail + i) % n) = q[i]

theorem window_nil (n : Nat) (cell : Nat → α) (tail : Nat) : Window n cell tail [] := by
  intro i inside
  simp at inside

/-- Distinct offsets of less than one revolution are distinct cells. -/
theorem slot_injective {n tail i j : Nat} (hi : i < n) (hj : j < n)
    (same : (tail + i) % n = (tail + j) % n) : i = j := by
  have congruent : i % n = j % n := Nat.ModEq.add_left_cancel' tail same
  rwa [Nat.mod_eq_of_lt hi, Nat.mod_eq_of_lt hj] at congruent

/-- Writing the cell after the window appends to the queue. -/
theorem Window.push {n tail : Nat} {cell : Nat → α} {q : List α}
    (window : Window n cell tail q) (room : q.length < n) (x : α) :
    Window n (Function.update cell ((tail + q.length) % n) x) tail (q ++ [x]) := by
  intro i inside
  rw [List.length_append, List.length_singleton] at inside
  by_cases old : i < q.length
  · have other : (tail + i) % n ≠ (tail + q.length) % n := fun same =>
      Nat.ne_of_lt old (slot_injective (by omega) room same)
    rw [Function.update_of_ne other, List.getElem_append_left old]
    exact window i old
  · have last : i = q.length := by omega
    subst last
    rw [Function.update_self, List.getElem_concat_length rfl]

/-- The first cell of the window is the oldest element. -/
theorem Window.front {n tail : Nat} {cell : Nat → α} {x : α} {q : List α}
    (window : Window n cell tail (x :: q)) : cell (tail % n) = x :=
  window 0 (Nat.succ_pos _)

/-- Moving the start of the window by one drops the oldest element. -/
theorem Window.pop {n tail : Nat} {cell : Nat → α} {x : α} {q : List α}
    (window : Window n cell tail (x :: q)) : Window n cell ((tail + 1) % n) q := by
  intro i inside
  have shifted : ((tail + 1) % n + i) % n = (tail + (i + 1)) % n := by
    rw [Nat.mod_add_mod, Nat.add_assoc, Nat.add_comm 1 i]
  rw [shifted]
  exact window (i + 1) (Nat.succ_lt_succ inside)

end BlessOS.Lib.RingWindow
