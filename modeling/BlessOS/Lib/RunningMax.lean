import Mathlib.Data.List.Induction
import Mathlib.Order.Lattice

/-!
# The running maximum of a scan

A scan keeps the name and the key of the best element so far. It replaces them at an
element that qualifies and whose key is strictly greater, so it ends with the first
element of maximal key among those that beat the initial bound, or as it began.
-/

set_option autoImplicit false

namespace BlessOS.Lib.RunningMax

variable {α β κ : Type*} [LinearOrder κ]

/-- One turn of the scan. -/
def keepMax (eligible : α → Prop) [DecidablePred eligible] (key : α → κ) (name : α → β)
    (best : β × κ) (x : α) : β × κ :=
  if eligible x ∧ best.2 < key x then (name x, key x) else best

variable {eligible : α → Prop} {key : α → κ}

/-- The element is the first of maximal key among those that qualify. -/
def FirstMax (eligible : α → Prop) (key : α → κ) (elements : List α) (x : α) : Prop :=
  ∃ before after, elements = before ++ x :: after ∧ eligible x ∧
    (∀ y ∈ before, eligible y → key y < key x) ∧ ∀ y ∈ after, eligible y → key y ≤ key x

theorem FirstMax.qualifies {elements : List α} {x : α} (first : FirstMax eligible key elements x) :
    eligible x := by
  obtain ⟨before, after, -, proper, -⟩ := first
  exact proper

theorem FirstMax.mem {elements : List α} {x : α} (first : FirstMax eligible key elements x) :
    x ∈ elements := by
  obtain ⟨before, after, rfl, -⟩ := first
  exact List.mem_append_right _ List.mem_cons_self

theorem FirstMax.le {elements : List α} {x y : α} (first : FirstMax eligible key elements x)
    (member : y ∈ elements) (proper : eligible y) : key y ≤ key x := by
  obtain ⟨before, after, rfl, -, less, most⟩ := first
  rcases List.mem_append.mp member with early | late
  · exact le_of_lt (less y early proper)
  · rcases List.mem_cons.mp late with rfl | late
    · exact le_refl _
    · exact most y late proper

/-- The scan ends as it began if nothing beats the bound, and else at the first maximum. -/
theorem foldl_keepMax (eligible : α → Prop) [DecidablePred eligible] (key : α → κ) (name : α → β)
    (elements : List α) (none : β) (bound : κ) :
    ((∀ y ∈ elements, eligible y → key y ≤ bound) ∧
      elements.foldl (keepMax eligible key name) (none, bound) = (none, bound)) ∨
    ∃ x, FirstMax eligible key elements x ∧ bound < key x ∧
      elements.foldl (keepMax eligible key name) (none, bound) = (name x, key x) := by
  induction elements using List.reverseRecOn with
  | nil => exact Or.inl ⟨fun y member => absurd member List.not_mem_nil, rfl⟩
  | append_singleton front z ih =>
    rw [List.foldl_append, List.foldl_cons, List.foldl_nil]
    rcases ih with ⟨low, same⟩ | ⟨x, first, above, best⟩
    · rw [same]
      unfold keepMax
      split
      · next beats =>
        refine Or.inr ⟨z, ⟨front, [], rfl, beats.1, fun y early proper => ?_, fun y member => ?_⟩,
          beats.2, rfl⟩
        · exact lt_of_le_of_lt (low y early proper) beats.2
        · exact absurd member List.not_mem_nil
      · next stays =>
        refine Or.inl ⟨fun y member proper => ?_, rfl⟩
        rcases List.mem_append.mp member with early | last
        · exact low y early proper
        · rw [List.mem_singleton.mp last] at proper ⊢
          exact not_lt.mp fun more => stays ⟨proper, more⟩
    · rw [best]
      unfold keepMax
      split
      · next beats =>
        refine Or.inr ⟨z, ⟨front, [], rfl, beats.1, fun y early proper => ?_, fun y member => ?_⟩,
          lt_trans above beats.2, rfl⟩
        · exact lt_of_le_of_lt (first.le early proper) beats.2
        · exact absurd member List.not_mem_nil
      · next stays =>
        obtain ⟨before, after, rfl, qualified, less, most⟩ := first
        refine Or.inr ⟨x, ⟨before, after ++ [z], by simp, qualified, less, ?_⟩, above, rfl⟩
        intro y member proper
        rcases List.mem_append.mp member with early | last
        · exact most y early proper
        · rw [List.mem_singleton.mp last] at proper ⊢
          exact not_lt.mp fun more => stays ⟨proper, more⟩

end BlessOS.Lib.RunningMax
