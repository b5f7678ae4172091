import Mathlib.Logic.Function.Basic

/-!
# Ownership

Holders that hold at most one thing each, and the things that are marked as used. The marks
are right when the used things are those that are held, each by one holder alone.
-/

set_option autoImplicit false

namespace BlessOS.Lib.Ownership

variable {α β : Type*} {held : α → Option β} {used used' : β → Prop} {a : α} {b : β}

structure Owned (held : α → Option β) (used : β → Prop) : Prop where
  marked : ∀ b, used b ↔ ∃ a, held a = some b
  apart : ∀ a a' b, held a = some b → held a' = some b → a = a'

/-- Nothing held and nothing used. -/
theorem owned_empty (free : ∀ a, held a = none) (unused : ∀ b, ¬ used b) : Owned held used where
  marked b := by simp [free, unused]
  apart a a' b holds := by simp [free] at holds

variable [DecidableEq α]

/-- A thing that is not used goes to a holder that holds nothing. -/
theorem Owned.assign (owned : Owned held used) (free : held a = none) (fresh : ¬ used b)
    (marks : ∀ c, used' c ↔ c = b ∨ used c) :
    Owned (Function.update held a (some b)) used' where
  marked c := by
    rw [marks, owned.marked]
    constructor
    · rintro (rfl | ⟨a', holds⟩)
      · exact ⟨a, Function.update_self a _ held⟩
      · have other : a' ≠ a := fun same => by simp [same, free] at holds
        exact ⟨a', by rw [Function.update_of_ne other, holds]⟩
    · rintro ⟨a', holds⟩
      by_cases here : a' = a
      · rw [here, Function.update_self] at holds
        exact .inl (Option.some.inj holds).symm
      · rw [Function.update_of_ne here] at holds
        exact .inr ⟨a', holds⟩
  apart x y c holdsX holdsY := by
    -- Nobody else holds the new thing, since it was not used.
    have unheld : ∀ x, held x ≠ some b := fun x holds => fresh ((owned.marked b).mpr ⟨x, holds⟩)
    by_cases hereX : x = a <;> by_cases hereY : y = a
    · rw [hereX, hereY]
    · rw [hereX, Function.update_self] at holdsX
      rw [Function.update_of_ne hereY, ← holdsX] at holdsY
      exact absurd holdsY (unheld y)
    · rw [hereY, Function.update_self] at holdsY
      rw [Function.update_of_ne hereX, ← holdsY] at holdsX
      exact absurd holdsX (unheld x)
    · rw [Function.update_of_ne hereX] at holdsX
      rw [Function.update_of_ne hereY] at holdsY
      exact owned.apart x y c holdsX holdsY

/-- What its holder no longer holds may not stay used. -/
theorem Owned.lost {other : Option β} (owned : Owned held used) (had : held a = some b)
    (gone : other ≠ some b) (after : Owned (Function.update held a other) used') : ¬ used' b := by
  intro still
  obtain ⟨a', holds⟩ := (after.marked b).mp still
  by_cases here : a' = a
  · rw [here, Function.update_self] at holds
    exact gone holds
  · rw [Function.update_of_ne here] at holds
    exact here (owned.apart a' a b holds had)

end BlessOS.Lib.Ownership
