import Mathlib.Data.List.Basic

/-!
# Extents laid end to end

`Tiles lo len a b xs` says that the extents `[lo x, lo x + len x)` of a list lie
end to end from `a` to `b`, in the order of the list. A tiling can be cut at every
element and put together again, so replacing a stretch by another one over the
same range leaves the rest of the tiling alone.
-/

set_option autoImplicit false

namespace BlessOS.Lib.Tiling

variable {κ : Type*} (lo len : κ → Nat)

def Tiles : Nat → Nat → List κ → Prop
  | a, b, [] => a = b
  | a, b, x :: rest => lo x = a ∧ Tiles (a + len x) b rest

variable {lo len} {a b : Nat} {xs ys before after : List κ} {x : κ}

theorem Tiles.le (tiles : Tiles lo len a b xs) : a ≤ b := by
  induction xs generalizing a with
  | nil => exact Nat.le_of_eq tiles
  | cons x rest ih =>
    have inner := ih tiles.2
    omega

theorem tiles_append : Tiles lo len a b (xs ++ ys) ↔
    ∃ mid, Tiles lo len a mid xs ∧ Tiles lo len mid b ys := by
  induction xs generalizing a with
  | nil =>
    constructor
    · intro tiles
      exact ⟨a, rfl, tiles⟩
    · rintro ⟨mid, rfl, tiles⟩
      exact tiles
  | cons x rest ih =>
    constructor
    · rintro ⟨start, tiles⟩
      obtain ⟨mid, first, second⟩ := ih.mp tiles
      exact ⟨mid, ⟨start, first⟩, second⟩
    · rintro ⟨mid, ⟨start, first⟩, second⟩
      exact ⟨start, ih.mpr ⟨mid, first, second⟩⟩

theorem tiles_singleton : Tiles lo len a b [x] ↔ lo x = a ∧ a + len x = b := Iff.rfl

/-- Every extent lies in the range. -/
theorem Tiles.bounds (tiles : Tiles lo len a b xs) :
    ∀ x ∈ xs, a ≤ lo x ∧ lo x + len x ≤ b := by
  induction xs generalizing a with
  | nil => intro x member; cases member
  | cons y rest ih =>
    intro x member
    obtain ⟨start, inner⟩ := tiles
    rcases List.mem_cons.mp member with rfl | member
    · have last := inner.le
      omega
    · have bounds := ih inner x member
      omega

/-- A tiling cut around one of its elements. -/
theorem tiles_middle : Tiles lo len a b (before ++ x :: after) ↔
    Tiles lo len a (lo x) before ∧ Tiles lo len (lo x + len x) b after := by
  rw [tiles_append]
  constructor
  · rintro ⟨mid, first, rfl, second⟩
    exact ⟨first, second⟩
  · rintro ⟨first, second⟩
    exact ⟨lo x, first, rfl, second⟩

/-- The other elements of a list are elements. -/
theorem mem_around {y : κ} (other : y ∈ before ++ after) : y ∈ before ++ x :: after :=
  ((List.Sublist.refl before).append (List.sublist_cons_self x after)).subset other

/-- The other extents end before an extent begins, or begin behind its end. -/
theorem Tiles.apart {y : κ} (tiles : Tiles lo len a b (before ++ x :: after))
    (other : y ∈ before ++ after) : lo y + len y ≤ lo x ∨ lo x + len x ≤ lo y := by
  obtain ⟨first, last⟩ := tiles_middle.mp tiles
  rcases List.mem_append.mp other with early | late
  · exact Or.inl (first.bounds y early).2
  · exact Or.inr (last.bounds y late).1

/-- A stretch determines where it ends. -/
theorem Tiles.end_unique {b' : Nat} (left : Tiles lo len a b xs) (right : Tiles lo len a b' xs) :
    b = b' := by
  induction xs generalizing a with
  | nil => exact left.symm.trans right
  | cons x rest ih => exact ih left.2 right.2

/-- A tiling cut around a stretch whose range is known. -/
theorem Tiles.around {mid : List κ} {p q : Nat} (tiles : Tiles lo len a b (before ++ mid ++ after))
    (nonempty : mid ≠ []) (range : Tiles lo len p q mid) :
    Tiles lo len a p before ∧ Tiles lo len q b after := by
  obtain ⟨q', front, last⟩ := tiles_append.mp tiles
  obtain ⟨p', first, middle⟩ := tiles_append.mp front
  cases mid with
  | nil => exact absurd rfl nonempty
  | cons x rest =>
    have start : p' = p := middle.1.symm.trans range.1
    subst start
    have stop := middle.end_unique range
    subst stop
    exact ⟨first, last⟩

/-- Earlier extents end before later ones begin. -/
theorem Tiles.pairwise (tiles : Tiles lo len a b xs) :
    xs.Pairwise fun x y => lo x + len x ≤ lo y := by
  induction xs generalizing a with
  | nil => exact List.Pairwise.nil
  | cons x rest ih =>
    obtain ⟨start, inner⟩ := tiles
    refine List.Pairwise.cons (fun y member => ?_) (ih inner)
    have bounds := inner.bounds y member
    omega

/-- A tiling by proper extents of an empty range is empty. -/
theorem Tiles.eq_nil_of_end (tiles : Tiles lo len a b xs) (proper : ∀ x ∈ xs, 0 < len x)
    (done : a = b) : xs = [] := by
  cases xs with
  | nil => rfl
  | cons x rest =>
    have inner := tiles.2.le
    have positive := proper x List.mem_cons_self
    omega

end BlessOS.Lib.Tiling
