import Mathlib.Data.List.Pairwise
import Mathlib.Order.Defs.Unbundled

/-!
# Sorted lists under insertion and change of a key

A list stays sorted when a new element goes behind everything below it and in front
of everything above it, and when the key of one element changes to a value between
those of its neighbours.
-/

set_option autoImplicit false

namespace BlessOS.Lib.SortedInsert

variable {α : Type*} {R : α → α → Prop} {l : List α} {k : Nat} {x : α}

theorem insertIdx_eq_append (bound : k ≤ l.length) :
    l.insertIdx k x = l.take k ++ x :: l.drop k := by
  induction l generalizing k with
  | nil =>
    obtain rfl : k = 0 := Nat.le_zero.mp bound
    rfl
  | cons y rest ih =>
    cases k with
    | zero => rfl
    | succ k => simp [ih (Nat.le_of_succ_le_succ bound)]

theorem pairwise_insertIdx (sorted : l.Pairwise R) (bound : k ≤ l.length)
    (below : ∀ j (inside : j < l.length), j < k → R l[j] x)
    (above : ∀ j (inside : j < l.length), k ≤ j → R x l[j]) : (l.insertIdx k x).Pairwise R := by
  rw [List.pairwise_iff_getElem] at sorted ⊢
  intro i j hi hj order
  have length := List.length_insertIdx_of_le_length bound x
  rw [List.getElem_insertIdx, List.getElem_insertIdx]
  by_cases left : i < k
  · rw [dif_pos left]
    by_cases both : j < k
    · rw [dif_pos both]
      exact sorted i j _ _ order
    · rw [dif_neg both]
      by_cases here : j = k
      · rw [dif_pos here]
        exact below i _ left
      · rw [dif_neg here]
        exact sorted i (j - 1) _ _ (by omega)
  · rw [dif_neg left, dif_neg (by omega : ¬ j < k)]
    by_cases here : i = k
    · rw [dif_pos here, dif_neg (by omega)]
      exact above (j - 1) _ (by omega)
    · rw [dif_neg here, dif_neg (by omega)]
      exact sorted (i - 1) (j - 1) _ _ (by omega)

/-- Where the first element not below `x` stands, with everything below `x` in front
of it. -/
theorem pairwise_insertIdx_of_first (trans : ∀ a b c, R a b → R b c → R a c)
    (sorted : l.Pairwise R) (bound : k ≤ l.length)
    (below : ∀ j (inside : j < l.length), j < k → R l[j] x)
    (first : ∀ inside : k < l.length, R x l[k]) : (l.insertIdx k x).Pairwise R := by
  refine pairwise_insertIdx sorted bound below fun j inside order => ?_
  rcases Nat.eq_or_lt_of_le order with rfl | later
  · exact first inside
  · have start : k < l.length := by omega
    exact trans _ _ _ (first start) (List.pairwise_iff_getElem.mp sorted k j start inside later)

/-- Not being less is transitive in a strict weak order. -/
theorem not_lt_trans {r : α → α → Prop} [IsStrictWeakOrder α r] {a b c : α} (first : ¬ r b a)
    (second : ¬ r c b) : ¬ r c a := by
  intro less
  by_cases up : r a b
  · exact second (IsTrans.trans _ _ _ less up)
  · by_cases up' : r b c
    · exact first (IsTrans.trans _ _ _ up' less)
    · exact (IsStrictWeakOrder.incomp_trans c b a ⟨second, up'⟩ ⟨first, up⟩).1 less

/-- Putting an element in front of the first one that is not less than it. -/
theorem pairwise_insertIdx_of_weak {r : α → α → Prop} [IsStrictWeakOrder α r]
    (sorted : l.Pairwise fun a b => ¬ r b a) (bound : k ≤ l.length)
    (below : ∀ j (inside : j < l.length), j < k → r l[j] x)
    (first : ∀ inside : k < l.length, ¬ r l[k] x) :
    (l.insertIdx k x).Pairwise fun a b => ¬ r b a := by
  refine pairwise_insertIdx_of_first (fun a b c => not_lt_trans) sorted bound ?_ first
  intro j inside order less
  exact irrefl x (IsTrans.trans _ _ _ less (below j inside order))

/-- Elements of a sorted list in a new order relation `S` that only differs at `x`. -/
theorem pairwise_of_changed {S : α → α → Prop} {front back xs : List α}
    (sorted : (front ++ x :: back).Pairwise R) (nodup : (front ++ x :: back).Nodup)
    (sub : xs.Sublist (front ++ x :: back))
    (kept : ∀ a b, a ∈ xs → b ∈ xs → a ≠ x → b ≠ x → R a b → S a b)
    (below : ∀ a ∈ front, a ∈ xs → S a x) (above : ∀ b ∈ back, b ∈ xs → S x b) :
    xs.Pairwise S := by
  obtain ⟨sortedFront, sortedBack, across⟩ := List.pairwise_append.mp sorted
  obtain ⟨-, sortedBack⟩ := List.pairwise_cons.mp sortedBack
  obtain ⟨-, nodupBack, apart⟩ := List.nodup_append.mp nodup
  have front_ne : ∀ a ∈ front, a ≠ x := fun a member => apart a member x List.mem_cons_self
  have back_ne : ∀ b ∈ back, b ≠ x := fun b member same =>
    (List.nodup_cons.mp nodupBack).1 (same ▸ member)
  have whole : (front ++ x :: back).Pairwise fun a b => a ∈ xs → b ∈ xs → S a b := by
    refine List.pairwise_append.mpr ⟨?_, List.pairwise_cons.mpr ⟨?_, ?_⟩, ?_⟩
    · exact sortedFront.imp_of_mem fun {a b} ha hb order listedA listedB =>
        kept a b listedA listedB (front_ne a ha) (front_ne b hb) order
    · exact fun b member _ listed => above b member listed
    · exact sortedBack.imp_of_mem fun {a b} ha hb order listedA listedB =>
        kept a b listedA listedB (back_ne a ha) (back_ne b hb) order
    · intro a ha b hb listedA listedB
      rcases List.mem_cons.mp hb with rfl | later
      · exact below a ha listedA
      · exact kept a b listedA listedB (front_ne a ha) (back_ne b later) (across a ha b hb)
  exact (whole.sublist sub).imp_of_mem fun ha hb order => order ha hb

end BlessOS.Lib.SortedInsert
