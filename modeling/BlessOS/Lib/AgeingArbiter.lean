import Mathlib.Algebra.BigOperators.Group.Finset.Basic
import Mathlib.Algebra.Group.Action.Defs
import Mathlib.Algebra.Order.BigOperators.Group.Finset
import Mathlib.Data.Finset.Card

/-!
# An arbiter that ages its clients

At each tick the client that is served loses some of its key, the others gain, and one with the
greatest key is served next. Keys are kept modulo some number. A client that waits stays behind
another one only for as many turns as that one is ahead, and no client is far ahead: when there
are few enough of them, the waiting one is served before its own key wraps.
-/

set_option autoImplicit false

namespace BlessOS.Lib.AgeingArbiter

variable {α : Type*}

/-- The client that is served, and the keys. -/
structure State (α : Type*) where
  current : α
  key : α → Nat

section Ticks
variable (gain loss modulus : Nat) (among : Finset α)

structure Tick (s t : State α) : Prop where
  served : t.key s.current = (s.key s.current + modulus - loss) % modulus
  waited : ∀ x ∈ among, x ≠ s.current → t.key x = (s.key x + gain) % modulus
  chosen : t.current ∈ among
  greatest : ∀ x ∈ among, t.key x ≤ t.key t.current

/-- The turns that a client is ahead of `v`. -/
def turnsAhead (s : State α) (v x : α) : Nat :=
  if s.key x < s.key v then 0 else (s.key x - s.key v) / (gain + loss) + 1

/-- The turns that all of them are ahead. -/
def waiting [DecidableEq α] (s : State α) (v : α) : Nat := ∑ x ∈ among.erase v, turnsAhead gain loss s v x

/-- The turns that they can be ahead of a client whose key has come to `loss`. -/
def longest : Nat := (among.card - 1) * ((modulus - 1 - loss) / (gain + loss) + 1)

end Ticks

variable {gain loss modulus : Nat} {among : Finset α} {s t : State α} {v x : α}

/-- No turn is added while the key of `v` does not wrap. -/
theorem turnsAhead_le (tick : Tick gain loss modulus among s t) (small : s.key x < modulus)
    (member : x ∈ among) (waits : v ∈ among) (notServed : v ≠ s.current)
    (room : s.key v + gain < modulus) (other : x ≠ s.current) :
    turnsAhead gain loss t v x ≤ turnsAhead gain loss s v x := by
  have key_v : t.key v = s.key v + gain := by
    rw [tick.waited v waits notServed, Nat.mod_eq_of_lt room]
  unfold turnsAhead
  rw [tick.waited x member other, key_v]
  by_cases wraps : s.key x + gain < modulus
  · rw [Nat.mod_eq_of_lt wraps]
    by_cases behind : s.key x < s.key v
    · rw [if_pos behind, if_pos (by omega)]
    · rw [if_neg behind, if_neg (by omega), Nat.add_sub_add_right]
  · have wrapped : (s.key x + gain) % modulus = s.key x + gain - modulus := by
      rw [Nat.mod_eq_sub_mod (Nat.le_of_not_lt wraps), Nat.mod_eq_of_lt (by omega)]
    rw [wrapped, if_pos (by omega)]
    exact Nat.zero_le _

/-- The client that was served has used one. -/
theorem turnsAhead_lt (tick : Tick gain loss modulus among s t) (steps : 0 < gain)
    (small : s.key s.current < modulus) (waits : v ∈ among) (notServed : v ≠ s.current)
    (room : s.key v + gain < modulus) (high : loss ≤ s.key v)
    (ahead : s.key v ≤ s.key s.current) :
    turnsAhead gain loss t v s.current + 1 ≤ turnsAhead gain loss s v s.current := by
  have key_v : t.key v = s.key v + gain := by
    rw [tick.waited v waits notServed, Nat.mod_eq_of_lt room]
  have key_c : t.key s.current = s.key s.current - loss := by
    have wraps : s.key s.current + modulus - loss = s.key s.current - loss + modulus := by omega
    rw [tick.served, wraps, Nat.add_mod_right, Nat.mod_eq_of_lt (by omega)]
  unfold turnsAhead
  rw [key_v, key_c, if_neg (Nat.not_lt.mpr ahead)]
  by_cases last : s.key s.current - loss < s.key v + gain
  · rw [if_pos last]
    exact Nat.le_add_left 1 _
  · have turn : s.key s.current - s.key v =
        s.key s.current - loss - (s.key v + gain) + (gain + loss) := by omega
    rw [if_neg last, turn, Nat.add_div_right _ (Nat.add_pos_left steps loss)]

variable [DecidableEq α]

/-- A tick takes a turn off while `v` waits. -/
theorem waiting_lt (tick : Tick gain loss modulus among s t) (steps : 0 < gain)
    (small : ∀ x ∈ among, s.key x < modulus) (waits : v ∈ among) (notServed : v ≠ s.current)
    (current : s.current ∈ among) (room : s.key v + gain < modulus) (high : loss ≤ s.key v)
    (ahead : s.key v ≤ s.key s.current) :
    waiting gain loss among t v + 1 ≤ waiting gain loss among s v := by
  have served : s.current ∈ among.erase v := Finset.mem_erase.mpr ⟨notServed.symm, current⟩
  have turn := turnsAhead_lt tick steps (small _ current) waits notServed room high ahead
  apply Nat.succ_le_of_lt
  apply Finset.sum_lt_sum
  · intro x member
    by_cases here : x = s.current
    · rw [here]
      omega
    · have listed := Finset.mem_of_mem_erase member
      exact turnsAhead_le tick (small x listed) listed waits notServed room here
  · exact ⟨s.current, served, turn⟩

theorem waiting_le_longest (small : ∀ x ∈ among, s.key x < modulus) (waits : v ∈ among)
    (high : loss ≤ s.key v) : waiting gain loss among s v ≤ longest gain loss modulus among := by
  unfold waiting longest
  rw [← Finset.card_erase_of_mem waits, ← smul_eq_mul]
  apply Finset.sum_le_card_nsmul
  intro x member
  have bound := small x (Finset.mem_of_mem_erase member)
  unfold turnsAhead
  split
  · exact Nat.zero_le _
  · exact Nat.add_le_add_right (Nat.div_le_div_right (by omega)) 1

/-- Steps of one length do not jump over a window of that length. -/
theorem exists_window {p : Nat} (steps : 0 < gain) (small : p < modulus)
    (fits : loss + gain ≤ modulus) :
    ∃ k ≤ modulus / gain, loss ≤ (p + k * gain) % modulus ∧
      (p + k * gain) % modulus < loss + gain := by
  have reach : ∀ target, p < target + gain → ∃ k, target ≤ p + k * gain ∧
      p + k * gain < target + gain ∧ k * gain < target + gain - p := by
    intro target near
    refine ⟨(target + gain - 1 - p) / gain, ?_⟩
    have split := Nat.div_add_mod (target + gain - 1 - p) gain
    have rest := Nat.mod_lt (target + gain - 1 - p) steps
    rw [Nat.mul_comm] at split
    omega
  by_cases early : p < loss + gain
  · obtain ⟨k, above, below, short⟩ := reach loss early
    refine ⟨k, ?_, ?_⟩
    · rw [Nat.le_div_iff_mul_le steps]
      omega
    · rw [Nat.mod_eq_of_lt (by omega)]
      exact ⟨above, below⟩
  · obtain ⟨k, above, below, short⟩ := reach (modulus + loss) (by omega)
    refine ⟨k, ?_, ?_⟩
    · rw [Nat.le_div_iff_mul_le steps]
      omega
    · rw [Nat.mod_eq_sub_mod (by omega), Nat.mod_eq_of_lt (by omega)]
      omega

section Runs
variable {states : Nat → State α}

theorem key_lt (ticks : ∀ k, Tick gain loss modulus among (states k) (states (k + 1)))
    (small : ∀ x ∈ among, (states 0).key x < modulus) (k : Nat) :
    ∀ x ∈ among, (states k).key x < modulus := by
  induction k with
  | zero => exact small
  | succ k ih =>
    intro x member
    have positive : 0 < modulus := Nat.zero_lt_of_lt (ih x member)
    by_cases here : x = (states k).current
    · rw [here, (ticks k).served]
      exact Nat.mod_lt _ positive
    · rw [(ticks k).waited x member here]
      exact Nat.mod_lt _ positive

/-- A client whose key has just passed `loss` is served before all turns are used up. -/
theorem served_in_window (ticks : ∀ k, Tick gain loss modulus among (states k) (states (k + 1)))
    (small : ∀ x ∈ among, (states 0).key x < modulus) (waits : v ∈ among)
    (current : (states 0).current ∈ among)
    (greatest : ∀ x ∈ among, (states 0).key x ≤ (states 0).key (states 0).current)
    (steps : 0 < gain) (high : loss ≤ (states 0).key v) (low : (states 0).key v < loss + gain)
    (room : loss + gain + longest gain loss modulus among * gain ≤ modulus) :
    ∃ k ≤ longest gain loss modulus among, (states k).current = v := by
  by_contra never
  push Not at never
  have first : ∀ k, (states k).current ∈ among ∧
      ∀ x ∈ among, (states k).key x ≤ (states k).key (states k).current := by
    intro k
    cases k with
    | zero => exact ⟨current, greatest⟩
    | succ k => exact ⟨(ticks k).chosen, (ticks k).greatest⟩
  have descends : ∀ k ≤ longest gain loss modulus among,
      (states k).key v = (states 0).key v + k * gain ∧
        waiting gain loss among (states k) v + k ≤ waiting gain loss among (states 0) v := by
    intro k bound
    induction k with
    | zero => exact ⟨by rw [Nat.zero_mul]; rfl, Nat.le_refl _⟩
    | succ k ih =>
      obtain ⟨key, left⟩ := ih (by omega)
      have notServed : v ≠ (states k).current := (never k (by omega)).symm
      have product : (k + 1) * gain ≤ longest gain loss modulus among * gain :=
        Nat.mul_le_mul_right gain bound
      rw [Nat.succ_mul] at product
      have below : (states k).key v + gain < modulus := by omega
      have turn := waiting_lt (ticks k) steps (key_lt ticks small k) waits notServed (first k).1 below
        (by omega) ((first k).2 v waits)
      constructor
      · rw [(ticks k).waited v waits notServed, Nat.mod_eq_of_lt below, key, Nat.succ_mul,
          Nat.add_assoc]
      · omega
  obtain ⟨key, left⟩ := descends _ (Nat.le_refl _)
  have total : waiting gain loss among (states 0) v ≤ longest gain loss modulus among :=
    waiting_le_longest small waits high
  have used : waiting gain loss among (states (longest gain loss modulus among)) v = 0 := by omega
  obtain ⟨listed, most⟩ := first (longest gain loss modulus among)
  have served := Finset.sum_eq_zero_iff.mp used (states (longest gain loss modulus among)).current
    (Finset.mem_erase.mpr ⟨never _ (Nat.le_refl _), listed⟩)
  unfold turnsAhead at served
  rw [if_neg (Nat.not_lt.mpr (most v waits))] at served
  exact Nat.succ_ne_zero _ served

/-- Every client is served, whatever the keys are. -/
theorem served_within (ticks : ∀ k, Tick gain loss modulus among (states k) (states (k + 1)))
    (small : ∀ x ∈ among, (states 0).key x < modulus) (waits : v ∈ among) (steps : 0 < gain)
    (room : loss + gain + longest gain loss modulus among * gain ≤ modulus) :
    ∃ k ≤ 1 + modulus / gain + longest gain loss modulus among, (states k).current = v := by
  by_contra never
  push Not at never
  obtain ⟨k, bound, high, low⟩ : ∃ k ≤ modulus / gain,
      loss ≤ ((states 1).key v + k * gain) % modulus ∧
        ((states 1).key v + k * gain) % modulus < loss + gain :=
    exists_window steps (key_lt ticks small 1 v waits) (by omega)
  -- Up to there the client has only gained.
  have key : ∀ j ≤ k, (states (1 + j)).key v = ((states 1).key v + j * gain) % modulus := by
    intro j near
    induction j with
    | zero =>
      rw [Nat.zero_mul]
      exact (Nat.mod_eq_of_lt (key_lt ticks small 1 v waits)).symm
    | succ j ih =>
      have notServed : v ≠ (states (1 + j)).current := (never (1 + j) (by omega)).symm
      change (states (1 + j + 1)).key v = _
      rw [(ticks (1 + j)).waited v waits notServed, ih (by omega), Nat.mod_add_mod, Nat.succ_mul,
        Nat.add_assoc]
  have later : ∀ j, Tick gain loss modulus among (states (1 + k + j)) (states (1 + k + (j + 1))) :=
    fun j => ticks (1 + k + j)
  obtain ⟨j, inside, served⟩ := served_in_window later (key_lt ticks small (1 + k)) waits
    (by rw [Nat.add_comm 1 k]; exact (ticks k).chosen)
    (by rw [Nat.add_comm 1 k]; exact (ticks k).greatest) steps
    (by rw [Nat.add_zero, key k (Nat.le_refl k)]; exact high)
    (by rw [Nat.add_zero, key k (Nat.le_refl k)]; exact low) room
  exact never (1 + k + j) (by omega) served

end Runs

end BlessOS.Lib.AgeingArbiter
