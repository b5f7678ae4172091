import BlessOS.Lib.ByteMemory

/-!
# Copying and filling element by element

A copy that reads and writes one element after another, upwards, agrees with a copy of the
whole block at once when no element is read after it was written to. Byte by byte, the general
case is exact too: a target that begins inside the source is filled with the bytes in front of
it, over and over.
-/

set_option autoImplicit false

namespace BlessOS.Lib.BlockCopy
open BlessOS.Lib.ByteMemory

/-- The memory with the `n` bytes from `src` on copied to `dst`, all at once. -/
def copied (n : Nat) (src dst : Addr) (m : Mem) : Mem :=
  fun x => if (x - dst).toNat < n then m (src + (x - dst)) else m x

/-- `n` elements of `w` bytes are copied, one after another. -/
def moves (w : Nat) : Nat → Addr → Addr → Mem → Mem
  | 0, _, _, m => m
  | n + 1, src, dst, m =>
    moves w n (src + BitVec.ofNat 32 w) (dst + BitVec.ofNat 32 w) (copied w src dst m)

/-- The memory with the bytes of a pattern at the `n` bytes from `dst` on. -/
def filled (n : Nat) (pattern : Nat → Byte) (dst : Addr) (m : Mem) : Mem :=
  fun x => if (x - dst).toNat < n then pattern (x - dst).toNat else m x

/-- `n` elements of `w` bytes are written, one after another. -/
def fills (w : Nat) (pattern : Nat → Byte) : Nat → Addr → Mem → Mem
  | 0, _, m => m
  | n + 1, dst, m => fills w pattern n (dst + BitVec.ofNat 32 w) (filled w pattern dst m)

variable {w n : Nat} {src dst x : Addr} {m : Mem} {pattern : Nat → Byte}

theorem copied_inside (inside : (x - dst).toNat < n) :
    copied n src dst m x = m (src + (x - dst)) :=
  if_pos inside

theorem copied_outside (outside : n ≤ (x - dst).toNat) : copied n src dst m x = m x :=
  if_neg (Nat.not_lt.mpr outside)

/-- The place of a byte behind the first element. -/
theorem offset_behind (small : w < 2 ^ 32) (behind : w ≤ (x - dst).toNat) :
    (x - (dst + BitVec.ofNat 32 w)).toNat = (x - dst).toNat - w := by
  bv_omega

/-- A byte of the first element lies behind all the others, around the end of the memory. -/
theorem offset_before (small : w < 2 ^ 32) (first : (x - dst).toNat < w) :
    (x - (dst + BitVec.ofNat 32 w)).toNat = 2 ^ 32 + (x - dst).toNat - w := by
  bv_omega

/-- One element after another is all at once, when the source is not below the target within
the length: each element is read where nothing was written yet. -/
theorem moves_eq_copied (room : (src - dst).toNat + n * w ≤ 2 ^ 32) (small : w < 2 ^ 32) :
    moves w n src dst m = copied (n * w) src dst m := by
  induction n generalizing src dst m with
  | zero =>
    funext x
    rw [copied_outside (by omega)]
    rfl
  | succ n ih =>
    rw [Nat.succ_mul] at room ⊢
    have distance :
        src + BitVec.ofNat 32 w - (dst + BitVec.ofNat 32 w) = src - dst := by bv_omega
    rw [moves, ih (by rw [distance]; omega)]
    funext x
    by_cases first : (x - dst).toNat < w
    · have behind := offset_before small first
      rw [copied_outside (by omega), copied_inside first, copied_inside (by omega)]
    · have place := offset_behind small (Nat.le_of_not_lt first)
      by_cases inside : (x - dst).toNat < n * w + w
      · have read : src + BitVec.ofNat 32 w + (x - (dst + BitVec.ofNat 32 w)) =
            src + (x - dst) := by bv_omega
        have unwritten : w ≤ (src + (x - dst) - dst).toNat := by
          have sum : (src + (x - dst) - dst).toNat = (src - dst).toNat + (x - dst).toNat := by
            bv_omega
          omega
        rw [copied_inside (by omega), copied_inside inside, read, copied_outside unwritten]
      · rw [copied_outside (by omega), copied_outside (by omega), copied_outside (by omega)]

/-- The last element is moved last. -/
theorem moves_snoc (w n : Nat) (src dst : Addr) (m : Mem) :
    moves w (n + 1) src dst m =
      copied w (src + BitVec.ofNat 32 (n * w)) (dst + BitVec.ofNat 32 (n * w))
        (moves w n src dst m) := by
  induction n generalizing src dst m with
  | zero => simp [moves]
  | succ n ih =>
    rw [moves, ih, moves, Nat.succ_mul, Nat.add_comm (n * w) w, BitVec.ofNat_add,
      ← BitVec.add_assoc, ← BitVec.add_assoc]

/-- **Copying upwards byte by byte**, for any two places: where the target begins inside the
source, the bytes in front of it repeat; anywhere else the bytes are those of the source. -/
theorem moves_bytes (length : n ≤ 2 ^ 32) (x : Addr) :
    moves 1 n src dst m x =
      if (x - dst).toNat < n then
        m (src + BitVec.ofNat 32 ((x - dst).toNat % (dst - src).toNat))
      else m x := by
  induction n generalizing x with
  | zero => rfl
  | succ n ih =>
    rw [moves_snoc, Nat.mul_one]
    have here : (x - dst).toNat = n ↔ x = dst + BitVec.ofNat 32 n := by
      constructor
      · intro offset
        bv_omega
      · rintro rfl
        bv_omega
    by_cases last : (x - dst).toNat = n
    · have source : src + BitVec.ofNat 32 n + (x - (dst + BitVec.ofNat 32 n)) =
          src + BitVec.ofNat 32 n := by
        rw [here.mp last]
        bv_omega
      have at_last : (x - (dst + BitVec.ofNat 32 n)).toNat < 1 := by
        rw [here.mp last]
        bv_omega
      have within : (x - dst).toNat < n + 1 := by omega
      rw [copied_inside at_last, source, ih (by omega), if_pos within, last]
      -- Whether the byte read has been written depends on the distance of the two places.
      by_cases near : 0 < (dst - src).toNat ∧ (dst - src).toNat ≤ n
      · have back : (src + BitVec.ofNat 32 n - dst).toNat = n - (dst - src).toNat := by bv_omega
        rw [if_pos (by omega), back, Nat.mod_eq_sub_mod near.2]
      · have ahead : n ≤ (src + BitVec.ofNat 32 n - dst).toNat := by bv_omega
        have whole : n % (dst - src).toNat = n := by
          rcases Nat.eq_zero_or_pos (dst - src).toNat with same | apart
          · rw [same, Nat.mod_zero]
          · exact Nat.mod_eq_of_lt (by omega)
        rw [if_neg (by omega), whole]
    · have other : 1 ≤ (x - (dst + BitVec.ofNat 32 n)).toNat := by
        have nonzero : x - (dst + BitVec.ofNat 32 n) ≠ 0 := by
          intro zero
          exact last (here.mpr (by bv_omega))
        bv_omega
      rw [copied_outside other, ih (by omega)]
      exact if_congr (by omega) rfl rfl

/-- Elements written one after another repeat the pattern. -/
theorem fills_apply (room : n * w ≤ 2 ^ 32) (small : w < 2 ^ 32) (x : Addr) :
    fills w pattern n dst m x =
      if (x - dst).toNat < n * w then pattern ((x - dst).toNat % w) else m x := by
  induction n generalizing dst m with
  | zero =>
    rw [Nat.zero_mul]
    rfl
  | succ n ih =>
    rw [Nat.succ_mul] at room ⊢
    rw [fills, ih (by omega)]
    by_cases first : (x - dst).toNat < w
    · have behind := offset_before small first
      rw [if_neg (by omega), if_pos (by omega), Nat.mod_eq_of_lt first]
      exact if_pos first
    · have place := offset_behind small (Nat.le_of_not_lt first)
      have kept : filled w pattern dst m x = m x := if_neg first
      rw [place, kept, ← Nat.mod_eq_sub_mod (Nat.le_of_not_lt first)]
      exact if_congr (by omega) rfl rfl

/-! ## Words as elements -/

theorem store32_eq_filled (dst : Addr) (value : BitVec 32) (m : Mem) :
    store32 m dst value = filled 4 (fun i => (value >>> (8 * i)).setWidth 8) dst m := rfl

theorem store32_load32 (src dst : Addr) (m : Mem) :
    store32 m dst (load32 m src) = copied 4 src dst m := by
  funext x
  by_cases inside : (x - dst).toNat < 4
  · have byte : ∀ i : Nat, i < 4 →
        (load32 m src >>> (8 * i)).setWidth 8 = m (src + BitVec.ofNat 32 i) := by
      intro i small
      have zero : m (src + BitVec.ofNat 32 0) = m src := by simp
      unfold load32
      obtain rfl | rfl | rfl | rfl : i = 0 ∨ i = 1 ∨ i = 2 ∨ i = 3 := by omega
      · rw [zero]
        generalize m (src + 3) = byte3, m (src + 2) = byte2, m (src + 1) = byte1, m src = byte0
        grind
      all_goals
        generalize m (src + 3) = byte3, m (src + 2) = byte2, m (src + 1) = byte1, m src = byte0
        grind
    rw [copied_inside inside, store32_eq_filled]
    refine (if_pos inside).trans ((byte _ inside).trans ?_)
    rw [BitVec.ofNat_toNat, BitVec.setWidth_eq]
  · rw [copied_outside (Nat.le_of_not_lt inside)]
    exact store32_apply_of_outside m dst x _ (Nat.le_of_not_lt inside)

end BlessOS.Lib.BlockCopy
