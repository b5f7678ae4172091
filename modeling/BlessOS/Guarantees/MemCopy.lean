import BlessOS.Lib.BlockCopy
import BlessOS.Source.Console
import BlessOS.Source.Mem

/-!
# What the memory functions leave behind

The three loops are copies and fillings of elements of one or two bytes. `memcpy` goes upwards
whatever the two blocks are, so it moves a block down onto itself and repeats what lies between
the two places when it moves one up.
-/

set_option autoImplicit false

namespace BlessOS.Guarantees.MemCopy
open BlessOS.Lib.ByteMemory BlessOS.Lib.BlockCopy
open BlessOS.Source BlessOS.Source.Mem

variable {src dst : Addr} {m : Mem}

theorem store8_eq_copied (src dst : Addr) (m : Mem) :
    store8 m dst (load8 m src) = copied 1 src dst m := by
  funext x
  unfold store8 load8 copied
  by_cases here : x = dst
  · subst here
    rw [if_pos rfl, if_pos (by bv_omega), BitVec.sub_self, BitVec.add_zero]
  · rw [if_neg here, if_neg (by bv_omega)]

theorem copyLoop_eq_moves (n : Nat) (src dst : Addr) (m : Mem) :
    copyLoop n src dst m = moves 1 n src dst m := by
  induction n generalizing src dst m with
  | zero => rfl
  | succ n ih =>
    rw [copyLoop, moves, ih, store8_eq_copied]
    rfl

/-- The byte `i` of the target, for any two blocks. -/
theorem memcpy_apply (src dst : Addr) (n : U32) (m : Mem) (x : Addr) :
    (memcpy src dst n m).2 x =
      if (x - dst).toNat < n.toNat then
        m (src + BitVec.ofNat 32 ((x - dst).toNat % (dst - src).toNat))
      else m x := by
  have length : n.toNat ≤ 2 ^ 32 := Nat.le_of_lt n.isLt
  rw [← moves_bytes length, ← copyLoop_eq_moves]
  rfl

/-- The console's copy, which records what it writes, is the same loop. -/
theorem console_memcpy_mem (n : Nat) (sp dp : Addr) (s : Console.Console) :
    (Console.memcpy sp dp n s).mem = copyLoop n sp dp s.mem := by
  induction n generalizing sp dp s with
  | zero => rfl
  | succ n ih => exact ih (sp + 1) (dp + 1) _

/-- **memcpy.** The target ends up with what the source held, whatever that was, exactly if it
does not begin inside the source, behind its first byte. -/
theorem memcpy_copies_iff (src dst : Addr) (n : U32) :
    (∀ m : Mem, ∀ i : U32, i < n → (memcpy src dst n m).2 (dst + i) = m (src + i)) ↔
      (dst - src = 0 ∨ n ≤ dst - src) := by
  have offset : ∀ i : U32, (dst + i - dst).toNat = i.toNat := by
    intro i
    rw [BitVec.add_comm, BitVec.add_sub_cancel]
  constructor
  · intro copies
    by_contra inside
    obtain ⟨apart, short⟩ := not_or.mp inside
    have short : (dst - src).toNat < n.toNat := BitVec.not_le.mp short
    -- The byte that lies as far into the source as the target does is read too late.
    have late := copies (fun x => if x = src then 1 else 0) (dst - src) short
    rw [memcpy_apply, offset, if_pos short, Nat.mod_self] at late
    have other : src + (dst - src) ≠ src := by bv_omega
    simp only [BitVec.ofNat_eq_ofNat, BitVec.add_zero, if_true, if_neg other] at late
    exact absurd late (by decide)
  · intro apart m i inside
    have inside : i.toNat < n.toNat := inside
    rw [memcpy_apply, offset, if_pos inside]
    have whole : i.toNat % (dst - src).toNat = i.toNat := by
      rcases apart with same | long
      · rw [same]
        exact Nat.mod_zero _
      · exact Nat.mod_eq_of_lt (Nat.lt_of_lt_of_le inside long)
    rw [whole, BitVec.ofNat_toNat, BitVec.setWidth_eq]

section Filling

/-- The two bytes of a word, the low one first. -/
def wordBytes (val : U16) (i : Nat) : Byte :=
  if i = 0 then val.setWidth 8 else (val >>> 8).setWidth 8

theorem store8_eq_filled (dst : Addr) (val : U8) (m : Mem) :
    store8 m dst val = filled 1 (fun _ => val) dst m := by
  funext x
  unfold store8 filled
  exact if_congr (by bv_omega) rfl rfl

theorem store16_eq_filled (dst : Addr) (val : U16) (m : Mem) :
    store16 m dst val = filled 2 (wordBytes val) dst m := by
  funext x
  unfold store16 store8 filled wordBytes
  by_cases second : x = dst + 1
  · have place : (x - dst).toNat = 1 := by bv_omega
    rw [if_pos second, place, if_pos (by decide), if_neg (by decide)]
  · rw [if_neg second]
    by_cases first : x = dst
    · have place : (x - dst).toNat = 0 := by bv_omega
      rw [if_pos first, place, if_pos (by decide), if_pos rfl]
    · rw [if_neg first, if_neg (by bv_omega)]

theorem setLoop_eq_fills (val : U8) (n : Nat) (dst : Addr) (m : Mem) :
    setLoop val n dst m = fills 1 (fun _ => val) n dst m := by
  induction n generalizing dst m with
  | zero => rfl
  | succ n ih =>
    rw [setLoop, fills, ih, store8_eq_filled]
    rfl

theorem setwLoop_eq_fills (val : U16) (n : Nat) (dst : Addr) (m : Mem) :
    setwLoop val n dst m = fills 2 (wordBytes val) n dst m := by
  induction n generalizing dst m with
  | zero => rfl
  | succ n ih =>
    rw [setwLoop, fills, ih, store16_eq_filled]
    rfl

theorem memset_apply (dest : Addr) (val : U8) (count : U32) (m : Mem) (x : Addr) :
    (memset dest val count m).2 x = if x - dest < count then val else m x := by
  have room : count.toNat * 1 ≤ 2 ^ 32 := by
    have bound := count.isLt
    omega
  have bytes : fills 1 (fun _ => val) count.toNat dest m x = if _ then val else m x :=
    fills_apply room (by decide) x
  rw [Nat.mul_one, ← setLoop_eq_fills] at bytes
  exact bytes

/-- As long as the words do not go around the memory. -/
theorem memsetw_apply (dest : Addr) (val : U16) (count : U32) (m : Mem) (x : Addr)
    (room : 2 * count.toNat ≤ 2 ^ 32) :
    (memsetw dest val count m).2 x =
      if (x - dest).toNat < 2 * count.toNat then wordBytes val ((x - dest).toNat % 2)
      else m x := by
  have bytes : fills 2 (wordBytes val) count.toNat dest m x =
      if _ then wordBytes val _ else m x :=
    fills_apply (Nat.mul_comm 2 _ ▸ room) (by decide) x
  rw [← setwLoop_eq_fills, Nat.mul_comm count.toNat 2] at bytes
  exact bytes

end Filling

end BlessOS.Guarantees.MemCopy
