import BlessOS.Guarantees.HeapRuns
import BlessOS.Lib.Alignment

/-!
# The search of the index

Both tests of `find_smallest_hole` say whether the block fits, the aligned one behind the first
address that leaves its contents on a page; its signed arithmetic is exact on sizes below
`2 ^ 31`.
-/

set_option autoImplicit false

namespace BlessOS.Guarantees.HeapSearch
open BlessOS.Lib.ByteMemory BlessOS.Lib.Alignment
open BlessOS.Source BlessOS.Source.OrderedArray BlessOS.Source.Kheap
open BlessOS.Guarantees.OrderedArrayItems BlessOS.Guarantees.HeapInvariant
open BlessOS.Guarantees.HeapGrow BlessOS.Guarantees.HeapRuns

variable {ε : Type} {s : HeapState ε} {m : Mem} {size h : U32} {align : U8} {i : Nat}

theorem offset_ne_zero_iff (x : U32) : x &&& ~~~(0xfffff000 : U32) ≠ 0 ↔ x.toNat % 0x1000 ≠ 0 := by
  rw [← and_lowMask]
  constructor <;> intro proper zero <;> exact proper (by bv_omega)

/-- `offset` of `find_smallest_hole`, also where the address of the contents wraps. -/
theorem offset_shift (h : U32) :
    (if (h + headerBytes) &&& ~~~(0xfffff000 : U32) ≠ 0 then
      0x1000 - (h + headerBytes) % 0x1000 else 0 : U32).toNat = shift 0x1000 12 h.toNat := by
  have bits := offset_ne_zero_iff (h + headerBytes)
  have place : (h + headerBytes).toNat % 0x1000 = (h.toNat + 12) % 0x1000 := by
    have header : headerBytes.toNat = 12 := rfl
    rw [BitVec.toNat_add, header]
    omega
  rw [place] at bits
  split
  · next some =>
    have unaligned := bits.mp some
    have rest : ((h + headerBytes) % 0x1000).toNat = (h.toNat + 12) % 0x1000 :=
      BitVec.toNat_umod.trans place
    have page : (0x1000 : U32).toNat = 0x1000 := rfl
    unfold shift
    rw [BitVec.toNat_sub, rest, page]
    omega
  · next none =>
    have aligned : (h.toNat + 12) % 0x1000 = 0 := not_not.mp fun unaligned => none (bits.mpr unaligned)
    unfold shift
    rw [aligned]
    rfl

/-- A signed comparison with a difference, which is negative when it borrows. -/
theorem add_le_of_sle_sub {x y z : U32} (hx : x.toNat < 2 ^ 31) (hz : z.toNat < 2 ^ 31)
    (compared : x.sle (y - z) = true) : z.toNat + x.toNat ≤ y.toNat := by
  rw [BitVec.sle_iff_toInt_le, BitVec.toInt_eq_toNat_of_lt (by omega),
    BitVec.toInt_eq_toNat_cond] at compared
  split at compared <;> bv_omega

/-- A hole `[h, h + s)` has room for a block with its contents on a page. A block of a size other
than 0 then begins inside the hole. -/
def HasRoom (m : Mem) (size h : U32) : Prop :=
  ∃ q, h.toNat ≤ q ∧ (q + 12) % 0x1000 = 0 ∧ q + size.toNat ≤ h.toNat + (blockSize m h).toNat

theorem hasRoom_iff : HasRoom m size h ↔
    shift 0x1000 12 h.toNat + size.toNat ≤ (blockSize m h).toNat := by
  unfold HasRoom
  rw [exists_aligned_iff (by decide)]
  omega

theorem hasRoom_of_fits (small : size.toNat < 2 ^ 31) (flag : align ≠ 0)
    (fitting : fits m size align h = true) : HasRoom m size h := by
  have offset := offset_shift h
  have less := shift_lt (n := 0x1000) (by decide) 12 h.toNat
  unfold fits at fitting
  rw [if_pos flag] at fitting
  rw [hasRoom_iff, ← offset]
  exact add_le_of_sle_sub small (by omega) fitting

end BlessOS.Guarantees.HeapSearch
