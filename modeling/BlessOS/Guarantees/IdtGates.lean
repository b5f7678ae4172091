import BlessOS.Lib.TableFill
import BlessOS.Source.Idt

/-!
# The gates of the interrupt table

After `traps_init` each of the 256 gates is a present interrupt gate of the kernel's code segment
whose offset is the second word of its pair in `isr_table`, or what stands behind the table where
that has no pair.
-/

set_option autoImplicit false

namespace BlessOS.Guarantees.IdtGates
open BlessOS.Lib.ByteMemory BlessOS.Lib.TableFill
open BlessOS.Source BlessOS.Source.Idt

/-! ## Gates -/

/-- What the processor reads of a gate. -/
structure Gate where
  offset : U32
  selector : U16
  type : BitVec 5
  dpl : BitVec 2
  present : Bool
deriving DecidableEq

/-- The gate in two words. -/
def decode (low high : U32) : Gate where
  offset := (high &&& 0xffff0000) ||| (low &&& 0xffff)
  selector := low.extractLsb' 16 16
  type := high.extractLsb' 8 5
  dpl := high.extractLsb' 13 2
  present := high.getLsbD 15

def gateAt (m : Mem) (a : U32) : Gate := decode (load32 m a) (load32 m (a + 4))

/-- A present gate of the kernel's code segment. -/
def kernelGate (type : BitVec 5) (dpl : BitVec 2) (offset : U32) : Gate :=
  { offset := offset, selector := 8, type := type, dpl := dpl, present := true }

section Halves

variable (source target flags : U32)

theorem masks (i : Nat) (inside : i < 32) : (0xffff0000 : U32).getLsbD i = !decide (i < 16) ∧
    (0xffff : U32).getLsbD i = decide (i < 16) := by
  revert i
  decide

theorem movw_bit {i : Nat} (inside : i < 32) : (movw source target).getLsbD i =
    if i < 16 then source.getLsbD i else target.getLsbD i := by
  obtain ⟨high, low⟩ := masks i inside
  unfold movw
  rw [BitVec.getLsbD_or, BitVec.getLsbD_and, BitVec.getLsbD_and, high, low]
  by_cases half : i < 16
  · simp [half]
  · simp [half]

/-- A field of the lower half. -/
theorem movw_field {start length : Nat} (low : start + length ≤ 16) :
    (movw source target).extractLsb' start length = source.extractLsb' start length := by
  apply BitVec.eq_of_getLsbD_eq
  intro i inside
  have half : start + i < 16 := by omega
  simp [inside, half, movw_bit source target (by omega : start + i < 32)]

theorem movw_high :
    (movw source target).extractLsb' 16 16 = target.extractLsb' 16 16 := by
  apply BitVec.eq_of_getLsbD_eq
  intro i inside
  simp [inside, movw_bit source target (by omega : 16 + i < 32)]

/-- The halves of an address, in two words. -/
theorem movw_join :
    (movw flags source &&& 0xffff0000) ||| (movw source target &&& 0xffff) = source := by
  apply BitVec.eq_of_getLsbD_eq
  intro i inside
  obtain ⟨high, low⟩ := masks i inside
  rw [BitVec.getLsbD_or, BitVec.getLsbD_and, BitVec.getLsbD_and, high, low,
    movw_bit _ _ inside, movw_bit _ _ inside]
  by_cases half : i < 16
  · simp [half]
  · simp [half]

end Halves

/-- The words of a gate, from its address and its flags. -/
theorem decode_movw (offset flags : U32) :
    decode (movw offset 0x00080000) (movw flags offset) =
      { offset := offset, selector := 8, type := flags.extractLsb' 8 5,
        dpl := flags.extractLsb' 13 2, present := flags.getLsbD 15 } := by
  unfold decode
  congr 1
  · exact movw_join _ _ _
  · exact movw_high _ _
  · exact movw_field _ _ (by decide)
  · exact movw_field _ _ (by decide)
  · exact movw_bit _ _ (by decide)

/-- The immediate of `set_gate`. -/
theorem flags_fields : ∀ (type : BitVec 5) (dpl : BitVec 2),
    let flags := (0x8000 : U32) + (dpl.setWidth 32 <<< 13) + (type.setWidth 32 <<< 8)
    flags.extractLsb' 8 5 = type ∧ flags.extractLsb' 13 2 = dpl ∧ flags.getLsbD 15 = true := by
  decide

/-- The macros make a gate of the type and the level that are passed. -/
theorem decode_setGate (type : BitVec 5) (dpl : BitVec 2) (addr : U32) :
    decode (movw addr 0x00080000)
        (movw ((0x8000 : U32) + (dpl.setWidth 32 <<< 13) + (type.setWidth 32 <<< 8)) addr) =
      kernelGate type dpl addr := by
  obtain ⟨isType, isDpl, isPresent⟩ := flags_fields type dpl
  rw [decode_movw, isType, isDpl, isPresent]
  rfl

/-! ## The loops -/

section Loops

variable (idt isrTable ignoreInt : U32)

/-- The words of a gate to `offset` that `setup_idt` and `set_intr_gate` write. -/
def gateWords (offset : U32) : U32 × U32 := (movw offset 0x00080000, movw 0x8E00 offset)

theorem decode_gateWords (offset : U32) :
    decode (gateWords offset).1 (gateWords offset).2 = kernelGate 14 0 offset :=
  decode_setGate 14 0 offset

theorem repeatLoadIdt_fill (eax edx : U32) (left i : Nat) (m : Mem) :
    repeatLoadIdt eax edx left (entry idt i) m =
      fill (fun i => storeWords (entry idt i) eax edx) left i m := by
  induction left generalizing i m with
  | zero => rfl
  | succ left ih =>
    rw [repeatLoadIdt, fill, entry_succ]
    exact ih (i + 1) _

theorem entry_zero : entry idt 0 = idt := BitVec.add_zero idt

theorem setupIdt_fill (m : Mem) : setupIdt idt ignoreInt m =
    fill (fun i => storeWords (entry idt i) (gateWords ignoreInt).1 (gateWords ignoreInt).2)
      256 0 m := by
  have loop := repeatLoadIdt_fill idt (gateWords ignoreInt).1 (gateWords ignoreInt).2 256 0 m
  rw [entry_zero] at loop
  exact loop

theorem installLoop_fill (left i : Nat) (m : Mem) :
    installLoop idt isrTable left (BitVec.ofNat 32 i) m =
      fill (fun i => installIsr idt isrTable (BitVec.ofNat 32 i)) left i m := by
  induction left generalizing i m with
  | zero => rfl
  | succ left ih =>
    have next : BitVec.ofNat 32 i + 1 = BitVec.ofNat 32 (i + 1) := (BitVec.ofNat_add i 1).symm
    rw [installLoop, fill, next]
    exact ih (i + 1) _

/-- The two loops are one. -/
theorem trapsInit_fill (m : Mem) : trapsInit idt isrTable m =
    fill (fun i => installIsr idt isrTable (BitVec.ofNat 32 i)) 256 0 m := by
  have first : installLoop idt isrTable (validIsr + 2) 0 m =
      fill (fun i => installIsr idt isrTable (BitVec.ofNat 32 i)) (validIsr + 2) 0 m :=
    installLoop_fill idt isrTable (validIsr + 2) 0 m
  have second := installLoop_fill idt isrTable (256 - (validIsr + 2)) (validIsr + 2)
    (installLoop idt isrTable (validIsr + 2) 0 m)
  unfold trapsInit
  refine second.trans ?_
  rw [first]
  exact fill_append _ (validIsr + 2) (256 - (validIsr + 2)) 0 m

/-- The second word of a pair. -/
theorem pair_second (i : Nat) :
    isrTable + (4 : U32) * ((BitVec.ofNat 32 i <<< 1) + 1) = entry isrTable i + 4 := by
  have double : BitVec.ofNat 32 i <<< 1 = 2 * BitVec.ofNat 32 i := by bv_omega
  unfold entry
  rw [double]
  bv_omega

section Apart

variable {m m' : Mem} (room : isrTable.toNat + 0x800 ≤ 2 ^ 32)
  (apart : idt.toNat + 0x800 ≤ isrTable.toNat ∨ isrTable.toNat + 0x800 ≤ idt.toNat)

include room apart

/-- The words that the loop reads are not in the table that it writes. -/
theorem pair_kept (agree : AgreeOff idt.toNat (idt.toNat + 8 * 256) m m') {i : Nat}
    (inside : i < 256) : load32 m' (entry isrTable i + 4) = load32 m (entry isrTable i + 4) := by
  have place : (entry isrTable i).toNat = isrTable.toNat + 8 * i := entry_toNat room inside
  exact agree.load32 fun k small => by bv_omega

theorem installIsr_writes :
    Writes idt 256 m (fun i => installIsr idt isrTable (BitVec.ofNat 32 i))
      (fun i => gateWords (load32 m (entry isrTable i + 4))) := by
  intro i inside m' agree
  have kept := pair_kept idt isrTable room apart agree inside
  dsimp only
  unfold installIsr
  rw [pair_second, kept]
  rfl

end Apart

end Loops

theorem gateAt_words (m : Mem) (a : U32) : gateAt m a = decode (words m a).1 (words m a).2 := rfl

/-- **The gates.** From every memory, `setup_idt` leaves 256 gates to `ignore_int`, and `traps_init`
256 gates to the second words of the pairs of `isr_table`, all of them present interrupt gates of
the kernel's code segment; nothing else changes. -/
theorem gates_installed (idt isrTable ignoreInt : U32) (m : Mem) (room : idt.toNat + 0x800 ≤ 2 ^ 32)
    (room' : isrTable.toNat + 0x800 ≤ 2 ^ 32)
    (apart : idt.toNat + 0x800 ≤ isrTable.toNat ∨ isrTable.toNat + 0x800 ≤ idt.toNat) :
    let first := setupIdt idt ignoreInt m
    let last := trapsInit idt isrTable first
    (∀ v < 256, gateAt first (entry idt v) = kernelGate 14 0 ignoreInt) ∧
      (∀ v < 256, gateAt last (entry idt v) =
        kernelGate 14 0 (load32 m (entry isrTable v + 4))) ∧
      AgreeOff idt.toNat (idt.toNat + 0x800) m last := by
  intro first last
  have constant : Writes idt 256 m
      (fun i => storeWords (entry idt i) (gateWords ignoreInt).1 (gateWords ignoreInt).2)
      (fun _ => gateWords ignoreInt) := fun _ _ _ _ => rfl
  obtain ⟨off, written⟩ := fill_all room constant
  rw [← setupIdt_fill] at off written
  obtain ⟨off', written'⟩ := fill_all room (installIsr_writes idt isrTable room' apart (m := first))
  rw [← trapsInit_fill] at off' written'
  refine ⟨fun v inside => ?_, fun v inside => ?_, off.trans off'⟩
  · rw [gateAt_words, written v inside]
    exact decode_gateWords ignoreInt
  · rw [gateAt_words, written' v inside, pair_kept idt isrTable room' apart off inside]
    exact decode_gateWords _

/-- A table right behind the other one. -/
theorem gates_installed_adjacent :
    gateAt (trapsInit 0x4100 0x4900 (setupIdt 0x4100 0x40f0 fun _ => 0)) (entry 0x4100 0x20) =
      kernelGate 14 0 0 :=
  (gates_installed 0x4100 0x4900 0x40f0 (fun _ => 0) (by decide) (by decide)
    (.inl (by decide))).2.1 0x20 (by decide)

end BlessOS.Guarantees.IdtGates
