import BlessOS.Source.Common
import BlessOS.Lib.ByteMemory

/-!
# The interrupt table

`boot/setup.s` fills `idt` with gates to `ignore_int`, and `traps_init` of `kernel/exceptions.c`
replaces them, with the macros of `include/kernel/system.h`. The addresses that the linker gives
to `idt`, to `isr_table` and to `ignore_int` are arguments.
-/

set_option autoImplicit false

namespace BlessOS.Source.Idt
open BlessOS.Lib.ByteMemory

/-- `movw` between the low halves of two registers. -/
def movw (source target : U32) : U32 := (target &&& 0xffff0000) ||| (source &&& 0xffff)

/-- The loop `repeat_load_idt`, with `ecx` turns left. -/
def repeatLoadIdt (eax edx : U32) : Nat → U32 → Mem → Mem
  | 0, _, m => m
  | ecx + 1, edi, m =>
    repeatLoadIdt eax edx ecx (edi + 8) (store32 (store32 m edi eax) (edi + 4) edx)

def setupIdt (idt ignoreInt : U32) (m : Mem) : Mem :=
  let edx := ignoreInt
  let eax := movw edx 0x00080000
  let edx := movw 0x8E00 edx
  repeatLoadIdt eax edx 256 idt m

def setGate (gateAddr type dpl addr : U32) (m : Mem) : Mem :=
  let edx := addr
  let eax := movw edx 0x00080000
  let edx := movw ((0x8000 : U32) + (dpl <<< 13) + (type <<< 8)) edx
  store32 (store32 m gateAddr eax) (gateAddr + 4) edx

def setTrapGate (idt n addr : U32) : Mem → Mem := setGate (idt + 8 * n) 15 0 addr
def setIntrGate (idt n addr : U32) : Mem → Mem := setGate (idt + 8 * n) 14 0 addr
def setSystemGate (idt n addr : U32) : Mem → Mem := setGate (idt + 8 * n) 15 3 addr

/-- `VALID_ISR`. -/
def validIsr : Nat := 32

/-- The body of the two loops, `set_intr_gate(i, (unsigned int)isr_table[(i << 1) + 1])`. -/
def installIsr (idt isrTable i : U32) (m : Mem) : Mem :=
  setIntrGate idt i (load32 m (isrTable + (4 : U32) * ((i <<< 1) + 1))) m

/-- Either loop, from `i` on, with a number of turns left. -/
def installLoop (idt isrTable : U32) : Nat → U32 → Mem → Mem
  | 0, _, m => m
  | left + 1, i, m => installLoop idt isrTable left (i + 1) (installIsr idt isrTable i m)

def trapsInit (idt isrTable : U32) (m : Mem) : Mem :=
  let first := validIsr + 2
  let m := installLoop idt isrTable first 0 m
  installLoop idt isrTable (256 - first) (BitVec.ofNat 32 first) m

end BlessOS.Source.Idt
