import BlessOS.Source.Isr
import BlessOS.Source.Printk

/-!
# The exceptions, `kernel/exceptions.c`

A handler that calls `info` prints and halts. `info` takes its parameters from the stack, where
the common path of `kernel/isr.s` has left what `intr_stack_frame_t` lists. The register `cr3`
is an argument.
-/

set_option autoImplicit false
set_option linter.dupNamespace false

namespace BlessOS.Source.Exceptions
open BlessOS.Lib.ByteMemory BlessOS.Lib.StackMachine
open BlessOS.Source.Isr BlessOS.Source.Printk

/-- What is passed to `printk` behind the format. -/
inductive Argument where
  | word (value : U32)
  | string (text : String)
deriving DecidableEq

/-- A call of `printk`. -/
structure Call where
  kl : KpLevel
  fmt : String
  args : List Argument
deriving DecidableEq

/-- `enum KP_LEVEL`; other numbers select nothing in the table `KPL`. -/
def kpLevel (number : U32) : Option KpLevel :=
  if number = 0 then some .dump else if number = 1 then some .panic else none

/-- `KPL_PANIC`. -/
def kplPanic : U32 := 1

/-- `intr_stack_frame_t`. -/
structure IntrStackFrame where
  ss : U32
  gs : U32
  fs : U32
  es : U32
  ds : U32
  edi : U32
  esi : U32
  ebp : U32
  esp : U32
  ebx : U32
  edx : U32
  ecx : U32
  eax : U32
  isrNr : U32
  err : U32
  eip : U32
  cs : U32
  eflags : U32
  oldEsp : U32
  oldSs : U32
deriving DecidableEq

def exceptionMsg : List String :=
  ["DIVIDE ERROR", "DEBUG EXCEPTION", "BREAKPOINT", "NMI", "OVERFLOW", "BOUNDS CHECK",
    "INVALID OPCODE", "COPROCESSOR NOT VALID", "DOUBLE FAULT", "OVERRUN", "INVALID TSS",
    "SEGMENTATION NOT PRESENT", "STACK EXCEPTION", "GENERAL PROTECTION", "PAGE FAULT", "RESERVED",
    "COPROCESSOR_ERROR"]

/-- `sizeof(exception_msg)`, the bytes of the pointers. -/
def exceptionMsgSize : Nat := 4 * exceptionMsg.length

/-- The first call. `none` when the pointer that is passed is not one of the table. -/
def heading (kl : KpLevel) (isrNr : U32) : Option Call :=
  if isrNr.toNat < exceptionMsgSize then
    (exceptionMsg[isrNr.toNat]?).map fun message =>
      ⟨kl, "EXCEPTION %d: %s\n=======================\n", [.word isrNr, .string message]⟩
  else some ⟨kl, "INTERRUPT %d\n=======================\n", [.word isrNr]⟩

/-- The other calls. -/
def registers (kl : KpLevel) (f : IntrStackFrame) (cr2 cr3 : U32) : List Call :=
  [⟨kl, "cs:\t%x\teip:\t%x\teflags:\t%x\n", [.word f.cs, .word f.eip, .word f.eflags]⟩,
    ⟨kl, "ss:\t%x\tesp:\t%x\n", [.word f.ss, .word f.esp]⟩,
    ⟨kl, "old ss:\t%x\told esp:%x\n", [.word f.oldSs, .word f.oldEsp]⟩,
    ⟨kl, "errcode:%x\tcr2:\t%x\tcr3:\t%x\n", [.word f.err, .word cr2, .word cr3]⟩,
    ⟨kl, "General Registers:\n=======================\n", []⟩,
    ⟨kl, "eax:\t%x\tebx:\t%x\n", [.word f.eax, .word f.ebx]⟩,
    ⟨kl, "ecx:\t%x\tedx:\t%x\n", [.word f.ecx, .word f.edx]⟩,
    ⟨kl, "esi:\t%x\tedi:\t%x\tebp:\t%x\n", [.word f.esi, .word f.edi, .word f.ebp]⟩,
    ⟨kl, "Segment Registers:\n=======================\n", []⟩,
    ⟨kl, "ds:\t%x\tes:\t%x\n", [.word f.ds, .word f.es]⟩,
    ⟨kl, "fs:\t%x\tgs:\t%x\n", [.word f.fs, .word f.gs]⟩]

/-- A parameter of a C function, above its return address. -/
def parameter (i : Nat) (s : Machine) : U32 := stackWord (BitVec.ofNat 32 (4 * (i + 1))) s

/-- The parameters behind `kl` and `ret_ip`. -/
def frameParameters (s : Machine) : IntrStackFrame where
  ss := parameter 2 s
  gs := parameter 3 s
  fs := parameter 4 s
  es := parameter 5 s
  ds := parameter 6 s
  edi := parameter 7 s
  esi := parameter 8 s
  ebp := parameter 9 s
  esp := parameter 10 s
  ebx := parameter 11 s
  edx := parameter 12 s
  ecx := parameter 13 s
  eax := parameter 14 s
  isrNr := parameter 15 s
  err := parameter 16 s
  eip := parameter 17 s
  cs := parameter 18 s
  eflags := parameter 19 s
  oldEsp := parameter 20 s
  oldSs := parameter 21 s

/-- What is printed, from the first instruction on. -/
def info (cr3 : U32) (s : Machine) : Option (List Call) := do
  let kl ← kpLevel (parameter 0 s)
  let f := frameParameters s
  let first ← heading kl f.isrNr
  pure (first :: registers kl f s.cr2 cr3)

/-- The body of the handlers: `asm("pushl %%eax; call info"::"a"(KPL_PANIC))`, where `after` is
the address that `call` pushes. The `halt()` behind it is not left. -/
def panic (after cr3 : U32) (s : Machine) : Option (List Call) :=
  let s := { s with eax := kplPanic }
  info cr3 (push after (push s.eax s))

def divideError : U32 → U32 → Machine → Option (List Call) := panic
def debug : U32 → U32 → Machine → Option (List Call) := panic
def nmi : U32 → U32 → Machine → Option (List Call) := panic
def breakpoint : U32 → U32 → Machine → Option (List Call) := panic
def overflow : U32 → U32 → Machine → Option (List Call) := panic
def boundsCheck : U32 → U32 → Machine → Option (List Call) := panic
def invalidOpcode : U32 → U32 → Machine → Option (List Call) := panic
def coprocessorNotAv : U32 → U32 → Machine → Option (List Call) := panic
def doubleFault : U32 → U32 → Machine → Option (List Call) := panic
def invalidTSS : U32 → U32 → Machine → Option (List Call) := panic
def segmentNotPresent : U32 → U32 → Machine → Option (List Call) := panic
def stackException : U32 → U32 → Machine → Option (List Call) := panic
def generalProtection : U32 → U32 → Machine → Option (List Call) := panic
def pageFault : U32 → U32 → Machine → Option (List Call) := panic
def coprocessorError : U32 → U32 → Machine → Option (List Call) := panic
def reserved : U32 → U32 → Machine → Option (List Call) := panic

/-- The handlers that the table of `kernel/isr.s` enters. -/
def handler : CFunction → Option (U32 → U32 → Machine → Option (List Call))
  | .divideError => some divideError
  | .debug => some debug
  | .nmi => some nmi
  | .breakpoint => some breakpoint
  | .overflow => some overflow
  | .boundsCheck => some boundsCheck
  | .invalidOpcode => some invalidOpcode
  | .coprocessorNotAv => some coprocessorNotAv
  | .doubleFault => some doubleFault
  | .reserved => some reserved
  | .invalidTSS => some invalidTSS
  | .segmentNotPresent => some segmentNotPresent
  | .stackException => some stackException
  | .generalProtection => some generalProtection
  | .coprocessorError => some coprocessorError
  | .doTimer | .doKb | .hdInterrupt | .noPage => none

end BlessOS.Source.Exceptions
