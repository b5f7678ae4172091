import BlessOS.Source.Common
import BlessOS.Lib.StackMachine

/-!
# The interrupt entry, `kernel/isr.s`

Each routine takes the machine at its first instruction to the machine at the
instruction that leaves it. The C functions that are called, and the addresses that
`call` pushes, are arguments.
-/

set_option autoImplicit false

namespace BlessOS.Source.Isr
open BlessOS.Lib.ByteMemory BlessOS.Lib.StackMachine

/-- The C functions that are called from here. -/
inductive CFunction where
  | divideError | debug | nmi | breakpoint | overflow | boundsCheck | invalidOpcode
  | coprocessorNotAv | doubleFault | reserved | invalidTSS | segmentNotPresent | stackException
  | generalProtection | coprocessorError
  | doTimer | doKb | hdInterrupt | noPage
deriving DecidableEq

/-- The instructions after a `call`. -/
inductive Label where
  | isrComm | irqComm | doPageFault

/-- What the routines are linked with: the machine after a C function returned, its
return address taken off the stack, if it returns; and the return addresses. -/
structure Link where
  run : CFunction → Machine → Option Machine
  after : Label → U32

/-- How a routine is left: by `ret`, by `iret` with the machine it is executed in, not at
all, or to no entry of the table. -/
inductive Exit where
  | ret (s : Machine)
  | iret (s : Machine)
  | halted
  | wild

/-- The first words of the entries of `isr_table`. -/
inductive Handler where
  | c (function : CFunction)
  | doPageFault
  | defaultIsr
deriving DecidableEq

def isrTable : List Handler :=
  [.c .divideError, .c .debug, .c .nmi, .c .breakpoint, .c .overflow, .c .boundsCheck,
    .c .invalidOpcode, .c .coprocessorNotAv, .c .doubleFault, .c .reserved, .c .invalidTSS,
    .c .segmentNotPresent, .c .stackException, .c .generalProtection, .doPageFault, .c .reserved,
    .c .coprocessorError, .c .reserved, .c .reserved, .c .reserved, .c .reserved, .c .reserved,
    .c .reserved, .c .reserved, .c .reserved, .c .reserved, .c .reserved, .c .reserved,
    .c .reserved, .c .reserved, .c .reserved, .c .reserved,
    .c .doTimer, .c .doKb, .defaultIsr, .defaultIsr, .defaultIsr, .defaultIsr, .defaultIsr,
    .defaultIsr, .defaultIsr, .defaultIsr, .defaultIsr, .defaultIsr, .defaultIsr, .defaultIsr,
    .c .hdInterrupt]

def al (s : Machine) : U8 := s.eax.setWidth 8

def setAl (value : U8) (s : Machine) : Machine :=
  { s with eax := (s.eax &&& 0xffffff00) ||| value.setWidth 32 }

def setAx (value : U16) (s : Machine) : Machine :=
  { s with eax := (s.eax &&& 0xffff0000) ||| value.setWidth 32 }

/-- `outb %al, $port` -/
def outAl (port : U16) (s : Machine) : Machine := { s with ports := s.ports ++ [(al s, port)] }

def callC (link : Link) (function : CFunction) (s : Machine) : Exit :=
  match link.run function s with
  | some t => .ret t
  | none => .halted

/-- `xchg %bx, %bx` changes nothing. -/
def doPageFault (link : Link) (s : Machine) : Exit :=
  let s := push s.eax s
  let s := { s with eax := s.cr2 }
  let s := push s.eax s
  match callC link .noPage (push (link.after .doPageFault) s) with
  | .ret s => .iret (drop 4 { s with eax := stackWord 0 s })
  | exit => exit

def defaultIsr (s : Machine) : Exit :=
  let s := { s with eax := stackWord 56 s }
  let s := setAl (al s - 32) s
  let s := setAl (al s + 48) s
  let s := { s with mem := store8 (store8 s.mem 0xb8008 (al s)) 0xb8009 0xf }
  let s := setAl 0x20 s
  .iret (outAl 0xa0 (outAl 0x20 s))

def Handler.run (link : Link) : Handler → Machine → Exit
  | .c function => callC link function
  | .doPageFault => Isr.doPageFault link
  | .defaultIsr => Isr.defaultIsr

/-- The code of `isr_comm` and of `irq_comm`, up to the `call`. -/
def saveContext (s : Machine) : Machine :=
  let s := pushSs (pushGs (pushFs (pushEs (pushDs (pushal s)))))
  let s := { setAx 0x10 s with ds := 0x10, es := 0x10, fs := 0x10, gs := 0x10 }
  { s with ecx := stackWord 52 s }

/-- The code after the `call`. -/
def restoreContext (s : Machine) : Machine :=
  drop 8 (popal (popDs (popEs (popFs (popGs (drop 4 s))))))

/-- `isr_comm` and `irq_comm` differ in the address that `call` pushes. -/
def comm (link : Link) (label : Label) (s : Machine) : Exit :=
  let s := saveContext s
  match isrTable[(s.ecx * 8).toNat / 8]? with
  | none => .wild
  | some handler =>
    match handler.run link (push (link.after label) s) with
    | .ret s => .iret (restoreContext s)
    | exit => exit

def isrComm (link : Link) : Machine → Exit := comm link .isrComm
def irqComm (link : Link) : Machine → Exit := comm link .irqComm

def isrnoerror (link : Link) (nr : U32) (s : Machine) : Exit := isrComm link (push nr (push 0 s))
def isrerror (link : Link) (nr : U32) (s : Machine) : Exit := isrComm link (push nr s)
def irq (link : Link) (nr : U32) (s : Machine) : Exit := irqComm link (push nr (push 0 s))

/-- The stub of each vector, by the macro it is made with. -/
def stub (link : Link) (nr : U32) : Machine → Exit :=
  if 0x20 ≤ nr then irq link nr
  else if nr = 0x08 ∨ (0x0a ≤ nr ∧ nr ≤ 0x0e) ∨ nr = 0x10 then isrerror link nr
  else isrnoerror link nr

end BlessOS.Source.Isr
