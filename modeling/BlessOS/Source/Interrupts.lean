import BlessOS.Lib.InterruptNesting
import BlessOS.Source.Isr

/-!
# The devices that interrupt, `init/print.c`, `kernel/timer.c`, `kernel/keyboard.c`, `drivers/pata.c`

`main` programs the controllers, sets the gates and unmasks the lines one after the other; the
interrupts are on since `boot/setup.s`. Of the handlers only what concerns the processor's
interrupt flag, the controllers and the switch to another task is kept.
-/

set_option autoImplicit false

namespace BlessOS.Source.Interrupts
open BlessOS.Lib.InterruptController BlessOS.Lib.InterruptNesting BlessOS.Source.Isr

attribute [local instance] lineNeZero

def picInstall : List Op :=
  [.out 0x11 0x20, .out 0x11 0xa0, .out 0x20 0x21, .out 0x28 0xa1, .out 0x04 0x21, .out 0x02 0xa1,
    .out 0x01 0x21, .out 0x01 0xa1, .out 0xff 0x21, .out 0xff 0xa1]

/-- `1193180 / hz`; the division by zero does not come back. -/
def divisor (hz : U32) : Option U32 :=
  if hz = 0 then none else some ((1193180 : U32).sdiv hz)

/-- `timer_install` after the division. -/
def timerInstall (divisor : U32) : List Op :=
  [.out 0x36 0x43, .out ((divisor &&& 0xff).setWidth 8) 0x40, .out ((divisor >>> 8).setWidth 8) 0x40,
    .outAnd (~~~0x01) 0x21]

def kbInstall : List Op := [.outAnd 0xfd 0x21]

def initializePata : List Op := [.outAnd (~~~0x04) 0x21, .outAnd (~~~0x40) 0xa1]

/-- `1193180 / HZ` -/
def divisorOfHZ : U32 := 11931

theorem divisor_hz : divisor 100 = some divisorOfHZ := by decide

/-- `main` from `pic_install` on to `kb_install`. -/
def mainInstalls : List Op :=
  picInstall ++ .setGates :: (timerInstall divisorOfHZ ++ kbInstall)

def doTimer : List Op := [.cli, .sti, .out 0x20 0x20, .switchTask, .iret]
def doKb : List Op := [.out 0xA0 0x20, .out 0x20 0x20, .iret]
def hdInterrupt : List Op := [.iret]

/-- The `iret` of `default_isr` takes the return address of the call and the saved segments for
what the processor pushed, so it does not come back to the interrupted code (`InterruptReturn`).
The lines that `main` unmasks do not lead here: no run enters it. -/
def defaultIsr : List Op := [.out 0x20 0x20, .out 0x20 0xa0, .iret]

/-- `ignore_int` in `boot/setup.s`. -/
def ignoreInt : List Op := [.iret]

/-- Behind the gates of `setup_idt`, and of `traps_init`. The other handlers halt. -/
def entry (gates : Bool) (vector : U8) : List Op :=
  if gates then
    match isrTable[vector.toNat]? with
    | some (.c .doTimer) => doTimer
    | some (.c .doKb) => doKb
    | some (.c .hdInterrupt) => hdInterrupt
    | some .defaultIsr => defaultIsr
    | _ => []
  else ignoreInt

/-- The controllers as `boot/boot.s` leaves them; requests may have come in since. -/
def booted (masterRequests slaveRequests : Finset Line) : Cascade where
  master := ⟨0x20, 0xff, masterRequests, ∅, 7, .ready⟩
  slave := ⟨0x28, 0xff, slaveRequests, ∅, 7, .ready⟩

/-- The other tasks have not run yet. -/
def start (installs : List Op) (masterRequests slaveRequests : Finset Line) (tasks : Nat) :
    Machine where
  pics := booted masterRequests slaveRequests
  gates := false
  running := [⟨installs, true⟩]
  suspended := List.replicate tasks []
  taken := []

end BlessOS.Source.Interrupts
