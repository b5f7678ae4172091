import BlessOS.Source.Boot
import BlessOS.Source.Mem

/-!
# The moves of the boot sector, `boot/boot.s`

The string instructions on a machine of 16-bit registers whose memory is reached through
segments. The boot sector moves itself out of the way, and after the kernel is loaded it moves
the segments from `0x1000` on down by one. The printed messages, the stopped motor and the
tables of the processor do not touch the memory.
-/

set_option autoImplicit false

namespace BlessOS.Source.MoveKernel
open BlessOS.Lib.ByteMemory BlessOS.Source.Mem

structure RealMode where
  ax : U16
  cx : U16
  si : U16
  di : U16
  ds : U16
  es : U16
  /-- The direction flag: the string instructions go down. -/
  df : Bool
  mem : Mem

/-- The address of an offset in a segment. -/
def linear (segment offset : U16) : Addr := 16 * segment.setWidth 32 + offset.setWidth 32

def load16 (m : Mem) (a : Addr) : U16 := load8 m (a + 1) ++ load8 m a

def movsw (s : RealMode) : RealMode :=
  let step : U16 := if s.df then -2 else 2
  { s with
    mem := store16 s.mem (linear s.es s.di) (load16 s.mem (linear s.ds s.si))
    si := s.si + step
    di := s.di + step }

/-- `rep movsw` with `turns` words to go. -/
def repMovsw : Nat → RealMode → RealMode
  | 0, s => { s with cx := 0 }
  | turns + 1, s => repMovsw turns (movsw s)

def bootSeg : U16 := 0x07c0
def initSeg : U16 := 0x9000

/-- `move_boot`, up to the jump. -/
def moveBoot (s : RealMode) : RealMode :=
  let s := { s with ax := bootSeg }
  let s := { s with ds := s.ax }
  let s := { s with ax := initSeg }
  let s := { s with es := s.ax }
  let s := { s with si := 0, di := 0, cx := 256 }
  repMovsw s.cx.toNat s

/-- `mov[510],dx`, in the segment of the boot code. -/
def storeCursor (dx : U16) (s : RealMode) : RealMode :=
  { s with mem := store16 s.mem (linear s.ds 510) dx }

/-- `move_kernel`, for at most `turns` segments. -/
def moveSegments : Nat → RealMode → Option RealMode
  | 0, _ => none
  | turns + 1, s =>
    let s := { s with es := s.ax }
    let s := { s with ax := s.ax + 0x1000 }
    if s.ax = 0x9000 then some s
    else
      let s := { s with ds := s.ax }
      let s := { s with si := 0, di := 0, cx := 0x8000 }
      moveSegments turns (repMovsw s.cx.toNat s)

/-- There are sixteen segments of 64 KiB. -/
def segmentBound : Nat := 16

/-- From the clearing of `ax` to `end_kernel_move`. -/
def moveKernel (s : RealMode) : Option RealMode :=
  moveSegments segmentBound { s with ax := 0x0000, df := false }

end BlessOS.Source.MoveKernel
