import BlessOS.Source.Common

/-!
# The boot loader, `boot/boot.s`

`load_kernel` and `read_sectors` on a machine of 16-bit registers. The variables are in the
segment of the boot code, above the kernel. The BIOS answers a read or a reset with the carry
flag and may leave anything in `ax`, `bx`, `cx` and `dx`; the reads it was asked for are
recorded in order. The other flags are tested where they are set.
-/

set_option autoImplicit false

namespace BlessOS.Source.Boot

/-- The registers at a read, and whether it failed. -/
structure Read where
  ax : U16
  bx : U16
  cx : U16
  dx : U16
  es : U16
  failed : Bool
deriving DecidableEq, Repr

/-- What `int 0x13` comes back with. -/
structure Answer where
  carry : Bool
  ax : U16
  bx : U16
  cx : U16
  dx : U16

/-- The answers to the reads and to the resets, by their number. -/
structure Bios where
  read : Nat → Answer
  reset : Nat → Answer

structure Loader where
  ax : U16
  bx : U16
  cx : U16
  dx : U16
  es : U16
  carry : Bool
  sectors : U16
  head : U16
  track : U16
  stack : List U16
  reads : List Read
  resets : Nat

def sysSeg : U16 := 0x1000
def totalSectors : U16 := 18

/-- `al` of `ax`, and so on. -/
def low (r : U16) : U8 := r.setWidth 8

/-- `mov ah, value`, and so on. -/
def setHigh (r : U16) (value : U8) : U16 := value ++ low r

/-- `mov al, value`, and so on. -/
def setLow (r : U16) (value : U8) : U16 := (r >>> 8).setWidth 8 ++ value

/-- The carry flag of `add`. -/
def addCarry (x y : U16) : Bool := decide (2 ^ 16 ≤ x.toNat + y.toNat)

def push (value : U16) (s : Loader) : Loader := { s with stack := value :: s.stack }

def answered (answer : Answer) (s : Loader) : Loader :=
  { s with
    carry := answer.carry
    ax := answer.ax
    bx := answer.bx
    cx := answer.cx
    dx := answer.dx }

/-- `int 0x13` with `ah = 2`. -/
def int13Read (bios : Bios) (s : Loader) : Loader :=
  let answer := bios.read s.reads.length
  answered answer { s with reads := s.reads ++ [⟨s.ax, s.bx, s.cx, s.dx, s.es, answer.carry⟩] }

/-- `int 0x13` with `ah = 0`. -/
def int13Reset (bios : Bios) (s : Loader) : Loader :=
  answered (bios.reset s.resets) { s with resets := s.resets + 1 }

/-- `pop dx`, `pop cx`, `pop bx`, `pop ax`. -/
def popRegisters (s : Loader) : Loader :=
  match s.stack with
  | dx :: cx :: bx :: ax :: stack => { s with dx := dx, cx := cx, bx := bx, ax := ax, stack := stack }
  | _ => s

/-- `read_sectors` up to its first `int 0x13`. -/
def attempt (bios : Bios) (s : Loader) : Loader :=
  let s := push s.dx (push s.cx (push s.bx (push s.ax s)))
  let s := { s with dx := s.track }
  let s := { s with cx := s.sectors }
  let s := { s with cx := s.cx + 1 }
  let s := { s with cx := setHigh s.cx (low s.dx) }
  let s := { s with dx := s.head }
  let s := { s with dx := setHigh s.dx (low s.dx) }
  let s := { s with dx := setLow s.dx 0 }
  let s := { s with dx := s.dx &&& 0x0100 }
  let s := { s with ax := setHigh s.ax 2 }
  int13Read bios s

/-- `none` when the tries are used up. -/
def readSectors (bios : Bios) : Nat → Loader → Option Loader
  | 0, _ => none
  | tries + 1, s =>
    let s := attempt bios s
    if s.carry then
      readSectors bios tries (popRegisters (int13Reset bios { s with ax := 0, dx := 0 }))
    else some (popRegisters s)

/-- `.calc_sectors` -/
def calcSectors (s : Loader) : Loader :=
  let s := { s with ax := totalSectors - s.sectors }
  let s := { s with cx := s.ax <<< 9 }
  let carry := addCarry s.cx s.bx
  let s := { s with cx := s.cx + s.bx }
  if carry = false then s
  else if s.cx = 0 then s
  else { s with ax := (0 - s.bx) >>> 9 }

/-- From the return of `read_sectors` to the end of `.update`, without the moves of the buffer. -/
def countSectors (s : Loader) : Loader :=
  let s := { s with cx := s.ax }
  let s := { s with ax := s.ax + s.sectors }
  let s :=
    if s.ax ≠ totalSectors then s
    else
      let s := { s with ax := 1 - s.head }
      let s := if s.ax ≠ 0 then s else { s with track := s.track + 1 }
      { s with head := s.ax, ax := 0 }
  { s with sectors := s.ax }

/-- The moves of the buffer. -/
def moveBuffer (s : Loader) : Loader :=
  let s := { s with cx := s.cx <<< 9 }
  let carry := addCarry s.bx s.cx
  let s := { s with bx := s.bx + s.cx }
  if carry = false then s
  else
    let s := { s with ax := s.es }
    let s := { s with ax := s.ax + 0x1000 }
    { s with es := s.ax, bx := 0 }

/-- `.repeat_read`, for at most `turns` turns with at most `tries` tries each. -/
def repeatRead (bios : Bios) (endSeg : U16) (tries : Nat) : Nat → Loader → Option Loader
  | 0, _ => none
  | turns + 1, s =>
    let s := { s with ax := s.es }
    if s.ax < endSeg then
      (readSectors bios tries (calcSectors s)).bind fun s =>
        repeatRead bios endSeg tries turns (moveBuffer (countSectors s))
    else some s

/-- `none` stands for `.die`, and for a bound that does not suffice. -/
def loadKernel (bios : Bios) (endSeg : U16) (bound : Nat) (s : Loader) : Option Loader :=
  let s := { s with ax := s.es }
  if s.ax &&& 0x0fff ≠ 0 then none
  else repeatRead bios endSeg bound bound { s with bx := 0 }

/-- The call of `load_kernel`, for a kernel of `sysSize` paragraphs. -/
def loadSystem (bios : Bios) (sysSize : U16) (bound : Nat) (s : Loader) : Option Loader :=
  loadKernel bios (sysSeg + sysSize) bound { s with ax := sysSeg, es := sysSeg }

end BlessOS.Source.Boot
