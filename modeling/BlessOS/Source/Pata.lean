import BlessOS.Source.Common

/-!
# The disk's ports, `drivers/pata.c`

What the driver reads from the status port is a sequence of bytes, and what it
writes is the list of its port writes in order. The data of a block is written as
one transfer, named by its buffer head.
-/

set_option autoImplicit false

namespace BlessOS.Source.Pata

def ataBase : U32 := 0x1f0
def ataPriSect : U32 := ataBase + 2
def ataPriSectn : U32 := ataBase + 3
def ataPriCyll : U32 := ataBase + 4
def ataPriCylh : U32 := ataBase + 5
def ataPriHead : U32 := ataBase + 6
def ataPriCmd : U32 := ataBase + 7

def ataCmdRead : U32 := 0x20
def ataCmdWrite : U32 := 0x30

def ataErrBit : U8 := 0x00
def ataDrqBit : U8 := 0x08
def ataFaultBit : U8 := 0x20
def ataRdyBit : U8 := 0x40
def ataBusyBit : U8 := 0x80

def ataMaster : U32 := 0xa0

inductive PortWrite where
  | byte (value : U8) (port : U32)
  | block (buffer : U32)
  deriving DecidableEq, Repr

/-- `outb` sends the low byte. -/
def outb (value port : U32) : PortWrite := .byte (value.setWidth 8) port

/-- The arguments of `hd_rw`. -/
structure Command where
  drive : U32
  nsect : U32
  sectNo : U32
  head : U32
  cyl : U32
  cmd : U32
  deriving DecidableEq, Repr

/-- The loop of `pata_wait` from the read `i` on: what it returns and after which read, or
`none` if it has not returned after `turns` more. -/
def waitLoop (status : Nat → U8) : Nat → Nat → Option (U8 × Nat)
  | 0, _ => none
  | turns + 1, i =>
    if status i &&& ataBusyBit = 0 then some (0, i)
    else if i > 4 ∧ ((status i ≠ 0 ∧ ataErrBit ≠ 0) ∨ (status i ≠ 0 ∧ ataFaultBit ≠ 0)) then
      some (status i, i)
    else waitLoop status turns (i + 1)

/-- `drive` is not looked at. -/
def pataWait (_drive : U8) (status : Nat → U8) (turns : Nat) : Option (U8 × Nat) :=
  waitLoop status turns 0

/-- `while (retries--) if (ready) break;` from the read `turn` on; the value of `retries`. -/
def readyLoop (status : Nat → U8) : Nat → Nat → Int
  | 0, _ => -1
  | retries + 1, turn =>
    if status turn &&& 0xc0 = ataRdyBit then retries else readyLoop status retries (turn + 1)

def isHdReady (status : Nat → U8) : Int := readyLoop status 10000 0

def hdRw (status : Nat → U8) (c : Command) : List PortWrite :=
  if isHdReady status = 0 then []
  else
    [outb (ataMaster ||| (c.drive <<< 4) ||| c.head) ataPriHead, outb c.nsect ataPriSect,
      outb c.sectNo ataPriSectn, outb (c.cyl &&& 0xff) ataPriCyll, outb (c.cyl >>> 8) ataPriCylh,
      outb c.cmd ataPriCmd]

def isHdDrq (status : U8) : Bool := decide (status &&& ataDrqBit ≠ 0)

end BlessOS.Source.Pata
