import BlessOS.Source.Common
import BlessOS.Lib.ByteMemory

/-!
# The text console, `kernel/console.c`

The cursor, the memory that the video memory is part of, and two records of what the
code does to the outside: the addresses it writes, in order, and what it sends to the
ports of the CRT controller. A position outside the screen is representable and its
cell has an address, so nothing keeps the cursor or the writes in bounds.
-/

set_option autoImplicit false
set_option linter.dupNamespace false

namespace BlessOS.Source.Console
open BlessOS.Lib.ByteMemory

def videoramStart : Int := 0xB8000
def lines : Int := 25
def columns : Int := 80
def vramLine : Int := columns * 2
def tabWidth : Int := 4
def emptyChar : U8 := 0x20
def blankAttr : U8 := 0x07

/-- `COLOUR`. -/
inductive Colour where
  | black | blue | green | cyan | red | magenta | brown | white
  | gray | lightBlue | lightGreen | lightCyan
  | lightRed | lightMagenta | yellow | brightWhite
deriving DecidableEq, Repr

/-- The value of the enumeration constant. -/
def Colour.value (colour : Colour) : U8 :=
  BitVec.ofNat 8 colour.ctorIdx

structure Console where
  csrX : Int
  csrY : Int
  mem : Mem
  written : List Addr
  ports : List (U8 × U16)

/-- The cursor is static and starts at zero. -/
def boot (mem : Mem) : Console := ⟨0, 0, mem, [], []⟩

/-- One byte stored through a pointer. -/
def poke (a : Addr) (value : U8) (s : Console) : Console :=
  { s with mem := store8 s.mem a value, written := s.written ++ [a] }

/-- One `unsigned short` stored through a pointer. -/
def pokew (a : Addr) (value : U16) (s : Console) : Console :=
  poke (a + 1) ((value >>> 8).setWidth 8) (poke a (value.setWidth 8) s)

/-- `outb(value, port)`. -/
def outb (value : U8) (port : U16) (s : Console) : Console :=
  { s with ports := s.ports ++ [(value, port)] }

/-- `memcpy(sp, dp, n)` of `mem.c`, the source first. -/
def memcpy : Addr → Addr → Nat → Console → Console
  | _, _, 0, s => s
  | sp, dp, n + 1, s => memcpy (sp + 1) (dp + 1) n (poke dp (load8 s.mem sp) s)

def memsetw : Addr → U16 → Nat → Console → Console
  | _, _, 0, s => s
  | dest, val, count + 1, s => memsetw (dest + 2) val count (pokew dest val s)

/-- `&vga_mem[i]`. -/
def vgaMem (i : Int) : Addr := BitVec.ofInt 32 (videoramStart + i * 2)

/-- `0x20 | (((0 << 4) | (15 & 0xff)) << 8)`. -/
def blank : U16 := 0x20 ||| (((0 <<< 4) ||| (15 &&& 0xff)) <<< 8)

/-- The loop that blanks the last line, after `i` turns. -/
def blankLast : Nat → Console → Console
  | 0, s => s
  | i + 1, s => pokew (vgaMem (columns * (lines - 1) + i)) blank (blankLast i s)

def scrollDown (s : Console) : Console :=
  blankLast columns.toNat
    (memcpy (vgaMem columns) (vgaMem 0) (columns * (lines - 1) * 2).toNat s)

def clearScreen (s : Console) : Console :=
  memsetw (vgaMem 0) blank (lines * columns).toNat s

def setCursor (x y : Int) (s : Console) : Console :=
  let position : U16 := BitVec.ofInt 16 (y * columns + x)
  outb (((position >>> 8) &&& 0xff).setWidth 8) 0x3d5 (outb 0x0e 0x3d4
    (outb ((position &&& 0xff).setWidth 8) 0x3d5 (outb 0x0f 0x3d4
      { s with csrX := x, csrY := y })))

def getCursor (s : Console) : Int × Int := (s.csrX, s.csrY)

/-- `turns` turns of the loops that put empty characters from the cursor on. -/
def fill (attr : U8) : Nat → Addr → Console → Console
  | 0, _, s => s
  | turns + 1, dest, s =>
    let drawn := poke (dest + 1) attr (poke dest emptyChar s)
    fill attr turns (dest + 2) { drawn with csrX := drawn.csrX + 1 }

/-- `for (; csr_x < limit; ++csr_x)`. -/
def fillTo (limit : Int) (attr : U8) (dest : Addr) (s : Console) : Console :=
  fill attr (limit - s.csrX).toNat dest s

/-- The end of the tab, computed in `c`, a signed `char`. -/
def tabStop (csrX : Int) : Int :=
  let c := (csrX + tabWidth - csrX % tabWidth).bmod 256
  if c < columns then c else columns

def cr : U8 := 0x0d
def lf : U8 := 0x0a
def tab : U8 := 0x09
def backspace : U8 := 0x08

/-- What follows the `switch` of `print_c`. -/
def endPrint (s : Console) : Console :=
  let s :=
    if columns ≤ s.csrX then
      let s := { s with csrX := 0 }
      if s.csrY < lines - 1 then { s with csrY := s.csrY + 1 } else scrollDown s
    else s
  setCursor s.csrX s.csrY s

/-- `(unsigned char)(bg << 4 | fg)`. -/
def attrOf (fg bg : Colour) : U8 := bg.value <<< 4 ||| fg.value

/-- The cell under the cursor. -/
def cursorCell (s : Console) : Addr :=
  BitVec.ofInt 32 (videoramStart + s.csrY * vramLine + s.csrX * 2)

def printC (c : U8) (fg bg : Colour) (s : Console) : Console :=
  let dest := cursorCell s
  let attr := attrOf fg bg
  if c = cr then endPrint { s with csrX := 0 }
  else if c = lf then endPrint (fillTo columns attr dest s)
  else if c = tab then endPrint (fillTo (tabStop s.csrX) attr dest s)
  else if c = backspace then
    if s.csrX = 0 ∧ s.csrY = 0 then s
    else
      let s :=
        if s.csrX = 0 then { s with csrX := columns - 1, csrY := s.csrY - 1 }
        else { s with csrX := s.csrX - 1 }
      endPrint (poke (dest - 2) emptyChar (poke (dest - 1) blankAttr s))
  else
    let s := poke (dest + 1) attr (poke dest c s)
    endPrint { s with csrX := s.csrX + 1 }

/-- The ten scrolls of `console_init`, after `i` turns. -/
def scrolls : Nat → Console → Console
  | 0, s => s
  | i + 1, s => scrollDown (scrolls i s)

def consoleInit (s : Console) : Console :=
  scrolls 10 (setCursor 0 0 (clearScreen s))

/-- What `do_timer` does to the console. -/
def doTimerCursor (s : Console) : Console :=
  let cursor := getCursor s
  setCursor cursor.1 cursor.2 (setCursor 71 24 s)

end BlessOS.Source.Console
