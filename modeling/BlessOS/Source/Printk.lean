import BlessOS.Source.Console
import Mathlib.Logic.Function.Basic

/-!
# Formatted output, `kernel/printk.c`

The format, the arguments and the strings are read from memory; `buffer` is an object of its
own, with a place for every index. Two records say what the scan does: the indices of the
format it looks at and the indices of the buffer it writes, in order.
-/

set_option autoImplicit false
set_option linter.dupNamespace false

namespace BlessOS.Source.Printk
open BlessOS.Lib.ByteMemory BlessOS.Source.Console

/-- `KP_LEVEL`. -/
inductive KpLevel where
  | dump | panic
deriving DecidableEq, Repr

/-- The table `KPL`, the foreground first. -/
def kpl : KpLevel → Colour × Colour
  | .dump => (.brightWhite, .black)
  | .panic => (.yellow, .red)

structure Scan where
  i : Nat
  ptr : Nat
  args : Addr
  buffer : Nat → U8
  examined : List Nat
  written : List Nat

/-- `buffer[ptr++] = c`. -/
def put (c : U8) (s : Scan) : Scan :=
  { s with
    buffer := Function.update s.buffer s.ptr c
    ptr := s.ptr + 1
    written := s.written ++ [s.ptr] }

/-- `++i`, and the look at `fmt[i]` that follows it. -/
def advance (s : Scan) : Scan :=
  { s with i := s.i + 1, examined := s.examined ++ [s.i + 1] }

/-- `fmt[i]`. -/
def fmtAt (m : Mem) (fmt : Addr) (i : Nat) : U8 := load8 m (fmt + BitVec.ofNat 32 i)

/-- The step of `va_next` for the types that are used, all of which take four bytes. -/
def vaNext (s : Scan) : Scan := { s with args := s.args + 4 }

/-- `"0123456789abcdef"`. -/
def hexDigits : List U8 :=
  [0x30, 0x31, 0x32, 0x33, 0x34, 0x35, 0x36, 0x37, 0x38, 0x39, 0x61, 0x62, 0x63, 0x64, 0x65, 0x66]

/-- `"0123456789"`. -/
def decDigits : List U8 :=
  [0x30, 0x31, 0x32, 0x33, 0x34, 0x35, 0x36, 0x37, 0x38, 0x39]

/-- The loop of `parse_hex`, with `i` turns left. -/
def hexLoop (num : U32) : Nat → Scan → Scan
  | 0, s => s
  | i + 1, s => hexLoop num i (put (hexDigits.getD ((num >>> (i * 4)) &&& 0x0f).toNat 0) s)

def parseHex (num : U32) (s : Scan) : Scan := hexLoop num 8 s

/-- `none` when the depth does not suffice. -/
def parseNum : Nat → U32 → U32 → Scan → Option Scan
  | 0, _, _, _ => none
  | depth + 1, num, base, s =>
    let n := num / base
    let r := num % base
    let (n, r) := if r.slt 0 then (n - 1, r + base) else (n, r)
    let s := if num ≥ base then parseNum depth n base s else some s
    s.map (put (decDigits.getD r.toNat 0))

/-- A number in base 10 has at most ten digits. -/
def numDepth : Nat := 10

/-- `while (*s) buffer[ptr++] = *s++`, for at most `bound` turns. -/
def copyString (m : Mem) : Nat → Addr → Scan → Option Scan
  | 0, _, _ => none
  | bound + 1, a, s =>
    if load8 m a = 0 then some s else copyString m bound (a + 1) (put (load8 m a) s)

/-- Every terminated string is shorter. -/
def addressSpace : Nat := 2 ^ 32

/-- The `switch` behind a backslash. -/
def backslashCase (c : U8) (s : Scan) : Scan :=
  if c = 0x61 then put 0x07 s
  else if c = 0x62 then put 0x08 s
  else if c = 0x74 then put 0x09 s
  else if c = 0x6e then put 0x0a s
  else if c = 0x72 then put 0x0d s
  else if c = 0x5c then put 0x5c s
  else s

/-- The `switch` behind a percent sign. -/
def percentCase (m : Mem) (c : U8) (s : Scan) : Option Scan :=
  if c = 0x73 then copyString m addressSpace (load32 m s.args) (vaNext s)
  else if c = 0x63 then some (put (load8 m s.args) (vaNext s))
  else if c = 0x78 then some (parseHex (load32 m s.args) (vaNext s))
  else if c = 0x70 then some (parseHex (load32 m s.args) (vaNext s))
  else if c = 0x64 then parseNum numDepth (load32 m s.args) 10 (vaNext s)
  else if c = 0x25 then some (put 0x25 s)
  else some (put c s)

/-- The body of the loop. -/
def body (m : Mem) (fmt : Addr) (s : Scan) : Option Scan :=
  let c := fmtAt m fmt s.i
  if c ≠ 0x25 ∧ c ≠ 0x5c then some (put c s)
  else
    let s := advance s
    if c = 0x5c then some (backslashCase (fmtAt m fmt s.i) s)
    else percentCase m (fmtAt m fmt s.i) s

/-- One turn of the loop, up to the next look at `fmt[i]`; after the end nothing happens. -/
def turn (m : Mem) (fmt : Addr) (s : Scan) : Option Scan :=
  if fmtAt m fmt s.i = 0 then some s else (body m fmt s).map advance

def scan (m : Mem) (fmt : Addr) : Nat → Scan → Option Scan
  | 0, s => some s
  | turns + 1, s => (turn m fmt s).bind (scan m fmt turns)

/-- The state at the first look at `fmt[0]`; the arguments follow `fmt` on the stack. -/
def start (stack : Addr) (buffer : Nat → U8) : Scan :=
  { i := 0, ptr := 0, args := stack + 4, buffer := buffer, examined := [0], written := [] }

/-- `buffer[ptr] = 0`. -/
def terminate (s : Scan) : Scan :=
  { s with buffer := Function.update s.buffer s.ptr 0, written := s.written ++ [s.ptr] }

/-- What was sent to `print_c`, and what it did. -/
structure Printed where
  sent : List U8
  console : Console

def sendC (c : U8) (fg bg : Colour) (p : Printed) : Printed :=
  { sent := p.sent ++ [c], console := printC c fg bg p.console }

/-- The last loop after `i` turns. -/
def printLoop (buffer : Nat → U8) (fg bg : Colour) : Nat → Printed → Printed
  | 0, p => p
  | i + 1, p => sendC (buffer i) fg bg (printLoop buffer fg bg i p)

/-- A call with `&fmt` at the address `stack`. `none` when the scan does not come to an end. -/
def printk (kl : KpLevel) (stack : Addr) (buffer : Nat → U8) (console : Console) :
    Option Printed :=
  let m := console.mem
  let fmt := load32 m stack
  (scan m fmt addressSpace (start stack buffer)).bind fun s =>
    if fmtAt m fmt s.i = 0 then
      let s := terminate s
      some (printLoop s.buffer (kpl kl).1 (kpl kl).2 s.ptr { sent := [], console := console })
    else none

end BlessOS.Source.Printk
