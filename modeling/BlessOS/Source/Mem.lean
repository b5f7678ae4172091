import BlessOS.Lib.ByteMemory
import BlessOS.Source.Common

/-!
# Blocks of memory, `kernel/mem.c`

The counts are of the type `int` and are counted down to zero, so a negative one is the number
of turns it wraps to. The pointer that each function returns is the one it was given.
-/

set_option autoImplicit false
set_option linter.dupNamespace false

namespace BlessOS.Source.Mem
open BlessOS.Lib.ByteMemory

/-- `*dp++ = *sp++`, with `n` turns to go. -/
def copyLoop : Nat → Addr → Addr → Mem → Mem
  | 0, _, _, m => m
  | n + 1, sp, dp, m => copyLoop n (sp + 1) (dp + 1) (store8 m dp (load8 m sp))

/-- The source comes first. -/
def memcpy (src dst : Addr) (n : U32) (m : Mem) : Addr × Mem := (dst, copyLoop n.toNat src dst m)

def setLoop (val : U8) : Nat → Addr → Mem → Mem
  | 0, _, m => m
  | count + 1, temp, m => setLoop val count (temp + 1) (store8 m temp val)

def memset (dest : Addr) (val : U8) (count : U32) (m : Mem) : Addr × Mem :=
  (dest, setLoop val count.toNat dest m)

/-- One `unsigned short`. -/
def store16 (m : Mem) (a : Addr) (value : U16) : Mem :=
  store8 (store8 m a (value.setWidth 8)) (a + 1) ((value >>> 8).setWidth 8)

def setwLoop (val : U16) : Nat → Addr → Mem → Mem
  | 0, _, m => m
  | count + 1, temp, m => setwLoop val count (temp + 2) (store16 m temp val)

def memsetw (dest : Addr) (val : U16) (count : U32) (m : Mem) : Addr × Mem :=
  (dest, setwLoop val count.toNat dest m)

end BlessOS.Source.Mem
