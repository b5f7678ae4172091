import Mathlib.Logic.Function.Basic
import BlessOS.Source.Common

/-!
# The circular buffer of `kernel/cyclic_buffer.c`

A pointer argument that the source tests against `NULL` is an `Option`. What
`printk` shows on the console is not part of the buffer's state.
-/

set_option autoImplicit false

namespace BlessOS.Source.CyclicBuffer

def circBuffSize : U32 := 1024

/-- `circular_buf_t`; `data` is read and written at the indices below `circBuffSize`. -/
structure CircularBuf where
  data : U32 → U8
  head : U32
  tail : U32

def cbInit (buf : CircularBuf) : CircularBuf :=
  { data := fun i => if i < circBuffSize then 0 else buf.data i, head := 0, tail := 0 }

def cbIsFull : Option CircularBuf → Int
  | none => -1
  | some buf => if (buf.tail - buf.head - 1) &&& (circBuffSize - 1) ≠ 0 then 0 else 1

def cbIsEmpty : Option CircularBuf → Int
  | none => -1
  | some buf => if buf.head = buf.tail then 1 else 0

def cbGetCount : Option CircularBuf → Int
  | none => -1
  | some buf => ((buf.head - buf.tail) &&& (circBuffSize - 1)).toNat

/-- Returns `0`, or `-1` when the buffer is full. -/
def cbPush (element : U8) (buf : CircularBuf) : Int × CircularBuf :=
  if cbIsFull (some buf) = 1 then (-1, buf)
  else
    (0, { buf with
      data := Function.update buf.data buf.head element
      head := (buf.head + 1) &&& (circBuffSize - 1) })

/-- Returns the removed byte, or `(u8int)-1`. -/
def cbPop : Option CircularBuf → U8 × Option CircularBuf
  | none => (-1, none)
  | some buf =>
    if cbIsEmpty (some buf) ≠ 0 then (-1, some buf)
    else (buf.data buf.tail, some { buf with tail := (buf.tail + 1) &&& (circBuffSize - 1) })

end BlessOS.Source.CyclicBuffer
