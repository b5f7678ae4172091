import BlessOS.Source.Common
import Mathlib.Logic.Function.Basic

/-!
# Frames and page entries, `kernel/paging.c`

The bitmap is the words behind the pointer `frames`; an index behind its end is representable
and names a word there. Page entries are found by their addresses, and a frame number is kept
in 20 bits. Messages are not recorded.
-/

set_option autoImplicit false

namespace BlessOS.Source.Frames

structure FrameBitmap where
  frames : Nat → U32
  nframes : U32

def indexFromBit (a : U32) : U32 := a / (8 * 4)
def offsetFromBit (a : U32) : U32 := a % (8 * 4)

def setFrame (addr : U32) (s : FrameBitmap) : FrameBitmap :=
  let frame := addr / 0x1000
  let idx := (indexFromBit frame).toNat
  let off := (offsetFromBit frame).toNat
  { s with frames := Function.update s.frames idx (s.frames idx ||| ((0x1 : U32) <<< off)) }

def clearFrame (addr : U32) (s : FrameBitmap) : FrameBitmap :=
  let frame := addr / 0x1000
  let idx := (indexFromBit frame).toNat
  let off := (offsetFromBit frame).toNat
  { s with frames := Function.update s.frames idx (s.frames idx &&& ~~~((0x1 : U32) <<< off)) }

/-- The inner loop of `find_free_frame` on one word, from bit `j` on. -/
def testBits (word : U32) : Nat → Nat → Option Nat
  | 0, _ => none
  | left + 1, j =>
    let toTest : U32 := 0x1 <<< j
    if word &&& toTest = 0 then some j else testBits word left (j + 1)

/-- The outer loop, from word `i` on; `none` is its end. -/
def testWords (frames : Nat → U32) : Nat → Nat → Option Nat
  | 0, _ => none
  | left + 1, i =>
    if frames i ≠ 0xFFFFFFFF then
      match testBits (frames i) 32 0 with
      | some j => some (i * 4 * 8 + j)
      | none => testWords frames left (i + 1)
    else testWords frames left (i + 1)

def findFreeFrame (s : FrameBitmap) : U32 :=
  match testWords s.frames (indexFromBit s.nframes).toNat 0 with
  | some f => BitVec.ofNat 32 f
  | none => -1

/-- The fields of `page_t` that are used. -/
structure Page where
  present : BitVec 1
  rw : BitVec 1
  user : BitVec 1
  frame : BitVec 20
  deriving DecidableEq, Repr

structure Paging where
  bitmap : FrameBitmap
  pages : U32 → Page

def allocNewPage (page : U32) (isKernel isWriteable : U8) (s : Paging) : Paging :=
  if page = 0 then s
  else if (s.pages page).frame ≠ 0 then s
  else
    let idx := findFreeFrame s.bitmap
    { bitmap := setFrame (idx * 0x1000) s.bitmap
      pages := Function.update s.pages page
        { present := 1
          rw := if isWriteable ≠ 0 then 1 else 0
          user := if isKernel ≠ 0 then 0 else 1
          frame := idx.setWidth 20 } }

def freePage (page : U32) (s : Paging) : Paging :=
  if page = 0 then s
  else
    let frame : U32 := (s.pages page).frame.setWidth 32
    if frame = 0 then s
    else
      { bitmap := clearFrame frame s.bitmap
        pages := Function.update s.pages page { s.pages page with frame := 0 } }

end BlessOS.Source.Frames
