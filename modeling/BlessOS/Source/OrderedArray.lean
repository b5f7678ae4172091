import BlessOS.Lib.ByteMemory
import BlessOS.Source.Common

/-!
# The ordered array, `kernel/ordered_array.c`

The items lie in memory, four bytes each, from `array` on. The order is a
predicate that may read the memory behind the items, and `NULL` is `none`. A
`halt()` leaves no state. Iterators stay below `size` and are natural numbers.
-/

set_option autoImplicit false
set_option linter.dupNamespace false

namespace BlessOS.Source.OrderedArray
open BlessOS.Lib.ByteMemory

structure OrderedArray where
  array : U32
  size : U32
  maxSize : U32
  lessThan : Option (Mem → U32 → U32 → Bool)

/-- `standard_lessthan_predicate`, on the items themselves. -/
def standardLessthan (_ : Mem) (a b : U32) : Bool := decide (a < b)

/-- The address of `array[i]`. -/
def slot (array : U32) (i : Nat) : U32 := array + BitVec.ofNat 32 (4 * i)

/-- The item `array[i]`, at any index. -/
def OrderedArray.item (a : OrderedArray) (m : Mem) (i : Nat) : U32 :=
  load32 m (slot a.array i)

/-- `while (iterator < size && more(iterator)) iterator++;`, with `left` iterations to go. -/
def scan (more : Nat → Bool) : Nat → Nat → Nat
  | 0, iterator => iterator
  | left + 1, iterator => if more iterator then scan more left (iterator + 1) else iterator

def placeOrderedArray (addr maxSize : U32) (lessThan : Option (Mem → U32 → U32 → Bool))
    (m : Mem) : OrderedArray × Mem :=
  ({ array := addr, size := 0, maxSize := maxSize, lessThan := lessThan },
    overlay m addr (maxSize * 4) fun _ => 0)

/-- The shifting loop of `insert_ordered_array`: `tmp` is the item that moves next. -/
def shiftUp (array : U32) : Nat → Nat → U32 → Mem → Mem
  | 0, _, _, m => m
  | left + 1, iterator, tmp, m =>
    let iterator := iterator + 1
    let tmp2 := load32 m (slot array iterator)
    shiftUp array left iterator tmp2 (store32 m (slot array iterator) tmp)

def insertOrderedArray (item : U32) (a : OrderedArray) (m : Mem) : Option (OrderedArray × Mem) :=
  match a.lessThan with
  | none => none
  | some lessThan =>
    let iterator := scan (fun i => lessThan m (a.item m i) item) a.size.toNat 0
    let grown := { a with size := a.size + 1 }
    if iterator = a.size.toNat then some (grown, store32 m (slot a.array iterator) item)
    else
      let tmp := a.item m iterator
      let m := store32 m (slot a.array iterator) item
      some (grown, shiftUp a.array (a.size.toNat - iterator) iterator tmp m)

def lookupOrderedArray (i : Nat) (a : OrderedArray) (m : Mem) : Option U32 :=
  if a.size.toNat ≤ i then none else some (a.item m i)

/-- The loop of `remove_ordered_array`. -/
def shiftDown (array : U32) : Nat → Nat → Mem → Mem
  | 0, _, m => m
  | left + 1, i, m =>
    shiftDown array left (i + 1) (store32 m (slot array i) (load32 m (slot array (i + 1))))

/-- The size is decremented also when `i` is out of range. -/
def removeOrderedArray (i : Nat) (a : OrderedArray) (m : Mem) : OrderedArray × Mem :=
  ({ a with size := a.size - 1 }, shiftDown a.array (a.size.toNat - i) i m)

end BlessOS.Source.OrderedArray
