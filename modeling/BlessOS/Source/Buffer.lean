import BlessOS.Source.Common
import Mathlib.Logic.Function.Basic

/-!
# The buffer cache, `drivers/buffer.c`

Buffer heads are structures at 32-bit addresses and `0` is `NULL`. Of a buffer head this is
what the lists are made of; its data, flags and waiting task play no part in them. A
`halt()` leaves no state and is `none`.
-/

set_option autoImplicit false

namespace BlessOS.Source.Buffer

/-- `struct buffer_head`. -/
structure BufferHead where
  dev : U16
  blockNo : U16
  prev : U32
  next : U32
  freePrev : U32
  freeNext : U32

structure BufferCache where
  buffers : U32 → BufferHead
  hashTable : U32 → U32
  freeList : U32

/-- `HASH_MOD` -/
def hashMod : U32 := 307

/-- The operands are signed, and so is the remainder. -/
def hash (dev block : U32) : U32 := (dev ^^^ block).srem hashMod

/-- `hash(buf->dev, buf->block_no)` -/
def BufferHead.slot (buf : BufferHead) : U32 :=
  hash (buf.dev.setWidth 32) (buf.blockNo.setWidth 32)

namespace BufferCache

def slotOf (c : BufferCache) (buf : U32) : U32 := (c.buffers buf).slot

def next (c : BufferCache) (buf : U32) : U32 := (c.buffers buf).next

def prev (c : BufferCache) (buf : U32) : U32 := (c.buffers buf).prev

def freeNext (c : BufferCache) (buf : U32) : U32 := (c.buffers buf).freeNext

def freePrev (c : BufferCache) (buf : U32) : U32 := (c.buffers buf).freePrev

def setBuffer (c : BufferCache) (buf : U32) (head : BufferHead) : BufferCache :=
  { c with buffers := Function.update c.buffers buf head }

def setNext (c : BufferCache) (buf next : U32) : BufferCache :=
  c.setBuffer buf { c.buffers buf with next := next }

def setPrev (c : BufferCache) (buf prev : U32) : BufferCache :=
  c.setBuffer buf { c.buffers buf with prev := prev }

def setFreeNext (c : BufferCache) (buf freeNext : U32) : BufferCache :=
  c.setBuffer buf { c.buffers buf with freeNext := freeNext }

def setFreePrev (c : BufferCache) (buf freePrev : U32) : BufferCache :=
  c.setBuffer buf { c.buffers buf with freePrev := freePrev }

def setSlot (c : BufferCache) (slot buf : U32) : BufferCache :=
  { c with hashTable := Function.update c.hashTable slot buf }

/-! A store changes one field of one buffer. -/

variable (c : BufferCache) (buf value : U32)

theorem setBuffer_field (field : BufferHead → U32) (head : BufferHead) :
    (fun y => field ((c.setBuffer buf head).buffers y)) =
      Function.update (fun y => field (c.buffers y)) buf (field head) := by
  funext y
  exact Function.apply_update (fun _ => field) c.buffers buf head y

theorem setBuffer_keeps (field : BufferHead → U32) (head : BufferHead)
    (same : field head = field (c.buffers buf)) :
    (fun y => field ((c.setBuffer buf head).buffers y)) = fun y => field (c.buffers y) := by
  rw [setBuffer_field, same]
  exact Function.update_eq_self buf fun y => field (c.buffers y)

@[simp] theorem setNext_fields :
    (c.setNext buf value).next = Function.update c.next buf value ∧
    (c.setNext buf value).prev = c.prev ∧
    (c.setNext buf value).freeNext = c.freeNext ∧
    (c.setNext buf value).freePrev = c.freePrev ∧
    (c.setNext buf value).slotOf = c.slotOf :=
  ⟨c.setBuffer_field buf BufferHead.next _,
    c.setBuffer_keeps buf BufferHead.prev _ rfl,
    c.setBuffer_keeps buf BufferHead.freeNext _ rfl,
    c.setBuffer_keeps buf BufferHead.freePrev _ rfl,
    c.setBuffer_keeps buf BufferHead.slot _ rfl⟩

@[simp] theorem setPrev_fields :
    (c.setPrev buf value).next = c.next ∧
    (c.setPrev buf value).prev = Function.update c.prev buf value ∧
    (c.setPrev buf value).freeNext = c.freeNext ∧
    (c.setPrev buf value).freePrev = c.freePrev ∧
    (c.setPrev buf value).slotOf = c.slotOf :=
  ⟨c.setBuffer_keeps buf BufferHead.next _ rfl,
    c.setBuffer_field buf BufferHead.prev _,
    c.setBuffer_keeps buf BufferHead.freeNext _ rfl,
    c.setBuffer_keeps buf BufferHead.freePrev _ rfl,
    c.setBuffer_keeps buf BufferHead.slot _ rfl⟩

@[simp] theorem setFreeNext_fields :
    (c.setFreeNext buf value).next = c.next ∧
    (c.setFreeNext buf value).prev = c.prev ∧
    (c.setFreeNext buf value).freeNext = Function.update c.freeNext buf value ∧
    (c.setFreeNext buf value).freePrev = c.freePrev ∧
    (c.setFreeNext buf value).slotOf = c.slotOf :=
  ⟨c.setBuffer_keeps buf BufferHead.next _ rfl,
    c.setBuffer_keeps buf BufferHead.prev _ rfl,
    c.setBuffer_field buf BufferHead.freeNext _,
    c.setBuffer_keeps buf BufferHead.freePrev _ rfl,
    c.setBuffer_keeps buf BufferHead.slot _ rfl⟩

@[simp] theorem setFreePrev_fields :
    (c.setFreePrev buf value).next = c.next ∧
    (c.setFreePrev buf value).prev = c.prev ∧
    (c.setFreePrev buf value).freeNext = c.freeNext ∧
    (c.setFreePrev buf value).freePrev = Function.update c.freePrev buf value ∧
    (c.setFreePrev buf value).slotOf = c.slotOf :=
  ⟨c.setBuffer_keeps buf BufferHead.next _ rfl,
    c.setBuffer_keeps buf BufferHead.prev _ rfl,
    c.setBuffer_keeps buf BufferHead.freeNext _ rfl,
    c.setBuffer_field buf BufferHead.freePrev _,
    c.setBuffer_keeps buf BufferHead.slot _ rfl⟩

end BufferCache

/-- `if (buf->next) buf->next->prev = buf->prev;` -/
def relinkPrev (buf : U32) (c : BufferCache) : BufferCache :=
  if c.next buf ≠ 0 then c.setPrev (c.next buf) (c.prev buf) else c

/-- `if (buf->prev) buf->prev->next = buf->next;` -/
def relinkNext (buf : U32) (c : BufferCache) : BufferCache :=
  if c.prev buf ≠ 0 then c.setNext (c.prev buf) (c.next buf) else c

def relinkSlot (buf : U32) (c : BufferCache) : BufferCache :=
  if c.hashTable (c.slotOf buf) = buf then c.setSlot (c.slotOf buf) (c.next buf) else c

/-- The pointers to `buf` on the free list. -/
def relinkFree (buf : U32) (c : BufferCache) : BufferCache :=
  let c := c.setFreeNext (c.freePrev buf) (c.freeNext buf)
  let c := c.setFreePrev (c.freeNext buf) (c.freePrev buf)
  { c with freeList := if c.freeList = buf then c.freeNext buf else c.freeList }

def removeFromLists (buf : U32) (c : BufferCache) : Option BufferCache :=
  let c := relinkSlot buf (relinkNext buf (relinkPrev buf c))
  if c.freePrev buf = 0 ∨ c.freeNext buf = 0 then none else some (relinkFree buf c)

end BlessOS.Source.Buffer
