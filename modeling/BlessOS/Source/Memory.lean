import Mathlib.Logic.Function.Basic
import BlessOS.Lib.ByteMemory
import BlessOS.Source.Common

/-!
# Page frames and page tables, `mm/memory.c`

`mem_map` is indexed by the source with a signed `int` while it searches and
with an unsigned quotient elsewhere; both are the natural number of the entry,
and entries past `PAGING_PAGES` are whatever the source reads behind its array.
The page directory lies at address 0 and the page tables wherever its entries
point, all in one memory that the source's pointers read and write. The panic
messages are printed and nothing else, so they do not appear.
-/

set_option autoImplicit false

namespace BlessOS.Source.Memory
open BlessOS.Lib.ByteMemory

def highMem : U32 := 0x800000
def lowMem : U32 := 0x100000
def pageSize : U32 := 4096

/-- `PAGING_PAGES`, the number of entries of `mem_map`. -/
def pagingPages : Nat := ((highMem - lowMem) / pageSize).toNat

/-- The allocator's `mem_map` and the memory that holds the page tables. -/
structure Paging where
  memMap : Nat → U16
  mem : Mem

/-- The downward search of `get_free_page`: it stops at a free entry, and at entry 0. -/
def searchDown (memMap : Nat → U16) : Nat → Nat
  | 0 => 0
  | i + 1 => if memMap (i + 1) = 0 then i + 1 else searchDown memMap i

/-- The physical address of the page of `mem_map` entry `i`. -/
def pageOf (i : Nat) : U32 := (BitVec.ofNat 32 i <<< 12) + lowMem

/-- Returns the physical address of the page found, or `NULL`. -/
def getFreePage (p : Paging) : U32 × Paging :=
  let i := searchDown p.memMap (pagingPages - 1)
  if (i : Int) < 0 then (0, p)
  else (pageOf i, { p with memMap := Function.update p.memMap i 1 })

/-- The address of the page directory entry for `address`, in 4-byte units. -/
def pageDirEntry (address : U32) : U32 := (address >>> 20) &&& 0xffc

/-- The address of the entry for `address` in the table at `pageTable`. -/
def pageTableEntry (pageTable address : U32) : U32 :=
  pageTable + 4 * ((address >>> 12) &&& 0x3ff)

/-- Returns the page, or `0` when no page was left for a new page table. -/
def putPage (page address : U32) (p : Paging) : U32 × Paging :=
  let entry := load32 p.mem (pageDirEntry address)
  if entry &&& 1 ≠ 0 then
    let pageTable := 0xfffff000 &&& entry
    (page, { p with mem := store32 p.mem (pageTableEntry pageTable address) (page ||| 7) })
  else
    let found := getFreePage p
    if found.1 = 0 then (0, found.2)
    else
      let mem := store32 found.2.mem (pageDirEntry address) (found.1 ||| 7)
      (page, { found.2 with mem := store32 mem (pageTableEntry found.1 address) (page ||| 7) })

/-- Returns the physical address of the page requested, `0` when its table is not present. -/
def getPageAddr (addr : U32) (p : Paging) : U32 :=
  let entry := load32 p.mem (pageDirEntry addr)
  if entry &&& 1 ≠ 0 then
    load32 p.mem (pageTableEntry (0xfffff000 &&& entry) addr) &&& ~~~7
  else 0

/-- An entry that is already zero is decremented and set back to zero. -/
def freePage (address : U32) (p : Paging) : Paging :=
  if address < lowMem then p
  else
    let i := ((address - lowMem) >>> 12).toNat
    let memMap := Function.update p.memMap i (p.memMap i - 1)
    if p.memMap i ≠ 0 then { p with memMap := memMap }
    else { p with memMap := Function.update memMap i 0 }

def removePage (addr : U32) (p : Paging) : Paging :=
  let entry := load32 p.mem (pageDirEntry addr)
  if entry &&& 1 ≠ 0 then
    let slot := pageTableEntry (0xfffff000 &&& entry) addr
    if load32 p.mem slot &&& 1 ≠ 0 then
      let p := freePage (getPageAddr addr p) p
      { p with mem := store32 p.mem slot 0 }
    else p
  else p

/-- The handler of page faults; it does not look at the error code. -/
def noPage (_error address : U32) (p : Paging) : Paging :=
  let tmp := getFreePage p
  if tmp.1 ≠ 0 then (putPage tmp.1 address tmp.2).2 else tmp.2

end BlessOS.Source.Memory
