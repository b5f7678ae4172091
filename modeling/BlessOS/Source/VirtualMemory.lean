import BlessOS.Lib.PageWalk
import BlessOS.Source.Memory

/-!
# `mm/memory.c` with paging on

The pointers to the directory and to the page tables are addresses that the processor translates
through these very tables, and it sets the accessed and dirty flags in them meanwhile. `cr3` is 0
from `setup_paging` on. The array `mem_map` lies in the kernel's data and is kept apart. An access
that faults inside one of the functions leaves no state and is `none`.
-/

set_option autoImplicit false

namespace BlessOS.Source.VirtualMemory
open BlessOS.Lib.PageWalk BlessOS.Source.Memory

structure Paged where
  memMap : Nat → U16
  mmu : Mmu

/-- `mem_map` and the physical memory. -/
def Paged.physical (s : Paged) : Paging := { memMap := s.memMap, mem := s.mmu.mem }

def load (a : U32) (s : Paged) : Option (U32 × Paged) :=
  (loadWord s.mmu a).map fun loaded => (loaded.1, { s with mmu := loaded.2 })

def store (a value : U32) (s : Paged) : Option Paged :=
  (storeWord s.mmu a value).map fun mmu => { s with mmu := mmu }

/-- A function that touches `mem_map` only. -/
def onMap {α : Type} (f : Paging → α × Paging) (s : Paged) : α × Paged :=
  let result := f s.physical
  (result.1, { s with memMap := result.2.memMap })

def putPage (page address : U32) (s : Paged) : Option (U32 × Paged) := do
  let (entry, s) ← load (pageDirEntry address) s
  if entry &&& 1 ≠ 0 then
    let pageTable := 0xfffff000 &&& entry
    let s ← store (pageTableEntry pageTable address) (page ||| 7) s
    some (page, s)
  else
    let (tmp, s) := onMap getFreePage s
    if tmp = 0 then some (0, s)
    else
      let s ← store (pageDirEntry address) (tmp ||| 7) s
      let s ← store (pageTableEntry tmp address) (page ||| 7) s
      some (page, s)

def getPageAddr (addr : U32) (s : Paged) : Option (U32 × Paged) := do
  let (entry, s) ← load (pageDirEntry addr) s
  if entry &&& 1 ≠ 0 then
    let (found, s) ← load (pageTableEntry (0xfffff000 &&& entry) addr) s
    some (found &&& ~~~7, s)
  else some (0, s)

def freePage (address : U32) (s : Paged) : Paged :=
  (onMap (fun p => ((), Memory.freePage address p)) s).2

def removePage (addr : U32) (s : Paged) : Option Paged := do
  let (entry, s) ← load (pageDirEntry addr) s
  if entry &&& 1 ≠ 0 then
    let slot := pageTableEntry (0xfffff000 &&& entry) addr
    let (found, s) ← load slot s
    if found &&& 1 ≠ 0 then
      let (page, s) ← getPageAddr addr s
      let s := freePage page s
      store slot 0 s
    else some s
  else some s

def noPage (_error address : U32) (s : Paged) : Option Paged := do
  let (tmp, s) := onMap getFreePage s
  if tmp ≠ 0 then
    let (_, s) ← putPage tmp address s
    some s
  else some s

end BlessOS.Source.VirtualMemory
