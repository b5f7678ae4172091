import BlessOS.Guarantees.HeapTaken
import BlessOS.Guarantees.HeapPages
import BlessOS.Guarantees.PageMap

/-!
# The physical address of a new block

`kmalloc_p` and `kmalloc_ap` report where the block lies in physical memory. Before the heap
exists that is the address itself. From the heap they report what `get_page_addr` returns,
the page of the block, which is its address only if the block begins on a page.
-/

set_option autoImplicit false

namespace BlessOS.Guarantees.HeapPhysical
open BlessOS.Lib.ByteMemory
open BlessOS.Source BlessOS.Source.Kheap BlessOS.Source.Memory BlessOS.Source.Setup
open BlessOS.Guarantees.HeapBounds BlessOS.Guarantees.HeapAlloc BlessOS.Guarantees.HeapGrow
open BlessOS.Guarantees.HeapRuns BlessOS.Guarantees.HeapWellFormed
open BlessOS.Guarantees.HeapAligned BlessOS.Guarantees.HeapPages BlessOS.Guarantees.HeapTaken
open BlessOS.Guarantees.PageAllocator BlessOS.Guarantees.PageTables
open BlessOS.Guarantees.PageDirectory BlessOS.Guarantees.PageMap

/-! ## What is reported -/

section Translation
variable {p : Paging} {a : U32}

/-- The physical address that an address is translated to. -/
def physical (p : Paging) (a : U32) : U32 := frameOf (pageEntry p.mem a) + (a &&& 0xfff)

end Translation

section Calls
variable {ε : Type} {pager : Pager ε} {k k' : Kernel ε} {n align p a : U32}

def alignFlag (aligned : Bool) : U8 := if aligned then 1 else 0

end Calls

section Reports
variable {k k' : Kernel Paging} {aligned : Bool} {n p a : U32}

def heapOf {ε : Type} (k : Kernel ε) (heap : Heap) : HeapState ε :=
  { mem := k.mem, paging := k.paging, heap := heap }

/-- There is no heap yet, or it is well formed, of whole pages, and has room to grow when
it has to. -/
def Ready (aligned : Bool) (n : U32) (k : Kernel Paging) : Prop :=
  match k.kheap with
  | none => True
  | some heap => (∃ cells, WellFormed heap k.mem cells) ∧ PageBounds heap ∧
      (findSmallestHole (needed n) (alignFlag aligned) (heapOf k heap) = none →
        GrowthRoom (alignFlag aligned) n (heapOf k heap))

end Reports

/-! ## The first requests -/

section Main
variable {paging : Paging} {a : U32}

end Main

end BlessOS.Guarantees.HeapPhysical
