import BlessOS.Source.Kheap
import BlessOS.Source.Memory

/-!
# From the boot to the kernel heap, `boot/setup.s` and `init/print.c`

`setup_paging` writes the page directory and two page tables, which map the first
8 MiB to themselves. `main` then puts one page at `0x200000` and a page at every
page of the initial heap, and creates the heap. The rest of the two (the tables of
the processor, the devices, the control registers) touches neither `mem_map` nor
the page tables. The heap's memory is the one seen through the page tables; that
of the tables is their own.
-/

set_option autoImplicit false

namespace BlessOS.Source.Setup
open BlessOS.Lib.ByteMemory BlessOS.Source.Memory BlessOS.Source.Kheap

def pgDir : U32 := 0
def pg0 : U32 := 0x1000
def pg1 : U32 := 0x2000

/-- `cld; rep; stosl` with `ecx` words to go. -/
def repStosl (eax : U32) : Nat → U32 → Mem → Mem
  | 0, _, m => m
  | ecx + 1, edi, m => repStosl eax ecx (edi + 4) (store32 m edi eax)

/-- `1: stosl; subl $0x1000,%eax; jge 1b` after `std`: the jump compares signed. -/
def fillTables : Nat → U32 → U32 → Mem → Option Mem
  | 0, _, _, _ => none
  | left + 1, edi, eax, m =>
    let m := store32 m edi eax
    if (0x1000 : U32).sle eax then fillTables left (edi - 4) (eax - 0x1000) m else some m

def setupPaging (m : Mem) : Option Mem :=
  let m := repStosl 0 (1024 * 3) 0 m
  let m := store32 m pgDir (pg0 + 7)
  let m := store32 m (pgDir + 4) (pg1 + 7)
  fillTables pageBound (pg1 + 4092) 0x7ff007 m

/-- `put_page((u32int)get_free_page(), address);` -/
def putFreePage (address : U32) (paging : Paging) : Paging :=
  let found := getFreePage paging
  (putPage found.1 address found.2).2

/-- The loop of `main`, over an `int`. -/
def putHeapPages : Nat → U32 → Paging → Option Paging
  | 0, _, _ => none
  | left + 1, p, paging =>
    if p.slt (kheapStart + kheapInitialSize) then
      putHeapPages left (p + 0x1000) (putFreePage p paging)
    else some paging

/-- The page functions of the kernel; `behind` are the bytes that were in the frames. -/
def kernelPager (behind : Paging → Mem) : Pager Paging where
  getPageAddr := getPageAddr
  getFreePage := getFreePage
  putPage := putPage
  removePage := removePage
  behind := behind

/-- The paging that `main` creates the heap on, from the memory the boot finds. -/
def mainPaging (boot : Mem) : Option Paging := do
  let tables ← setupPaging boot
  let paging := putFreePage 0x200000 { memMap := fun _ => 0, mem := tables }
  putHeapPages pageBound kheapStart paging

/-- The heap of `main`, in a memory that shows `m`. -/
def mainHeap (boot m : Mem) : Option (HeapState Paging) := do
  let paging ← mainPaging boot
  let (m, heap) ← createHeap kheapStart (kheapStart + kheapInitialSize) 0xCFFFF000 m
  some { mem := m, paging := paging, heap := heap }

end BlessOS.Source.Setup
