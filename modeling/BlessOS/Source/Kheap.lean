import BlessOS.Source.OrderedArray

/-!
# The kernel heap, `mm/kheap.c`

Blocks and holes are a header, a body and a footer at 32-bit addresses of one
byte memory, and the index of the holes is an ordered array of header addresses
in the same memory. The page functions the heap calls are a `Pager`; a page that
is put becomes visible with the bytes the pager finds behind it.

Distinct addresses are taken to be distinct bytes, so no two pages of the heap have
one frame. On the kernel's own tables this is proved in `HeapPages` only for a heap
that stays inside the region whose pages `main` puts; behind it the tables map an
address to a frame that `main` may have used.

`ASSERT` prints a message and goes on, so it does not appear. A loop that does not end within the
address space, a recursion of `alloc` that does not end and a `halt()` leave no
state and are `none`.
-/

set_option autoImplicit false

namespace BlessOS.Source.Kheap
open BlessOS.Lib.ByteMemory BlessOS.Source.OrderedArray

def kheapStart : U32 := 0x300000
def kheapInitialSize : U32 := 0x100000
def heapIndexSize : U32 := 0x20000
def heapMagic : U32 := 0x123890AB
def heapMinSize : U32 := 0x8000

/-- `sizeof(header_t)`: `magic`, `is_hole` padded to a word, `size`. -/
def headerBytes : U32 := 12

/-- `sizeof(footer_t)`: `magic`, `header`. -/
def footerBytes : U32 := 8

section Blocks

variable (m : Mem) (header footer : U32)

def headerMagic : U32 := load32 m header
def isHole : U8 := load8 m (header + 4)
def blockSize : U32 := load32 m (header + 8)
def footerMagic : U32 := load32 m footer
def footerHeader : U32 := load32 m (footer + 4)

def setIsHole (hole : U8) : Mem := store8 m (header + 4) hole
def setBlockSize (size : U32) : Mem := store32 m (header + 8) size
def setFooterHeader (value : U32) : Mem := store32 m (footer + 4) value

def writeHeader (hole : U8) (size : U32) : Mem :=
  setBlockSize (setIsHole (store32 m header heapMagic) header hole) header size

def writeFooter (value : U32) : Mem :=
  setFooterHeader (store32 m footer heapMagic) footer value

end Blocks

structure Heap where
  index : OrderedArray
  startAddress : U32
  endAddress : U32
  maxAddress : U32

/-- The page functions of the kernel, on a paging state. -/
structure Pager (ε : Type) where
  getPageAddr : U32 → ε → U32
  getFreePage : ε → U32 × ε
  putPage : U32 → U32 → ε → U32 × ε
  removePage : U32 → ε → ε
  /-- The bytes that show at mapped addresses when they have just been mapped. -/
  behind : ε → Mem

structure HeapState (ε : Type) where
  mem : Mem
  paging : ε
  heap : Heap

variable {ε : Type}

def HeapState.setEnd (s : HeapState ε) (address : U32) : HeapState ε :=
  { s with heap := { s.heap with endAddress := address } }

def HeapState.length (s : HeapState ε) : U32 := s.heap.endAddress - s.heap.startAddress

def HeapState.insertHole (s : HeapState ε) (hole : U32) : Option (HeapState ε) := do
  let (index, mem) ← insertOrderedArray hole s.heap.index s.mem
  some { s with mem := mem, heap := { s.heap with index := index } }

def HeapState.removeHole (s : HeapState ε) (i : Nat) : HeapState ε :=
  let after := removeOrderedArray i s.heap.index s.mem
  { s with mem := after.2, heap := { s.heap with index := after.1 } }

/-- The rounding in `expand` and `contract`: sizes that are pages already get one more. -/
def pageRound (size : U32) : U32 :=
  if size &&& 0xfffff000 ≠ 0 then (size &&& 0xfffff000) + 0x1000 else size

/-- No loop over pages has more turns than there are pages. -/
def pageBound : Nat := 2 ^ 20 + 1

/-- `if (!get_page_addr(a)) put_page(get_free_page(), a);`, which maps the page around `a`. -/
def mapPage (pager : Pager ε) (address : U32) (s : HeapState ε) : HeapState ε :=
  if pager.getPageAddr address s.paging = 0 then
    let found := pager.getFreePage s.paging
    let paging := (pager.putPage found.1 address found.2).2
    let page := address &&& 0xfffff000
    { s with paging := paging, mem := overlay s.mem page 0x1000 (pager.behind paging) }
  else s

def expandLoop (pager : Pager ε) (newSize : U32) : Nat → U32 → HeapState ε → Option (HeapState ε)
  | 0, _, _ => none
  | left + 1, i, s =>
    if i < newSize then
      expandLoop pager newSize left (i + 0x1000) (mapPage pager (s.heap.startAddress + i) s)
    else some s

def expand (pager : Pager ε) (newSize : U32) (s : HeapState ε) : Option (HeapState ε) := do
  let newSize := pageRound newSize
  let s ← expandLoop pager newSize pageBound s.length s
  some (s.setEnd (s.heap.startAddress + newSize))

def contractLoop (pager : Pager ε) (newSize : U32) : Nat → U32 → HeapState ε → Option (HeapState ε)
  | 0, _, _ => none
  | left + 1, i, s =>
    if newSize < i then
      contractLoop pager newSize left (i - 0x1000)
        { s with paging := pager.removePage (s.heap.startAddress + i) s.paging }
    else some s

/-- The length `contract` arrives at. -/
def contractedSize (newSize : U32) : U32 :=
  if pageRound newSize < heapMinSize then heapMinSize else pageRound newSize

/-- Returns the new length. -/
def contract (pager : Pager ε) (newSize : U32) (s : HeapState ε) :
    Option (U32 × HeapState ε) := do
  let newSize := contractedSize newSize
  let s ← contractLoop pager newSize pageBound (s.length - 0x1000) s
  some (newSize, s.setEnd (s.heap.startAddress + newSize))

/-- The test of `find_smallest_hole`; with `page_align` its arithmetic is signed. -/
def fits (m : Mem) (size : U32) (pageAlign : U8) (header : U32) : Bool :=
  if pageAlign ≠ 0 then
    let offset : U32 :=
      if (header + headerBytes) &&& ~~~0xfffff000 ≠ 0 then
        0x1000 - (header + headerBytes) % 0x1000
      else 0
    size.sle (blockSize m header - offset)
  else decide (size ≤ blockSize m header)

/-- `none` is the source's `-1`. -/
def findSmallestHole (size : U32) (pageAlign : U8) (s : HeapState ε) : Option Nat :=
  let index := s.heap.index
  let iterator := scan (fun i => !fits s.mem size pageAlign (index.item s.mem i)) index.size.toNat 0
  if iterator = index.size.toNat then none else some iterator

def headerLessThan (m : Mem) (a b : U32) : Bool := decide (blockSize m a < blockSize m b)

def createHeap (start stop max : U32) (m : Mem) : Option (Mem × Heap) := do
  let placed := placeOrderedArray start heapIndexSize (some headerLessThan) m
  let start := start + 4 * heapIndexSize
  let start := if start &&& ~~~0xfffff000 ≠ 0 then (start &&& 0xfffff000) + 0x1000 else start
  let m := writeHeader placed.2 start 1 (stop - start)
  let (index, m) ← insertOrderedArray start placed.1 m
  some (m, { index := index, startAddress := start, endAddress := stop, maxAddress := max })

/-- The loop of `alloc` for the highest entry of the index; `none` is `idx = -1`. -/
def highestHole (index : OrderedArray) (m : Mem) : Option Nat :=
  ((List.range index.size.toNat).foldl (fun (best : Option Nat × U32) iterator =>
    let tmp := index.item m iterator
    if best.2 < tmp then (some iterator, tmp) else best) (none, 0)).1

/-- What `alloc` does before it calls itself when no hole fits. -/
def growHeap (pager : Pager ε) (newSize : U32) (s : HeapState ε) : Option (HeapState ε) := do
  let oldLength := s.length
  let oldEnd := s.heap.endAddress
  let s ← expand pager (oldLength + newSize) s
  let grown := s.length - oldLength
  match highestHole s.heap.index s.mem with
  | none =>
    let m := writeHeader s.mem oldEnd 1 grown
    let m := writeFooter m (oldEnd + grown - footerBytes) oldEnd
    { s with mem := m }.insertHole oldEnd
  | some idx =>
    let header := s.heap.index.item s.mem idx
    let m := setBlockSize s.mem header (blockSize s.mem header + grown)
    some { s with mem := writeFooter m (header + blockSize m header - footerBytes) header }

/-- The page-aligned part of a hole that is split off in front of the block: the
rest's position and size, and the memory. -/
def splitAligned (m : Mem) (pos size : U32) : U32 × U32 × Mem :=
  let location := pos + 0x1000 - (pos &&& 0xfff) - headerBytes
  let m := writeHeader m pos 1 (0x1000 - (pos &&& 0xfff) - headerBytes)
  let m := writeFooter m (location - footerBytes) pos
  (location, size - blockSize m pos, m)

/-- The hole behind a block, when something is left of the hole it is taken from. -/
def addRemainder (pos size rest : U32) (s : HeapState ε) : Option (HeapState ε) :=
  if rest ≠ 0 then
    let hole := pos + headerBytes + footerBytes + size
    let m := writeHeader s.mem hole 1 rest
    let footer := hole + rest - footerBytes
    let m := if footer < s.heap.endAddress then writeFooter m footer hole else m
    { s with mem := m }.insertHole hole
  else some s

/-- The rest of `alloc`, on the hole at index `iterator`. -/
def carve (size : U32) (pageAlign : U8) (iterator : Nat) (s : HeapState ε) :
    Option (U32 × HeapState ε) := do
  let newSize := size + headerBytes + footerBytes
  let pos := s.heap.index.item s.mem iterator
  let holeSize := blockSize s.mem pos
  let whole := decide (holeSize - newSize < headerBytes + footerBytes)
  let size := if whole then size + (holeSize - newSize) else size
  let newSize := if whole then holeSize else newSize
  let (pos, holeSize, s) :=
    if pageAlign ≠ 0 ∧ pos &&& ~~~0xfffff000 ≠ 0 then
      let split := splitAligned s.mem pos holeSize
      (split.1, split.2.1, { s with mem := split.2.2 })
    else (pos, holeSize, s.removeHole iterator)
  let m := writeHeader s.mem pos 0 newSize
  let m := writeFooter m (pos + headerBytes + size) pos
  let s ← addRemainder pos size (holeSize - newSize) { s with mem := m }
  some (pos + headerBytes, s)

/-- `alloc`, calling itself at most `depth` times. -/
def allocFrom (pager : Pager ε) (size : U32) (pageAlign : U8) :
    Nat → HeapState ε → Option (U32 × HeapState ε)
  | 0, _ => none
  | depth + 1, s =>
    match findSmallestHole (size + headerBytes + footerBytes) pageAlign s with
    | none => do
      let s ← growHeap pager (size + headerBytes + footerBytes) s
      allocFrom pager size pageAlign depth s
    | some iterator => carve size pageAlign iterator s

def recursionBound : Nat := 2 ^ 32

def alloc (pager : Pager ε) (size : U32) (pageAlign : U8) (s : HeapState ε) :
    Option (U32 × HeapState ε) :=
  allocFrom pager size pageAlign recursionBound s

/-- The locals of `free` that change while it merges. -/
structure Merge where
  header : U32
  footer : U32
  testHeader : U32
  doAdd : Bool

/-- `header->is_hole = 1;` on the block of `p`. -/
def startFree (p : U32) (s : HeapState ε) : Merge × HeapState ε :=
  let header := p - headerBytes
  let footer := header + blockSize s.mem header - footerBytes
  ({ header := header, footer := footer, testHeader := footer + footerBytes, doAdd := true },
    { s with mem := setIsHole s.mem header 1 })

def unifyLeft (d : Merge) (s : HeapState ε) : Merge × HeapState ε :=
  let testFooter := d.header - footerBytes
  if footerMagic s.mem testFooter = heapMagic ∧
      isHole s.mem (footerHeader s.mem testFooter) = 1 then
    let cacheSize := blockSize s.mem d.header
    let header := footerHeader s.mem testFooter
    let m := setFooterHeader s.mem d.footer header
    ({ d with header := header, doAdd := false },
      { s with mem := setBlockSize m header (blockSize m header + cacheSize) })
  else (d, s)

/-- The position of a header in the index; its size when it is not there. -/
def indexOf (header : U32) (s : HeapState ε) : Nat :=
  scan (fun i => s.heap.index.item s.mem i != header) s.heap.index.size.toNat 0

def unifyRight (d : Merge) (s : HeapState ε) : Merge × HeapState ε :=
  let testHeader := d.footer + footerBytes
  let d := { d with testHeader := testHeader }
  if headerMagic s.mem testHeader = heapMagic ∧ isHole s.mem testHeader ≠ 0 then
    let m := setBlockSize s.mem d.header (blockSize s.mem d.header + blockSize s.mem testHeader)
    let s := { s with mem := m }
    ({ d with footer := testHeader + blockSize m testHeader - footerBytes },
      s.removeHole (indexOf testHeader s))
  else (d, s)

/-- The contraction of the heap when the merged block ends it. -/
def trim (pager : Pager ε) (d : Merge) (s : HeapState ε) : Option (HeapState ε) :=
  if d.footer + footerBytes = s.heap.endAddress then do
    let oldLength := s.length
    let (newLength, s) ← contract pager (d.header - s.heap.startAddress) s
    let rest := blockSize s.mem d.header - (oldLength - newLength)
    if rest ≠ 0 then
      let m := setBlockSize s.mem d.header rest
      some { s with mem := writeFooter m (d.header + blockSize m d.header - footerBytes) d.header }
    else
      let iterator := indexOf d.testHeader s
      if iterator < s.heap.index.size.toNat then some (s.removeHole iterator) else some s
  else some s

def free (pager : Pager ε) (p : U32) (s : HeapState ε) : Option (HeapState ε) :=
  if p = 0 then some s
  else do
    let (d, s) := startFree p s
    let (d, s) := unifyLeft d s
    let (d, s) := unifyRight d s
    let s ← trim pager d s
    if d.doAdd then s.insertHole d.header else some s

/-- `placement_address` and `kheap`, with the memory and the paging they are used in. -/
structure Kernel (ε : Type) where
  placementAddress : U32
  kheap : Option Heap
  mem : Mem
  paging : ε

def Kernel.withHeap (k : Kernel ε) (s : HeapState ε) : Kernel ε :=
  { k with kheap := some s.heap, mem := s.mem, paging := s.paging }

/-- `if (phys) *phys = address;` -/
def Kernel.report (phys : Option U32) (address : U32) (k : Kernel ε) : Kernel ε :=
  match phys with
  | none => k
  | some p => { k with mem := store32 k.mem p address }

def kmallocInt (pager : Pager ε) (size align : U32) (phys : Option U32) (k : Kernel ε) :
    Option (U32 × Kernel ε) :=
  match k.kheap with
  | some heap => do
    let (address, s) ← alloc pager size (align.setWidth 8)
      { mem := k.mem, paging := k.paging, heap := heap }
    some (address, (k.withHeap s).report phys (pager.getPageAddr address s.paging))
  | none =>
    let address :=
      if align = 1 ∧ k.placementAddress &&& ~~~0xfffff000 ≠ 0 then
        (k.placementAddress &&& 0xfffff000) + 0x1000
      else k.placementAddress
    some (address, { k.report phys address with placementAddress := address + size })

def kmallocA (pager : Pager ε) (size : U32) : Kernel ε → Option (U32 × Kernel ε) :=
  kmallocInt pager size 1 none

def kmallocAp (pager : Pager ε) (size : U32) (phys : Option U32) : Kernel ε → Option (U32 × Kernel ε) :=
  kmallocInt pager size 1 phys

def kmalloc (pager : Pager ε) (size : U32) : Kernel ε → Option (U32 × Kernel ε) :=
  kmallocInt pager size 0 none

/-- `create_ordered_array` of `kernel/ordered_array.c`. -/
def createOrderedArray (pager : Pager ε) (maxSize : U32)
    (lessThan : Option (Mem → U32 → U32 → Bool)) (k : Kernel ε) :
    Option (OrderedArray × Kernel ε) := do
  let (array, k) ← kmalloc pager (maxSize * 4) k
  some ({ array := array, size := 0, maxSize := maxSize, lessThan := lessThan },
    { k with mem := overlay k.mem array (maxSize * 4) fun _ => 0 })

/-- Without a heap, only `NULL` can be freed: the fields of the heap would be read at `NULL`. -/
def kfree (pager : Pager ε) (p : U32) (k : Kernel ε) : Option (Kernel ε) :=
  match k.kheap with
  | some heap => do
    let s ← free pager p { mem := k.mem, paging := k.paging, heap := heap }
    some (k.withHeap s)
  | none => if p = 0 then some k else none

end BlessOS.Source.Kheap
