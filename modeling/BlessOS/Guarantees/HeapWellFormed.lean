import BlessOS.Guarantees.HeapRuns

/-!
# Well-formed heaps

In a well-formed heap every footer names its own header. Two holes may be
neighbours, and the heap need not consist of whole pages. `create_heap` makes such
a heap, and a request that a hole can serve keeps it well formed: the hole becomes
a block, with a hole behind it if enough is left, and no other cell is written to.
-/

set_option autoImplicit false

namespace BlessOS.Guarantees.HeapWellFormed
open BlessOS.Lib.ByteMemory BlessOS.Lib.Tiling
open BlessOS.Source BlessOS.Source.OrderedArray BlessOS.Source.Kheap
open BlessOS.Guarantees.OrderedArrayItems BlessOS.Guarantees.HeapLayout
open BlessOS.Guarantees.HeapInvariant BlessOS.Guarantees.HeapAlloc BlessOS.Guarantees.HeapGrow
open BlessOS.Guarantees.HeapRuns

variable {ε : Type}

/-- Cells with their own footers tile the heap, and the index lists the holes. -/
structure WellFormed (heap : Heap) (m : Mem) (cells : List Cell) : Prop where
  tiles : Tiles Cell.lo Cell.len heap.startAddress.toNat heap.endAddress.toNat cells
  ok : ∀ c ∈ cells, BlockOk m heap.endAddress.toNat c
  indexed : Indexed heap m (holes cells)

variable {heap : Heap} {m m' : Mem} {cells before after : List Cell} {c : Cell} {n : U32}

theorem WellFormed.layout (wf : WellFormed heap m cells) : Layout heap m cells :=
  ⟨wf.tiles, fun c member => (wf.ok c member).cellOk⟩

/-! ## The cells of an allocation -/

/-- The cells that a hole becomes are a block with room for the request, and holes. -/
theorem carved_row (noWrap : n.toNat + 20 < 2 ^ 32)
    (large : n.toNat + 20 ≤ c.len) (small : c.hi < 2 ^ 32) :
    ∃ block rest, carved c n = block :: rest ∧ block.base = c.base ∧ block.used = some n ∧
      n.toNat + 20 ≤ block.len ∧ (∀ d ∈ rest, d.used = none) ∧
      Tiles Cell.lo Cell.len c.lo c.hi (block :: rest) := by
  have need := needed_toNat noWrap
  by_cases little : c.size - needed n < headerBytes + footerBytes
  · refine ⟨{ c with used := some n }, [], if_pos little, rfl, rfl, large, ?_, ?_⟩
    · exact fun d member => by cases member
    · exact Cell.tiles { c with used := some n }
  · refine ⟨frontBlock c n, [restHole c n], if_neg little, rfl, rfl, ?_, ?_,
      split_tiles noWrap large small⟩
    · exact Nat.le_of_eq need.symm
    · intro d member
      rw [List.mem_singleton.mp member]
      rfl

/-- The heap is well formed with the hole's cells in the place of the hole. -/
theorem carved_wellFormed {s : HeapState ε} {size : U32}
    (wf : WellFormed s.heap s.mem (before ++ c :: after))
    (result : Carved s before c after n (resize s.heap size) m) :
    WellFormed (resize s.heap size) m (before ++ (carved c n ++ after)) := by
  refine ⟨result.layout.tiles, fun d member => ?_, result.indexed⟩
  have kept : d ∈ before ++ after → BlockOk m s.heap.endAddress.toNat d := by
    intro other
    have old : d ∈ before ++ c :: after := mem_around other
    exact (wf.ok d old).frame (Nat.le_of_lt (wf.layout.hi_lt old)) (result.frame d other)
  simp only [List.mem_append] at member kept
  rcases member with early | here | late
  · exact kept (Or.inl early)
  · exact result.fresh d here
  · exact kept (Or.inr late)

/-! ## The operations -/

theorem createHeap_wellFormed {start stop : U32} (startPage : start.toNat % 0x1000 = 0)
    (room : start.toNat + 0x80000 + 20 ≤ stop.toNat) (max : U32) (m : Mem) :
    ∃ m' heap, createHeap start stop max m = some (m', heap) ∧
      heap.startAddress = start + 4 * heapIndexSize ∧ heap.endAddress = stop ∧
      heap.maxAddress = max ∧ WellFormed heap m' [wholeHeap start stop] := by
  obtain ⟨m', heap, created, layout, indexed, ends, limit, begins⟩ :=
    createHeap_layout startPage room max m
  have top := (wholeHeap_bounds room).2.1
  refine ⟨m', heap, created, begins, ends, limit, layout.tiles, fun d member => ?_, indexed⟩
  have ok := layout.ok d member
  rw [List.mem_singleton.mp member] at ok ⊢
  -- the footer is missing, as the only cell is a hole that ends the heap
  refine ⟨ok.wide, ok.room, ok.header, fun applies => ?_⟩
  exact absurd (by rw [ends, top]) (applies.resolve_left fun block => block rfl)

/-- `alloc` turns a hole that can serve the request into its cells. -/
theorem alloc_carved (pager : Pager ε) {s : HeapState ε} (wf : WellFormed s.heap s.mem cells)
    (noWrap : n.toNat + 20 < 2 ^ 32) {h : Cell} (member : h ∈ cells) (hole : h.used = none)
    (large : n.toNat + 20 ≤ h.len) :
    ∃ before c after i m size, cells = before ++ c :: after ∧ Fitting s before c after n i ∧
      alloc pager n 0 s =
        some (c.base + headerBytes, { s with mem := m, heap := resize s.heap size }) ∧
      Carved s before c after n (resize s.heap size) m := by
  have listed : h.base ∈ items s.heap.index s.mem :=
    wf.indexed.entries.symm.subset (mem_holes.mpr ⟨h, member, hole, rfl⟩)
  have enough : needed n ≤ blockSize s.mem h.base := by
    rw [(wf.ok h member).header.size, BitVec.le_def, needed_toNat noWrap]
    exact large
  obtain ⟨i, found⟩ := findSmallestHole_isSome listed enough
  obtain ⟨before, c, after, row, fitting⟩ := fitting_of_found wf.layout wf.indexed noWrap found
  obtain ⟨m, size, ran, result⟩ := fitting.carve_spec
  exact ⟨before, c, after, i, m, size, row, fitting, (alloc_of_found pager found).trans ran, result⟩

/-! ## The guarantee -/

/-- `create_heap` makes a well-formed heap. On a well-formed heap, a request that some
hole can serve turns a hole into a block with room for it and holes; the heap stays
well formed, its index sorted if it was, and no other cell is written to. -/
theorem heap_wellFormed (pager : Pager ε) :
    (∀ (start stop max : U32) (m : Mem), start.toNat % 0x1000 = 0 → stop.toNat % 0x1000 = 0 →
      start.toNat + 4 * heapIndexSize.toNat + 20 ≤ stop.toNat →
      ∃ m' heap, createHeap start stop max m = some (m', heap) ∧
        heap.startAddress = start + 4 * heapIndexSize ∧ heap.endAddress = stop ∧
        heap.maxAddress = max ∧ WellFormed heap m' [wholeHeap start stop]) ∧
    ∀ (s : HeapState ε) (cells : List Cell) (n : U32), WellFormed s.heap s.mem cells →
      n.toNat + 20 < 2 ^ 32 → (∃ h ∈ cells, h.used = none ∧ n.toNat + 20 ≤ h.len) →
      ∃ p u before c after block rest, alloc pager n 0 s = some (p, u) ∧
        cells = before ++ c :: after ∧ c.used = none ∧
        p = block.base + headerBytes ∧ block.used = some n ∧ n.toNat + 20 ≤ block.len ∧
        (∀ d ∈ rest, d.used = none) ∧ Tiles Cell.lo Cell.len c.lo c.hi (block :: rest) ∧
        WellFormed u.heap u.mem (before ++ block :: rest ++ after) ∧
        u.heap.startAddress = s.heap.startAddress ∧ u.heap.endAddress = s.heap.endAddress ∧
        (∀ d ∈ before ++ after, AgreeOn d.lo d.hi s.mem u.mem) ∧
        (SortedBySize s.heap s.mem → SortedBySize u.heap u.mem) := by
  constructor
  · intro start stop max m startPage stopPage room
    exact createHeap_wellFormed startPage room max m
  · rintro s cells n wf noWrap ⟨h, member, hole, large⟩
    obtain ⟨before, c, after, i, m, size, rfl, fitting, ran, result⟩ :=
      alloc_carved pager wf noWrap member hole large
    obtain ⟨block, rest, row, base, used, space, holes, range⟩ :=
      carved_row noWrap fitting.large fitting.hi_lt
    have final := carved_wellFormed wf result
    rw [row, ← List.append_assoc] at final
    refine ⟨c.base + headerBytes, _, before, c, after, block, rest, ran, rfl, fitting.hole, ?_, used,
      space, holes, range, final, rfl, rfl, result.frame, result.sorted⟩
    rw [base]

/-- The first allocation from the initial kernel heap. -/
theorem heap_wellFormed_first : ∃ m heap p u block rest,
    createHeap 0x300000 0x400000 0xCFFFF000 (fun _ => 0) = some (m, heap) ∧
      alloc ⟨fun _ _ => 0, fun e => (0, e), fun _ _ e => (0, e), fun _ e => e, fun _ _ => 0⟩ 16 0
        { mem := m, paging := (), heap := heap } = some (p, u) ∧
      p = block.base + headerBytes ∧ block.used = some 16 ∧
      WellFormed u.heap u.mem (block :: rest) := by
  let pager : Pager Unit :=
    ⟨fun _ _ => 0, fun e => (0, e), fun _ _ e => (0, e), fun _ e => e, fun _ _ => 0⟩
  obtain ⟨m, heap, created, -, -, -, wf⟩ := (heap_wellFormed pager).1 0x300000 0x400000 0xCFFFF000
    (fun _ => 0) (by decide) (by decide) (by decide)
  obtain ⟨p, u, before, c, after, block, rest, ran, cells, -, pointer, used, -, -, -, wf', -⟩ :=
    (heap_wellFormed pager).2 { mem := m, paging := (), heap := heap } _ 16 wf (by decide)
      ⟨wholeHeap 0x300000 0x400000, List.mem_singleton.mpr rfl, rfl, by decide⟩
  have single : before = [] ∧ after = [] := by
    have length := congrArg List.length cells
    simp only [List.length_append, List.length_cons, List.length_nil] at length
    exact ⟨List.eq_nil_of_length_eq_zero (by omega), List.eq_nil_of_length_eq_zero (by omega)⟩
  obtain ⟨rfl, rfl⟩ := single
  rw [List.nil_append, List.append_nil] at wf'
  exact ⟨m, heap, p, u, block, rest, created, ran, pointer, used, wf'⟩

end BlessOS.Guarantees.HeapWellFormed
