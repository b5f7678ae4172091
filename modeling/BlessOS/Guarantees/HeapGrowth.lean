import BlessOS.Guarantees.HeapFreed

/-!
# Growing a well-formed heap

When no hole is large enough and the last cell is a hole, or nothing is, `alloc`
expands the heap by more than the request, so the hole that ends the heap then
serves it when `alloc` calls itself. The blocks of the heap stay as they are.
-/

set_option autoImplicit false

namespace BlessOS.Guarantees.HeapGrowth
open BlessOS.Lib.ByteMemory BlessOS.Lib.Tiling
open BlessOS.Source BlessOS.Source.OrderedArray BlessOS.Source.Kheap
open BlessOS.Guarantees.OrderedArrayItems BlessOS.Guarantees.HeapLayout
open BlessOS.Guarantees.HeapInvariant BlessOS.Guarantees.HeapBounds BlessOS.Guarantees.HeapAlloc
open BlessOS.Guarantees.HeapGrow BlessOS.Guarantees.HeapWellFormed BlessOS.Guarantees.HeapFreed

variable {ε : Type} {s t u : HeapState ε} {cells front : List Cell} {rear : Cell} {n : U32}

/-- The blocks among the cells. -/
def blocks (cells : List Cell) : List Cell := cells.filter fun c => c.used ≠ none

theorem mem_blocks {c : Cell} : c ∈ blocks cells ↔ c ∈ cells ∧ c.used ≠ none := by
  simp [blocks]

theorem blocks_append (before after : List Cell) :
    blocks (before ++ after) = blocks before ++ blocks after :=
  List.filter_append before after

theorem blocks_holes (holes : ∀ c ∈ cells, c.used = none) : blocks cells = [] := by
  refine List.filter_eq_nil_iff.mpr fun c member block => ?_
  rw [decide_eq_true_eq] at block
  exact block (holes c member)

theorem blocks_cons_hole {c : Cell} (hole : c.used = none) : blocks (c :: cells) = blocks cells := by
  unfold blocks
  rw [List.filter_cons_of_neg (by simp [hole])]

/-- The last cell is a hole, or none is. -/
def RearFree (cells : List Cell) : Prop :=
  (∃ c ∈ cells.getLast?, c.used = none) ∨ ∀ c ∈ cells, c.used ≠ none

theorem lastHoleAtEnd (wf : WellFormed s.heap s.mem cells) (rear : RearFree cells) :
    LastHoleAtEnd s := by
  intro h listed highest
  obtain ⟨d, member, hole, base, size⟩ :=
    wf.layout.blockSize_hole (wf.indexed.entries.subset listed)
  rcases rear with ⟨c, last, hole'⟩ | full
  · obtain ⟨front, rfl⟩ := List.getLast?_eq_some_iff.mp last
    have entry : c.base ∈ items s.heap.index s.mem :=
      wf.indexed.entries.symm.subset (mem_holes.mpr ⟨c, by simp, hole', rfl⟩)
    have most : c.base.toNat ≤ h.toNat := highest c.base entry
    obtain ⟨first, ends⟩ := tiles_middle.mp wf.tiles
    have ends' : c.lo + c.len = s.heap.endAddress.toNat := ends
    rcases List.mem_append.mp member with early | last'
    · have below := (first.bounds d early).2
      have wide := (wf.ok d member).wide
      rw [← base] at most
      unfold Cell.lo at *
      omega
    · rw [List.mem_singleton.mp last'] at base size
      rw [size, ← base]
      exact ends'
  · exact absurd hole (full d member)

theorem grown_wellFormed (wf : WellFormed s.heap s.mem cells) (side : RearOf s t cells front rear)
    (grown : Grown s n front rear u) : WellFormed u.heap u.mem (front ++ [rear]) := by
  refine ⟨grown.layout.tiles, fun d member => ?_, grown.indexed⟩
  rcases List.mem_append.mp member with early | last
  · have kept := grown.frame d early
    have full : d ∈ cells ∧ (d.used ≠ none ∨ d.hi ≠ s.heap.endAddress.toNat) := by
      cases side with
      | new blocks => exact ⟨early, Or.inl (blocks d early)⟩
      | last front c row hole =>
        have member' : d ∈ cells := by simp [row, early]
        have tiles := wf.tiles
        rw [row] at tiles
        obtain ⟨first, ends⟩ := tiles_middle.mp tiles
        have below := (first.bounds d early).2
        have wide := (wf.ok c (by simp [row])).wide
        have ends' : c.lo + c.len = s.heap.endAddress.toNat := ends
        refine ⟨member', Or.inr ?_⟩
        unfold Cell.hi
        omega
    have ok := wf.ok d full.1
    exact (ok.frame (Nat.le_of_lt (wf.layout.hi_lt full.1)) kept).any_stop full.2
  · rw [List.mem_singleton.mp last]
    exact grown.ok

theorem grown_blocks (side : RearOf s t cells front rear) : blocks front = blocks cells := by
  cases side with
  | new _ => rfl
  | last front c row hole =>
    rw [row, blocks_append, blocks_cons_hole hole]
    exact (List.append_nil _).symm

/-- When no hole of a well-formed heap can hold the request, its last cell is a hole or it
has no holes, and nothing wraps, `alloc` calls itself once and finds a hole then. The heap
is well formed afterwards, with the same blocks, unchanged, and one for the request. -/
theorem alloc_grows (pager : Pager ε) (wf : WellFormed s.heap s.mem cells) (rear : RearFree cells)
    (mapped : EndMapped pager s)
    (space : s.heap.startAddress.toNat + grownLength s n < 2 ^ 32)
    (small : ∀ c ∈ cells, c.used = none → c.len < n.toNat + 20) :
    findSmallestHole (needed n) 0 s = none ∧
      ∃ u i, growHeap pager (needed n) s = some u ∧ findSmallestHole (needed n) 0 u = some i ∧
        allocFrom pager n 0 1 s = none ∧
        ∃ p v before block after, alloc pager n 0 s = some (p, v) ∧
          (∀ depth, allocFrom pager n 0 (depth + 2) s = some (p, v)) ∧
          WellFormed v.heap v.mem (before ++ block :: after) ∧
          p = block.base + headerBytes ∧ block.used = some n ∧ n.toNat + 20 ≤ block.len ∧
          blocks (before ++ after) = blocks cells ∧
          (∀ d ∈ blocks cells, AgreeOn d.lo d.hi s.mem v.mem) ∧
          v.heap.startAddress = s.heap.startAddress ∧
          v.heap.endAddress.toNat = s.heap.startAddress.toNat + grownLength s n := by
  have noWrap : n.toNat + 20 < 2 ^ 32 := by
    have covered := le_roundedLength (s.length.toNat + (n.toNat + 20))
    unfold grownLength at space
    omega
  have misses : findSmallestHole (needed n) 0 s = none := by
    refine findSmallestHole_of_small wf.layout wf.indexed fun c member hole => ?_
    rw [needed_toNat noWrap]
    exact small c member hole
  obtain ⟨t, u, front, last, expanded, ran, side, grown, -, size, heap⟩ :=
    growHeap_layout pager wf.layout wf.indexed mapped noWrap space (lastHoleAtEnd wf rear)
  have wf' := grown_wellFormed wf side grown
  obtain ⟨i, found⟩ := grown.found noWrap
  obtain ⟨before, c, after, row, fitting⟩ := fitting_of_found wf'.layout wf'.indexed noWrap found
  obtain ⟨m, count, carved', result⟩ := fitting.carve_spec
  rw [row] at wf'
  have final := carved_wellFormed wf' result
  obtain ⟨block, rest, cells', base, used, room, holes, -⟩ :=
    carved_row noWrap fitting.large fitting.hi_lt
  rw [cells'] at final
  have same : blocks (before ++ after) = blocks cells := by
    have whole := congrArg blocks row
    rw [blocks_append, blocks_append, blocks_cons_hole fitting.hole, blocks_cons_hole grown.hole,
      grown_blocks side] at whole
    rw [blocks_append, ← whole]
    exact List.append_nil _
  refine ⟨misses, u, i, ran, found, allocFrom_one misses, c.base + headerBytes, _, before, block,
    rest ++ after, (alloc_of_grown misses ran found).trans carved',
    fun depth => (allocFrom_of_grown misses ran found depth).trans carved', final, ?_, used, room, ?_,
    fun d member => ?_, ?_, ?_⟩
  · rw [base]
  · rw [← same, blocks_append, blocks_append, blocks_append, blocks_holes holes, List.nil_append]
  · have kept := same ▸ member
    have old : d ∈ blocks front := grown_blocks side ▸ member
    exact (grown.frame d (mem_blocks.mp old).1).trans (result.frame d (mem_blocks.mp kept).1)
  · change u.heap.startAddress = _
    rw [heap]
    exact expanded.start
  · change u.heap.endAddress.toNat = _
    rw [heap]
    exact expanded.stop

/-- A request on a heap of two blocks. -/
theorem alloc_grows_twoBlocks : ∃ p v before block after,
    alloc loggingPager 16 0 twoBlocks = some (p, v) ∧
      WellFormed v.heap v.mem (before ++ block :: after) ∧ p = block.base + headerBytes ∧
      blocks (before ++ after) = [lowBlock, highBlock] ∧
      v.heap.endAddress.toNat = 0x38b000 := by
  have full : ∀ c ∈ [lowBlock, highBlock], c.used ≠ none := by decide
  obtain ⟨-, u, i, -, -, -, p, v, before, block, after, ran, -, wf, pointer, -, -, same, -, -, stop⟩ :=
    alloc_grows (n := 16) loggingPager twoBlocks_wellFormed (Or.inr full) (Or.inl (by decide))
      (by decide) fun c member hole => absurd hole (full c member)
  exact ⟨p, v, before, block, after, ran, wf, pointer, same, stop⟩

end BlessOS.Guarantees.HeapGrowth
