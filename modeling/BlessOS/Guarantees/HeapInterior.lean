import BlessOS.Guarantees.HeapFreed

/-!
# Freeing a block in front of a live one

When a live block follows, `free` neither joins to the right nor contracts the heap.
The block becomes a hole, alone or as the end of the hole in front of it; that hole
keeps the one index entry it has, and else the block gets one.
-/

set_option autoImplicit false

namespace BlessOS.Guarantees.HeapInterior
open BlessOS.Lib.ByteMemory BlessOS.Lib.Tiling
open BlessOS.Source BlessOS.Source.OrderedArray BlessOS.Source.Kheap
open BlessOS.Guarantees.OrderedArrayItems BlessOS.Guarantees.HeapLayout
open BlessOS.Guarantees.HeapInvariant BlessOS.Guarantees.HeapUnify BlessOS.Guarantees.HeapFree
open BlessOS.Guarantees.HeapWellFormed BlessOS.Guarantees.HeapFreed

variable {ε : Type} {s : HeapState ε} {before front back : List Cell} {c e r : Cell} {p : U32}

/-- Every hole has one entry. -/
theorem listed_once {heap : Heap} {m : Mem} {cells : List Cell} (wf : WellFormed heap m cells)
    (member : c ∈ cells) (hole : c.used = none) : (items heap.index m).count c.base = 1 := by
  rw [wf.indexed.entries.count_eq]
  exact List.count_eq_one_of_mem wf.layout.holes_nodup (mem_holes.mpr ⟨c, member, hole, rfl⟩)

/-- The hole that a freed block becomes, between the cells that stay. -/
structure Absorbed (before : List Cell) (c : Cell) (front : List Cell) (e : Cell) : Prop where
  hole : e.used = none
  high : e.hi = c.hi
  low : (before = front ∧ (∀ l ∈ before.getLast?, l.used ≠ none) ∧ e.lo = c.lo) ∨
    ∃ l, before = front ++ [l] ∧ l.used = none ∧ e.lo = l.lo

section Interior

variable (wf : WellFormed s.heap s.mem (before ++ c :: r :: back)) (right : r.used ≠ none)
  (pointer : p = c.base + headerBytes) (fenced : Fenced s before (r :: back))
  (made : Unified s p before c (r :: back) front e (r :: back))

include wf right pointer fenced in
/-- The test on the right fails. -/
theorem not_rightTest : ¬ rightTest (marked s p) (rightHeader (marked s p) (p - headerBytes)) := by
  have header : p - headerBytes = c.base := by rw [pointer, BitVec.add_sub_cancel]
  rw [header, rightTest_iff wf pointer fenced]
  rintro ⟨r', back', row, hole⟩
  obtain ⟨rfl, -⟩ := List.cons.inj row
  exact right hole

include wf right pointer fenced made in
theorem absorbed : Absorbed before c front e := by
  have header : p - headerBytes = c.base := by rw [pointer, BitVec.add_sub_cancel]
  have noRight := not_rightTest wf right pointer fenced
  have behind := rightHeader_toNat wf.layout pointer
  have top := made.top
  have edge := edge_base wf pointer fenced made
  have side := made.left
  refine ⟨made.joining.hole, ?_, ?_⟩
  · rw [header] at top behind noRight
    unfold mergedEnd at top
    dsimp only at top
    rw [if_neg noRight] at top
    exact top.trans behind
  · unfold LeftOf at side
    rw [header] at side
    split at side
    · obtain ⟨l, last, hole⟩ := side
      refine Or.inr ⟨l, last, hole, ?_⟩
      unfold leftEdge at edge
      rw [last, List.getLast?_concat] at edge
      exact congrArg BitVec.toNat (edge.trans (if_pos hole))
    · next no =>
      have blocks : ∀ l ∈ before.getLast?, l.used ≠ none := by
        intro l last hole
        obtain ⟨first, row⟩ := List.getLast?_eq_some_iff.mp last
        exact no ((leftTest_iff wf pointer fenced).mpr ⟨first, l, row, hole⟩)
      refine Or.inl ⟨side, blocks, ?_⟩
      unfold leftEdge at edge
      split at edge
      · exact congrArg BitVec.toNat edge
      · next l last => exact congrArg BitVec.toNat (edge.trans (if_neg (blocks l last)))

include made in
/-- The heap is well formed when the hole has been made, but for the entry of the index
that a new hole still lacks. -/
theorem unified_blocks (wf : WellFormed s.heap s.mem (before ++ c :: r :: back))
    (own : OwnFooter (unified p s).2.mem e) :
    ∀ d ∈ front ++ e :: r :: back,
      BlockOk (unified p s).2.mem (unified p s).2.heap.endAddress.toNat d := by
  have stop := unified_end made
  have kept : ∀ d ∈ front ++ r :: back,
      BlockOk (unified p s).2.mem (unified p s).2.heap.endAddress.toNat d := by
    intro d member
    have old := made.joining.kept d member
    rw [stop]
    exact (wf.ok d old).frame (Nat.le_of_lt (wf.layout.hi_lt old)) (made.frame d member)
  intro d member
  rcases List.mem_append.mp member with early | late
  · exact kept d (List.mem_append_left _ early)
  · rcases List.mem_cons.mp late with rfl | late
    · have ok := made.joining.ok
      exact ⟨ok.wide, ok.room, ok.header, fun _ => own⟩
    · exact kept d (List.mem_append_right _ late)

end Interior

/-- Freeing a block that a live one follows leaves a well-formed heap with the same
bounds, in which the block, alone or with the hole in front of it, is one hole that is
listed once. No other cell is written to. -/
theorem free_interior (pager : Pager ε)
    (wf : WellFormed s.heap s.mem (before ++ c :: r :: back))
    (room : s.heap.index.size < heapIndexSize)
    (below : footerMagic s.mem (s.heap.startAddress - footerBytes) ≠ heapMagic)
    (block : c.used ≠ none) (right : r.used ≠ none) (pointer : p = c.base + headerBytes) :
    ∃ u front e, free pager p s = some u ∧ Absorbed before c front e ∧
      WellFormed u.heap u.mem (front ++ e :: r :: back) ∧
      (items u.heap.index u.mem).count e.base = 1 ∧
      u.heap.startAddress = s.heap.startAddress ∧ u.heap.endAddress = s.heap.endAddress ∧
      u.paging = s.paging ∧ ∀ d ∈ front ++ r :: back, AgreeOn d.lo d.hi s.mem u.mem := by
  have fenced : Fenced s before (r :: back) := ⟨fun _ => below, fun empty => by cases empty⟩
  obtain ⟨front, e, back', made, own⟩ := unified_exact wf pointer fenced block
  have noRight := not_rightTest wf right pointer fenced
  have same : r :: back = back' := by
    have side := made.right
    unfold RightOf at side
    rwa [if_neg noRight] at side
  subst same
  have joining := made.joining
  have blocks := unified_blocks made wf (own noRight)
  have start := unified_start made
  have stop := unified_end made
  have tiles := joining.layout.tiles
  have stays : (unified p s).1.footer + footerBytes ≠ (unified p s).2.heap.endAddress := by
    intro ends
    have behind := joining.behind_toNat
    rw [ends, stop] at behind
    exact absurd ((top_iff made).mp behind.symm) (by simp)
  have ran := free_eq pager (proper_pointer wf pointer) (s := s)
  rw [trim_no pager stays, Option.bind_some] at ran
  have present : e ∈ front ++ e :: r :: back := by simp
  have absorbed' := absorbed wf right pointer fenced made
  by_cases added : (unified p s).1.doAdd = true
  · have listed := joining.indexed
    rw [added] at listed
    have count := made.count
    rw [if_neg noRight] at count
    have space : (unified p s).2.heap.index.size.toNat < 0x20000 := by
      rw [count]
      exact room
    obtain ⟨m, inserted, indexed, -, agree⟩ := insertHole_spec listed space e.base
    have apart : ∀ d ∈ front ++ e :: r :: back, AgreeOn d.lo d.hi (unified p s).2.mem m := by
      intro d member
      have low := (tiles.bounds d member).1
      exact agree.on (Or.inr (Nat.le_trans listed.area low))
    have final : WellFormed (resize (unified p s).2.heap ((unified p s).2.heap.index.size + 1)) m
        (front ++ e :: r :: back) := by
      refine ⟨tiles, fun d member => ?_, indexed.perm ?_⟩
      · exact (blocks d member).frame (Nat.le_of_lt (joining.layout.hi_lt member)) (apart d member)
      · rw [holes_append, holes_cons_hole joining.hole]
        exact List.perm_middle.symm
    rw [if_pos added, joining.header, inserted] at ran
    refine ⟨_, front, e, ran, absorbed', final, listed_once final present joining.hole, start, stop,
      made.paging, ?_⟩
    intro d member
    exact (made.frame d member).trans (apart d (mem_around member))
  · have listed := joining.indexed
    rw [if_neg added] at ran
    rw [if_neg added] at listed
    have final : WellFormed (unified p s).2.heap (unified p s).2.mem (front ++ e :: r :: back) := by
      refine ⟨tiles, blocks, listed.perm ?_⟩
      rw [holes_append, holes_cons_hole joining.hole]
      exact List.Perm.refl _
    exact ⟨_, front, e, ran, absorbed', final, listed_once final present joining.hole, start, stop,
      made.paging, made.frame⟩

/-- Freeing the first of two blocks. -/
theorem free_interior_twoBlocks : ∃ (u : HeapState (List U32)) (e : Cell),
    free loggingPager 0x38000c twoBlocks = some u ∧
    WellFormed u.heap u.mem [e, highBlock] ∧ e.lo = lowBlock.lo ∧ e.hi = lowBlock.hi := by
  have wf : WellFormed twoBlocks.heap twoBlocks.mem ([] ++ lowBlock :: highBlock :: []) :=
    twoBlocks_wellFormed
  obtain ⟨u, front, e, ran, absorbed, final, -⟩ := free_interior (p := 0x38000c) loggingPager wf
    (by decide) twoBlocks_bordered.below (by decide) (by decide) (by decide)
  rcases absorbed.low with ⟨rfl, -, low⟩ | ⟨l, row, -⟩
  · exact ⟨u, e, ran, final, low, absorbed.high⟩
  · exact absurd row (by simp)

end BlessOS.Guarantees.HeapInterior
