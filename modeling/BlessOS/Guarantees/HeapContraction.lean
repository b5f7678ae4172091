import BlessOS.Guarantees.HeapFreed

/-!
# The holes that `free` leaves

After a block of a well-formed heap is freed, every entry of the index should be the
intact header of a hole inside the new bounds. It is, but for two defects. Of a hole
that ends the heap so little may be left that its footer falls onto its own header.
And the entry that is added to a full index is stored behind it, where the heap may
begin.
-/

set_option autoImplicit false

namespace BlessOS.Guarantees.HeapContraction
open BlessOS.Lib.ByteMemory BlessOS.Lib.Tiling
open BlessOS.Source BlessOS.Source.OrderedArray BlessOS.Source.Kheap
open BlessOS.Guarantees.OrderedArrayItems BlessOS.Guarantees.HeapLayout
open BlessOS.Guarantees.HeapInvariant BlessOS.Guarantees.HeapBounds BlessOS.Guarantees.HeapUnify
open BlessOS.Guarantees.HeapFree BlessOS.Guarantees.HeapWellFormed BlessOS.Guarantees.HeapFreed

variable {ε : Type} {s t u : HeapState ε} {cells before after front back : List Cell} {c e : Cell}
  {p h : U32} {heap heap' : Heap} {m m' : Mem}

/-- An intact header of a hole that lies in the heap. -/
structure Usable (heap : Heap) (m : Mem) (h : U32) : Prop where
  magic : headerMagic m h = heapMagic
  hole : isHole m h = 1
  wide : 20 ≤ (blockSize m h).toNat
  low : heap.startAddress.toNat ≤ h.toNat
  high : h.toNat + (blockSize m h).toNat ≤ heap.endAddress.toNat

theorem usable_of_layout (layout : Layout heap m cells) (listed : h ∈ holes cells) :
    Usable heap m h := by
  obtain ⟨c, member, hole, rfl⟩ := mem_holes.mp listed
  obtain ⟨wide, -, header, -⟩ := layout.ok c member
  have bounds := layout.bounds c member
  have size := header.size
  exact ⟨header.magic, header.flag.trans (flag_eq_one.mpr hole), by rw [size]; exact wide, bounds.1,
    by rw [size]; exact bounds.2⟩

/-- A listed header is that of the first cell, or lies behind that cell's header. -/
theorem header_first (layout : Layout heap m cells) (listed : h ∈ holes cells) :
    (h = heap.startAddress ∧ ∀ f ∈ cells.head?, f.used = none) ∨
      heap.startAddress.toNat + 20 ≤ h.toNat := by
  obtain ⟨c, member, hole, rfl⟩ := mem_holes.mp listed
  cases cells with
  | nil => cases member
  | cons f rest =>
    obtain ⟨start, tiles⟩ := layout.tiles
    have wide := (layout.ok f List.mem_cons_self).wide
    rcases List.mem_cons.mp member with rfl | late
    · refine Or.inl ⟨BitVec.eq_of_toNat_eq start, fun f first => ?_⟩
      rw [List.head?_cons, Option.mem_some_iff] at first
      rw [← first]
      exact hole
    · have behind := (tiles.bounds c late).1
      unfold Cell.lo at behind
      exact Or.inr (by omega)

/-- A hole stays usable when the rest of its header is kept and the magic word is good. -/
theorem Usable.of_magic (usable : Usable heap m h) (start : heap'.startAddress = heap.startAddress)
    (stop : heap'.endAddress = heap.endAddress)
    (agree : AgreeOn (h.toNat + 4) (h.toNat + 12) m m') (bound : h.toNat + 12 ≤ 2 ^ 32)
    (magic : headerMagic m' h = heapMagic) : Usable heap' m' h := by
  have hole : isHole m' h = isHole m h := by
    unfold isHole
    apply agree.load8 <;> bv_omega
  have size : blockSize m' h = blockSize m h := by
    unfold blockSize
    apply agree.load32 <;> bv_omega
  refine ⟨magic, hole.trans usable.hole, ?_, ?_, ?_⟩
  · rw [size]
    exact usable.wide
  · rw [start]
    exact usable.low
  · rw [size, stop]
    exact usable.high

theorem Usable.frame (usable : Usable heap m h) (start : heap'.startAddress = heap.startAddress)
    (stop : heap'.endAddress = heap.endAddress) (agree : AgreeOn h.toNat (h.toNat + 12) m m')
    (bound : h.toNat + 12 ≤ 2 ^ 32) : Usable heap' m' h :=
  usable.of_magic start stop (agree.mono (Nat.le_add_right _ _) (Nat.le_refl _)) bound
    ((headerMagic_congr agree bound).trans usable.magic)

/-! ## When enough is left -/

/-- A hole at this offset that ends the heap keeps room for a header and a footer. -/
def RoomLeft (offset : U32) : Prop := offset.toNat < 0x7000 ∨ offset.toNat % 0x1000 ≤ 0xfec

instance : DecidablePred RoomLeft := fun offset =>
  inferInstanceAs (Decidable (offset.toNat < 0x7000 ∨ offset.toNat % 0x1000 ≤ 0xfec))

theorem roomLeft_iff {offset : U32} :
    20 ≤ contractedLength offset.toNat - offset.toNat ↔ RoomLeft offset := by
  unfold RoomLeft contractedLength roundedLength
  split <;> omega

section Room

variable {pager : Pager ε} (wf : WellFormed s.heap s.mem (before ++ c :: after))
  (pointer : p = c.base + headerBytes) (bordered : Bordered s)
  (made : Unified s p before c after front e back) (cut : Cut pager s p e back t)
  (pages : s.length.toNat % 0x1000 = 0)

include wf pointer bordered made cut pages in
theorem wide_of_room (room : EndsHeap after → RoomLeft (leftEdge before c - s.heap.startAddress)) :
    20 ≤ (keptHole s e back).len := by
  by_cases nothing : back = []
  · have ends := (back_nil_iff wf pointer bordered.fenced made).mp nothing
    rw [(keptHole_hi made cut pages nothing).2, roomLeft_iff,
      edge_base wf pointer bordered.fenced made]
    exact room ends
  · unfold keptHole
    rw [if_neg nothing]
    exact made.joining.ok.wide

include wf pointer bordered made cut pages in
/-- A usable hole at the end of the heap is not larger than what is left of it. -/
theorem room_of_usable (usable : Usable heap m e.base) (stop : heap.endAddress = t.heap.endAddress)
    (ends : EndsHeap after) : RoomLeft (leftEdge before c - s.heap.startAddress) := by
  have nothing := (back_nil_iff wf pointer bordered.fenced made).mpr ends
  obtain ⟨top, len⟩ := keptHole_hi made cut pages nothing
  have lo : (keptHole s e back).lo = e.base.toNat := congrArg BitVec.toNat keptHole_base
  have wide := usable.wide
  have high := usable.high
  rw [stop] at high
  rw [← edge_base wf pointer bordered.fenced made, ← roomLeft_iff]
  unfold Cell.hi at top
  omega

end Room

/-! ## When the index is full -/

/-- The size of the hole when no neighbour joins it. -/
def aloneSize (s : HeapState ε) (c : Cell) (after : List Cell) : U32 :=
  if after = [] then
    contractedSize (c.base - s.heap.startAddress) - (c.base - s.heap.startAddress)
  else c.size

/-- The entry that goes behind a full index when such a hole is added: the largest. -/
def spilled (s : HeapState ε) (c : Cell) (after : List Cell) : U32 :=
  if ∀ h ∈ items s.heap.index s.mem, blockSize s.mem h < aloneSize s c after then c.base
  else s.heap.index.item s.mem 0x1ffff

/-- No entry goes behind a full index, or the first cell is a block then, or its magic word
survives the entry. -/
def IndexKept (s : HeapState ε) (before : List Cell) (c : Cell) (after : List Cell) : Prop :=
  s.heap.index.size = heapIndexSize → (∀ l ∈ before.getLast?, l.used ≠ none) →
    (∀ r ∈ after.head?, r.used ≠ none) → (∀ f ∈ before.head?, f.used = none) →
    headerMagic (store32 s.mem (slot s.heap.index.array 0x20000) (spilled s c after))
      s.heap.startAddress = heapMagic

theorem first_magic (layout : Layout heap m cells) (proper : cells ≠ []) :
    headerMagic m heap.startAddress = heapMagic := by
  cases cells with
  | nil => exact absurd rfl proper
  | cons f rest =>
    have base : f.base = heap.startAddress := BitVec.eq_of_toNat_eq layout.tiles.1
    rw [← base]
    exact (layout.ok f List.mem_cons_self).header.magic

section Full

variable {pager : Pager ε} (wf : WellFormed s.heap s.mem (before ++ c :: after))
  (pointer : p = c.base + headerBytes) (bordered : Bordered s)
  (made : Unified s p before c after front e back) (cut : Cut pager s p e back t)
  (pages : s.length.toNat % 0x1000 = 0) (long : 0x8000 ≤ s.length.toNat)
  (wide : 20 ≤ (keptHole s e back).len) (block : c.used ≠ none)

/-- The hole is added to an index that is full even now. -/
structure Overflows (s : HeapState ε) (p : U32) (t : HeapState ε) : Prop where
  added : (unified p s).1.doAdd = true
  full : t.heap.index.size.toNat = 0x20000

variable (overflows : Overflows s p t)

include wf pointer made cut overflows in
/-- Then no neighbour has joined the hole. -/
theorem alone : before = front ∧ after = back ∧ e.base = c.base ∧ e.size = c.size ∧
    ¬ leftTest (marked s p) (p - headerBytes) ∧
    ¬ rightTest (marked s p) (rightHeader (marked s p) (p - headerBytes)) := by
  have header : p - headerBytes = c.base := by rw [pointer, BitVec.add_sub_cancel]
  have noLeft := made.added.mp overflows.added
  have few := wf.indexed.few
  have full := overflows.full
  obtain ⟨fewer, same⟩ := cut_count made cut
  have noRight := same (by omega)
  have left := made.left
  have right := made.right
  have base := made.base
  have top := made.top
  have behind := rightHeader_toNat wf.layout pointer
  unfold LeftOf at left
  unfold RightOf at right
  unfold mergedHeader at base
  unfold mergedEnd at top
  dsimp only at top
  rw [if_neg noLeft] at left base
  rw [if_neg noRight] at right top
  rw [header] at base
  rw [behind] at top
  refine ⟨left, right, base, BitVec.eq_of_toNat_eq ?_, noLeft, noRight⟩
  have lo : e.lo = c.lo := congrArg BitVec.toNat base
  unfold Cell.hi at top
  change e.len = c.len
  omega

include wf pointer made cut overflows in
theorem alone_index : t.heap.index = s.heap.index ∧
    items s.heap.index t.mem = items s.heap.index s.mem := by
  obtain ⟨low, above, -, agree⟩ := cut.frame
  have start := unified_start made
  have area := made.joining.indexed.area
  rw [start] at area
  have count := made.count
  rw [if_neg (alone wf pointer made cut overflows).2.2.2.2.2] at count
  have index : (unified p s).2.heap.index = s.heap.index := by
    rw [made.heap, count]
    rfl
  refine ⟨by rw [cut.heap]; exact index, ?_⟩
  have sub := made.joining.sub
  have kept := made.joining.indexed.items_frame (agree.on (Or.inl (Nat.le_trans area above)))
  rw [index] at sub kept
  rw [kept]
  exact sub.eq_of_length (by rw [length_items, length_items])

include wf pointer made cut pages long wide block overflows in
/-- The sizes by which the hole is entered into the index. -/
theorem alone_sizes : blockSize t.mem e.base = aloneSize s c after ∧
    ∀ x ∈ items s.heap.index s.mem, blockSize t.mem x = blockSize s.mem x := by
  obtain ⟨first, last, base, size, -, -⟩ := alone wf pointer made cut overflows
  have layout := cut_layout made cut pages long wide
  constructor
  · have header := (layout.ok (keptHole s e back) (by simp)).header.size
    rw [keptHole_base] at header
    rw [header]
    unfold keptHole aloneSize
    rw [last, ← base]
    split
    · rfl
    · exact size
  · intro x listed
    have hole := wf.indexed.entries.subset listed
    rw [holes_append, holes_cons_block block, ← holes_append] at hole
    refine Layout.sizes_eq wf.layout layout (fun d member => mem_around member)
      (fun d member => ?_) x hole
    rw [first, last] at member
    exact mem_around member

include wf pointer made cut pages long wide block overflows in
/-- The magic word of the first cell, when the added entry may reach into it. -/
theorem overflow_magic {m : Mem}
    (listing : items { t.heap.index with size := t.heap.index.size + 1 } m =
      (items t.heap.index t.mem).insertIdx
        (insertPosition headerLessThan e.base t.heap.index t.mem) e.base)
    (agree : AgreeOff t.heap.index.array.toNat
      (t.heap.index.array.toNat + 4 * (t.heap.index.size.toNat + 1)) t.mem m) :
    headerMagic m s.heap.startAddress =
      headerMagic (store32 s.mem (slot s.heap.index.array 0x20000) (spilled s c after))
        s.heap.startAddress := by
  obtain ⟨index, entries⟩ := alone_index wf pointer made cut overflows
  obtain ⟨size, sizes⟩ := alone_sizes wf pointer made cut pages long wide block overflows
  have base := (alone wf pointer made cut overflows).2.2.1
  have full := overflows.full
  have area := wf.indexed.area
  have below := wf.indexed.below
  rw [index] at listing agree full
  have fits : Fits s.heap.index.array 0x20001 := by
    unfold Fits
    omega
  have place : (slot s.heap.index.array 0x20000).toNat = s.heap.index.array.toNat + 4 * 0x20000 :=
    slot_toNat fits (by omega)
  have stored : load32 m (slot s.heap.index.array 0x20000) = spilled s c after := by
    refine (last_inserted full (by bv_omega) listing).trans ?_
    unfold spilled
    rw [entries, base]
    refine if_congr ?_ rfl ?_
    · refine forall₂_congr fun x member => ?_
      unfold headerLessThan
      rw [decide_eq_true_eq, sizes x member, ← base, size]
    · have inside : 0x1ffff < (items s.heap.index t.mem).length := by
        rw [length_items]
        omega
      have entry := List.getElem_of_eq entries inside
      rw [getElem_items, getElem_items] at entry
      exact entry
  have start := cut_start made cut
  have old := first_magic wf.layout (by simp)
  have new := first_magic (cut_layout made cut pages long wide) (by simp)
  rw [start] at new
  have same : AgreeOn s.heap.startAddress.toNat (s.heap.startAddress.toNat + 4) s.mem t.mem :=
    agreeOn_of_load32 (new.trans old.symm) below
  refine load32_of_overlap stored below (by omega) fun x low high outside => ?_
  exact (agree x (by omega)).trans (same x low high)

end Full

/-! ## The whole of `free` -/

section Free

variable {pager : Pager ε} (wf : WellFormed s.heap s.mem (before ++ c :: after))
  (pointer : p = c.base + headerBytes) (bordered : Bordered s) (block : c.used ≠ none)
  (made : Unified s p before c after front e back) (cut : Cut pager s p e back t)
  (pages : s.length.toNat % 0x1000 = 0) (long : 0x8000 ≤ s.length.toNat)

/-- What `free` leaves, before the holes are looked at: the headers are those of `t`, but for
a magic word at the start of the heap when the index overflows. -/
structure Left (s : HeapState ε) (p : U32) (before : List Cell) (c : Cell) (after front : List Cell)
    (e : Cell) (back : List Cell) (t u : HeapState ε) : Prop where
  start : u.heap.startAddress = t.heap.startAddress
  stop : u.heap.endAddress = t.heap.endAddress
  entries : (items u.heap.index u.mem).Perm (e.base :: (holes front ++ holes back))
  frame : AgreeOn (s.heap.startAddress.toNat + 4) (2 ^ 32) t.mem u.mem
  untouched : ¬ Overflows s p t → AgreeOn s.heap.startAddress.toNat (2 ^ 32) t.mem u.mem
  overflow : Overflows s p t → 20 ≤ (keptHole s e back).len →
    headerMagic u.mem s.heap.startAddress =
      headerMagic (store32 s.mem (slot s.heap.index.array 0x20000) (spilled s c after))
        s.heap.startAddress

include wf pointer block made cut pages long in
theorem left_spec : ∃ u, free pager p s = some u ∧ Left s p before c after front e back t u := by
  have result := free_of_cut made cut wf pointer
  have listed := cut_indexed made cut
  have start := cut_start made cut
  have area := listed.area
  have few := listed.few
  rw [start] at area
  by_cases added : (unified p s).1.doAdd = true
  · rw [if_pos added] at result
    rw [if_pos added, List.nil_append] at listed
    obtain ⟨m, inserted, perm, listing, agree⟩ := insertHole_grows listed e.base
    refine ⟨_, result.trans inserted, rfl, rfl, perm, agree.on (Or.inr (by omega)),
      fun fits => agree.on (Or.inr ?_), fun overflows wide => ?_⟩
    · have room : t.heap.index.size.toNat ≠ 0x20000 := fun full => fits ⟨added, full⟩
      omega
    · exact overflow_magic wf pointer made cut pages long wide block overflows listing agree
  · rw [if_neg added] at result
    rw [if_neg added] at listed
    refine ⟨t, result, rfl, rfl, listed.entries.trans List.perm_middle, AgreeOn.refl _ _ _,
      fun _ => AgreeOn.refl _ _ _, fun overflows => absurd overflows.added added⟩

variable (left : Left s p before c after front e back t u)

include made cut in
/-- The condition on a full index is met when nothing goes behind it. -/
theorem indexKept_of_fits (fits : ¬ Overflows s p t) : IndexKept s before c after := by
  intro full noLeft noRight first
  have left := made.left
  have right := made.right
  have count := made.count
  unfold LeftOf at left
  unfold RightOf at right
  refine absurd ⟨made.added.mpr fun yes => ?_, ?_⟩ fits
  · rw [if_pos yes] at left
    obtain ⟨l, rfl, hole⟩ := left
    exact noLeft l List.getLast?_concat hole
  · split at count
    · next yes =>
      rw [if_pos yes] at right
      obtain ⟨r, rfl, hole⟩ := right
      exact absurd hole (noRight r rfl)
    · rw [cut.heap]
      change (unified p s).2.heap.index.size.toNat = 0x20000
      rw [count, full]
      rfl

include wf pointer bordered made cut in
/-- When something does, the neighbours of the block are blocks. -/
theorem blocks_of_overflow (overflows : Overflows s p t) :
    s.heap.index.size = heapIndexSize ∧ (∀ l ∈ before.getLast?, l.used ≠ none) ∧
      ∀ r ∈ after.head?, r.used ≠ none := by
  have header : p - headerBytes = c.base := by rw [pointer, BitVec.add_sub_cancel]
  obtain ⟨-, -, -, -, noLeft, noRight⟩ := alone wf pointer made cut overflows
  have index := (alone_index wf pointer made cut overflows).1
  rw [header] at noLeft noRight
  refine ⟨BitVec.eq_of_toNat_eq ?_, fun l last hole => ?_, fun r first hole => ?_⟩
  · rw [← index]
    exact overflows.full
  · obtain ⟨front, row⟩ := List.getLast?_eq_some_iff.mp last
    exact noLeft ((leftTest_iff wf pointer bordered.fenced).mpr ⟨front, l, row, hole⟩)
  · obtain ⟨back, row⟩ := List.head?_eq_some_iff.mp first
    exact noRight ((rightTest_iff wf pointer bordered.fenced).mpr ⟨r, back, row, hole⟩)

include made in
theorem holes_kept : (holes (front ++ keptHole s e back :: back)).Perm
    (e.base :: (holes front ++ holes back)) := by
  have hole : (keptHole s e back).used = none := by
    unfold keptHole
    split <;> exact made.joining.hole
  rw [holes_append, holes_cons_hole hole, keptHole_base]
  exact List.perm_middle

variable (left : Left s p before c after front e back t u)

include wf pointer bordered made cut pages long left in
/-- With room left and an index that is kept, every entry is usable. -/
theorem usable_of_kept (wide : 20 ≤ (keptHole s e back).len) (kept : IndexKept s before c after) :
    ∀ h ∈ items u.heap.index u.mem, Usable u.heap u.mem h := by
  intro h entry
  have layout := cut_layout made cut pages long wide
  have start := cut_start made cut
  have listed : h ∈ holes (front ++ keptHole s e back :: back) :=
    (holes_kept made).symm.subset (left.entries.subset entry)
  have usable := usable_of_layout layout listed
  obtain ⟨low, high⟩ := layout.header_bounds listed
  rw [start] at low
  by_cases overflows : Overflows s p t
  · rcases header_first layout listed with ⟨base, holes⟩ | behind
    · obtain ⟨full, noLeft, noRight⟩ := blocks_of_overflow wf pointer bordered made cut overflows
      have row := (alone wf pointer made cut overflows).1
      rw [start] at base
      refine usable.of_magic left.start left.stop
        (left.frame.mono (by rw [base]) (by omega)) high ?_
      rw [base, left.overflow overflows wide]
      refine kept full noLeft noRight fun f first => holes f ?_
      rw [row] at first
      obtain ⟨rest, split⟩ := List.head?_eq_some_iff.mp first
      rw [split]
      rfl
    · rw [start] at behind
      exact usable.frame left.start left.stop (left.frame.mono (by omega) (by omega)) high
  · exact usable.frame left.start left.stop
      ((left.untouched overflows).mono low (by omega)) high

include wf pointer made cut pages long left in
theorem kept_of_usable (wide : 20 ≤ (keptHole s e back).len)
    (usable : ∀ h ∈ items u.heap.index u.mem, Usable u.heap u.mem h) :
    IndexKept s before c after := by
  by_cases overflows : Overflows s p t
  · intro full noLeft noRight first
    have layout := cut_layout made cut pages long wide
    have start := cut_start made cut
    have row := (alone wf pointer made cut overflows).1
    have entry : s.heap.startAddress ∈ e.base :: (holes front ++ holes back) := by
      rw [row] at first
      rw [← start]
      cases front with
      | nil =>
        have base : (keptHole s e back).base = t.heap.startAddress :=
          BitVec.eq_of_toNat_eq layout.tiles.1
        rw [← base, keptHole_base]
        exact List.mem_cons_self
      | cons f rest =>
        have base : f.base = t.heap.startAddress := BitVec.eq_of_toNat_eq layout.tiles.1
        rw [← base, holes_cons_hole (first f rfl)]
        simp
    rw [← left.overflow overflows wide]
    exact (usable _ (left.entries.symm.subset entry)).magic
  · exact indexKept_of_fits made cut overflows

end Free

/-- `free` returns, and leaves only usable holes in the index exactly when there is room for
a hole at the end of the heap, if it is to be one, and the index is kept. -/
theorem free_usable_iff (pager : Pager ε) (wf : WellFormed s.heap s.mem (before ++ c :: after))
    (pages : s.length.toNat % 0x1000 = 0) (long : heapMinSize ≤ s.length) (bordered : Bordered s)
    (block : c.used ≠ none) (pointer : p = c.base + headerBytes) :
    ∃ u, free pager p s = some u ∧
      ((∀ h ∈ items u.heap.index u.mem, Usable u.heap u.mem h) ↔
        (EndsHeap after → RoomLeft (leftEdge before c - s.heap.startAddress)) ∧
          IndexKept s before c after) := by
  obtain ⟨front, e, back, made, -⟩ := unified_exact wf pointer bordered.fenced block
  obtain ⟨t, cut⟩ := cut_spec pager made pages long
  obtain ⟨u, result, left⟩ := left_spec wf pointer block made cut pages long
  refine ⟨u, result, fun usable => ?_, fun ⟨room, kept⟩ => ?_⟩
  · have entry := usable e.base (left.entries.symm.subset List.mem_cons_self)
    have room := room_of_usable wf pointer bordered made cut pages entry left.stop
    have wide := wide_of_room wf pointer bordered made cut pages room
    exact ⟨room, kept_of_usable wf pointer made cut pages long left wide usable⟩
  · have wide := wide_of_room wf pointer bordered made cut pages room
    exact usable_of_kept wf pointer bordered made cut pages long left wide kept

/-- Freeing the first of two blocks leaves one usable hole. -/
theorem free_usable_twoBlocks : ∃ u, free loggingPager 0x38000c twoBlocks = some u ∧
    ∀ h ∈ items u.heap.index u.mem, Usable u.heap u.mem h := by
  have wf : WellFormed twoBlocks.heap twoBlocks.mem ([] ++ lowBlock :: [highBlock]) :=
    twoBlocks_wellFormed
  obtain ⟨u, ran, usable⟩ := free_usable_iff (p := 0x38000c) loggingPager wf (by decide) (by decide)
    twoBlocks_bordered (by decide) (by decide)
  refine ⟨u, ran, usable.mpr ⟨fun ends => absurd ends (by decide), fun full => ?_⟩⟩
  exact absurd full (by decide)

/-- Of the hole that freeing the second block makes, 16 bytes are left. It is listed, but its
header is not that of a usable hole. -/
theorem contraction_ruins_hole : ∃ u, free loggingPager 0x387ffc twoBlocks = some u ∧
    0x387ff0 ∈ items u.heap.index u.mem ∧ ¬ Usable u.heap u.mem 0x387ff0 := by
  have wf : WellFormed twoBlocks.heap twoBlocks.mem ([lowBlock] ++ highBlock :: []) :=
    twoBlocks_wellFormed
  have pointer : (0x387ffc : U32) = highBlock.base + headerBytes := by decide
  have pages : twoBlocks.length.toNat % 0x1000 = 0 := by decide
  have long : 0x8000 ≤ twoBlocks.length.toNat := by decide
  obtain ⟨front, e, back, made, -⟩ :=
    unified_exact wf pointer twoBlocks_bordered.fenced (by decide)
  obtain ⟨t, cut⟩ := cut_spec loggingPager made pages long
  obtain ⟨u, ran, left⟩ := left_spec wf pointer (by decide) made cut pages long
  have base : e.base = 0x387ff0 := edge_base wf pointer twoBlocks_bordered.fenced made
  rw [← base]
  refine ⟨u, ran, left.entries.symm.subset List.mem_cons_self, fun usable => ?_⟩
  have room := room_of_usable wf pointer twoBlocks_bordered made cut pages usable left.stop (by decide)
  exact absurd room (by decide)

end BlessOS.Guarantees.HeapContraction
