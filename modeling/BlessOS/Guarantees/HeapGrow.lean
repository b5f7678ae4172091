import BlessOS.Guarantees.HeapAlloc

/-!
# Finding a hole, and growing the heap when there is none

`find_smallest_hole` returns the first hole of the index that is large enough.
When it finds none, `alloc` expands the heap and gives the new pages to the hole at
the highest address, or makes a hole of them if the index is empty. This is sound
if the highest hole ends the heap, and the request is served then.
-/

set_option autoImplicit false

namespace BlessOS.Guarantees.HeapGrow
open BlessOS.Lib.ByteMemory BlessOS.Lib.Tiling
open BlessOS.Source BlessOS.Source.OrderedArray BlessOS.Source.Kheap
open BlessOS.Guarantees.OrderedArrayItems BlessOS.Guarantees.HeapLayout
open BlessOS.Guarantees.HeapInvariant BlessOS.Guarantees.HeapBounds BlessOS.Guarantees.HeapAlloc

variable {ε : Type} {s t : HeapState ε} {cells : List Cell} {n size h : U32} {i : Nat}

/-! ## The searches -/

theorem fits_iff {m : Mem} : fits m size 0 h = true ↔ size ≤ blockSize m h := by
  simp [fits]

theorem mem_items {index : OrderedArray} {m : Mem} :
    h ∈ items index m ↔ ∃ i, i < index.size.toNat ∧ index.item m i = h := by
  simp [items]

/-- The hole that is found is the first that passes the test. -/
theorem findSmallestHole_first {align : U8} (found : findSmallestHole size align s = some i) :
    i < s.heap.index.size.toNat ∧ fits s.mem size align (s.heap.index.item s.mem i) = true ∧
      ∀ j, j < i → fits s.mem size align (s.heap.index.item s.mem j) = false := by
  obtain ⟨-, limit, early, stops⟩ := scan_spec
    (fun j => !fits s.mem size align (s.heap.index.item s.mem j)) s.heap.index.size.toNat 0
  unfold findSmallestHole at found
  dsimp only at found
  split at found
  · cases found
  · next short =>
    cases found
    have inside := Nat.lt_of_le_of_ne limit (by omega)
    refine ⟨by omega, by simpa using stops inside, fun j before => ?_⟩
    have tested := early j (Nat.zero_le j) before
    simpa using tested

/-- Without alignment that is the first that is large enough. -/
theorem findSmallestHole_some (found : findSmallestHole size 0 s = some i) :
    i < s.heap.index.size.toNat ∧ size ≤ blockSize s.mem (s.heap.index.item s.mem i) ∧
      ∀ j, j < i → blockSize s.mem (s.heap.index.item s.mem j) < size := by
  obtain ⟨inside, fitting, early⟩ := findSmallestHole_first found
  refine ⟨inside, fits_iff.mp fitting, fun j before => ?_⟩
  have tested := early j before
  rw [← Bool.not_eq_true, fits_iff] at tested
  exact BitVec.not_le.mp tested

/-- When none is found, all fail the test. -/
theorem findSmallestHole_misses {align : U8} (misses : findSmallestHole size align s = none) :
    ∀ h ∈ items s.heap.index s.mem, fits s.mem size align h = false := by
  obtain ⟨-, -, early, -⟩ := scan_spec
    (fun j => !fits s.mem size align (s.heap.index.item s.mem j)) s.heap.index.size.toNat 0
  unfold findSmallestHole at misses
  dsimp only at misses
  split at misses
  · next whole =>
    intro h listed
    obtain ⟨j, inside, rfl⟩ := mem_items.mp listed
    have tested := early j (Nat.zero_le j) (by omega)
    simpa using tested
  · cases misses

theorem findSmallestHole_none (found : findSmallestHole size 0 s = none) :
    ∀ h ∈ items s.heap.index s.mem, blockSize s.mem h < size := by
  intro h listed
  have tested := findSmallestHole_misses found h listed
  rw [← Bool.not_eq_true, fits_iff] at tested
  exact BitVec.not_le.mp tested

theorem findSmallestHole_isSome (listed : h ∈ items s.heap.index s.mem)
    (large : size ≤ blockSize s.mem h) : ∃ i, findSmallestHole size 0 s = some i := by
  cases found : findSmallestHole size 0 s with
  | some i => exact ⟨i, rfl⟩
  | none => exact absurd (findSmallestHole_none found h listed) (BitVec.not_lt.mpr large)

/-- The loop for the highest hole, after `count` iterations. -/
theorem highest_prefix (index : OrderedArray) (m : Mem) (count : Nat) :
    let best := (List.range count).foldl (fun (best : Option Nat × U32) iterator =>
      let tmp := index.item m iterator
      if best.2 < tmp then (some iterator, tmp) else best) (none, 0)
    (∀ j, j < count → index.item m j ≤ best.2) ∧ (best.1 = none → best.2 = 0) ∧
      ∀ i, best.1 = some i → i < count ∧ index.item m i = best.2 := by
  induction count with
  | zero =>
    refine ⟨fun j inside => absurd inside (Nat.not_lt_zero j), fun _ => rfl, fun i found => ?_⟩
    cases found
  | succ count ih =>
    obtain ⟨upper, zero, place⟩ := ih
    simp only [List.range_succ, List.foldl_append, List.foldl_cons, List.foldl_nil]
    split
    · next higher =>
      refine ⟨fun j inside => ?_, (fun absent => by cases absent), fun i found => ?_⟩
      · rcases Nat.eq_or_lt_of_le (Nat.le_of_lt_succ inside) with rfl | before
        · exact BitVec.le_refl _
        · exact BitVec.le_trans (upper j before) (BitVec.le_of_lt higher)
      · cases found
        exact ⟨Nat.lt_succ_self _, rfl⟩
    · next lower =>
      refine ⟨fun j inside => ?_, zero, fun i found => ?_⟩
      · rcases Nat.eq_or_lt_of_le (Nat.le_of_lt_succ inside) with rfl | before
        · exact BitVec.not_lt.mp lower
        · exact upper j before
      · obtain ⟨inside, value⟩ := place i found
        exact ⟨Nat.lt_succ_of_lt inside, value⟩

theorem highestHole_some {index : OrderedArray} {m : Mem} (found : highestHole index m = some i) :
    i < index.size.toNat ∧ ∀ x ∈ items index m, x ≤ index.item m i := by
  obtain ⟨upper, -, place⟩ := highest_prefix index m index.size.toNat
  obtain ⟨inside, value⟩ := place i found
  refine ⟨inside, fun x listed => ?_⟩
  obtain ⟨j, bound, rfl⟩ := mem_items.mp listed
  rw [value]
  exact upper j bound

/-- There is none only if no entry is above zero. -/
theorem highestHole_none {index : OrderedArray} {m : Mem} (found : highestHole index m = none) :
    ∀ x ∈ items index m, x = 0 := by
  obtain ⟨upper, zero, -⟩ := highest_prefix index m index.size.toNat
  intro x listed
  obtain ⟨j, bound, rfl⟩ := mem_items.mp listed
  have most := upper j bound
  rw [zero found] at most
  bv_omega

/-- The index is empty, or the loop ends at a hole that no other hole is above. -/
theorem highestHole_cases {heap : Heap} {m : Mem} (layout : Layout heap m cells)
    (indexed : Indexed heap m (holes cells)) :
    (highestHole heap.index m = none ∧ holes cells = []) ∨
      ∃ i c, highestHole heap.index m = some i ∧ heap.index.item m i = c.base ∧ c ∈ cells ∧
        c.used = none ∧ ∀ x ∈ items heap.index m, x ≤ c.base := by
  cases found : highestHole heap.index m with
  | none =>
    refine Or.inl ⟨rfl, List.eq_nil_iff_forall_not_mem.mpr fun h listed => ?_⟩
    have low := (layout.header_bounds listed).1
    have area := indexed.area
    have zero := highestHole_none found h (indexed.entries.symm.subset listed)
    rw [zero] at low
    have nothing : (0 : U32).toNat = 0 := rfl
    omega
  | some i =>
    obtain ⟨inside, most⟩ := highestHole_some found
    obtain ⟨c, member, hole, base, -⟩ :=
      layout.blockSize_hole (indexed.entries.subset (mem_items.mpr ⟨i, inside, rfl⟩))
    rw [← base] at most
    exact Or.inr ⟨i, c, rfl, base.symm, member, hole, most⟩

/-- No hole is found when none is large enough. -/
theorem findSmallestHole_of_small (layout : Layout s.heap s.mem cells)
    (indexed : Indexed s.heap s.mem (holes cells))
    (small : ∀ c ∈ cells, c.used = none → c.len < size.toNat) : findSmallestHole size 0 s = none := by
  cases found : findSmallestHole size 0 s with
  | none => rfl
  | some i =>
    obtain ⟨inside, large, -⟩ := findSmallestHole_some found
    obtain ⟨c, member, hole, -, length⟩ :=
      layout.blockSize_hole (indexed.entries.subset (mem_items.mpr ⟨i, inside, rfl⟩))
    rw [length] at large
    exact absurd large (Nat.not_le.mpr (small c member hole))

/-! ## The growth -/

/-- The length of the heap after it has grown for a request. -/
def grownLength (s : HeapState ε) (n : U32) : Nat := roundedLength (s.length.toNat + (n.toNat + 20))

/-- What `expand` leaves when it is called for a request. -/
structure Expanded (pager : Pager ε) (s : HeapState ε) (n : U32) (t : HeapState ε) : Prop where
  expanded : expand pager (s.length + needed n) s = some t
  heap : t.heap = { s.heap with endAddress := t.heap.endAddress }
  stop : t.heap.endAddress.toNat = s.heap.startAddress.toNat + grownLength s n
  agree : AgreeOff s.heap.endAddress.toNat (2 ^ 32) s.mem t.mem

theorem expanded_spec (pager : Pager ε) (proper : s.heap.startAddress.toNat ≤ s.heap.endAddress.toNat)
    (mapped : EndMapped pager s) (noWrap : n.toNat + 20 < 2 ^ 32)
    (space : s.heap.startAddress.toNat + grownLength s n < 2 ^ 32) :
    ∃ t, Expanded pager s n t := by
  have need := needed_toNat noWrap
  unfold grownLength at space
  rw [← need] at space
  obtain ⟨t, ran, heap, stop, agree⟩ := expand_grows pager (needed n) proper mapped space
  rw [need] at stop
  exact ⟨t, ran, heap, stop, agree⟩

namespace Expanded

variable {pager : Pager ε} (expanded : Expanded pager s n t)
  (proper : s.heap.startAddress.toNat ≤ s.heap.endAddress.toNat) (noWrap : n.toNat + 20 < 2 ^ 32)

include expanded in
theorem index : t.heap.index = s.heap.index := by rw [expanded.heap]

include expanded in
theorem start : t.heap.startAddress = s.heap.startAddress := by rw [expanded.heap]

include proper in
theorem grownLength_ge : s.heap.endAddress.toNat + (n.toNat + 20) ≤
    s.heap.startAddress.toNat + grownLength s n := by
  have length := length_toNat_of_le proper
  have covered := le_roundedLength (s.length.toNat + (n.toNat + 20))
  unfold grownLength
  omega

include expanded in
theorem pages_grown (pages : PageBounds s.heap) : PageBounds t.heap := by
  have large := length_large pages
  have whole : grownLength s n % 0x1000 = 0 := roundedLength_mod (by omega)
  have proper := pages.proper
  have longer := grownLength_ge (n := n) (Nat.le_of_lt proper)
  have startPage := pages.startPage
  have stop := expanded.stop
  constructor
  · rw [expanded.start]
    exact startPage
  · omega
  · rw [expanded.start]
    omega

include expanded proper in
/-- The new pages reach from the old end to the new one. -/
theorem added : s.heap.endAddress.toNat + (t.length - s.length).toNat = t.heap.endAddress.toNat := by
  have longer := grownLength_ge (n := n) proper
  have stop := expanded.stop
  exact grown_toNat expanded.start proper (by omega)

include expanded proper noWrap in
/-- They are enough for the request. -/
theorem enough : needed n ≤ t.length - s.length := by
  have need := needed_toNat noWrap
  have longer := grownLength_ge (n := n) proper
  have stop := expanded.stop
  have added := expanded.added proper
  rw [BitVec.le_def]
  omega

include expanded in
/-- The heap proper is as it was. -/
theorem layout_old (layout : Layout s.heap s.mem cells) : Layout s.heap t.mem cells :=
  layout.frame (expanded.agree.on (Or.inl (Nat.le_refl _)))

include expanded proper in
/-- So is the index. -/
theorem items_old {listed : List U32} (indexed : Indexed s.heap s.mem listed) :
    items t.heap.index t.mem = items s.heap.index s.mem := by
  have area := indexed.area
  rw [expanded.index]
  exact indexed.items_frame (expanded.agree.on (Or.inl (by omega)))

include expanded proper in
theorem indexed {listed : List U32} (indexed : Indexed s.heap s.mem listed) :
    Indexed t.heap t.mem listed := by
  have area := indexed.area
  have kept := indexed.frame (expanded.agree.on (Or.inl (by omega)))
  rw [expanded.heap]
  exact ⟨kept.order, kept.area, kept.below, kept.few, kept.entries⟩

end Expanded

/-- The hole that is made of the new pages when the index is empty. -/
def newHole (s t : HeapState ε) : Cell :=
  { base := s.heap.endAddress, size := t.length - s.length, used := none }

/-- The hole at the end of the heap with the new pages. -/
def grownHole (s t : HeapState ε) (c : Cell) : Cell :=
  { c with size := c.size + (t.length - s.length) }

theorem grownHole_len {c : Cell} (inside : c.hi ≤ s.heap.endAddress.toNat)
    (added : s.heap.endAddress.toNat + (t.length - s.length).toNat = t.heap.endAddress.toNat) :
    (grownHole s t c).len = c.len + (t.length - s.length).toNat := by
  have small := t.heap.endAddress.isLt
  change (c.size + (t.length - s.length)).toNat = c.size.toNat + (t.length - s.length).toNat
  unfold Cell.hi Cell.len at inside
  rw [BitVec.toNat_add]
  omega

/-- Resizing it writes inside it, up to the new end at most. -/
theorem grownHole_resized {c : Cell} (inside : c.hi ≤ s.heap.endAddress.toNat)
    (added : s.heap.endAddress.toNat + (t.length - s.length).toNat = t.heap.endAddress.toNat)
    (wide : 20 ≤ c.len) :
    (grownHole s t c).hi ≤ t.heap.endAddress.toNat ∧
      AgreeOff c.lo (grownHole s t c).hi t.mem (resizeCell (grownHole s t c) t.mem) ∧
      blockSize (resizeCell (grownHole s t c) t.mem) c.base = (grownHole s t c).size := by
  have small := t.heap.endAddress.isLt
  have len := grownHole_len inside added
  have lo : (grownHole s t c).lo = c.lo := rfl
  have top : (grownHole s t c).hi ≤ t.heap.endAddress.toNat := by
    unfold Cell.hi at inside ⊢
    omega
  have wide' : 20 ≤ (grownHole s t c).len := by omega
  exact ⟨top, resizeCell_agreeOff wide' (by omega), blockSize_resizeCell wide' (by omega)⟩

section Cases

section Ran

variable {pager : Pager ε} (ran : expand pager (s.length + size) s = some t)

include ran in
theorem growHeap_none (found : highestHole t.heap.index t.mem = none) :
    growHeap pager size s =
      { t with mem := writeCell (newHole s t) t.mem }.insertHole s.heap.endAddress := by
  unfold growHeap
  dsimp only
  rw [ran]
  simp only [Option.bind_eq_bind, Option.bind_some, found]
  rfl

include ran in
theorem growHeap_some {c : Cell} (found : highestHole t.heap.index t.mem = some i)
    (header : t.heap.index.item t.mem i = c.base) (length : blockSize t.mem c.base = c.size) :
    growHeap pager size s = some { t with mem := resizeCell (grownHole s t c) t.mem } := by
  unfold growHeap
  dsimp only
  rw [ran]
  simp only [Option.bind_eq_bind, Option.bind_some, found, header, length, blockSize_setBlockSize]
  rfl

end Ran

variable {pager : Pager ε} (expanded : Expanded pager s n t)

/-- What `growHeap` leaves: the cells `front` and a hole `rear` at the end, large enough. -/
structure Grown (s : HeapState ε) (n : U32) (front : List Cell) (rear : Cell) (u : HeapState ε) :
    Prop where
  layout : Layout u.heap u.mem (front ++ [rear])
  indexed : Indexed u.heap u.mem (holes (front ++ [rear]))
  ok : BlockOk u.mem u.heap.endAddress.toNat rear
  hole : rear.used = none
  large : n.toNat + 20 ≤ rear.len
  frame : ∀ d ∈ front, AgreeOn d.lo d.hi s.mem u.mem

/-- The request is served then. -/
theorem Grown.found {front : List Cell} {rear : Cell} {u : HeapState ε}
    (grown : Grown s n front rear u) (noWrap : n.toNat + 20 < 2 ^ 32) :
    ∃ i, findSmallestHole (needed n) 0 u = some i := by
  have listed : rear.base ∈ items u.heap.index u.mem :=
    grown.indexed.entries.symm.subset (mem_holes.mpr ⟨rear, by simp, grown.hole, rfl⟩)
  refine findSmallestHole_isSome listed ?_
  rw [grown.ok.header.size, BitVec.le_def, needed_toNat noWrap]
  exact grown.large

section Layouts

variable (layout : Layout s.heap s.mem cells) (listed : Indexed s.heap s.mem (holes cells))
  (noWrap : n.toNat + 20 < 2 ^ 32)

include expanded layout in
theorem newHole_top : (newHole s t).hi = t.heap.endAddress.toNat :=
  expanded.added layout.tiles.le

include expanded layout noWrap in
theorem newHole_large : n.toNat + 20 ≤ (newHole s t).len := by
  have need := needed_toNat noWrap
  have enough : (needed n).toNat ≤ (newHole s t).len := expanded.enough layout.tiles.le noWrap
  omega

include expanded layout noWrap in
/-- The hole is written to the new pages alone. -/
theorem newHole_written :
    AgreeOff s.heap.endAddress.toNat t.heap.endAddress.toNat t.mem (writeCell (newHole s t) t.mem) ∧
      BlockOk (writeCell (newHole s t) t.mem) t.heap.endAddress.toNat (newHole s t) := by
  have top := newHole_top expanded layout
  have large := newHole_large expanded layout noWrap
  have wide : 20 ≤ (newHole s t).len := by omega
  have small := t.heap.endAddress.isLt
  constructor
  · rw [← top]
    exact writeCell_agreeOff wide (by omega)
  · exact writeCell_block wide (by omega) fun k used => by cases used

include expanded layout noWrap in
/-- The blocks and the hole behind them tile the heap. -/
theorem newHole_laid (empty : holes cells = []) :
    Layout t.heap (writeCell (newHole s t) t.mem) (cells ++ [newHole s t]) := by
  obtain ⟨agree, written⟩ := newHole_written expanded layout noWrap
  have added := expanded.added layout.tiles.le
  have old := expanded.layout_old layout
  refine ⟨?_, fun d member => ?_⟩
  · rw [expanded.start]
    exact tiles_append.mpr ⟨s.heap.endAddress.toNat, old.tiles, rfl, added⟩
  · rcases List.mem_append.mp member with early | last
    · have block := holes_eq_nil_iff.mp empty d early
      have kept := (old.ok d early).frame (Nat.le_of_lt (old.hi_lt early))
        (agree.on (Or.inl (layout.bounds d early).2))
      exact kept.any_stop (Or.inl block)
    · rw [List.mem_singleton.mp last]
      exact written.cellOk

include expanded layout listed noWrap in
/-- Without holes, the new pages become one. -/
theorem growHeap_new (empty : holes cells = []) (found : highestHole t.heap.index t.mem = none) :
    ∃ m size, growHeap pager (needed n) s =
        some { t with mem := m, heap := resize t.heap size } ∧
      Grown s n cells (newHole s t) { t with mem := m, heap := resize t.heap size } := by
  have proper := layout.tiles.le
  have top := newHole_top expanded layout
  have small := t.heap.endAddress.isLt
  have large := newHole_large expanded layout noWrap
  have laid := newHole_laid expanded layout noWrap empty
  obtain ⟨agree, written⟩ := newHole_written expanded layout noWrap
  have behind : t.heap.index.array.toNat + 4 * 0x20000 ≤ s.heap.endAddress.toNat := by
    have area := listed.area
    rw [expanded.index]
    omega
  have index : Indexed t.heap (writeCell (newHole s t) t.mem) [] := by
    have kept := expanded.indexed proper listed
    rw [empty] at kept
    exact kept.frame (agree.on (Or.inl behind))
  have space : t.heap.index.size.toNat < 0x20000 := by
    have length := index.entries.length_eq
    rw [length_items, List.length_nil] at length
    omega
  obtain ⟨m, inserted, index', listing, agree'⟩ := insertHole_spec
    (s := { t with mem := writeCell (newHole s t) t.mem }) index space (newHole s t).base
  have final : Layout t.heap m (cells ++ [newHole s t]) := laid.frame (agree'.on (Or.inr index.area))
  have entry : (holes (cells ++ [newHole s t])).Perm [(newHole s t).base] := by
    rw [holes_append, empty, holes_cons_hole rfl]
    exact List.Perm.refl _
  refine ⟨m, t.heap.index.size + 1, ?_, ⟨final.tiles, final.ok⟩, index'.perm entry.symm, ?_, rfl, large,
    fun d member => ?_⟩
  · rw [growHeap_none expanded.expanded found]
    exact inserted
  · exact written.frame (by omega) (agree'.on (Or.inr behind))
  · obtain ⟨low, high⟩ := layout.bounds d member
    have area := listed.area
    refine (expanded.agree.on (Or.inl high)).trans
      ((agree.on (Or.inl high)).trans (agree'.on (Or.inr ?_)))
    rw [expanded.index]
    omega

end Layouts

section Last

variable {before : List Cell} {c : Cell} (layout : Layout s.heap s.mem (before ++ [c]))
  (hole : c.used = none) (noWrap : n.toNat + 20 < 2 ^ 32)

include expanded layout in
/-- The last hole gets the new pages. -/
theorem grownHole_top : (grownHole s t c).len = c.len + (t.length - s.length).toNat ∧
    (grownHole s t c).hi = t.heap.endAddress.toNat := by
  have ends : c.hi = s.heap.endAddress.toNat := (tiles_middle.mp layout.tiles).2
  have added := expanded.added layout.tiles.le
  have len := grownHole_len (c := c) (Nat.le_of_eq ends) added
  refine ⟨len, ?_⟩
  have lo : (grownHole s t c).lo = c.lo := rfl
  unfold Cell.hi at ends ⊢
  omega

include expanded layout hole in
/-- Nothing in front of it is written to. -/
theorem grownHole_written :
    AgreeOff c.lo t.heap.endAddress.toNat t.mem (resizeCell (grownHole s t c) t.mem) ∧
      BlockOk (resizeCell (grownHole s t c) t.mem) t.heap.endAddress.toNat (grownHole s t c) := by
  obtain ⟨len, top⟩ := grownHole_top expanded layout
  have old := (expanded.layout_old layout).ok c (List.mem_append_right _ List.mem_cons_self)
  have oldWide := old.wide
  have wide : 20 ≤ (grownHole s t c).len := by omega
  have small := t.heap.endAddress.isLt
  have flag : (grownHole s t c).flag = c.flag := rfl
  obtain ⟨-, agree, -⟩ := grownHole_resized (layout.bounds c (List.mem_append_right _
    List.mem_cons_self)).2 (expanded.added layout.tiles.le) oldWide
  constructor
  · rw [← top]
    exact agree
  · refine resizeCell_block old.header.magic (old.header.flag.trans flag.symm) wide (by omega)
      fun k used => ?_
    cases hole.symm.trans used

include expanded layout hole in
theorem grownHole_laid :
    Layout t.heap (resizeCell (grownHole s t c) t.mem) (before ++ [grownHole s t c]) := by
  obtain ⟨agree, resized⟩ := grownHole_written expanded layout hole
  obtain ⟨front, ends⟩ := tiles_middle.mp layout.tiles
  have top := (grownHole_top expanded layout).2
  have old := expanded.layout_old layout
  have wide := (old.ok c (List.mem_append_right _ List.mem_cons_self)).wide
  have oldTop : c.lo + c.len = s.heap.endAddress.toNat := ends
  have small := s.heap.endAddress.isLt
  refine ⟨?_, fun x present => ?_⟩
  · rw [expanded.start]
    refine tiles_middle.mpr ⟨front, ?_⟩
    exact top
  · rcases List.mem_append.mp present with early | last
    · have below : x.hi ≤ c.lo := (front.bounds x early).2
      have kept : CellOk t.mem t.heap.endAddress.toNat x :=
        (old.ok x (List.mem_append_left _ early)).any_stop (Or.inr (by omega))
      exact kept.frame (by omega) (agree.on (Or.inl below))
    · rw [List.mem_singleton.mp last]
      exact resized.cellOk

include expanded layout hole noWrap in
/-- The new pages go to the highest hole when it ends the heap. -/
theorem growHeap_last (listed : Indexed s.heap s.mem (holes (before ++ [c])))
    (found : highestHole t.heap.index t.mem = some i)
    (header : t.heap.index.item t.mem i = c.base) :
    growHeap pager (needed n) s = some { t with mem := resizeCell (grownHole s t c) t.mem } ∧
      Grown s n before (grownHole s t c) { t with mem := resizeCell (grownHole s t c) t.mem } := by
  have proper := layout.tiles.le
  have need := needed_toNat noWrap
  have enough : (needed n).toNat ≤ (t.length - s.length).toNat := expanded.enough proper noWrap
  have member : c ∈ before ++ [c] := List.mem_append_right _ List.mem_cons_self
  have low : s.heap.startAddress.toNat ≤ c.lo := (layout.bounds c member).1
  have size := ((expanded.layout_old layout).ok c member).header.size
  obtain ⟨front, ends⟩ := tiles_middle.mp layout.tiles
  obtain ⟨len, -⟩ := grownHole_top expanded layout
  obtain ⟨agree, resized⟩ := grownHole_written expanded layout hole
  have index : Indexed t.heap (resizeCell (grownHole s t c) t.mem)
      (holes (before ++ [grownHole s t c])) := by
    have area := listed.area
    have kept := expanded.indexed proper listed
    have same : holes (before ++ [c]) = holes (before ++ [grownHole s t c]) := by
      rw [holes_append, holes_append, holes_cons_hole hole, holes_cons_hole (by exact hole)]
      rfl
    rw [same] at kept
    refine kept.frame (agree.on (Or.inl ?_))
    rw [expanded.index]
    omega
  refine ⟨growHeap_some expanded.expanded found header size, grownHole_laid expanded layout hole,
    index, resized, hole, by omega, fun x early => ?_⟩
  have below : x.hi ≤ c.lo := (front.bounds x early).2
  have oldTop : c.lo + c.len = s.heap.endAddress.toNat := ends
  exact (expanded.agree.on (Or.inl (by omega))).trans (agree.on (Or.inl below))

end Last

end Cases

/-- No entry of the index is at a higher address. -/
def Highest (index : OrderedArray) (m : Mem) (h : U32) : Prop := ∀ x ∈ items index m, x ≤ h

/-- The hole at the highest address, if there is a hole, ends the heap. -/
def LastHoleAtEnd (s : HeapState ε) : Prop :=
  ∀ h ∈ items s.heap.index s.mem, Highest s.heap.index s.mem h →
    h.toNat + (blockSize s.mem h).toNat = s.heap.endAddress.toNat

instance (index : OrderedArray) (m : Mem) (h : U32) : Decidable (Highest index m h) :=
  List.decidableBAll (fun x => x ≤ h) (items index m)

instance (s : HeapState ε) : Decidable (LastHoleAtEnd s) :=
  List.decidableBAll (fun h => Highest s.heap.index s.mem h →
    h.toNat + (blockSize s.mem h).toNat = s.heap.endAddress.toNat) (items s.heap.index s.mem)

/-- The cells in front of the new hole, and what it was. -/
inductive RearOf (s t : HeapState ε) (cells : List Cell) : List Cell → Cell → Prop where
  | new : (∀ c ∈ cells, c.used ≠ none) → RearOf s t cells cells (newHole s t)
  | last (front : List Cell) (c : Cell) : cells = front ++ [c] → c.used = none →
      RearOf s t cells front (grownHole s t c)

/-- The growth succeeds and leaves a hole for the request. -/
theorem growHeap_layout (pager : Pager ε) (layout : Layout s.heap s.mem cells)
    (indexed : Indexed s.heap s.mem (holes cells)) (mapped : EndMapped pager s)
    (noWrap : n.toNat + 20 < 2 ^ 32)
    (space : s.heap.startAddress.toNat + grownLength s n < 2 ^ 32) (last : LastHoleAtEnd s) :
    ∃ t u front rear, Expanded pager s n t ∧ growHeap pager (needed n) s = some u ∧
      RearOf s t cells front rear ∧ Grown s n front rear u ∧ u.paging = t.paging ∧
      ∃ size, u.heap = resize t.heap size := by
  have proper := layout.tiles.le
  obtain ⟨t, expanded⟩ := expanded_spec pager proper mapped noWrap space
  have area := indexed.area
  have old := expanded.layout_old layout
  have listed : Indexed s.heap t.mem (holes cells) :=
    indexed.frame (expanded.agree.on (Or.inl (by omega)))
  have same := expanded.items_old proper indexed
  rcases highestHole_cases old listed with ⟨found, empty⟩ | ⟨i, c, found, header, member, hole, most⟩
  · rw [← expanded.index] at found
    obtain ⟨m, size, ran, grown⟩ := growHeap_new expanded layout indexed noWrap empty found
    exact ⟨t, _, _, _, expanded, ran, .new (holes_eq_nil_iff.mp empty), grown, rfl, size, rfl⟩
  · rw [← expanded.index] at found header most
    rw [same] at most
    have entry : c.base ∈ items s.heap.index s.mem :=
      indexed.entries.symm.subset (mem_holes.mpr ⟨c, member, hole, rfl⟩)
    have ends := last _ entry most
    rw [(layout.ok c member).header.size] at ends
    obtain ⟨before, after, rfl⟩ := List.append_of_mem member
    obtain ⟨-, behind⟩ := tiles_middle.mp layout.tiles
    have nothing : after = [] := by
      refine behind.eq_nil_of_end (fun x present => ?_) ends
      have wide := (layout.ok x (List.mem_append_right _ (List.mem_cons_of_mem _ present))).wide
      omega
    subst nothing
    obtain ⟨ran, grown⟩ := growHeap_last expanded layout hole noWrap indexed found header
    exact ⟨t, _, before, _, expanded, ran, .last before c rfl hole, grown, rfl, t.heap.index.size, rfl⟩

/-- The blocks are the same ones. -/
theorem RearOf.payloads {front : List Cell} {rear : Cell} (side : RearOf s t cells front rear) :
    payloads (front ++ [rear]) = payloads cells := by
  cases side with
  | new blocks =>
    rw [payloads_append, payloads_cons_hole rfl]
    exact List.append_nil _
  | last front c row hole =>
    rw [row, payloads_append, payloads_append, payloads_cons_hole hole,
      payloads_cons_hole (by exact hole)]

theorem RearOf.coalesced {front : List Cell} {rear : Cell} (side : RearOf s t cells front rear)
    (chain : Coalesced cells) : Coalesced (front ++ [rear]) := by
  cases side with
  | new blocks =>
    exact coalesced_middle.mpr ⟨chain, List.IsChain.nil,
      fun d member => Or.inl (blocks d (List.mem_of_getLast? member)), fun d member => by cases member⟩
  | last front c row hole =>
    rw [row] at chain
    obtain ⟨first, last, left, right⟩ := coalesced_middle.mp chain
    exact coalesced_middle.mpr ⟨first, last, left, right⟩

/-- A sound heap stays sound. -/
theorem growHeap_spec (pager : Pager ε) (inv : HeapInv s.heap s.mem cells)
    (noWrap : n.toNat + 20 < 2 ^ 32)
    (space : s.heap.startAddress.toNat + grownLength s n < 2 ^ 32) (last : LastHoleAtEnd s) :
    ∃ t u cells', Expanded pager s n t ∧ growHeap pager (needed n) s = some u ∧
      HeapInv u.heap u.mem cells' ∧ payloads cells' = payloads cells ∧ u.paging = t.paging ∧
      (∃ size, u.heap = resize t.heap size) ∧
      ∃ i, findSmallestHole (needed n) 0 u = some i := by
  obtain ⟨t, u, front, rear, expanded, ran, side, grown, paging, size, heap⟩ :=
    growHeap_layout pager inv.layout inv.indexed (Or.inl inv.pages.endPage) noWrap space last
  have pages : PageBounds u.heap := by
    rw [heap]
    exact resize_pages (expanded.pages_grown inv.pages) size
  exact ⟨t, u, front ++ [rear], expanded, ran,
    ⟨grown.layout, grown.indexed, side.coalesced inv.coalesced, pages⟩, side.payloads, paging,
    ⟨size, heap⟩, grown.found noWrap⟩

/-! ## The whole of `alloc` -/

theorem payloads_carved (c : Cell) (n : U32) :
    payloads (carved c n) = [(c.base + headerBytes, n)] := by
  unfold carved
  split
  · exact payloads_cons_block rfl
  · rw [payloads_cons_block rfl, payloads_cons_hole rfl]
    rfl

/-- A hole that is found is one of the cells, and large enough. -/
theorem fitting_of_found (layout : Layout s.heap s.mem cells)
    (indexed : Indexed s.heap s.mem (holes cells)) (noWrap : n.toNat + 20 < 2 ^ 32)
    (found : findSmallestHole (needed n) 0 s = some i) :
    ∃ before c after, cells = before ++ c :: after ∧ Fitting s before c after n i := by
  obtain ⟨inside, large, -⟩ := findSmallestHole_some found
  have entry : s.heap.index.item s.mem i ∈ items s.heap.index s.mem := mem_items.mpr ⟨i, inside, rfl⟩
  obtain ⟨c, member, hole, base, size⟩ := layout.blockSize_hole (indexed.entries.subset entry)
  obtain ⟨before, after, rfl⟩ := List.append_of_mem member
  refine ⟨before, c, after, rfl, layout, indexed, hole, inside, base.symm, noWrap, ?_⟩
  rw [size, BitVec.le_def, needed_toNat noWrap] at large
  exact large

/-- A hole that is found becomes a block for the request. -/
theorem carve_found (inv : HeapInv s.heap s.mem cells) (noWrap : n.toNat + 20 < 2 ^ 32)
    (found : findSmallestHole (needed n) 0 s = some i) :
    ∃ p m size cells', carve n 0 i s =
        some (p, { s with mem := m, heap := resize s.heap size }) ∧
      HeapInv (resize s.heap size) m cells' ∧
      (payloads cells').Perm ((p, n) :: payloads cells) ∧
      (SortedBySize s.heap s.mem → SortedBySize (resize s.heap size) m) := by
  obtain ⟨before, c, after, rfl, fitting⟩ := fitting_of_found inv.layout inv.indexed noWrap found
  have chosen : Chosen s before c after n i :=
    ⟨inv, fitting.hole, fitting.inside, fitting.found, noWrap, fitting.large⟩
  obtain ⟨m, count, carved', inv', sorted⟩ := chosen.carve_spec
  refine ⟨_, m, count, _, carved', inv', ?_, sorted⟩
  rw [payloads_append, payloads_append, payloads_append, payloads_carved c n,
    payloads_cons_hole fitting.hole]
  exact List.perm_middle

theorem alloc_of_found (pager : Pager ε) (found : findSmallestHole (needed n) 0 s = some i) :
    alloc pager n 0 s = carve n 0 i s := by
  obtain ⟨depth, bound⟩ : ∃ depth, recursionBound = depth + 1 := ⟨2 ^ 32 - 1, rfl⟩
  unfold needed at found
  rw [alloc, bound, allocFrom, found]

/-- `alloc` does not return without calling itself. -/
theorem allocFrom_one {pager : Pager ε} (misses : findSmallestHole (needed n) 0 s = none) :
    allocFrom pager n 0 1 s = none := by
  unfold needed at misses
  rw [allocFrom, misses]
  dsimp only
  cases growHeap pager (n + headerBytes + footerBytes) s <;> rfl

/-- It returns from the first call of itself. -/
theorem allocFrom_of_grown {pager : Pager ε} {u : HeapState ε}
    (misses : findSmallestHole (needed n) 0 s = none) (grown : growHeap pager (needed n) s = some u)
    (found : findSmallestHole (needed n) 0 u = some i) (depth : Nat) :
    allocFrom pager n 0 (depth + 2) s = carve n 0 i u := by
  unfold needed at misses grown found
  rw [allocFrom, misses]
  dsimp only
  rw [grown]
  change allocFrom pager n 0 (depth + 1) u = _
  rw [allocFrom, found]

theorem alloc_of_grown {pager : Pager ε} {u : HeapState ε}
    (misses : findSmallestHole (needed n) 0 s = none) (grown : growHeap pager (needed n) s = some u)
    (found : findSmallestHole (needed n) 0 u = some i) : alloc pager n 0 s = carve n 0 i u := by
  obtain ⟨depth, bound⟩ : ∃ depth, recursionBound = depth + 2 := ⟨2 ^ 32 - 2, rfl⟩
  rw [alloc, bound]
  exact allocFrom_of_grown misses grown found depth

/-- A request that a hole can serve leaves the bounds of the heap and the paging alone. -/
theorem alloc_served (pager : Pager ε) (inv : HeapInv s.heap s.mem cells)
    (noWrap : n.toNat + 20 < 2 ^ 32) (found : findSmallestHole (needed n) 0 s = some i) :
    ∃ p m size cells', alloc pager n 0 s =
        some (p, { s with mem := m, heap := resize s.heap size }) ∧
      HeapInv (resize s.heap size) m cells' ∧
      (payloads cells').Perm ((p, n) :: payloads cells) ∧
      (SortedBySize s.heap s.mem → SortedBySize (resize s.heap size) m) := by
  rw [alloc_of_found pager found]
  exact carve_found inv noWrap found

/-- A request that no hole can serve moves the end of the heap and maps what `expand` maps. -/
theorem alloc_grown (pager : Pager ε) (inv : HeapInv s.heap s.mem cells)
    (noWrap : n.toNat + 20 < 2 ^ 32) (misses : findSmallestHole (needed n) 0 s = none)
    (space : s.heap.startAddress.toNat + grownLength s n < 2 ^ 32) (last : LastHoleAtEnd s) :
    ∃ p t u cells', Expanded pager s n t ∧ alloc pager n 0 s = some (p, u) ∧
      HeapInv u.heap u.mem cells' ∧ (payloads cells').Perm ((p, n) :: payloads cells) ∧
      u.paging = t.paging ∧ ∃ size, u.heap = resize t.heap size := by
  obtain ⟨t, u, grown, expanded, ran, inv', same, paging, ⟨size, heap⟩, i, found⟩ :=
    growHeap_spec pager inv noWrap space last
  obtain ⟨p, m, size', cells', carved', inv'', perm, -⟩ := carve_found inv' noWrap found
  rw [same] at perm
  refine ⟨p, t, _, cells', expanded, (alloc_of_grown misses ran found).trans carved', inv'', perm,
    paging, size', ?_⟩
  rw [heap]
  rfl

end BlessOS.Guarantees.HeapGrow
