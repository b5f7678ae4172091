import Mathlib.Data.List.Chain
import Mathlib.Data.List.Perm.Basic
import BlessOS.Guarantees.HeapBounds
import BlessOS.Guarantees.HeapLayout
import BlessOS.Lib.SortedInsert

/-!
# The invariant of the heap

`HeapInv` puts together what every state of a sound run satisfies: the cells tile
the heap, the index lists exactly the holes, no two holes are adjacent, and the
heap consists of whole pages. The lemmas say how writes and index operations
carry its parts along.
-/

set_option autoImplicit false

namespace BlessOS.Guarantees.HeapInvariant
open BlessOS.Lib.ByteMemory BlessOS.Lib.SortedInsert BlessOS.Lib.Tiling
open BlessOS.Source BlessOS.Source.OrderedArray BlessOS.Source.Kheap
open BlessOS.Guarantees.OrderedArrayItems BlessOS.Guarantees.HeapBounds
open BlessOS.Guarantees.HeapLayout

/-- The memory of the heap is laid out as these cells. -/
structure Layout (heap : Heap) (m : Mem) (cells : List Cell) : Prop where
  tiles : Tiles Cell.lo Cell.len heap.startAddress.toNat heap.endAddress.toNat cells
  ok : ∀ c ∈ cells, CellOk m heap.endAddress.toNat c

/-- The index lists these headers, in some order, below the heap. -/
structure Indexed (heap : Heap) (m : Mem) (listed : List U32) : Prop where
  order : heap.index.lessThan = some headerLessThan
  area : heap.index.array.toNat + 4 * 0x20000 ≤ heap.startAddress.toNat
  below : heap.startAddress.toNat + 4 ≤ 2 ^ 32
  few : heap.index.size.toNat ≤ 0x20000
  entries : (items heap.index m).Perm listed

/-- No two holes are neighbours. -/
def Coalesced (cells : List Cell) : Prop :=
  cells.IsChain fun a b => a.used ≠ none ∨ b.used ≠ none

structure HeapInv (heap : Heap) (m : Mem) (cells : List Cell) : Prop where
  layout : Layout heap m cells
  indexed : Indexed heap m (holes cells)
  coalesced : Coalesced cells
  pages : PageBounds heap

variable {heap : Heap} {m m' : Mem} {cells before after : List Cell} {c : Cell}

/-! ## Holes and payloads of a row of cells -/

@[simp] theorem holes_append : holes (before ++ after) = holes before ++ holes after :=
  List.filterMap_append

@[simp] theorem payloads_append : payloads (before ++ after) = payloads before ++ payloads after :=
  List.filterMap_append

theorem holes_cons_hole (hole : c.used = none) : holes (c :: after) = c.base :: holes after := by
  simp only [holes, List.filterMap_cons, Cell.holeBase, hole, if_true]

theorem holes_cons_block (block : c.used ≠ none) : holes (c :: after) = holes after := by
  simp only [holes, List.filterMap_cons, Cell.holeBase, block, if_false]

theorem length_holes (all : ∀ d ∈ cells, d.used = none) : (holes cells).length = cells.length := by
  induction cells with
  | nil => rfl
  | cons c rest ih =>
    rw [holes_cons_hole (all c List.mem_cons_self), List.length_cons, List.length_cons,
      ih fun d member => all d (List.mem_cons_of_mem c member)]

theorem payloads_cons_hole (hole : c.used = none) : payloads (c :: after) = payloads after := by
  simp only [payloads, List.filterMap_cons, Cell.payload, hole, Option.map_none]

theorem payloads_cons_block {n : U32} (block : c.used = some n) :
    payloads (c :: after) = (c.base + headerBytes, n) :: payloads after := by
  simp only [payloads, List.filterMap_cons, Cell.payload, block, Option.map_some]

theorem mem_holes {h : U32} : h ∈ holes cells ↔ ∃ c ∈ cells, c.used = none ∧ c.base = h := by
  simp only [holes, List.mem_filterMap, Cell.holeBase]
  constructor
  · rintro ⟨c, member, found⟩
    split at found
    · next hole => exact ⟨c, member, hole, Option.some.inj found⟩
    · cases found
  · rintro ⟨c, member, hole, rfl⟩
    exact ⟨c, member, if_pos hole⟩

theorem holes_eq_nil_iff : holes cells = [] ↔ ∀ c ∈ cells, c.used ≠ none := by
  rw [List.eq_nil_iff_forall_not_mem]
  constructor
  · exact fun empty c member hole => empty c.base (mem_holes.mpr ⟨c, member, hole, rfl⟩)
  · intro blocks h listed
    obtain ⟨c, member, hole, -⟩ := mem_holes.mp listed
    exact blocks c member hole

/-! ## Neighbours -/

theorem coalesced_middle : Coalesced (before ++ c :: after) ↔
    Coalesced before ∧ Coalesced after ∧
      (∀ x ∈ before.getLast?, x.used ≠ none ∨ c.used ≠ none) ∧
      (∀ y ∈ after.head?, c.used ≠ none ∨ y.used ≠ none) := by
  unfold Coalesced
  rw [List.isChain_append, List.isChain_cons]
  simp only [List.head?_cons, Option.mem_some_iff, forall_eq']
  tauto

/-- A block may stand anywhere. -/
theorem Coalesced.block {d : Cell} (chain : Coalesced (before ++ c :: after))
    (block : d.used ≠ none) : Coalesced (before ++ d :: after) := by
  obtain ⟨first, last, -, -⟩ := coalesced_middle.mp chain
  exact coalesced_middle.mpr ⟨first, last, fun _ _ => Or.inr block, fun _ _ => Or.inl block⟩

/-- A block and a hole may stand where there was a hole. -/
theorem Coalesced.split {d e : Cell} (chain : Coalesced (before ++ c :: after))
    (hole : c.used = none) (block : d.used ≠ none) : Coalesced (before ++ d :: e :: after) := by
  obtain ⟨first, last, -, right⟩ := coalesced_middle.mp chain
  refine coalesced_middle.mpr ⟨first, ?_, fun _ _ => Or.inr block, fun _ _ => Or.inl block⟩
  refine List.isChain_cons.mpr ⟨fun y member => Or.inr ?_, last⟩
  exact (right y member).resolve_left fun block => block hole

/-! ## Layouts -/

theorem Layout.bounds (layout : Layout heap m cells) :
    ∀ c ∈ cells, heap.startAddress.toNat ≤ c.lo ∧ c.hi ≤ heap.endAddress.toNat :=
  layout.tiles.bounds

theorem Layout.hi_lt (layout : Layout heap m cells) (member : c ∈ cells) : c.hi < 2 ^ 32 :=
  Nat.lt_of_le_of_lt (layout.bounds c member).2 heap.endAddress.isLt

/-- Other cells lie in front of a cell or behind it. -/
theorem Layout.apart {d : Cell} (layout : Layout heap m cells) (member : c ∈ cells)
    (other : d ∈ cells) (distinct : d ≠ c) : d.hi ≤ c.lo ∨ c.hi ≤ d.lo := by
  obtain ⟨before, after, rfl⟩ := List.append_of_mem member
  refine layout.tiles.apart ?_
  simp only [List.mem_append, List.mem_cons] at other ⊢
  tauto

/-- A layout only depends on the bytes of the heap. -/
theorem Layout.frame (layout : Layout heap m cells)
    (agree : AgreeOn heap.startAddress.toNat heap.endAddress.toNat m m') : Layout heap m' cells where
  tiles := layout.tiles
  ok c member := by
    have bounds := layout.bounds c member
    exact (layout.ok c member).frame (Nat.le_of_lt (layout.hi_lt member))
      (agree.mono bounds.1 bounds.2)

theorem Layout.bases_ne (layout : Layout heap m cells) :
    cells.Pairwise fun a b => a.base ≠ b.base := by
  refine layout.tiles.pairwise.imp_of_mem fun {a b} ha hb order same => ?_
  have wide := (layout.ok a ha).wide
  have lo : a.lo = b.lo := congrArg BitVec.toNat same
  omega

/-- No header is listed twice. -/
theorem Layout.holes_nodup (layout : Layout heap m cells) : (holes cells).Nodup := by
  refine List.Pairwise.filterMap Cell.holeBase ?_ layout.bases_ne
  intro a b order x hx y hy same
  unfold Cell.holeBase at hx hy
  split at hx <;> split at hy <;> simp_all

/-- The header of a listed hole holds its cell's size. -/
theorem Layout.blockSize_hole (layout : Layout heap m cells) {h : U32} (listed : h ∈ holes cells) :
    ∃ c ∈ cells, c.used = none ∧ c.base = h ∧ blockSize m h = c.size := by
  obtain ⟨c, member, hole, rfl⟩ := mem_holes.mp listed
  exact ⟨c, member, hole, rfl, (layout.ok c member).header.size⟩

/-- Cells in two layouts have the same size in both. -/
theorem Layout.sizes_eq {heap' : Heap} {cells' common : List Cell} (layout : Layout heap m cells)
    (layout' : Layout heap' m' cells') (left : ∀ c ∈ common, c ∈ cells)
    (right : ∀ c ∈ common, c ∈ cells') : ∀ x ∈ holes common, blockSize m' x = blockSize m x := by
  intro x listed
  obtain ⟨c, member, hole, rfl⟩ := mem_holes.mp listed
  exact (layout'.ok c (right c member)).header.size.trans
    (layout.ok c (left c member)).header.size.symm

/-- Headers of the heap lie in it. -/
theorem Layout.header_bounds (layout : Layout heap m cells) {h : U32} (listed : h ∈ holes cells) :
    heap.startAddress.toNat ≤ h.toNat ∧ h.toNat + 12 ≤ 2 ^ 32 := by
  obtain ⟨c, member, hole, rfl⟩ := mem_holes.mp listed
  have bounds := layout.bounds c member
  have wide := (layout.ok c member).wide
  have small := layout.hi_lt member
  unfold Cell.hi Cell.lo at *
  omega

/-- Replacing a stretch of cells by other cells over the same addresses, when nothing
else in the heap is written. -/
theorem Layout.replace {old new : List Cell} {p q : Nat}
    (layout : Layout heap m (before ++ old ++ after)) (nonempty : old ≠ [])
    (range : Tiles Cell.lo Cell.len p q old) (fresh : Tiles Cell.lo Cell.len p q new)
    (agree : AgreeOff p q m m') (ok : ∀ c ∈ new, CellOk m' heap.endAddress.toNat c) :
    Layout heap m' (before ++ new ++ after) := by
  obtain ⟨first, last⟩ := layout.tiles.around nonempty range
  refine ⟨tiles_append.mpr ⟨q, tiles_append.mpr ⟨p, first, fresh⟩, last⟩, fun c member => ?_⟩
  have kept : ∀ c ∈ before ++ old ++ after, (c.hi ≤ p ∨ q ≤ c.lo) →
      CellOk m' heap.endAddress.toNat c := fun c member apart =>
    (layout.ok c member).frame (Nat.le_of_lt (layout.hi_lt member)) (agree.on (by omega))
  simp only [List.mem_append] at member kept
  rcases member with (early | here) | late
  · exact kept c (Or.inl (Or.inl early)) (Or.inl (first.bounds c early).2)
  · exact ok c here
  · exact kept c (Or.inr late) (Or.inr (last.bounds c late).1)

/-! ## The index -/

section Index

variable {listed : List U32}

/-- The entries themselves, unchanged. -/
theorem Indexed.items_frame (indexed : Indexed heap m listed)
    (agree : AgreeOn heap.index.array.toNat (heap.index.array.toNat + 4 * 0x20000) m m') :
    items heap.index m' = items heap.index m := by
  obtain ⟨order, area, below, few, entries⟩ := indexed
  apply items_congr
  · unfold Fits
    omega
  · exact agree.mono (Nat.le_refl _) (by omega)

/-- The index only depends on the bytes of its own area. -/
theorem Indexed.frame (indexed : Indexed heap m listed)
    (agree : AgreeOn heap.index.array.toNat (heap.index.array.toNat + 4 * 0x20000) m m') :
    Indexed heap m' listed := by
  refine ⟨indexed.order, indexed.area, indexed.below, indexed.few, ?_⟩
  rw [indexed.items_frame agree]
  exact indexed.entries

theorem Indexed.fits (indexed : Indexed heap m listed) :
    Fits heap.index.array (heap.index.size.toNat + 1) := by
  obtain ⟨order, area, below, few, entries⟩ := indexed
  unfold Fits
  omega

theorem Indexed.room (indexed : Indexed heap m listed) : Room heap.index := by
  have few := indexed.few
  exact ⟨indexed.fits, by omega⟩

end Index

/-- The heap with another number of entries in its index. -/
def resize (heap : Heap) (size : U32) : Heap :=
  { heap with index := { heap.index with size := size } }

theorem resize_pages (pages : PageBounds heap) (size : U32) :
    PageBounds (resize heap size) :=
  ⟨pages.startPage, pages.endPage, pages.proper⟩

theorem Indexed.perm {listed listed' : List U32} (indexed : Indexed heap m listed)
    (perm : listed.Perm listed') : Indexed heap m listed' :=
  { indexed with entries := indexed.entries.trans perm }

variable {ε : Type} {s : HeapState ε} {listed : List U32}

/-- `insert_ordered_array` on the index, whatever its entries are. -/
theorem insertHole_total (order : s.heap.index.lessThan = some headerLessThan)
    (room : Room s.heap.index) (h : U32) :
    ∃ m, s.insertHole h =
        some { s with mem := m, heap := resize s.heap (s.heap.index.size + 1) } ∧
      items (resize s.heap (s.heap.index.size + 1)).index m =
        (items s.heap.index s.mem).insertIdx (insertPosition headerLessThan h s.heap.index s.mem) h ∧
      AgreeOff s.heap.index.array.toNat
        (s.heap.index.array.toNat + 4 * (s.heap.index.size.toNat + 1)) s.mem m := by
  obtain ⟨m, inserted, listing, agree⟩ := insertOrderedArray_spec (m := s.mem) h order room
  refine ⟨m, ?_, listing, agree⟩
  unfold HeapState.insertHole
  rw [inserted]
  rfl

/-- One more header, even on a full index; nothing is written outside of the slots that
are in use then. -/
theorem insertHole_grows (indexed : Indexed s.heap s.mem listed) (h : U32) :
    ∃ m, s.insertHole h =
        some { s with mem := m, heap := resize s.heap (s.heap.index.size + 1) } ∧
      (items (resize s.heap (s.heap.index.size + 1)).index m).Perm (h :: listed) ∧
      items (resize s.heap (s.heap.index.size + 1)).index m =
        (items s.heap.index s.mem).insertIdx (insertPosition headerLessThan h s.heap.index s.mem) h ∧
      AgreeOff s.heap.index.array.toNat
        (s.heap.index.array.toNat + 4 * (s.heap.index.size.toNat + 1)) s.mem m := by
  obtain ⟨m, inserted, listing, agree⟩ := insertHole_total indexed.order indexed.room h
  have position := insertPosition_le (m := s.mem) (a := s.heap.index) headerLessThan h
  refine ⟨m, inserted, ?_, listing, agree⟩
  refine (List.Perm.of_eq listing).trans ?_
  refine (List.perm_insertIdx _ _ ?_).trans (indexed.entries.cons h)
  rw [length_items]
  exact position

/-- `insert_ordered_array` on an index with room: nothing written outside of the index. -/
theorem insertHole_spec (indexed : Indexed s.heap s.mem listed)
    (space : s.heap.index.size.toNat < 0x20000) (h : U32) :
    ∃ m, s.insertHole h =
        some { s with mem := m, heap := resize s.heap (s.heap.index.size + 1) } ∧
      Indexed (resize s.heap (s.heap.index.size + 1)) m (h :: listed) ∧
      items (resize s.heap (s.heap.index.size + 1)).index m =
        (items s.heap.index s.mem).insertIdx (insertPosition headerLessThan h s.heap.index s.mem) h ∧
      AgreeOff s.heap.index.array.toNat (s.heap.index.array.toNat + 4 * 0x20000) s.mem m := by
  obtain ⟨m, inserted, perm, listing, agree⟩ := insertHole_grows indexed h
  refine ⟨m, inserted, ⟨indexed.order, indexed.area, indexed.below, ?_, perm⟩, listing,
    agree.mono (Nat.le_refl _) (by omega)⟩
  change (s.heap.index.size + 1).toNat ≤ 0x20000
  bv_omega

/-- `remove_ordered_array` on the index: one header less. -/
theorem removeHole_spec {h : U32} {i : Nat} (indexed : Indexed s.heap s.mem (h :: listed))
    (inside : i < s.heap.index.size.toNat) (found : s.heap.index.item s.mem i = h) :
    ∃ m, s.removeHole i =
        { s with mem := m, heap := resize s.heap (s.heap.index.size - 1) } ∧
      Indexed (resize s.heap (s.heap.index.size - 1)) m listed ∧
      items (resize s.heap (s.heap.index.size - 1)).index m =
        (items s.heap.index s.mem).eraseIdx i ∧
      AgreeOff s.heap.index.array.toNat (s.heap.index.array.toNat + 4 * 0x20000) s.mem m := by
  obtain ⟨listing, agree⟩ := removeOrderedArray_spec (m := s.mem) inside
    (indexed.fits.mono (Nat.le_succ _))
  have few := indexed.few
  refine ⟨_, rfl, ⟨indexed.order, indexed.area, indexed.below, ?_, ?_⟩, listing, ?_⟩
  · change (s.heap.index.size - 1).toNat ≤ 0x20000
    bv_omega
  · refine (List.Perm.of_eq listing).trans ?_
    have bound : i < (items s.heap.index s.mem).length := by rwa [length_items]
    have erased := List.getElem_cons_eraseIdx_perm bound
    rw [getElem_items, found] at erased
    exact (erased.trans indexed.entries).cons_inv
  · exact agree.mono (Nat.le_refl _) (by omega)

/-! ## The order of the index -/

/-- The index is in non-decreasing order of the sizes in the headers. -/
def SortedBySize (heap : Heap) (m : Mem) : Prop :=
  (items heap.index m).Pairwise fun a b => blockSize m a ≤ blockSize m b

/-- Sorted entries stay sorted when some are dropped and the sizes of the others kept. -/
theorem SortedBySize.sublist {heap' : Heap} (sorted : SortedBySize heap m)
    (sub : (items heap'.index m').Sublist (items heap.index m))
    (sizes : ∀ x ∈ items heap'.index m', blockSize m' x = blockSize m x) :
    SortedBySize heap' m' := by
  refine (List.Pairwise.sublist sub sorted).imp_of_mem fun {a b} ha hb order => ?_
  rw [sizes a ha, sizes b hb]
  exact order

/-- An insertion by size into a sorted index. -/
theorem SortedBySize.insert {h : U32} (sorted : SortedBySize heap m)
    (area : heap.index.array.toNat + 4 * 0x20000 ≤ heap.startAddress.toNat)
    (headers : ∀ x ∈ h :: items heap.index m,
      heap.startAddress.toNat ≤ x.toNat ∧ x.toNat + 12 ≤ 2 ^ 32)
    (listing : items (resize heap (heap.index.size + 1)).index m' =
      (items heap.index m).insertIdx (insertPosition headerLessThan h heap.index m) h)
    (agree : AgreeOff heap.index.array.toNat (heap.index.array.toNat + 4 * 0x20000) m m') :
    SortedBySize (resize heap (heap.index.size + 1)) m' := by
  have sizes : ∀ x ∈ h :: items heap.index m, blockSize m' x = blockSize m x := by
    intro x member
    obtain ⟨low, high⟩ := headers x member
    exact blockSize_congr (agree.on (Or.inr (by omega))) high
  have position := insertPosition_le (m := m) (a := heap.index) headerLessThan h
  obtain ⟨before, stops⟩ := insertPosition_spec (m := m) (a := heap.index) headerLessThan h
  have inserted : ((items heap.index m).insertIdx (insertPosition headerLessThan h heap.index m)
      h).Pairwise fun a b => blockSize m a ≤ blockSize m b := by
    refine pairwise_insertIdx_of_first (fun _ _ _ => BitVec.le_trans) sorted
      (by rw [length_items]; exact position) (fun j inside early => ?_) fun inside => ?_
    · exact BitVec.le_of_lt (of_decide_eq_true (before j inside early))
    · exact BitVec.not_lt.mp (of_decide_eq_false (stops inside))
  unfold SortedBySize
  rw [listing]
  refine inserted.imp_of_mem fun {a b} ha hb order => ?_
  have listed : ∀ x ∈ (items heap.index m).insertIdx
      (insertPosition headerLessThan h heap.index m) h, x ∈ h :: items heap.index m := by
    intro x member
    exact (List.perm_insertIdx _ _ (by rw [length_items]; exact position)).subset member
  rw [sizes a (listed a ha), sizes b (listed b hb)]
  exact order

end BlessOS.Guarantees.HeapInvariant
