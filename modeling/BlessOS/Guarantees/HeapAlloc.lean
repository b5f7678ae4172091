import BlessOS.Guarantees.HeapInvariant

/-!
# Allocation

`carve` turns a hole into a block, followed by a hole of what is left when a
header and a footer fit into it. When no hole is large enough the heap grows at
its end; `alloc` enlarges the highest hole of the index then, which is sound if
that hole ends the heap or if there is none.
-/

set_option autoImplicit false

namespace BlessOS.Guarantees.HeapAlloc
open BlessOS.Lib.ByteMemory BlessOS.Lib.Tiling
open BlessOS.Source BlessOS.Source.OrderedArray BlessOS.Source.Kheap
open BlessOS.Guarantees.OrderedArrayItems BlessOS.Guarantees.HeapLayout
open BlessOS.Guarantees.HeapInvariant BlessOS.Guarantees.HeapBounds

variable {ε : Type} {s : HeapState ε} {before after : List Cell} {c : Cell} {n : U32} {i : Nat}

/-- The bytes a request takes with header and footer. -/
def needed (n : U32) : U32 := n + headerBytes + footerBytes

theorem needed_toNat (noWrap : n.toNat + 20 < 2 ^ 32) : (needed n).toNat = n.toNat + 20 := by
  unfold needed headerBytes footerBytes
  bv_omega

/-- The block that takes part of a hole. -/
def frontBlock (c : Cell) (n : U32) : Cell :=
  { base := c.base, size := needed n, used := some n }

/-- The hole behind that block. -/
def restHole (c : Cell) (n : U32) : Cell :=
  { base := c.base + headerBytes + footerBytes + n, size := c.size - needed n, used := none }

/-- The cells a hole becomes when a block for `n` bytes is taken from it. -/
def carved (c : Cell) (n : U32) : List Cell :=
  if c.size - needed n < headerBytes + footerBytes then [{ c with used := some n }]
  else [frontBlock c n, restHole c n]

@[simp] theorem frontBlock_used (c : Cell) (n : U32) : (frontBlock c n).used = some n := rfl

@[simp] theorem frontBlock_lo (c : Cell) (n : U32) : (frontBlock c n).lo = c.lo := rfl

@[simp] theorem frontBlock_len (c : Cell) (n : U32) : (frontBlock c n).len = (needed n).toNat := rfl

theorem frontBlock_foot (c : Cell) (n : U32) : c.base + headerBytes + n = (frontBlock c n).foot := by
  unfold Cell.foot frontBlock needed headerBytes footerBytes
  bv_omega

section Split

variable (noWrap : n.toNat + 20 < 2 ^ 32) (large : n.toNat + 20 ≤ c.len) (small : c.hi < 2 ^ 32)
  (enough : ¬ c.size - needed n < headerBytes + footerBytes)

include noWrap in
theorem frontBlock_wide : 20 ≤ (frontBlock c n).len := by
  have need := needed_toNat noWrap
  change 20 ≤ (needed n).toNat
  omega

include noWrap enough in
theorem restHole_wide : 20 ≤ (restHole c n).len := by
  have need := needed_toNat noWrap
  change 20 ≤ (c.size - needed n).toNat
  unfold headerBytes footerBytes at enough
  bv_omega

include noWrap large small in
theorem restHole_lo : (restHole c n).lo = (frontBlock c n).hi := by
  have need := needed_toNat noWrap
  change (c.base + headerBytes + footerBytes + n).toNat = c.base.toNat + (needed n).toNat
  unfold headerBytes footerBytes
  unfold Cell.hi Cell.lo Cell.len at *
  bv_omega

include noWrap large small in
theorem restHole_hi : (restHole c n).hi = c.hi := by
  have need := needed_toNat noWrap
  have begins := restHole_lo noWrap large small
  unfold Cell.hi at begins ⊢
  rw [begins]
  change c.base.toNat + (needed n).toNat + (c.size - needed n).toNat = c.lo + c.len
  unfold Cell.lo Cell.len at *
  bv_omega

include noWrap large small in
theorem split_tiles : Tiles Cell.lo Cell.len c.lo c.hi [frontBlock c n, restHole c n] := by
  have ends := restHole_hi noWrap large small
  refine ⟨rfl, restHole_lo noWrap large small, ?_⟩
  change (frontBlock c n).hi + (restHole c n).len = c.hi
  rw [← restHole_lo noWrap large small]
  exact ends

include noWrap large small enough in
/-- Writing the block and the hole behind it, in the addresses of the old hole. -/
theorem writeSplit_spec (m : Mem) (stop : Nat) :
    (∀ d ∈ [frontBlock c n, restHole c n],
      BlockOk (writeCell (restHole c n) (writeCell (frontBlock c n) m)) stop d) ∧
    AgreeOff c.lo c.hi m (writeCell (restHole c n) (writeCell (frontBlock c n) m)) := by
  have begins := restHole_lo noWrap large small
  have ends := restHole_hi noWrap large small
  have wideFront := frontBlock_wide (c := c) noWrap
  have wideRest := restHole_wide (c := c) noWrap enough
  have inside : c.lo ≤ (restHole c n).lo ∧ (frontBlock c n).hi ≤ c.hi := by
    rw [← ends, ← begins]
    constructor
    · rw [begins]
      exact Nat.le_add_right _ _
    · exact Nat.le_add_right _ _
  have first := writeCell_agreeOff (m := m) wideFront (by omega)
  have second := writeCell_agreeOff (m := writeCell (frontBlock c n) m) wideRest (by omega)
  constructor
  · intro d member
    rcases List.mem_cons.mp member with rfl | member
    · refine BlockOk.frame ?_ (by omega) (second.on (Or.inl (Nat.le_of_eq begins.symm)))
      refine writeCell_block wideFront (by omega) fun k used => ?_
      cases used
      exact Nat.le_of_eq (needed_toNat noWrap).symm
    · rw [List.mem_singleton.mp member]
      exact writeCell_block wideRest (by omega) fun k used => by cases used
  · exact (first.mono (Nat.le_refl _) inside.2).trans (second.mono inside.1 (Nat.le_of_eq ends))

end Split

/-- The hole behind a block, when a header and a footer fit into it. -/
theorem addRemainder_hole (noWrap : n.toNat + 20 < 2 ^ 32) (large : n.toNat + 20 ≤ c.len)
    (top : c.hi ≤ s.heap.endAddress.toNat) (enough : ¬ c.size - needed n < headerBytes + footerBytes) :
    addRemainder c.base n (c.size - needed n) s =
      { s with mem := writeCell (restHole c n) s.mem }.insertHole (restHole c n).base := by
  have small : c.hi < 2 ^ 32 := Nat.lt_of_le_of_lt top s.heap.endAddress.isLt
  have ends := restHole_hi noWrap large small
  have proper : c.size - needed n ≠ 0 := by
    unfold headerBytes footerBytes at enough
    bv_omega
  have low : c.base + headerBytes + footerBytes + n + (c.size - needed n) - footerBytes <
      s.heap.endAddress := by
    have address := foot_toNat (c := restHole c n) (restHole_wide noWrap enough) (by omega)
    change (restHole c n).foot < s.heap.endAddress
    rw [BitVec.lt_def]
    omega
  unfold addRemainder
  rw [if_pos proper]
  dsimp only
  rw [if_pos low]
  rfl

/-- What `carve` does without alignment, once the index entry is gone. -/
theorem carve_eq (n : U32) (i : Nat) (s : HeapState ε) : carve n 0 i s =
    let pos := s.heap.index.item s.mem i
    let holeSize := blockSize s.mem pos
    let whole := holeSize - needed n < headerBytes + footerBytes
    let size := if whole then n + (holeSize - needed n) else n
    let newSize := if whole then holeSize else needed n
    let s := s.removeHole i
    let m := writeFooter (writeHeader s.mem pos 0 newSize) (pos + headerBytes + size) pos
    (addRemainder pos size (holeSize - newSize) { s with mem := m }).map
      fun s => (pos + headerBytes, s) := by
  unfold carve
  simp only [ne_eq, not_true_eq_false, false_and, if_false, decide_eq_true_eq, Option.bind_eq_bind,
    Option.map_eq_bind]
  rfl

/-- A hole of the index that is large enough. -/
structure Fitting (s : HeapState ε) (before : List Cell) (c : Cell) (after : List Cell) (n : U32)
    (i : Nat) : Prop where
  layout : Layout s.heap s.mem (before ++ c :: after)
  indexed : Indexed s.heap s.mem (holes (before ++ c :: after))
  hole : c.used = none
  inside : i < s.heap.index.size.toNat
  found : s.heap.index.item s.mem i = c.base
  noWrap : n.toNat + 20 < 2 ^ 32
  large : n.toNat + 20 ≤ c.len

/-- What `carve` leaves: the hole's cells in the place of the hole, and every other cell
as it was. -/
structure Carved (s : HeapState ε) (before : List Cell) (c : Cell) (after : List Cell) (n : U32)
    (heap : Heap) (m : Mem) : Prop where
  layout : Layout heap m (before ++ (carved c n ++ after))
  indexed : Indexed heap m (holes (before ++ (carved c n ++ after)))
  fresh : ∀ d ∈ carved c n, BlockOk m heap.endAddress.toNat d
  frame : ∀ d ∈ before ++ after, AgreeOn d.lo d.hi s.mem m
  sorted : SortedBySize s.heap s.mem → SortedBySize heap m

namespace Fitting

section Cells

variable (fitting : Fitting s before c after n i)

include fitting in
theorem hi_lt : c.hi < 2 ^ 32 := fitting.layout.hi_lt (List.mem_append_right _ List.mem_cons_self)

include fitting in
theorem ok : CellOk s.mem s.heap.endAddress.toNat c :=
  fitting.layout.ok c (List.mem_append_right _ List.mem_cons_self)

include fitting in
theorem area_le : s.heap.index.array.toNat + 4 * 0x20000 ≤ c.lo :=
  Nat.le_trans fitting.indexed.area
    (fitting.layout.bounds c (List.mem_append_right _ List.mem_cons_self)).1

include fitting in
/-- The other cells lie in front of the hole or behind it. -/
theorem apart {d : Cell} (member : d ∈ before ++ after) : d.hi ≤ c.lo ∨ c.hi ≤ d.lo :=
  fitting.layout.tiles.apart member

include fitting in
/-- They lie in the heap, behind the index. -/
theorem behind_index {d : Cell} (member : d ∈ before ++ after) :
    s.heap.index.array.toNat + 4 * 0x20000 ≤ d.lo := by
  exact Nat.le_trans fitting.indexed.area (fitting.layout.bounds d (mem_around member)).1

include fitting in
/-- The state once the hole has left the index. -/
theorem removed :
    ∃ m, s.removeHole i = { s with mem := m, heap := resize s.heap (s.heap.index.size - 1) } ∧
      Indexed (resize s.heap (s.heap.index.size - 1)) m (holes before ++ holes after) ∧
      Layout (resize s.heap (s.heap.index.size - 1)) m (before ++ c :: after) ∧
      items (resize s.heap (s.heap.index.size - 1)).index m =
        (items s.heap.index s.mem).eraseIdx i ∧
      AgreeOff s.heap.index.array.toNat (s.heap.index.array.toNat + 4 * 0x20000) s.mem m := by
  have listed : Indexed s.heap s.mem (c.base :: (holes before ++ holes after)) := by
    refine fitting.indexed.perm ?_
    rw [holes_append, holes_cons_hole fitting.hole]
    exact List.perm_middle
  obtain ⟨m, removed, indexed, listing, agree⟩ :=
    removeHole_spec listed fitting.inside fitting.found
  refine ⟨m, removed, indexed, ?_, listing, agree⟩
  have kept : Layout s.heap m (before ++ c :: after) :=
    fitting.layout.frame (agree.on (Or.inr fitting.indexed.area))
  exact ⟨kept.tiles, kept.ok⟩

include fitting in
/-- The index that is left is in the old order. -/
theorem sorted {heap : Heap} {m : Mem} {cells : List Cell} (layout : Layout heap m cells)
    (kept : ∀ d ∈ before ++ after, d ∈ cells)
    (indexed : Indexed heap m (holes before ++ holes after))
    (listing : items heap.index m = (items s.heap.index s.mem).eraseIdx i)
    (sorted : SortedBySize s.heap s.mem) : SortedBySize heap m := by
  refine sorted.sublist (listing ▸ List.eraseIdx_sublist _ _) fun x listed => ?_
  have hole : x ∈ holes (before ++ after) := by
    rw [holes_append]
    exact indexed.entries.subset listed
  exact Layout.sizes_eq fitting.layout layout (fun d member => mem_around member) kept x hole

end Cells

/-- The state once the hole has left the index and a row of cells is written in its place. -/
structure Rewritten (s : HeapState ε) (before : List Cell) (c : Cell) (after row : List Cell)
    (heap : Heap) (m : Mem) : Prop where
  layout : Layout heap m (before ++ row ++ after)
  indexed : Indexed heap m (holes before ++ holes after)
  frame : ∀ d ∈ before ++ after, AgreeOn d.lo d.hi s.mem m
  sorted : SortedBySize s.heap s.mem → SortedBySize heap m

theorem rewritten (fitting : Fitting s before c after n i) (write : Mem → Mem) {row : List Cell}
    (range : Tiles Cell.lo Cell.len c.lo c.hi row) (agree : ∀ m, AgreeOff c.lo c.hi m (write m))
    (ok : ∀ m, ∀ d ∈ row, CellOk (write m) s.heap.endAddress.toNat d) :
    ∃ m, s.removeHole i = { s with mem := m, heap := resize s.heap (s.heap.index.size - 1) } ∧
      Rewritten s before c after row (resize s.heap (s.heap.index.size - 1)) (write m) := by
  obtain ⟨m, removed, indexed, layout, listing, untouched⟩ := fitting.removed
  have laid : Layout (resize s.heap (s.heap.index.size - 1)) (write m) (before ++ row ++ after) := by
    rw [List.append_cons] at layout
    exact layout.replace (by simp) c.tiles range (agree m) (ok m)
  have kept : AgreeOn s.heap.index.array.toNat (s.heap.index.array.toNat + 4 * 0x20000) m (write m) :=
    (agree m).on (Or.inl fitting.area_le)
  have listed := indexed.frame kept
  refine ⟨m, removed, laid, listed, fun d member => ?_, fun sorted => ?_⟩
  · exact (untouched.on (Or.inr (fitting.behind_index member))).trans
      ((agree m).on (fitting.apart member))
  · refine fitting.sorted laid (fun d member => ?_) listed
      ((indexed.items_frame kept).trans listing) sorted
    simp only [List.mem_append] at member ⊢
    tauto

/-- The block that takes the whole hole. -/
theorem carve_whole (fitting : Fitting s before c after n i)
    (little : c.size - needed n < headerBytes + footerBytes) :
    ∃ m size, carve n 0 i s =
        some (c.base + headerBytes, { s with mem := m, heap := resize s.heap size }) ∧
      Carved s before c after n (resize s.heap size) m := by
  have size : blockSize s.mem c.base = c.size := fitting.ok.header.size
  have wide : 20 ≤ c.len := fitting.ok.wide
  have small : c.hi < 2 ^ 32 := fitting.hi_lt
  let block : Cell := { c with used := some n }
  have single : carved c n = [block] := if_pos little
  have foot : c.base + headerBytes + (n + (c.size - needed n)) = block.foot := by
    change _ = c.base + c.size - footerBytes
    unfold needed headerBytes footerBytes
    bv_omega
  have written : ∀ m, ∀ d ∈ [block], BlockOk (writeCell block m) s.heap.endAddress.toNat d := by
    intro m d here
    rw [List.mem_singleton.mp here]
    refine writeCell_block wide (Nat.le_of_lt small) fun k used => ?_
    cases used
    exact fitting.large
  have range : Tiles Cell.lo Cell.len c.lo c.hi [block] := block.tiles
  obtain ⟨m, removed, laid, listed, frame, sorted⟩ := fitting.rewritten (writeCell block) range
    (fun m => writeCell_agreeOff (c := block) wide (Nat.le_of_lt small))
    fun m d here => (written m d here).cellOk
  refine ⟨writeCell block m, s.heap.index.size - 1, ?_, ?_, ?_, fun d here => ?_, frame, sorted⟩
  · rw [carve_eq]
    simp only [fitting.found, size, removed, if_pos little, foot, BitVec.sub_self, addRemainder, ne_eq]
    rfl
  · rw [single, ← List.append_assoc]
    exact laid
  · rw [single, holes_append, holes_append, holes_cons_block (by simp [block])]
    exact listed
  · rw [single] at here
    exact written m d here

/-- The block in front of a hole of what is left. -/
theorem carve_split (fitting : Fitting s before c after n i)
    (enough : ¬ c.size - needed n < headerBytes + footerBytes) :
    ∃ m size, carve n 0 i s =
        some (c.base + headerBytes, { s with mem := m, heap := resize s.heap size }) ∧
      Carved s before c after n (resize s.heap size) m := by
  have size : blockSize s.mem c.base = c.size := fitting.ok.header.size
  have small : c.hi < 2 ^ 32 := fitting.hi_lt
  have pair : carved c n = [frontBlock c n, restHole c n] := if_neg enough
  have written := fun m => writeSplit_spec fitting.noWrap fitting.large small enough m
    s.heap.endAddress.toNat
  have range := split_tiles fitting.noWrap fitting.large small
  obtain ⟨m₁, removed, laid, listed, frame, sorted⟩ := fitting.rewritten
    (fun m => writeCell (restHole c n) (writeCell (frontBlock c n) m)) range
    (fun m => (written m).2) fun m d here => ((written m).1 d here).cellOk
  have fresh := (written m₁).1
  generalize memory : writeCell (restHole c n) (writeCell (frontBlock c n) m₁) = m₂
    at laid listed frame sorted fresh
  have space : (s.heap.index.size - 1).toNat < 0x20000 := by
    have few := fitting.indexed.few
    have some := fitting.inside
    bv_omega
  obtain ⟨m, inserted, listed', listing, agree⟩ := insertHole_spec
    (s := { s with mem := m₂, heap := resize s.heap (s.heap.index.size - 1) }) listed space
    (restHole c n).base
  have order : (holes (before ++ (carved c n ++ after))).Perm
      ((restHole c n).base :: (holes before ++ holes after)) := by
    rw [pair, holes_append, holes_append, holes_cons_block (by simp), holes_cons_hole rfl]
    exact List.perm_middle
  have final : Layout (resize s.heap (s.heap.index.size - 1)) m
      (before ++ [frontBlock c n, restHole c n] ++ after) :=
    laid.frame (agree.on (Or.inr fitting.indexed.area))
  refine ⟨m, s.heap.index.size - 1 + 1, ?_, ?_, listed'.perm order.symm, fun d here => ?_,
    fun d member => ?_, fun before => ?_⟩
  · have top := (fitting.layout.bounds c (by simp)).2
    rw [carve_eq]
    simp only [fitting.found, size, removed, if_neg enough, frontBlock_foot]
    have behind := addRemainder_hole (s := { s with
      mem := writeCell (frontBlock c n) m₁, heap := resize s.heap (s.heap.index.size - 1) })
      fitting.noWrap fitting.large top enough
    rw [memory] at behind
    exact congrArg (Option.map _) (behind.trans inserted)
  · rw [pair, ← List.append_assoc]
    exact ⟨final.tiles, final.ok⟩
  · rw [pair] at here
    have bounds : c.lo ≤ d.lo ∧ d.hi ≤ c.hi := range.bounds d here
    exact (fresh d here).frame (by omega)
      (agree.on (Or.inr (Nat.le_trans fitting.area_le bounds.1)))
  · exact (frame d member).trans (agree.on (Or.inr (fitting.behind_index member)))
  · refine (sorted before).insert fitting.indexed.area (fun x member => ?_) listing agree
    apply laid.header_bounds
    rw [List.append_assoc, ← pair]
    apply order.symm.subset
    rcases List.mem_cons.mp member with rfl | member
    · exact List.mem_cons_self
    · exact List.mem_cons_of_mem _ (listed.entries.subset member)

/-- `carve` makes a block of the request's size out of the hole. -/
theorem carve_spec (fitting : Fitting s before c after n i) :
    ∃ m size, carve n 0 i s =
        some (c.base + headerBytes, { s with mem := m, heap := resize s.heap size }) ∧
      Carved s before c after n (resize s.heap size) m := by
  by_cases little : c.size - needed n < headerBytes + footerBytes
  · exact fitting.carve_whole little
  · exact fitting.carve_split little

end Fitting

/-- Facts about a hole of the index that is large enough. -/
structure Chosen (s : HeapState ε) (before : List Cell) (c : Cell) (after : List Cell) (n : U32)
    (i : Nat) : Prop where
  inv : HeapInv s.heap s.mem (before ++ c :: after)
  hole : c.used = none
  inside : i < s.heap.index.size.toNat
  found : s.heap.index.item s.mem i = c.base
  noWrap : n.toNat + 20 < 2 ^ 32
  large : n.toNat + 20 ≤ c.len

/-- No hole becomes the neighbour of a hole. -/
theorem Chosen.coalesced (chosen : Chosen s before c after n i) :
    Coalesced (before ++ (carved c n ++ after)) := by
  unfold carved
  split
  · exact chosen.inv.coalesced.block (by simp)
  · exact chosen.inv.coalesced.split chosen.hole (by simp)

/-- `carve` makes a block of the request's size, on a heap that stays sound and sorted. -/
theorem Chosen.carve_spec (chosen : Chosen s before c after n i) :
    ∃ m size, carve n 0 i s =
        some (c.base + headerBytes, { s with mem := m, heap := resize s.heap size }) ∧
      HeapInv (resize s.heap size) m (before ++ (carved c n ++ after)) ∧
      (SortedBySize s.heap s.mem → SortedBySize (resize s.heap size) m) := by
  have fitting : Fitting s before c after n i :=
    ⟨chosen.inv.layout, chosen.inv.indexed, chosen.hole, chosen.inside, chosen.found, chosen.noWrap,
      chosen.large⟩
  obtain ⟨m, size, ran, carved⟩ := fitting.carve_spec
  exact ⟨m, size, ran, ⟨carved.layout, carved.indexed, chosen.coalesced,
    resize_pages chosen.inv.pages _⟩, carved.sorted⟩

end BlessOS.Guarantees.HeapAlloc
