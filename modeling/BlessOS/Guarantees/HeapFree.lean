import BlessOS.Guarantees.HeapUnify

/-!
# The end of `free`, and the whole of it

A hole that ends the heap is cut down to whole pages. `FreeOk` collects what the
caller's heap must satisfy in the state before the call: the header that the left
footer names and the header behind the block are current ones when they pass the
tests of `free`, the index has room for the hole, and the rest of a hole at the end
has room for its own header and footer.
-/

set_option autoImplicit false

namespace BlessOS.Guarantees.HeapFree
open BlessOS.Lib.ByteMemory BlessOS.Lib.SortedInsert BlessOS.Lib.Tiling
open BlessOS.Source BlessOS.Source.OrderedArray BlessOS.Source.Kheap
open BlessOS.Guarantees.OrderedArrayItems BlessOS.Guarantees.HeapLayout
open BlessOS.Guarantees.HeapInvariant BlessOS.Guarantees.HeapBounds BlessOS.Guarantees.HeapGrow
open BlessOS.Guarantees.HeapUnify

variable {ε : Type} {s₀ s : HeapState ε} {cells before after : List Cell} {d : Merge} {c : Cell}

/-! ## The end of the heap -/

/-- The hole that is left of a hole at this offset when the heap is cut down. -/
def remnant (c : Cell) (offset : U32) : Cell := { c with size := contractedSize offset - offset }

theorem remnant_size {size length new offset : U32}
    (ends : offset.toNat + size.toNat = length.toNat) :
    size - (length - new) = new - offset := by bv_omega

theorem trim_no (pager : Pager ε) (inside : d.footer + footerBytes ≠ s.heap.endAddress) :
    trim pager d s = some s := by
  unfold trim
  exact if_neg inside

/-- What is left of the hole gets its size and a footer of its own. -/
theorem trim_yes {pager : Pager ε} {u : HeapState ε} {e : Cell} {length : U32}
    (ends : d.footer + footerBytes = s.heap.endAddress) (header : d.header = e.base)
    (contracted : contract pager (e.base - s.heap.startAddress) s = some (length, u))
    (rest : blockSize u.mem e.base - (s.length - length) = e.size) (proper : e.size ≠ 0) :
    trim pager d s = some { u with mem := resizeCell e u.mem } := by
  unfold trim
  refine (if_pos ends).trans ?_
  rw [header, contracted]
  simp only [Option.bind_eq_bind, Option.bind_some, rest, if_pos proper, blockSize_setBlockSize]
  rfl

/-- A hole that ends the heap is cut down, also in a heap that is not made of whole pages. -/
theorem trim_total (pager : Pager ε) (joining : Joining s₀ cells d s before c after)
    (ends : d.footer + footerBytes = s.heap.endAddress) :
    ∃ paging, contract pager (c.base - s.heap.startAddress) s =
        some (contractedSize (c.base - s.heap.startAddress), { s with paging := paging }.setEnd
          (s.heap.startAddress + contractedSize (c.base - s.heap.startAddress))) ∧
      trim pager d s = some { s with
        mem := resizeCell (remnant c (c.base - s.heap.startAddress)) s.mem
        paging := paging
        heap := { s.heap with endAddress :=
          s.heap.startAddress + contractedSize (c.base - s.heap.startAddress) } } := by
  have behind := joining.behind_toNat
  have bounds := joining.bounds
  have area := joining.indexed.area
  have ok := joining.ok
  have wide := ok.wide
  rw [ends] at behind
  unfold Cell.hi Cell.lo Cell.len at *
  have offset : (c.base - s.heap.startAddress).toNat = c.base.toNat - s.heap.startAddress.toNat := by
    bv_omega
  have length : s.length.toNat = s.heap.endAddress.toNat - s.heap.startAddress.toNat := by
    exact length_toNat_of_le (by omega)
  have small := s.heap.endAddress.isLt
  have longer := lt_contractedLength (c.base - s.heap.startAddress).toNat
  have rounded := contractedSize_toNat (x := c.base - s.heap.startAddress) (by
    unfold roundedLength
    split <;> omega)
  obtain ⟨paging, contracted⟩ := contract_total pager (c.base - s.heap.startAddress) s.heap s.paging
  have proper : (remnant c (c.base - s.heap.startAddress)).size ≠ 0 := by
    change contractedSize (c.base - s.heap.startAddress) - (c.base - s.heap.startAddress) ≠ 0
    intro zero
    bv_omega
  have rest : blockSize s.mem c.base - (s.length - contractedSize (c.base - s.heap.startAddress)) =
      (remnant c (c.base - s.heap.startAddress)).size := by
    rw [ok.header.size]
    exact remnant_size (by omega)
  exact ⟨paging, contracted s.mem, trim_yes (e := remnant c (c.base - s.heap.startAddress)) ends
    joining.header (contracted s.mem) rest proper⟩

/-- What `trim` does to a hole that ends the heap. -/
structure Trimmed (pager : Pager ε) (c : Cell) (offset : U32) (s t : HeapState ε) : Prop where
  contracted : contract pager offset s = some (contractedSize offset,
    { s with paging := t.paging }.setEnd (s.heap.startAddress + contractedSize offset))
  heap : t.heap = { s.heap with endAddress := s.heap.startAddress + contractedSize offset }
  mem : t.mem = resizeCell (remnant c offset) s.mem
  stop : t.heap.endAddress.toNat = s.heap.startAddress.toNat + contractedLength offset.toNat
  top : (remnant c offset).hi = t.heap.endAddress.toNat
  some : 1 ≤ (remnant c offset).len

/-- The hole at the end is cut down, however little is left of it. -/
theorem trim_spec (pager : Pager ε) (joining : Joining s₀ cells d s before c after)
    (ends : d.footer + footerBytes = s.heap.endAddress) {offset : U32}
    (offsetEq : c.base - s.heap.startAddress = offset) (pages : s.length.toNat % 0x1000 = 0)
    (space : s.heap.startAddress.toNat + 0x8000 < 2 ^ 32) :
    ∃ t, trim pager d s = some t ∧ after = [] ∧ Trimmed pager c offset s t := by
  obtain ⟨paging, contracted, trimmed⟩ := trim_total pager joining ends
  rw [offsetEq] at contracted trimmed
  have behind := joining.behind_toNat
  have bounds := joining.bounds
  have wide := joining.ok.wide
  have length := length_toNat_of_le (s := s) (by unfold Cell.hi at bounds; omega)
  have stopLt := s.heap.endAddress.isLt
  rw [ends] at behind
  obtain ⟨front, rest⟩ := tiles_middle.mp joining.layout.tiles
  have nothing : after = [] := by
    refine rest.eq_nil_of_end (fun x member => ?_) behind.symm
    have wide := (joining.layout.ok x (by simp [member])).wide
    omega
  have offset_toNat : offset.toNat = c.lo - s.heap.startAddress.toNat := by
    rw [← offsetEq]
    unfold Cell.lo at bounds ⊢
    bv_omega
  have size : c.lo + c.len = s.heap.endAddress.toNat := behind.symm
  have inside : offset.toNat < s.length.toNat := by omega
  obtain ⟨rounded, -, -, longer, limited⟩ := contractedSize_spec inside pages
  have len : (remnant c offset).len = contractedLength offset.toNat - offset.toNat := by
    change (contractedSize offset - offset).toNat = _
    bv_omega
  have newEnd : (s.heap.startAddress + contractedSize offset).toNat =
      s.heap.startAddress.toNat + contractedLength offset.toNat := by
    rw [BitVec.toNat_add, rounded]
    omega
  refine ⟨_, trimmed, nothing, contracted, rfl, rfl, newEnd, ?_, by omega⟩
  change c.lo + (remnant c offset).len = (s.heap.startAddress + contractedSize offset).toNat
  omega

/-- What is left of the hole is a hole when it has room for a header and a footer. -/
theorem trim_end (pager : Pager ε) (joining : Joining s₀ cells d s before c after)
    (ends : d.footer + footerBytes = s.heap.endAddress) {offset : U32}
    (offsetEq : c.base - s.heap.startAddress = offset) (pages : s.length.toNat % 0x1000 = 0)
    (wide : 20 ≤ (remnant c offset).len) (space : s.heap.startAddress.toNat + 0x8000 < 2 ^ 32) :
    ∃ t, trim pager d s = some t ∧ after = [] ∧ Trimmed pager c offset s t ∧
      Joining s₀ cells { d with footer := (remnant c offset).foot } t before (remnant c offset)
        after ∧ items t.heap.index t.mem = items s.heap.index s.mem := by
  obtain ⟨t, trimmed, nothing, result⟩ := trim_spec pager joining ends offsetEq pages space
  have area := joining.area_le
  have small := t.heap.endAddress.isLt
  have oldTop := joining.behind_toNat
  obtain ⟨layout, hole, header, footer, indexed, start, limit, sub, kept⟩ := joining
  have ok := layout.ok c (by simp)
  have widec := ok.wide
  have top := result.top
  subst nothing
  obtain ⟨front, rest⟩ := tiles_middle.mp layout.tiles
  have good : CellOk t.mem t.heap.endAddress.toNat (remnant c offset) := by
    rw [result.mem]
    refine resizeCell_ok ok.header.magic (ok.header.flag.trans rfl) (by omega) (by omega)
      fun k used => ?_
    cases hole.symm.trans used
  have agree : AgreeOff c.lo (remnant c offset).hi s.mem t.mem := by
    rw [result.mem]
    exact resizeCell_agreeOff (c := remnant c offset) wide (by omega)
  have listing : items s.heap.index t.mem = items s.heap.index s.mem :=
    indexed.items_frame (agree.on (Or.inl area))
  have index : t.heap.index = s.heap.index := by rw [result.heap]
  have begins : t.heap.startAddress = s.heap.startAddress := by rw [result.heap]
  refine ⟨t, trimmed, rfl, result, ⟨⟨?_, fun x member => ?_⟩, hole, header, rfl, ?_, begins.trans start,
    ?_, ?_, kept⟩, by rw [index, listing]⟩
  · rw [begins]
    exact tiles_middle.mpr ⟨front, top⟩
  · rcases List.mem_append.mp member with early | late
    · have below : x.hi ≤ c.lo := (front.bounds x early).2
      have old := layout.ok x (List.mem_append_left _ early)
      have lower : c.lo ≤ (remnant c offset).hi := Nat.le_add_right _ _
      refine (old.any_stop (Or.inr ?_)).frame (by omega) (agree.on (Or.inl below))
      rw [← ends, oldTop]
      unfold Cell.hi at below ⊢
      omega
    · rw [List.mem_singleton.mp late]
      exact good
  · obtain ⟨order, area, below, few, entries⟩ := indexed.frame (agree.on (Or.inl area))
    rw [result.heap]
    exact ⟨order, area, below, few, entries⟩
  · rw [result.heap]
    exact limit
  · rw [index, listing]
    exact sub

/-! ## The index entry -/

theorem merged_coalesced (merging : Merging s₀ cells d s before c after)
    (left : ∀ x ∈ before.getLast?, x.used ≠ none) (right : ∀ x ∈ after.head?, x.used ≠ none) :
    Coalesced (before ++ c :: after) :=
  coalesced_middle.mpr ⟨merging.first, merging.last, fun x member => Or.inl (left x member),
    fun y member => Or.inr (right y member)⟩

/-- `if (do_add) insert_ordered_array(header, &heap->index);` -/
theorem finish_spec (merging : Merging s₀ cells d s before c after)
    (left : ∀ x ∈ before.getLast?, x.used ≠ none) (right : ∀ x ∈ after.head?, x.used ≠ none)
    (space : d.doAdd = true → s.heap.index.size.toNat < 0x20000) :
    ∃ m size, (if d.doAdd then s.insertHole d.header else some s) =
        some { s with mem := m, heap := resize s.heap size } ∧
      HeapInv (resize s.heap size) m (before ++ c :: after) ∧
      (SortedBySize s.heap s.mem → SortedBySize (resize s.heap size) m) := by
  have coalesced := merged_coalesced merging left right
  have listed := merging.indexed
  have bounds := merging.joining.bounds
  cases added : d.doAdd with
  | true =>
    rw [added] at listed
    obtain ⟨m, inserted, listed', listing, agree⟩ := insertHole_spec listed (space added) d.header
    have order : (d.header :: (holes before ++ holes after)).Perm (holes (before ++ c :: after)) := by
      rw [holes_append, holes_cons_hole merging.hole, merging.header]
      exact List.perm_middle.symm
    have final : Layout s.heap m (before ++ c :: after) :=
      merging.layout.frame (agree.on (Or.inr listed.area))
    refine ⟨m, s.heap.index.size + 1, inserted, ⟨⟨final.tiles, final.ok⟩, listed'.perm order,
      coalesced, resize_pages merging.pages _⟩, fun sorted => ?_⟩
    refine sorted.insert listed.area (fun x member => ?_) listing agree
    apply merging.layout.header_bounds
    apply order.subset
    rcases List.mem_cons.mp member with rfl | member
    · exact List.mem_cons_self
    · exact List.mem_cons_of_mem _ (listed.entries.subset member)
  | false =>
    rw [added] at listed
    have order : (holes before ++ ([c.base] ++ holes after)).Perm (holes (before ++ c :: after)) := by
      rw [holes_append, holes_cons_hole merging.hole]
      exact List.Perm.refl _
    exact ⟨s.mem, s.heap.index.size, rfl,
      ⟨merging.layout, listed.perm order, coalesced, merging.pages⟩, fun sorted => sorted⟩

/-- The entries but the new hole's keep their sizes. -/
theorem merged_sizes (merging : Merging s₀ cells d s before c after)
    (layout : Layout s₀.heap s₀.mem cells) :
    ∀ x ∈ items s.heap.index s.mem, x ≠ c.base → blockSize s.mem x = blockSize s₀.mem x := by
  intro x member other
  have listed : x ∈ holes (before ++ after) := by
    obtain ⟨e, present, hole, rfl⟩ := merging.joining.entry member
    refine mem_holes.mpr ⟨e, ?_, hole, rfl⟩
    simp only [List.mem_append, List.mem_cons] at present ⊢
    rcases present with early | rfl | late
    · exact Or.inl early
    · exact absurd rfl other
    · exact Or.inr late
  exact layout.sizes_eq merging.layout merging.kept (fun e present => mem_around present) x listed

/-- A hole of this size may be listed at index `k`, among the entries but `gone`. -/
def InPlace (index : OrderedArray) (m : Mem) (size gone : U32) (k : Nat) : Prop :=
  ∀ j, j < index.size.toNat → index.item m j ≠ gone →
    (j < k → blockSize m (index.item m j) ≤ size) ∧ (k < j → size ≤ blockSize m (index.item m j))

/-- With this size, the hole `h` is still in order where it is listed. -/
def KeepsPlace (index : OrderedArray) (m : Mem) (h size gone : U32) : Prop :=
  ∀ k, k < index.size.toNat → index.item m k = h → InPlace index m size gone k

instance (index : OrderedArray) (m : Mem) (size gone : U32) (k : Nat) :
    Decidable (InPlace index m size gone k) := by
  unfold InPlace
  infer_instance

instance (index : OrderedArray) (m : Mem) (h size gone : U32) :
    Decidable (KeepsPlace index m h size gone) := by
  unfold KeepsPlace
  infer_instance

/-- The same, on the list of the entries. -/
theorem KeepsPlace.split {index : OrderedArray} {m : Mem} {h size gone : U32}
    (place : KeepsPlace index m h size gone) {front back : List U32}
    (listing : items index m = front ++ h :: back) :
    (∀ x ∈ front, x ≠ gone → blockSize m x ≤ size) ∧
      (∀ x ∈ back, x ≠ gone → size ≤ blockSize m x) := by
  have length : front.length + (back.length + 1) = index.size.toNat := by
    rw [← length_items (m := m), listing, List.length_append, List.length_cons]
  have entry : ∀ j (bound : j < (front ++ h :: back).length),
      index.item m j = (front ++ h :: back)[j] := by
    intro j bound
    rw [← getElem_items (m := m) (by rw [listing]; exact bound)]
    simp only [listing]
  have middle : index.item m front.length = h := by
    rw [entry front.length (by simp), List.getElem_append_right (Nat.le_refl _)]
    simp
  have places := place front.length (by omega) middle
  constructor
  · intro x member other
    obtain ⟨j, inside, rfl⟩ := List.mem_iff_getElem.mp member
    have value := entry j (by simp; omega)
    rw [List.getElem_append_left inside] at value
    rw [← value] at other ⊢
    exact (places j (by omega) other).1 inside
  · intro x member other
    obtain ⟨j, inside, rfl⟩ := List.mem_iff_getElem.mp member
    have value := entry (front.length + (j + 1)) (by simp; omega)
    rw [List.getElem_append_right (by omega)] at value
    simp only [Nat.add_sub_cancel_left, List.getElem_cons_succ] at value
    rw [← value] at other ⊢
    exact (places (front.length + (j + 1)) (by omega) other).2 (by omega)

/-- The index is sorted before the hole is entered, or with it if it is listed. -/
theorem merged_sorted (merging : Merging s₀ cells d s before c after)
    (layout : Layout s₀.heap s₀.mem cells) (indexed : Indexed s₀.heap s₀.mem (holes cells))
    (sorted : SortedBySize s₀.heap s₀.mem) {gone : U32} (absent : gone ∉ items s.heap.index s.mem)
    (place : d.doAdd = false → KeepsPlace s₀.heap.index s₀.mem c.base c.size gone) :
    SortedBySize s.heap s.mem := by
  have sizes := merged_sizes merging layout
  have nodup : (items s₀.heap.index s₀.mem).Nodup := indexed.entries.nodup_iff.mpr layout.holes_nodup
  have size : blockSize s.mem c.base = c.size := merging.joining.ok.header.size
  by_cases entry : c.base ∈ items s.heap.index s.mem
  · have listed : d.doAdd = false := by
      by_contra added
      have present := merging.indexed.entries.subset entry
      have whole := merging.layout.holes_nodup
      rw [holes_append, holes_cons_hole merging.hole, List.nodup_middle] at whole
      rw [Bool.not_eq_false] at added
      rw [added] at present
      exact (List.nodup_cons.mp whole).1 present
    obtain ⟨front, back, split⟩ := List.append_of_mem (merging.sub.subset entry)
    obtain ⟨below, above⟩ := (place listed).split split
    have remains : ∀ x ∈ items s.heap.index s.mem, x ≠ gone := fun x member same =>
      absent (same ▸ member)
    unfold SortedBySize at sorted ⊢
    rw [split] at sorted nodup
    refine pairwise_of_changed sorted nodup (split ▸ merging.sub) ?_ ?_ ?_
    · intro a b ha hb otherA otherB order
      rw [sizes a ha otherA, sizes b hb otherB]
      exact order
    · intro a early member
      have other : a ≠ c.base := fun same =>
        (List.nodup_append.mp nodup).2.2 a early _ List.mem_cons_self same
      rw [sizes a member other, size]
      exact below a early (remains a member)
    · intro b late member
      have other : b ≠ c.base := fun same =>
        (List.nodup_cons.mp (List.nodup_append.mp nodup).2.1).1 (same ▸ late)
      rw [sizes b member other, size]
      exact above b late (remains b member)
  · exact sorted.sublist merging.sub fun x member => sizes x member fun same => entry (same ▸ member)

/-! ## The whole of `free` -/

/-- The end of the hole once it is joined to the right. -/
def mergedEnd (m : Mem) (header : U32) : U32 :=
  let right := rightHeader m header
  if rightTest m right then right + blockSize m right else right

section Guard

variable (s : HeapState ε) (p : U32)

/-- How far from the start of the heap the hole lies that the block of `p` becomes part of. -/
def mergedOffset : U32 := mergedHeader (marked s p) (p - headerBytes) - s.heap.startAddress

def ReachesEnd : Prop := mergedEnd (marked s p) (p - headerBytes) = s.heap.endAddress

instance : Decidable (ReachesEnd s p) := by
  unfold ReachesEnd
  infer_instance

/-- The size of that hole in the end. -/
def mergedSize : U32 :=
  if ReachesEnd s p then contractedSize (mergedOffset s p) - mergedOffset s p
  else mergedEnd (marked s p) (p - headerBytes) - mergedHeader (marked s p) (p - headerBytes)

/-- The heap is such that `free` merges the block of `p` with current holes only. -/
structure FreeOk : Prop where
  left : LeftListed s.heap.index (marked s p) (p - headerBytes)
  right : rightTest (marked s p) (rightHeader (marked s p) (p - headerBytes)) →
    rightHeader (marked s p) (p - headerBytes) ∈ items s.heap.index (marked s p)
  room : ¬ leftTest (marked s p) (p - headerBytes) →
    ¬ rightTest (marked s p) (rightHeader (marked s p) (p - headerBytes)) →
    s.heap.index.size.toNat < 0x20000
  wide : ReachesEnd s p → 20 ≤ (contractedSize (mergedOffset s p) - mergedOffset s p).toNat
  least : ReachesEnd s p → s.heap.startAddress.toNat + 0x8000 ≤ s.heap.maxAddress.toNat

instance : Decidable (FreeOk s p) :=
  decidable_of_iff
    (LeftListed s.heap.index (marked s p) (p - headerBytes) ∧
      (rightTest (marked s p) (rightHeader (marked s p) (p - headerBytes)) →
        rightHeader (marked s p) (p - headerBytes) ∈ items s.heap.index (marked s p)) ∧
      (¬ leftTest (marked s p) (p - headerBytes) →
        ¬ rightTest (marked s p) (rightHeader (marked s p) (p - headerBytes)) →
        s.heap.index.size.toNat < 0x20000) ∧
      (ReachesEnd s p → 20 ≤ (contractedSize (mergedOffset s p) - mergedOffset s p).toNat) ∧
      (ReachesEnd s p → s.heap.startAddress.toNat + 0x8000 ≤ s.heap.maxAddress.toNat))
    ⟨fun ⟨left, right, room, wide, least⟩ => ⟨left, right, room, wide, least⟩,
      fun ⟨left, right, room, wide, least⟩ => ⟨left, right, room, wide, least⟩⟩

/-- A hole that takes the block in on its right keeps its place in the order of sizes. -/
def FreeSorted : Prop :=
  leftTest (marked s p) (p - headerBytes) →
    KeepsPlace s.heap.index s.mem (leftHeader (marked s p) (p - headerBytes)) (mergedSize s p)
      (rightHeader (marked s p) (p - headerBytes))

end Guard

instance (s : HeapState ε) (p : U32) : Decidable (FreeSorted s p) := by
  unfold FreeSorted
  infer_instance

/-- What `free` does to the end of the heap and to the paging. -/
def EndMoved (pager : Pager ε) (s : HeapState ε) (p : U32) (u : HeapState ε) : Prop :=
  if ReachesEnd s p then
    u.heap.endAddress = s.heap.startAddress + contractedSize (mergedOffset s p) ∧
      (mergedOffset s p).toNat < s.length.toNat ∧
      ∃ v : HeapState ε, v.heap.startAddress = s.heap.startAddress ∧
        v.heap.endAddress = s.heap.endAddress ∧ v.paging = s.paging ∧
        contract pager (mergedOffset s p) v = some (contractedSize (mergedOffset s p),
          { v with paging := u.paging }.setEnd
            (v.heap.startAddress + contractedSize (mergedOffset s p)))
  else u.heap.endAddress = s.heap.endAddress ∧ u.paging = s.paging

/-- The stages of `free` up to the end of the heap. -/
def unified (p : U32) (s : HeapState ε) : Merge × HeapState ε :=
  let (d, s) := startFree p s
  let (d, s) := unifyLeft d s
  unifyRight d s

theorem free_eq (pager : Pager ε) {p : U32} (proper : p ≠ 0) : free pager p s =
    (trim pager (unified p s).1 (unified p s).2).bind fun t =>
      if (unified p s).1.doAdd then t.insertHole (unified p s).1.header else some t := by
  unfold free
  exact if_neg proper

/-- The header behind the block, as `free` computes it. -/
theorem rightHeader_toNat {p : U32} (layout : Layout s.heap s.mem (before ++ c :: after))
    (pointer : p = c.base + headerBytes) :
    (rightHeader (marked s p) (p - headerBytes)).toNat = c.hi := by
  have ok := layout.ok c (by simp)
  have small := layout.hi_lt (c := c) (by simp)
  have wide := ok.wide
  have bound : c.base.toNat + 12 ≤ 2 ^ 32 := by
    unfold Cell.hi Cell.lo at small
    omega
  have header : p - headerBytes = c.base := by rw [pointer, BitVec.add_sub_cancel]
  have size : blockSize (marked s p) c.base = c.size := by
    rw [marked, header, blockSize_setIsHole bound]
    exact ok.header.size
  rw [header, rightHeader, size, BitVec.toNat_add]
  exact Nat.mod_eq_of_lt small

/-- The hole `e` after both merges, between the cells `front` and `back`. -/
structure Unified (s : HeapState ε) (p : U32) (before : List Cell) (c : Cell) (after front : List Cell)
    (e : Cell) (back : List Cell) : Prop where
  joining : Joining s (before ++ c :: after) (unified p s).1 (unified p s).2 front e back
  left : LeftOf (marked s p) (p - headerBytes) before front
  right : RightOf (marked s p) (rightHeader (marked s p) (p - headerBytes)) after back
  low : e.lo ≤ c.lo
  high : c.hi ≤ e.hi
  base : e.base = mergedHeader (marked s p) (p - headerBytes)
  top : e.hi = (mergedEnd (marked s p) (p - headerBytes)).toNat
  added : (unified p s).1.doAdd = true ↔ ¬ leftTest (marked s p) (p - headerBytes)
  heap : (unified p s).2.heap = resize s.heap (unified p s).2.heap.index.size
  paging : (unified p s).2.paging = s.paging
  count : if rightTest (marked s p) (rightHeader (marked s p) (p - headerBytes)) then
      (unified p s).2.heap.index.size.toNat < s.heap.index.size.toNat
    else (unified p s).2.heap.index.size = s.heap.index.size
  frame : ∀ x ∈ front ++ back, AgreeOn x.lo x.hi s.mem (unified p s).2.mem

/-- The first stages of `free`. -/
def leftMerged (p : U32) (s : HeapState ε) : Merge × HeapState ε :=
  unifyLeft (startFree p s).1 (startFree p s).2

theorem unified_eq (p : U32) (s : HeapState ε) :
    unified p s = unifyRight (leftMerged p s).1 (leftMerged p s).2 := rfl

@[simp] theorem leftMerged_heap {p : U32} : (leftMerged p s).2.heap = s.heap := by
  unfold leftMerged unifyLeft startFree
  dsimp only
  split <;> rfl

/-- A current header on the left makes one hole with the block. -/
theorem leftMerged_spec {p : U32} (layout : Layout s.heap s.mem (before ++ c :: after))
    (indexed : Indexed s.heap s.mem (holes (before ++ c :: after))) (block : c.used ≠ none)
    (pointer : p = c.base + headerBytes)
    (okLeft : LeftListed s.heap.index (marked s p) (p - headerBytes)) :
    ∃ front e m, Joining s (before ++ c :: after) (leftMerged p s).1 (leftMerged p s).2 front e after ∧
      LeftOf (marked s p) c.base before front ∧ e.lo ≤ c.lo ∧ e.hi = c.hi ∧
      e.base = mergedHeader (marked s p) c.base ∧
      ((leftMerged p s).1.doAdd = true ↔ ¬ leftTest (marked s p) c.base) ∧
      (leftMerged p s).2 = { s with mem := m } ∧ AgreeOff e.lo c.hi (marked s p) m ∧
      OwnFooter m e := by
  obtain ⟨joining, added, own, result⟩ := startFree_spec layout indexed block pointer
  have header : p - headerBytes = c.base := by rw [pointer, BitVec.add_sub_cancel]
  rw [header] at okLeft
  unfold leftMerged
  generalize startFree p s = first at joining added result ⊢
  obtain ⟨d, s₁⟩ := first
  dsimp only at joining added result ⊢
  subst result
  have made := unifyLeft_spec joining added ⟨own.magic, own.names⟩ okLeft
  exact made

/-- Neither the header behind the block nor the index is written to before it is looked at. -/
theorem leftMerged_right {p : U32} {front : List Cell} {e : Cell} {m : Mem}
    (layout : Layout s.heap s.mem (before ++ c :: after))
    (indexed : Indexed s.heap s.mem (holes (before ++ c :: after)))
    (pointer : p = c.base + headerBytes)
    (joining : Joining s (before ++ c :: after) (leftMerged p s).1 (leftMerged p s).2 front e after)
    (top : e.hi = c.hi) (result : (leftMerged p s).2 = { s with mem := m })
    (agree : AgreeOff e.lo c.hi (marked s p) m) :
    (leftMerged p s).1.footer + footerBytes = rightHeader (marked s p) c.base ∧
      (rightTest m (rightHeader (marked s p) c.base) ↔
        rightTest (marked s p) (rightHeader (marked s p) c.base)) ∧
      blockSize m (rightHeader (marked s p) c.base) =
        blockSize (marked s p) (rightHeader (marked s p) c.base) ∧
      items s.heap.index m = items s.heap.index (marked s p) := by
  have behind := rightHeader_toNat layout pointer
  rw [pointer, BitVec.add_sub_cancel, ← pointer] at behind
  have area := joining.area_le
  have low := layout.bounds c (by simp)
  have bound : c.base.toNat + 12 ≤ 2 ^ 32 := by
    have wide := (layout.ok c (by simp)).wide
    have small := layout.hi_lt (c := c) (by simp)
    unfold Cell.hi Cell.lo at small
    omega
  rw [result] at area
  have marks : Indexed s.heap (marked s p) (holes (before ++ c :: after)) :=
    indexed.frame ((marked_agreeOff pointer bound).on (Or.inl (Nat.le_trans indexed.area low.1)))
  obtain ⟨magic, flag, size⟩ := header_behind agree (h := rightHeader (marked s p) c.base) (by omega)
    (Nat.le_of_eq behind.symm)
  refine ⟨BitVec.eq_of_toNat_eq ?_, ?_, size, marks.items_frame (agree.on (Or.inl area))⟩
  · rw [joining.behind_toNat, top, behind]
  · unfold rightTest
    rw [magic, flag]

/-- The end of the merged hole, as a sum that does not wrap. -/
theorem mergedEnd_toNat {m : Mem} {x : U32} {stop : Nat} (small : stop < 2 ^ 32)
    (sum : stop = (rightHeader m x).toNat +
      if rightTest m (rightHeader m x) then (blockSize m (rightHeader m x)).toNat else 0) :
    stop = (mergedEnd m x).toNat := by
  unfold mergedEnd
  dsimp only
  split at sum
  · next yes =>
    rw [if_pos yes, BitVec.toNat_add, sum]
    exact (Nat.mod_eq_of_lt (by omega)).symm
  · next no => rw [if_neg no, sum, Nat.add_zero]

/-- Current headers on both sides make one hole, by the tests on the heap before. -/
theorem unified_spec {p : U32} (layout : Layout s.heap s.mem (before ++ c :: after))
    (indexed : Indexed s.heap s.mem (holes (before ++ c :: after))) (block : c.used ≠ none)
    (pointer : p = c.base + headerBytes)
    (okLeft : LeftListed s.heap.index (marked s p) (p - headerBytes))
    (okRight : rightTest (marked s p) (rightHeader (marked s p) (p - headerBytes)) →
      rightHeader (marked s p) (p - headerBytes) ∈ items s.heap.index (marked s p)) :
    ∃ front e back, Unified s p before c after front e back ∧
      (¬ rightTest (marked s p) (rightHeader (marked s p) (p - headerBytes)) →
        OwnFooter (unified p s).2.mem e) := by
  have behind := rightHeader_toNat layout pointer
  have wide := (layout.ok c (by simp)).wide
  have small := layout.hi_lt (c := c) (by simp)
  have marks := marked_agreeOff (s := s) pointer (by unfold Cell.hi Cell.lo at small; omega)
  have header : p - headerBytes = c.base := by rw [pointer, BitVec.add_sub_cancel]
  obtain ⟨front, e, m₂, joining₂, left, low, top₂, base₂, added₂, result₂, agree₂, own₂⟩ :=
    leftMerged_spec layout indexed block pointer okLeft
  obtain ⟨place, test, size₂, index⟩ :=
    leftMerged_right layout indexed pointer joining₂ top₂ result₂ agree₂
  rw [header] at okRight behind
  have whole := unified_eq p s
  generalize leftMerged p s = second at joining₂ added₂ result₂ place whole
  obtain ⟨d₂, s₂⟩ := second
  dsimp only at joining₂ added₂ result₂ place whole
  subst result₂
  generalize h_def : rightHeader (marked s p) c.base = h at *
  have behind₂ : h.toNat = e.hi := behind.trans top₂.symm
  obtain ⟨g, back, m₃, count, joining₃, right, base₃, top₃, added₃, result₃, fewer, frame₃, same₃⟩ :=
    unifyRight_spec joining₂ behind₂ fun yes => by
      rw [index]
      exact okRight (test.mp yes)
  have same : RightOf m₂ h after back ↔ RightOf (marked s p) h after back := by
    unfold RightOf
    simp only [test]
  dsimp only at low top₂ size₂ result₃ fewer top₃
  simp only [test] at fewer top₃
  have lo₃ : g.lo = e.lo := congrArg BitVec.toNat base₃
  have small₃ := joining₃.hi_lt
  have reaches : c.hi ≤ g.hi := by
    rw [top₃, top₂]
    exact Nat.le_add_right _ _
  refine ⟨front, g, back,
    { joining := by rw [whole]; exact joining₃
      left := by rw [header]; exact left
      right := by rw [header, h_def]; exact same.mp right
      low := by rw [lo₃]; exact low
      high := reaches
      base := by rw [header]; exact base₃.trans base₂
      top := ?_
      added := by rw [header, whole, added₃]; exact added₂
      heap := by rw [whole, result₃]; rfl
      paging := by rw [whole, result₃]
      count := by rw [header, h_def, whole, result₃]; exact fewer
      frame := fun x member => ?_ }, fun no => ?_⟩
  · rw [header]
    apply mergedEnd_toNat small₃
    rw [h_def, top₃, ← behind₂, size₂]
  · have apart := joining₃.apart member
    have middle : c.base.toNat + 12 ≤ c.hi := by
      unfold Cell.hi Cell.lo
      omega
    have low' : e.lo ≤ c.base.toNat := low
    rw [whole, result₃]
    refine (marks.on ?_).trans ((agree₂.on ?_).trans (frame₃ x member)) <;> omega
  · rw [header, h_def] at no
    obtain ⟨rfl, memory⟩ := same₃ fun yes => no (test.mp yes)
    rw [whole, result₃, memory]
    exact own₂

/-- In a sound heap the hole has no hole beside it, there is room to list it, and the
header behind the block is not listed. -/
theorem Unified.sound {p : U32} {front back : List Cell} {e : Cell}
    (unified' : Unified s p before c after front e back)
    (inv : HeapInv s.heap s.mem (before ++ c :: after)) (block : c.used ≠ none)
    (pointer : p = c.base + headerBytes) (ok : FreeOk s p) :
    Merging s (before ++ c :: after) (unified p s).1 (unified p s).2 front e back ∧
      (∀ x ∈ front.getLast?, x.used ≠ none) ∧ (∀ x ∈ back.head?, x.used ≠ none) ∧
      ((unified p s).1.doAdd = true → (unified p s).2.heap.index.size.toNat < 0x20000) ∧
      rightHeader (marked s p) (p - headerBytes) ∉
        items (unified p s).2.heap.index (unified p s).2.mem := by
  obtain ⟨first, last, -, -⟩ := coalesced_middle.mp inv.coalesced
  obtain ⟨marked', -, -, result⟩ := startFree_spec inv.layout inv.indexed block pointer
  have behind := rightHeader_toNat inv.layout pointer
  have header : p - headerBytes = c.base := by rw [pointer, BitVec.add_sub_cancel]
  let hole : Cell := { c with used := none }
  have layout : Layout s.heap (marked s p) (before ++ hole :: after) := by
    have laid := marked'.layout
    rw [result] at laid
    exact laid
  have left : LeftOf (marked s p) hole.base before front := by
    rw [← show p - headerBytes = hole.base from header]
    exact unified'.left
  obtain ⟨first', blockLeft⟩ := left.coalesced (s := { s with mem := marked s p }) layout first
  obtain ⟨last', blockRight⟩ :=
    RightOf.coalesced (s := { s with mem := marked s p }) unified'.right layout behind last
  have pages : PageBounds (unified p s).2.heap := by
    rw [unified'.heap]
    exact resize_pages inv.pages _
  have wide := (inv.layout.ok c (by simp)).wide
  have low := unified'.low
  have high := unified'.high
  refine ⟨unified'.joining.merging first' last' pages, blockLeft, blockRight, fun added => ?_, ?_⟩
  · have few := inv.indexed.few
    have count := unified'.count
    split at count
    · omega
    · next no =>
      rw [count]
      exact ok.room (unified'.added.mp added) no
  · refine not_listed unified'.joining blockRight ?_ (by omega)
    rw [behind]
    unfold Cell.hi
    omega

/-- The merged hole `e` and the heap once `trim` is done with them. -/
structure Settled (pager : Pager ε) (s : HeapState ε) (p : U32) (cells front : List Cell) (e : Cell)
    (back : List Cell) (e' : Cell) (t : HeapState ε) : Prop where
  trimmed : trim pager (unified p s).1 (unified p s).2 = some t
  merging : Merging s cells { (unified p s).1 with footer := e'.foot } t front e' back
  base : e'.base = e.base
  size : e'.size = mergedSize s p
  index : t.heap.index = (unified p s).2.heap.index
  listing : items t.heap.index t.mem = items (unified p s).2.heap.index (unified p s).2.mem
  moved : EndMoved pager s p t

section Trim

variable {p : U32} {front back : List Cell} {e : Cell}
  (unified' : Unified s p before c after front e back)
  (merging : Merging s (before ++ c :: after) (unified p s).1 (unified p s).2 front e back)

include unified' in
theorem Unified.stop : (unified p s).2.heap.endAddress = s.heap.endAddress := by
  rw [unified'.heap]
  rfl

include unified' in
/-- The merged hole ends where the tests say. -/
theorem Unified.ends :
    (unified p s).1.footer + footerBytes = mergedEnd (marked s p) (p - headerBytes) :=
  BitVec.eq_of_toNat_eq (unified'.joining.behind_toNat.trans unified'.top)

include unified' in
theorem Unified.offset : e.base - (unified p s).2.heap.startAddress = mergedOffset s p := by
  rw [unified'.base, unified'.joining.start]
  rfl

include unified' merging in
/-- A hole that ends the heap is cut down with it. -/
theorem trim_merged (pager : Pager ε) (inv : HeapInv s.heap s.mem (before ++ c :: after))
    (ok : FreeOk s p) (ends : ReachesEnd s p) :
    ∃ t e', Settled pager s p (before ++ c :: after) front e back e' t := by
  have joining := unified'.joining
  have start := joining.start
  have stop := unified'.stop
  have offset := unified'.offset
  have bounds := joining.bounds
  have wide := joining.ok.wide
  have small := s.heap.maxAddress.isLt
  have least := ok.least ends
  have length := length_toNat inv.pages
  obtain ⟨t, trimmed, nothing, cut, joining', listing⟩ := trim_end pager joining
    (unified'.ends.trans (Eq.trans ends stop.symm)) offset (length_mod merging.pages) (ok.wide ends)
    (by rw [start]; omega)
  have inside : (mergedOffset s p).toNat < s.length.toNat := by
    rw [← offset, length]
    rw [start, stop] at bounds
    unfold Cell.hi Cell.lo at bounds
    rw [start]
    bv_omega
  obtain ⟨-, whole, -, proper, -⟩ := contractedSize_spec inside (length_mod inv.pages)
  have startPage := merging.pages.startPage
  have begins : t.heap.startAddress = (unified p s).2.heap.startAddress := by rw [cut.heap]
  have stop' := cut.stop
  have pages : PageBounds t.heap :=
    ⟨by rw [begins]; exact startPage, by omega, by rw [begins]; omega⟩
  refine ⟨t, _, trimmed, joining'.merging merging.first merging.last pages, rfl, ?_,
    by rw [cut.heap], listing, ?_⟩
  · unfold mergedSize
    rw [if_pos ends]
    rfl
  · unfold EndMoved
    rw [if_pos ends]
    exact ⟨by rw [cut.heap, start], inside, _, start, stop, unified'.paging, cut.contracted⟩

include unified' merging in
/-- Any other hole stays as it is. -/
theorem keep_merged (pager : Pager ε) (ends : ¬ ReachesEnd s p) :
    ∃ t e', Settled pager s p (before ++ c :: after) front e back e' t := by
  have stop := unified'.stop
  have top := unified'.top
  have apart : (unified p s).1.footer + footerBytes ≠ (unified p s).2.heap.endAddress := by
    rw [unified'.ends, stop]
    exact ends
  refine ⟨_, e, trim_no pager apart, { merging with footer := rfl }, rfl, ?_, rfl, rfl, ?_⟩
  · unfold mergedSize
    rw [if_neg ends, ← unified'.base]
    have small := unified'.joining.hi_lt
    unfold Cell.hi Cell.lo Cell.len at *
    bv_omega
  · unfold EndMoved
    rw [if_neg ends]
    exact ⟨stop, unified'.paging⟩

end Trim

/-- The hole at the end of the merges is as the tests before them say. -/
theorem trimmed_spec (pager : Pager ε) {p : U32}
    (inv : HeapInv s.heap s.mem (before ++ c :: after)) (block : c.used ≠ none)
    (pointer : p = c.base + headerBytes) (ok : FreeOk s p) :
    ∃ t front e back, trim pager (unified p s).1 (unified p s).2 = some t ∧
      Merging s (before ++ c :: after) { (unified p s).1 with footer := e.foot } t front e back ∧
      (∀ x ∈ front.getLast?, x.used ≠ none) ∧ (∀ x ∈ back.head?, x.used ≠ none) ∧
      e.base = mergedHeader (marked s p) (p - headerBytes) ∧ e.size = mergedSize s p ∧
      payloads front ++ payloads back = payloads before ++ payloads after ∧
      ((unified p s).1.doAdd = true ↔ ¬ leftTest (marked s p) (p - headerBytes)) ∧
      ((unified p s).1.doAdd = true → t.heap.index.size.toNat < 0x20000) ∧
      rightHeader (marked s p) (p - headerBytes) ∉ items t.heap.index t.mem ∧
      EndMoved pager s p t := by
  obtain ⟨front, e, back, result, -⟩ :=
    unified_spec inv.layout inv.indexed block pointer ok.left ok.right
  obtain ⟨merging, left, right, room, absent⟩ := result.sound inv block pointer ok
  have payload : payloads front ++ payloads back = payloads before ++ payloads after := by
    rw [result.left.payloads, result.right.payloads]
  obtain ⟨t, e', trimmed, merging', base, size, index, listing, moved⟩ :
      ∃ t e', Settled pager s p (before ++ c :: after) front e back e' t := by
    by_cases ends : ReachesEnd s p
    · exact trim_merged result merging pager inv ok ends
    · exact keep_merged result merging pager ends
  refine ⟨t, front, e', back, trimmed, merging', left, right, base.trans result.base, size, payload,
    result.added, ?_, ?_, moved⟩
  · rw [index]
    exact room
  · rw [listing]
    exact absent

/-- A sound heap stays sound when the block of `p` is freed. -/
theorem free_spec (pager : Pager ε) {p : U32} (inv : HeapInv s.heap s.mem (before ++ c :: after))
    (block : c.used ≠ none) (pointer : p = c.base + headerBytes) (ok : FreeOk s p) :
    ∃ u cells', free pager p s = some u ∧ HeapInv u.heap u.mem cells' ∧
      payloads cells' = payloads before ++ payloads after ∧
      u.heap.startAddress = s.heap.startAddress ∧ u.heap.maxAddress = s.heap.maxAddress ∧
      EndMoved pager s p u ∧
      (SortedBySize s.heap s.mem → FreeSorted s p → SortedBySize u.heap u.mem) := by
  obtain ⟨t, front, e, back, trimmed, merging, left, right, base, size, pay, added, room, absent,
    moved⟩ := trimmed_spec pager inv block pointer ok
  have member : c ∈ before ++ c :: after := List.mem_append_right _ List.mem_cons_self
  have proper := pointer_ne_zero pointer (inv.layout.ok c member).wide
    (Nat.le_of_lt (inv.layout.hi_lt member))
  obtain ⟨m, count, finished, inv', sorted'⟩ := finish_spec merging left right room
  refine ⟨{ t with mem := m, heap := resize t.heap count }, front ++ e :: back, ?_, inv', ?_,
    merging.start, merging.limit, ?_, fun sorted place => ?_⟩
  · rw [free_eq pager proper, trimmed]
    exact finished
  · rw [payloads_append, payloads_cons_hole merging.hole]
    exact pay
  · exact moved
  · refine sorted' (merged_sorted merging inv.layout inv.indexed sorted absent fun listed => ?_)
    have test : leftTest (marked s p) (p - headerBytes) := by
      by_contra no
      rw [added.mpr no] at listed
      cases listed
    rw [base, size, mergedHeader, if_pos test]
    exact place test

end BlessOS.Guarantees.HeapFree
