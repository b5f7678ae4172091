import BlessOS.Guarantees.HeapFreed

/-!
# The arithmetic of contraction

The merged block that ends the heap reaches from a header in it to its end, whatever the index
lists. The new length lies behind that header and not behind the old end, so the differences
that `free` computes do not wrap, and what is left of the block is never nothing.
-/

set_option autoImplicit false

namespace BlessOS.Guarantees.HeapShrink
open BlessOS.Lib.ByteMemory BlessOS.Lib.Tiling
open BlessOS.Source BlessOS.Source.OrderedArray BlessOS.Source.Kheap
open BlessOS.Guarantees.OrderedArrayItems BlessOS.Guarantees.HeapLayout
open BlessOS.Guarantees.HeapBounds BlessOS.Guarantees.HeapUnify BlessOS.Guarantees.HeapFree
open BlessOS.Guarantees.HeapFreed

variable {ε : Type} {s t : HeapState ε} {cells before after : List Cell} {c k : Cell} {p : U32}
  {d : Merge}

/-! ## Heaps with their own footers -/

/-- Blocks and holes tile the heap, each with a footer of its own, but for a hole at the end,
which may be of any size; no word next to the heap is taken for a magic one. Of the index only
the place and the bound are known. -/
structure Matched (heap : Heap) (m : Mem) (cells : List Cell) : Prop where
  tiles : Tiles Cell.lo Cell.len heap.startAddress.toNat heap.endAddress.toNat cells
  header : ∀ c ∈ cells, HeaderOk m c
  footer : ∀ c ∈ cells, c.used ≠ none ∨ c.hi ≠ heap.endAddress.toNat → 20 ≤ c.len ∧ OwnFooter m c
  inFront : footerMagic m (heap.startAddress - footerBytes) ≠ heapMagic
  behind : headerMagic m heap.endAddress ≠ heapMagic
  area : heap.index.array.toNat + 4 * 0x20000 ≤ heap.startAddress.toNat
  few : heap.index.size.toNat ≤ 0x20000

/-- What `free` does before it looks at the end of the heap. -/
def merge (p : U32) (s : HeapState ε) : Merge × HeapState ε :=
  let started := startFree p s
  let left := unifyLeft started.1 started.2
  unifyRight left.1 left.2

theorem free_merge (pager : Pager ε) (proper : p ≠ 0) :
    free pager p s = (trim pager (merge p s).1 (merge p s).2).bind fun t =>
      if (merge p s).1.doAdd then t.insertHole (merge p s).1.header else some t :=
  if_neg proper

/-- The block that is being merged, from a header in the heap on. -/
structure Merged (start : U32) (d : Merge) (t : HeapState ε) (k : Cell) : Prop where
  header : d.header = k.base
  footer : d.footer = k.foot
  size : blockSize t.mem k.base = k.size
  low : start.toNat ≤ k.lo
  wide : 20 ≤ k.len

/-! ## The stages -/

/-- A header behind the writes is the same. -/
theorem header_kept {m m' : Mem} {lo hi : Nat} {r : Cell} (agree : AgreeOff lo hi m m')
    (low : 12 ≤ lo) (high : hi ≤ r.lo) (ok : HeaderOk m r) : HeaderOk m' r := by
  obtain ⟨magic, flag, size⟩ := header_behind agree low high
  exact ⟨magic.trans ok.magic, flag.trans ok.flag, size.trans ok.size⟩

section Stages

variable (matched : Matched s.heap s.mem (before ++ c :: after))

include matched in
theorem Matched.extent : s.heap.startAddress.toNat ≤ c.lo ∧ c.hi ≤ s.heap.endAddress.toNat :=
  matched.tiles.bounds c (by simp)

include matched in
/-- The mark changes the header of the block alone. -/
theorem startFree_merged (live : c.used ≠ none) (pointer : p = c.base + headerBytes) :
    Merged s.heap.startAddress (startFree p s).1 (startFree p s).2 c ∧
      (startFree p s).2.heap = s.heap ∧
      AgreeOff c.lo (c.lo + 12) s.mem (startFree p s).2.mem := by
  have member : c ∈ before ++ c :: after := List.mem_append_right _ List.mem_cons_self
  have ok := matched.header c member
  obtain ⟨wide, -⟩ := matched.footer c member (Or.inl live)
  obtain ⟨low, high⟩ := matched.extent
  have small := s.heap.endAddress.isLt
  have bound : c.base.toNat + 12 ≤ 2 ^ 32 := by
    unfold Cell.hi Cell.lo at high
    omega
  have header : p - headerBytes = c.base := by rw [pointer, BitVec.add_sub_cancel]
  unfold startFree
  dsimp only
  rw [header, ok.size]
  refine ⟨⟨rfl, rfl, ?_, low, wide⟩, rfl, setIsHole_agreeOff (Nat.le_refl _) (Nat.le_refl _) bound⟩
  exact (blockSize_setIsHole bound).trans ok.size

include matched in
/-- In front of the first block the test fails. -/
theorem no_left (first : before = []) (agree : AgreeOff c.lo (c.lo + 12) s.mem t.mem) :
    ¬ leftTest t.mem c.base := by
  subst first
  have start : c.lo = s.heap.startAddress.toNat := matched.tiles.1
  have base : c.base = s.heap.startAddress := BitVec.eq_of_toNat_eq start
  have area := matched.area
  have same : footerMagic t.mem (c.base - footerBytes) =
      footerMagic s.mem (s.heap.startAddress - footerBytes) := by
    rw [base]
    exact agree.load32 fun k small => Or.inl (by unfold footerBytes; bv_omega)
  intro test
  exact matched.inFront (same.symm.trans test.1)

include matched in
/-- Only the header behind the block is looked at, not the index. -/
theorem right_header {r : Cell} {back : List Cell} (next : after = r :: back)
    (agree : AgreeOff s.heap.startAddress.toNat c.hi s.mem t.mem) :
    c.hi = r.lo ∧ HeaderOk t.mem r ∧ r.hi ≤ s.heap.endAddress.toNat ∧
      (r.used ≠ none → r.hi ≠ c.hi) := by
  subst next
  obtain ⟨-, rest⟩ := tiles_middle.mp matched.tiles
  have area := matched.area
  have adjacent : c.hi = r.lo := rest.1.symm
  have member : r ∈ before ++ c :: r :: back := by simp
  refine ⟨adjacent, header_kept agree (by omega) (Nat.le_of_eq adjacent) (matched.header r member),
    (matched.tiles.bounds r member).2, fun live same => ?_⟩
  obtain ⟨wide, -⟩ := matched.footer r member (Or.inl live)
  unfold Cell.hi at same adjacent
  omega

end Stages

section Left

variable {front : List Cell} {l : Cell}
  (matched : Matched s.heap s.mem (front ++ [l] ++ c :: after))

include matched in
/-- The cell in front of the block, which is written behind it only. -/
theorem left_cell (proper : 0 < c.len) (agree : AgreeOff c.lo (c.lo + 12) s.mem t.mem) :
    l.hi = c.lo ∧ 20 ≤ l.len ∧ s.heap.startAddress.toNat ≤ l.lo ∧ HeaderOk t.mem l ∧
      OwnFooter t.mem l := by
  obtain ⟨before, -⟩ := tiles_middle.mp matched.tiles
  obtain ⟨-, ends⟩ := tiles_middle.mp before
  have adjacent : l.hi = c.lo := ends
  have member : l ∈ front ++ [l] ++ c :: after := by simp
  obtain ⟨low, -⟩ := matched.tiles.bounds l member
  have high := matched.extent.2
  have small := s.heap.endAddress.isLt
  unfold Cell.hi at high
  have inside : l.hi ≠ s.heap.endAddress.toNat := by omega
  obtain ⟨wide, own⟩ := matched.footer l member (Or.inr inside)
  have kept : AgreeOn l.lo l.hi s.mem t.mem := agree.on (Or.inl (Nat.le_of_eq adjacent))
  have bound : l.hi ≤ 2 ^ 32 := by omega
  exact ⟨adjacent, wide, low, (matched.header l member).frame wide bound kept,
    own.frame wide bound kept⟩

include matched in
/-- A hole in front of the block is joined to it. -/
theorem join_left (merged : Merged s.heap.startAddress d t c) (heap : t.heap = s.heap)
    (agree : AgreeOff c.lo (c.lo + 12) s.mem t.mem) (hole : l.used = none) :
    Merged s.heap.startAddress (unifyLeft d t).1 (unifyLeft d t).2 (joined l c) ∧
      (joined l c).hi = c.hi ∧ (unifyLeft d t).2.heap = s.heap ∧
      AgreeOff s.heap.startAddress.toNat c.hi s.mem (unifyLeft d t).2.mem := by
  obtain ⟨header, footer, size, low, wide⟩ := merged
  obtain ⟨adjacent, wideL, lowL, ok, own⟩ := left_cell matched (by omega) agree
  have small : c.hi < 2 ^ 32 := Nat.lt_of_le_of_lt matched.extent.2 s.heap.endAddress.isLt
  obtain ⟨len, top, foot⟩ := joined_hi adjacent small
  have place : d.header - footerBytes = l.foot := by rw [header, left_foot adjacent]
  have names : leftHeader t.mem d.header = l.base := by
    unfold leftHeader
    rw [place]
    exact own.names
  have test : leftTest t.mem d.header := by
    refine ⟨by rw [place]; exact own.magic, ?_⟩
    rw [names, ok.flag, Cell.flag, if_pos hole]
  have joins := joinLeft_agreeOff (m := t.mem) (c := joined l c) (by omega) (by omega)
  rw [top] at joins
  rw [unifyLeft_joins test names header footer ok.size size adjacent wide wideL small]
  refine ⟨⟨rfl, footer.trans foot.symm, blockSize_setBlockSize, lowL, by omega⟩, top, heap, ?_⟩
  refine (agree.mono ?_ ?_).trans (joins.mono lowL (Nat.le_refl _))
  · unfold Cell.hi at adjacent
    omega
  · unfold Cell.hi
    omega

include matched in
/-- A block in front of it is not. -/
theorem keep_left (merged : Merged s.heap.startAddress d t c)
    (agree : AgreeOff c.lo (c.lo + 12) s.mem t.mem) (block : l.used ≠ none) :
    unifyLeft d t = (d, t) := by
  have wide := merged.wide
  obtain ⟨adjacent, -, -, ok, own⟩ := left_cell matched (by omega) agree
  refine unifyLeft_no fun test => ?_
  have flag := test.2
  rw [leftHeader, merged.header, left_foot adjacent, own.names, ok.flag, Cell.flag,
    if_neg block] at flag
  exact absurd flag (by decide)

end Left

/-- The block and the hole in front of it, if there is one. -/
theorem unifyLeft_merged (matched : Matched s.heap s.mem (before ++ c :: after))
    (merged : Merged s.heap.startAddress d t c) (heap : t.heap = s.heap)
    (agree : AgreeOff c.lo (c.lo + 12) s.mem t.mem) :
    ∃ k, Merged s.heap.startAddress (unifyLeft d t).1 (unifyLeft d t).2 k ∧ k.hi = c.hi ∧
      (unifyLeft d t).2.heap = s.heap ∧
      AgreeOff s.heap.startAddress.toNat c.hi s.mem (unifyLeft d t).2.mem := by
  have wide := merged.wide
  have whole : AgreeOff s.heap.startAddress.toNat c.hi s.mem t.mem :=
    agree.mono matched.extent.1 (by unfold Cell.hi; omega)
  obtain rfl | ⟨front, l, rfl⟩ := List.eq_nil_or_concat' before
  · rw [unifyLeft_no (merged.header ▸ no_left matched rfl agree)]
    exact ⟨c, merged, rfl, heap, whole⟩
  · by_cases hole : l.used = none
    · exact ⟨joined l c, join_left matched merged heap agree hole⟩
    · rw [keep_left matched merged agree hole]
      exact ⟨c, merged, rfl, heap, whole⟩

/-- What is taken out of the index is taken out in front of the heap. -/
theorem removeHole_agreeOff {i : Nat} (area : s.heap.index.array.toNat + 4 * 0x20000 ≤ 2 ^ 32)
    (few : s.heap.index.size.toNat ≤ 0x20000) (inside : i ≤ s.heap.index.size.toNat) :
    AgreeOff s.heap.index.array.toNat (s.heap.index.array.toNat + 4 * 0x20000) s.mem
      (s.removeHole i).mem := by
  have fits : Fits s.heap.index.array s.heap.index.size.toNat := by
    unfold Fits
    omega
  exact (shiftDown_agreeOff fits _ i s.mem (Nat.add_sub_of_le inside)).mono (Nat.le_refl _) (by omega)

theorem indexOf_le (h : U32) (s : HeapState ε) : indexOf h s ≤ s.heap.index.size.toNat := by
  have bounds := (scan_spec (fun i => s.heap.index.item s.mem i != h) s.heap.index.size.toNat 0).2.1
  unfold indexOf
  omega

/-- The hole behind the block is joined to it. Its size is read before the index moves. -/
theorem join_right {r : Cell} {start : U32} (merged : Merged start d t k) (adjacent : k.hi = r.lo)
    (area : t.heap.index.array.toNat + 4 * 0x20000 ≤ start.toNat)
    (few : t.heap.index.size.toNat ≤ 0x20000) (small : r.hi < 2 ^ 32) (ok : HeaderOk t.mem r)
    (hole : r.used = none) (place : d.footer + footerBytes = r.base) :
    Merged start (unifyRight d t).1 (unifyRight d t).2 (joined k r) ∧
      (unifyRight d t).2.heap.startAddress = t.heap.startAddress ∧
      (unifyRight d t).2.heap.endAddress = t.heap.endAddress := by
  obtain ⟨header, -, size, low, wide⟩ := merged
  have test : rightTest t.mem (d.footer + footerBytes) := by
    rw [place]
    refine ⟨ok.magic, ?_⟩
    rw [ok.flag, Cell.flag, if_pos hole]
    decide
  obtain ⟨len, -, foot⟩ := joined_hi adjacent small
  have bound : k.base.toNat + 12 ≤ 2 ^ 32 := by
    unfold Cell.hi Cell.lo at *
    omega
  have front : start.toNat ≤ k.base.toNat := low
  rw [unifyRight_joins test place header size ok adjacent (by omega) wide small]
  generalize grown : ({ t with mem := setBlockSize t.mem k.base (joined k r).size } : HeapState ε) = u
  have index : u.heap = t.heap := by rw [← grown]
  have removed := removeHole_agreeOff (s := u) (i := indexOf r.base u) (by rw [index]; omega)
    (by rw [index]; exact few) (indexOf_le _ _)
  rw [index] at removed
  refine ⟨⟨header, foot.symm, ?_, low, by omega⟩, ?_, ?_⟩
  · refine (blockSize_congr (removed.on (Or.inr (Nat.le_trans area front))) bound).trans ?_
    rw [← grown]
    exact blockSize_setBlockSize
  · change u.heap.startAddress = _
    rw [index]
  · change u.heap.endAddress = _
    rw [index]

/-- Behind the last cell of the heap the test fails. -/
theorem no_right (matched : Matched s.heap s.mem (before ++ [c]))
    (agree : AgreeOff s.heap.startAddress.toNat c.hi s.mem t.mem) (last : c.hi = s.heap.endAddress.toNat) :
    ¬ rightTest t.mem s.heap.endAddress := by
  have area := matched.area
  intro test
  have kept := (header_behind agree (by omega) (Nat.le_of_eq last)).1
  exact matched.behind (kept.symm.trans test.1)

/-- Nor does it hold for a block behind, where the heap does not end. -/
theorem stay_right {r : Cell} {back : List Cell}
    (matched : Matched s.heap s.mem (before ++ c :: r :: back))
    (agree : AgreeOff s.heap.startAddress.toNat c.hi s.mem t.mem) (block : r.used ≠ none) :
    ¬ rightTest t.mem r.base ∧ c.hi ≠ s.heap.endAddress.toNat := by
  obtain ⟨adjacent, ok, bound, live⟩ := right_header matched rfl agree
  constructor
  · intro test
    have flag := test.2
    rw [ok.flag, Cell.flag, if_neg block] at flag
    exact flag rfl
  · have apart := live block
    unfold Cell.hi at *
    omega

/-- The merged block, if it ends the heap, reaches to its end. -/
theorem unifyRight_merged (matched : Matched s.heap s.mem (before ++ c :: after))
    (merged : Merged s.heap.startAddress d t k) (top : k.hi = c.hi) (heap : t.heap = s.heap)
    (agree : AgreeOff s.heap.startAddress.toNat c.hi s.mem t.mem)
    (ends : (unifyRight d t).1.footer + footerBytes = s.heap.endAddress) :
    ∃ k, Merged s.heap.startAddress (unifyRight d t).1 (unifyRight d t).2 k ∧
      k.hi = s.heap.endAddress.toNat ∧
      (unifyRight d t).2.heap.startAddress = s.heap.startAddress ∧
      (unifyRight d t).2.heap.endAddress = s.heap.endAddress := by
  have high := matched.extent.2
  have small := s.heap.endAddress.isLt
  have address := foot_toNat merged.wide (by omega)
  have next : (d.footer + footerBytes).toNat = c.hi := by
    rw [merged.footer]
    unfold footerBytes
    bv_omega
  cases after with
  | nil =>
    have last : c.hi = s.heap.endAddress.toNat := (tiles_middle.mp matched.tiles).2
    have place : d.footer + footerBytes = s.heap.endAddress :=
      BitVec.eq_of_toNat_eq (next.trans last)
    rw [unifyRight_no (place ▸ no_right matched agree last)]
    have same : Merged s.heap.startAddress { d with testHeader := d.footer + footerBytes } t k :=
      ⟨merged.header, merged.footer, merged.size, merged.low, merged.wide⟩
    exact ⟨k, same, top.trans last, by rw [heap], by rw [heap]⟩
  | cons r back =>
    obtain ⟨adjacent, ok, bound, -⟩ := right_header matched rfl agree
    have place : d.footer + footerBytes = r.base := BitVec.eq_of_toNat_eq (next.trans adjacent)
    by_cases hole : r.used = none
    · have below : r.hi < 2 ^ 32 := Nat.lt_of_le_of_lt bound small
      have beside := top.trans adjacent
      obtain ⟨joins, start, stop⟩ := join_right merged beside (by rw [heap]; exact matched.area)
        (by rw [heap]; exact matched.few) below ok hole place
      have final : (joined k r).hi = s.heap.endAddress.toNat := by
        have wideJ := joins.wide
        obtain ⟨-, topR, -⟩ := joined_hi beside below
        have last := foot_toNat wideJ (by omega)
        rw [joins.footer] at ends
        rw [← ends]
        unfold footerBytes
        bv_omega
      exact ⟨joined k r, joins, final, start.trans (by rw [heap]), stop.trans (by rw [heap])⟩
    · obtain ⟨no, before⟩ := stay_right matched agree hole
      rw [unifyRight_no (place ▸ no)] at ends
      exact absurd (next.symm.trans (congrArg BitVec.toNat ends)) before

theorem merge_merged (matched : Matched s.heap s.mem (before ++ c :: after)) (live : c.used ≠ none)
    (pointer : p = c.base + headerBytes)
    (ends : (merge p s).1.footer + footerBytes = s.heap.endAddress) :
    ∃ k, Merged s.heap.startAddress (merge p s).1 (merge p s).2 k ∧
      k.hi = s.heap.endAddress.toNat ∧ (merge p s).2.heap.startAddress = s.heap.startAddress ∧
      (merge p s).2.heap.endAddress = s.heap.endAddress := by
  obtain ⟨started, heap, agree⟩ := startFree_merged matched live pointer
  obtain ⟨k, merged, top, heap, agree⟩ := unifyLeft_merged matched started heap agree
  exact unifyRight_merged matched merged top heap agree ends

/-! ## The contraction -/

/-- The loop of `contract` comes to an end, and `i -= 0x1000` never wraps. -/
inductive CountsDown (newSize : U32) : U32 → Prop where
  | stop {i : U32} (done : ¬ newSize < i) : CountsDown newSize i
  | turn {i : U32} (more : newSize < i) (noWrap : 0x1000 ≤ i.toNat)
      (next : CountsDown newSize (i - 0x1000)) : CountsDown newSize i

theorem countsDown {newSize : U32} (large : 0x1000 ≤ newSize.toNat) (i : U32) :
    CountsDown newSize i := by
  induction value : i.toNat using Nat.strong_induction_on generalizing i with
  | h v ih =>
    by_cases more : newSize < i
    · have above : newSize.toNat < i.toNat := more
      have next : (i - 0x1000).toNat = i.toNat - 0x1000 := by bv_omega
      exact .turn more (by omega) (ih (i - 0x1000).toNat (by omega) _ rfl)
    · exact .stop more

/-- The header of a block that ends the heap, seen from its start. -/
theorem Merged.fills {start stop : U32} (merged : Merged start d t k) (top : k.hi = stop.toNat) :
    (k.base - start).toNat + k.len = (stop - start).toNat := by
  have low := merged.low
  have small := stop.isLt
  unfold Cell.hi Cell.lo Cell.len at *
  bv_omega

/-- What is given up is less than the block. -/
theorem removed_lt {size length new offset : U32} (fills : offset.toNat + size.toNat = length.toNat)
    (behind : offset.toNat < new.toNat) (limit : new.toNat ≤ length.toNat) :
    (length - new).toNat < size.toNat ∧ size - (length - new) ≠ 0 := by
  have removed : (length - new).toNat = length.toNat - new.toNat := by bv_omega
  refine ⟨by omega, fun zero => ?_⟩
  bv_omega

/-- **Contraction.** When the merged block ends the heap, the new length is one of whole pages,
from the minimum on, behind the header and not behind the old end; the loop over the pages
counts down without wrapping; and the size that is left neither underflows nor is zero, so
`free` goes on with the heap cut down and no index entry removed. -/
theorem contract_exact (pager : Pager ε) (matched : Matched s.heap s.mem cells)
    (pages : s.length.toNat % 0x1000 = 0) (long : heapMinSize.toNat ≤ s.length.toNat)
    (member : c ∈ cells) (live : c.used ≠ none) (pointer : p = c.base + headerBytes)
    (ends : (merge p s).1.footer + footerBytes = s.heap.endAddress) :
    ∃ new u, contract pager ((merge p s).1.header - s.heap.startAddress) (merge p s).2 =
        some (new, u) ∧
      new.toNat % 0x1000 = 0 ∧ heapMinSize.toNat ≤ new.toNat ∧ new.toNat ≤ s.length.toNat ∧
      ((merge p s).1.header - s.heap.startAddress).toNat < new.toNat ∧
      CountsDown new (s.length - 0x1000) ∧
      (s.length - new).toNat < (blockSize u.mem (merge p s).1.header).toNat ∧
      blockSize u.mem (merge p s).1.header - (s.length - new) ≠ 0 ∧
      ∃ m, free pager p s =
        if (merge p s).1.doAdd then { u with mem := m }.insertHole (merge p s).1.header
        else some { u with mem := m } := by
  obtain ⟨before, after, rfl⟩ := List.append_of_mem member
  obtain ⟨wide, -⟩ := matched.footer c member (Or.inl live)
  have bound : c.hi ≤ 2 ^ 32 := Nat.le_trans matched.extent.2 (Nat.le_of_lt s.heap.endAddress.isLt)
  rw [free_merge pager (pointer_ne_zero pointer wide bound)]
  clear wide bound
  obtain ⟨k, merged, top, start, stop⟩ := merge_merged matched live pointer ends
  generalize (merge p s).1 = d at *
  generalize (merge p s).2 = t at *
  have wide := merged.wide
  have fills : (k.base - s.heap.startAddress).toNat + k.len = s.length.toNat := merged.fills top
  have same : t.length = s.length := by
    unfold HeapState.length
    rw [start, stop]
  have inside : (k.base - s.heap.startAddress).toNat < s.length.toNat := by omega
  have minimum : heapMinSize.toNat = 0x8000 := rfl
  obtain ⟨rounded, whole, least, behind, limit⟩ := contractedSize_spec inside pages
  rw [← rounded] at limit behind least whole
  obtain ⟨paging, contracted⟩ := contract_total pager (k.base - s.heap.startAddress) t.heap t.paging
  generalize contractedSize (k.base - s.heap.startAddress) = new at *
  have contracted := contracted t.mem
  obtain ⟨fewer, left⟩ := removed_lt fills behind (show new.toNat ≤ s.length.toNat by omega)
  rw [merged.header]
  refine ⟨new, _, contracted, whole, by omega, by omega, behind, countsDown (by omega) _, ?_, ?_, ?_⟩
  · change _ < (blockSize t.mem k.base).toNat
    rw [merged.size]
    exact fewer
  · change blockSize t.mem k.base - _ ≠ 0
    rw [merged.size]
    exact left
  · rw [← start] at contracted
    have rest : blockSize t.mem k.base - (t.length - new) = k.size - (s.length - new) := by
      rw [merged.size, same]
    rw [trim_yes (e := { k with size := k.size - (s.length - new) }) (ends.trans stop.symm)
      merged.header contracted rest left]
    exact ⟨_, rfl⟩

/-- A heap of `0x10000` bytes at `0x100000` that is one block. -/
def oneBlock : HeapState (List U32) where
  mem := ofWords fun word =>
    ([(0x40000, heapMagic), (0x40002, 0x10000), (0x43ffe, heapMagic), (0x43fff, 0x100000)].lookup
      word).getD 0
  paging := []
  heap :=
    { index :=
        { array := 0x80000, size := 0, maxSize := heapIndexSize, lessThan := some headerLessThan }
      startAddress := 0x100000
      endAddress := 0x110000
      maxAddress := 0x200000 }

def wholeBlock : Cell := { base := 0x100000, size := 0x10000, used := some 0xffec }

theorem oneBlock_matched : Matched oneBlock.heap oneBlock.mem [wholeBlock] where
  tiles := ⟨rfl, rfl⟩
  header := List.forall_mem_singleton.mpr ⟨by decide, by decide, by decide⟩
  footer := List.forall_mem_singleton.mpr fun _ => ⟨by decide, by decide, by decide⟩
  inFront := by decide
  behind := by decide
  area := by decide
  few := by decide

theorem contract_exact_oneBlock :
    ∃ new u m, contract loggingPager ((merge 0x10000c oneBlock).1.header - 0x100000)
        (merge 0x10000c oneBlock).2 = some (new, u) ∧ new.toNat ≤ 0x10000 ∧
      free loggingPager 0x10000c oneBlock =
        { u with mem := m }.insertHole (merge 0x10000c oneBlock).1.header := by
  obtain ⟨new, u, contracted, -, -, limit, -, -, -, -, m, freed⟩ :=
    contract_exact loggingPager oneBlock_matched (by decide) (by decide) List.mem_cons_self
      (show wholeBlock.used ≠ none by decide) rfl (by decide)
  exact ⟨new, u, m, contracted, limit, freed⟩

end BlessOS.Guarantees.HeapShrink
