import BlessOS.Guarantees.HeapFreed
import BlessOS.Guarantees.HeapSearch

/-!
# Page-aligned allocation

With `page_align`, `find_smallest_hole` leaves room in front of the block, and `alloc`
splits that room off as a hole of its own. The two agree when the hole begins neither
on a page nor so near the aligned address that the room has no space for a header and a
footer; and `alloc` does not see when the rest behind the block is too small for them.
-/

set_option autoImplicit false

namespace BlessOS.Guarantees.HeapAligned
open BlessOS.Lib.ByteMemory BlessOS.Lib.Tiling
open BlessOS.Source BlessOS.Source.OrderedArray BlessOS.Source.Kheap
open BlessOS.Guarantees.OrderedArrayItems BlessOS.Guarantees.HeapLayout
open BlessOS.Guarantees.HeapInvariant BlessOS.Guarantees.HeapAlloc BlessOS.Guarantees.HeapGrow
open BlessOS.Guarantees.HeapRuns BlessOS.Guarantees.HeapWellFormed BlessOS.Guarantees.HeapFreed
open BlessOS.Guarantees.HeapSearch

variable {ε : Type} {s t u : HeapState ε} {before after : List Cell} {c : Cell} {n p : U32} {i : Nat}

/-! ## The aligned address -/

theorem lowBits_toNat (x : U32) : (x &&& 0xfff).toNat = x.toNat % 0x1000 := by
  rw [← and_lowMask]
  rfl

/-- `new_location`. -/
def aligned (c : Cell) : U32 := c.base + 0x1000 - (c.base &&& 0xfff) - headerBytes

/-- The hole in front of the aligned address. -/
def leading (c : Cell) : Cell :=
  { base := c.base, size := 0x1000 - (c.base &&& 0xfff) - headerBytes, used := none }

/-- The rest of the hole. -/
def trailing (c : Cell) : Cell :=
  { base := aligned c, size := c.size - (leading c).size, used := none }

/-- How far from the start of its page a cell begins. -/
def pageOffset (c : Cell) : Nat := c.lo % 0x1000

/-- What `find_smallest_hole` leaves room for in front of the block. -/
def alignOffset (c : Cell) : Nat := (0x1000 - (c.lo + 12) % 0x1000) % 0x1000

theorem aligned_eq (c : Cell) : aligned c = c.base + (leading c).size := by
  unfold aligned leading
  dsimp only
  bv_omega

@[simp] theorem leading_base (c : Cell) : (leading c).base = c.base := by
  unfold leading
  rfl

@[simp] theorem leading_used (c : Cell) : (leading c).used = none := by
  unfold leading
  rfl

theorem leading_foot (c : Cell) : (leading c).foot = aligned c - footerBytes := by
  unfold Cell.foot
  rw [aligned_eq, leading_base]

theorem leading_len (near : pageOffset c ≤ 0xff4) : (leading c).len = 0xff4 - pageOffset c := by
  have low : (c.base &&& 0xfff).toNat = pageOffset c := lowBits_toNat c.base
  unfold Cell.len leading
  dsimp only
  generalize c.base &&& 0xfff = bits at low ⊢
  generalize pageOffset c = offset at low near ⊢
  unfold headerBytes
  bv_omega

/-- The hole of the index that an aligned search finds. -/
structure Picked (s : HeapState ε) (before : List Cell) (c : Cell) (after : List Cell) (n : U32)
    (i : Nat) : Prop where
  wf : WellFormed s.heap s.mem (before ++ c :: after)
  hole : c.used = none
  inside : i < s.heap.index.size.toNat
  found : s.heap.index.item s.mem i = c.base
  small : n.toNat + 20 < 2 ^ 31
  large : alignOffset c + (n.toNat + 20) ≤ c.len

namespace Picked

variable (picked : Picked s before c after n i)

include picked in
theorem noWrap : n.toNat + 20 < 2 ^ 32 := by
  have small := picked.small
  omega

include picked in
theorem hi_lt : c.hi < 2 ^ 32 := picked.wf.layout.hi_lt (by simp)

include picked in
theorem size_eq : blockSize s.mem c.base = c.size := (picked.wf.ok c (by simp)).header.size

include picked in
/-- The aligned address lies in the hole, or a little in front of it. -/
theorem aligned_toNat : (aligned c).toNat + pageOffset c = c.lo + 0xff4 := by
  have low : (c.base &&& 0xfff).toNat = pageOffset c := lowBits_toNat c.base
  have less : pageOffset c < 0x1000 := Nat.mod_lt _ (by decide)
  have large := picked.large
  have room := header_room picked.wf
  have small := picked.hi_lt
  unfold aligned headerBytes
  generalize c.base &&& 0xfff = bits at low ⊢
  unfold alignOffset pageOffset Cell.hi Cell.lo Cell.len at *
  bv_omega

end Picked

/-- The signed test of `find_smallest_hole`, on sizes below `2 ^ 31`. -/
theorem fits_aligned {m : Mem} {size : U32} (small : size.toNat < 2 ^ 31)
    (fitting : fits m size 1 c.base = true) :
    alignOffset c + size.toNat ≤ (blockSize m c.base).toNat :=
  hasRoom_iff.mp (hasRoom_of_fits small (by decide) fitting)

/-- An aligned search finds a hole. -/
theorem picked_of_found {cells : List Cell} (wf : WellFormed s.heap s.mem cells)
    (small : n.toNat + 20 < 2 ^ 31) (found : findSmallestHole (needed n) 1 s = some i) :
    ∃ before c after, cells = before ++ c :: after ∧ Picked s before c after n i := by
  obtain ⟨inside, fitting, -⟩ := findSmallestHole_first found
  have entry : s.heap.index.item s.mem i ∈ items s.heap.index s.mem := mem_items.mpr ⟨i, inside, rfl⟩
  obtain ⟨c, member, hole, base, size⟩ :=
    wf.layout.blockSize_hole (wf.indexed.entries.subset entry)
  have ok := wf.ok c member
  have high := wf.layout.hi_lt member
  obtain ⟨before, after, rfl⟩ := List.append_of_mem member
  rw [← base] at fitting
  have need := needed_toNat (n := n) (by omega)
  have large := fits_aligned (by omega) fitting
  rw [ok.header.size, need] at large
  exact ⟨before, c, after, rfl, wf, hole, inside, base.symm, small, large⟩

theorem alloc_of_found_aligned (pager : Pager ε) (found : findSmallestHole (needed n) 1 s = some i) :
    alloc pager n 1 s = carve n 1 i s := by
  obtain ⟨depth, bound⟩ : ∃ depth, recursionBound = depth + 1 := ⟨2 ^ 32 - 1, rfl⟩
  unfold needed at found
  rw [alloc, bound, allocFrom, found]

/-! ## What is written -/

/-- The size in the header of the block, and of its body. -/
def blockBytes (c : Cell) (n : U32) : U32 :=
  if c.size - needed n < headerBytes + footerBytes then c.size else needed n

def bodyBytes (c : Cell) (n : U32) : U32 :=
  if c.size - needed n < headerBytes + footerBytes then n + (c.size - needed n) else n

theorem bodyBytes_eq (c : Cell) (n : U32) : bodyBytes c n + 20 = blockBytes c n := by
  unfold bodyBytes blockBytes
  split <;> unfold needed headerBytes footerBytes <;> bv_omega

/-- The hole in front, written. -/
def splitMem (c : Cell) (m : Mem) : Mem :=
  writeFooter (writeHeader m c.base 1 (leading c).size) (aligned c - footerBytes) c.base

/-- The block at the aligned address, written. -/
def blockMem (c : Cell) (n : U32) (m : Mem) : Mem :=
  writeFooter (writeHeader (splitMem c m) (aligned c) 0 (blockBytes c n))
    (aligned c + headerBytes + bodyBytes c n) (aligned c)

/-- What is left of the hole behind the block, by the size that is read from its header. -/
def leftOver (c : Cell) (n : U32) (m : Mem) : U32 :=
  c.size - blockSize (splitMem c m) c.base - blockBytes c n

section Carve

variable (picked : Picked s before c after n i)

include picked in
/-- A hole that does not begin on a page. -/
theorem carve_inner (inner : pageOffset c ≠ 0) : carve n 1 i s =
    (addRemainder (aligned c) (bodyBytes c n) (leftOver c n s.mem)
      { s with mem := blockMem c n s.mem }).map fun u => (aligned c + headerBytes, u) := by
  have unaligned : (1 : U8) ≠ 0 ∧ c.base &&& ~~~(0xfffff000 : U32) ≠ 0 :=
    ⟨by decide, (offset_ne_zero_iff c.base).mpr inner⟩
  unfold carve
  simp only [picked.found, picked.size_eq, if_pos unaligned, decide_eq_true_eq, Option.bind_eq_bind,
    Option.map_eq_bind]
  rfl

include picked in
/-- A hole that begins on a page is not split in front. -/
theorem carve_page (page : pageOffset c = 0) (ran : carve n 1 i s = some (p, u)) :
    p = c.base + headerBytes := by
  have begins : ¬ ((1 : U8) ≠ 0 ∧ c.base &&& ~~~(0xfffff000 : U32) ≠ 0) :=
    fun unaligned => (offset_ne_zero_iff c.base).mp unaligned.2 page
  unfold carve at ran
  simp only [picked.found, if_neg begins, Option.bind_eq_bind, Option.bind_eq_some_iff,
    Option.some.injEq, Prod.mk.injEq] at ran
  obtain ⟨t, -, pointer, -⟩ := ran
  exact pointer.symm

end Carve

/-! ## Room for the hole in front -/

/-- Cells in the place of a cell, when nothing else is written to. -/
theorem replace_blocks {row : List Cell} {m : Mem} (wf : WellFormed s.heap s.mem (before ++ c :: after))
    (range : Tiles Cell.lo Cell.len c.lo c.hi row) (agree : AgreeOff c.lo c.hi s.mem m)
    (ok : ∀ d ∈ row, BlockOk m s.heap.endAddress.toNat d) :
    Tiles Cell.lo Cell.len s.heap.startAddress.toNat s.heap.endAddress.toNat
        (before ++ (row ++ after)) ∧
      (∀ d ∈ before ++ (row ++ after), BlockOk m s.heap.endAddress.toNat d) ∧
      Indexed s.heap m (holes (before ++ c :: after)) := by
  obtain ⟨first, last⟩ := tiles_middle.mp wf.tiles
  have low := (wf.layout.bounds c (by simp)).1
  refine ⟨tiles_append.mpr ⟨_, first, tiles_append.mpr ⟨_, range, last⟩⟩, fun d member => ?_,
    wf.indexed.frame (agree.on (Or.inl (Nat.le_trans wf.indexed.area low)))⟩
  have kept : d ∈ before ++ after → BlockOk m s.heap.endAddress.toNat d := by
    intro other
    have old : d ∈ before ++ c :: after := mem_around other
    refine (wf.ok d old).frame (Nat.le_of_lt (wf.layout.hi_lt old)) (agree.on ?_)
    rcases List.mem_append.mp other with early | late
    · exact Or.inl (first.bounds d early).2
    · exact Or.inr (last.bounds d late).1
  simp only [List.mem_append] at member kept
  rcases member with early | here | late
  · exact kept (Or.inl early)
  · exact ok d here
  · exact kept (Or.inr late)

/-- The heap with an aligned block in the place of the hole, between holes. -/
structure AlignedIn (before : List Cell) (c : Cell) (after : List Cell) (n p : U32)
    (heap : Heap) (m : Mem) (front : List Cell) (block : Cell) (rest : List Cell) : Prop where
  range : Tiles Cell.lo Cell.len c.lo c.hi (front ++ block :: rest)
  holes : ∀ d ∈ front ++ rest, d.used = none
  used : block.used = some n
  pointer : p = block.base + headerBytes
  wf : WellFormed heap m (before ++ (front ++ block :: rest ++ after))

section Wide

variable (picked : Picked s before c after n i) (inner : pageOffset c ≠ 0)
  (room : pageOffset c + 20 ≤ 0xff4)

include room in
theorem leading_wide : (leading c).len + pageOffset c = 0xff4 ∧ 20 ≤ (leading c).len := by
  have len := leading_len (c := c) (by omega)
  omega

include picked room in
/-- The hole is cut at the aligned address. -/
theorem cut_bounds : (leading c).lo = c.lo ∧ (leading c).hi = (trailing c).lo ∧
    (trailing c).hi = c.hi ∧ (trailing c).len + (leading c).len = c.len ∧
    n.toNat + 20 ≤ (trailing c).len := by
  obtain ⟨len, wide⟩ := leading_wide room
  have place := picked.aligned_toNat
  have large := picked.large
  have small := picked.hi_lt
  have lo : (leading c).lo = c.lo := by
    unfold Cell.lo
    rw [leading_base]
  have begins : (trailing c).lo = (aligned c).toNat := by
    unfold trailing
    rfl
  have offset : alignOffset c = (leading c).len := by
    unfold alignOffset
    unfold pageOffset at len room
    omega
  have rest : (trailing c).len + (leading c).len = c.len := by
    change (c.size - (leading c).size).toNat + (leading c).size.toNat = c.size.toNat
    unfold Cell.len at *
    bv_omega
  refine ⟨lo, ?_, ?_, rest, by omega⟩ <;> unfold Cell.hi at * <;> omega

theorem splitMem_eq (c : Cell) (m : Mem) : splitMem c m = writeCell (leading c) m := by
  have flag : (leading c).flag = 1 := by
    unfold Cell.flag
    rw [leading_used, if_pos rfl]
  unfold splitMem writeCell
  rw [leading_base, leading_foot, flag]

include picked room in
/-- The hole in front is well formed, and its size is what is subtracted. -/
theorem split_spec (m : Mem) :
    BlockOk (splitMem c m) s.heap.endAddress.toNat (leading c) ∧
      AgreeOff c.lo (trailing c).lo m (splitMem c m) ∧
      blockSize (splitMem c m) c.base = (leading c).size := by
  obtain ⟨lo, cut, -, sum, -⟩ := cut_bounds picked room
  obtain ⟨-, wide⟩ := leading_wide room
  have small := picked.hi_lt
  have bound : (leading c).hi ≤ 2 ^ 32 := by
    unfold Cell.hi at *
    omega
  rw [splitMem_eq]
  have written : BlockOk (writeCell (leading c) m) s.heap.endAddress.toNat (leading c) :=
    writeCell_block wide bound fun k used => by rw [leading_used] at used; cases used
  have agree := writeCell_agreeOff (m := m) wide bound
  rw [lo, cut] at agree
  have size := written.header.size
  rw [leading_base] at size
  exact ⟨written, agree, size⟩

include picked room in
/-- The hole is larger than the block by the hole in front. -/
theorem not_whole : ¬ c.size - needed n < headerBytes + footerBytes := by
  obtain ⟨-, -, -, sum, enough⟩ := cut_bounds picked room
  obtain ⟨-, wide⟩ := leading_wide room
  have need := needed_toNat picked.noWrap
  unfold headerBytes footerBytes
  unfold Cell.len at *
  bv_omega

include picked room in
theorem blockMem_eq (m : Mem) :
    blockMem c n m = writeCell (frontBlock (trailing c) n) (splitMem c m) := by
  have more := not_whole picked room
  have foot := frontBlock_foot (trailing c) n
  unfold blockMem blockBytes bodyBytes
  rw [if_neg more, if_neg more]
  change writeFooter _ ((trailing c).base + headerBytes + n) _ = _
  rw [foot]
  rfl

include picked room in
theorem wide_sizes : blockBytes c n = needed n ∧ bodyBytes c n = n ∧
    leftOver c n s.mem = (trailing c).size - needed n := by
  have more := not_whole picked room
  have size := (split_spec picked room s.mem).2.2
  have block : blockBytes c n = needed n := if_neg more
  have body : bodyBytes c n = n := if_neg more
  refine ⟨block, body, ?_⟩
  unfold leftOver trailing
  rw [size, block]

include picked inner room in
theorem carve_wide : carve n 1 i s =
    (addRemainder (aligned c) n ((trailing c).size - needed n)
      { s with mem := blockMem c n s.mem }).map fun u => (aligned c + headerBytes, u) := by
  obtain ⟨-, body, left⟩ := wide_sizes picked room
  rw [carve_inner picked inner, left, body]

include picked in
theorem aligned_pointer : (aligned c + headerBytes).toNat % 0x1000 = 0 := by
  have place := picked.aligned_toNat
  unfold headerBytes
  unfold pageOffset at place
  generalize aligned c = start at place ⊢
  bv_omega

include picked room in
/-- The hole in front, with other cells in the rest of the hole. -/
theorem lead_blocks {row : List Cell} {m : Mem}
    (range : Tiles Cell.lo Cell.len (trailing c).lo c.hi row)
    (agree : AgreeOff (trailing c).lo c.hi (splitMem c s.mem) m)
    (ok : ∀ d ∈ row, BlockOk m s.heap.endAddress.toNat d) :
    Tiles Cell.lo Cell.len c.lo c.hi (leading c :: row) ∧
      Tiles Cell.lo Cell.len s.heap.startAddress.toNat s.heap.endAddress.toNat
        (before ++ (leading c :: row ++ after)) ∧
      (∀ d ∈ before ++ (leading c :: row ++ after), BlockOk m s.heap.endAddress.toNat d) ∧
      Indexed s.heap m (holes (before ++ c :: after)) := by
  obtain ⟨lo, cut, top, sum, enough⟩ := cut_bounds picked room
  obtain ⟨front, split, -⟩ := split_spec picked room s.mem
  have small := picked.hi_lt
  have inside : c.lo ≤ (trailing c).lo ∧ (trailing c).lo ≤ c.hi := by
    unfold Cell.hi at *
    omega
  have whole : Tiles Cell.lo Cell.len c.lo c.hi (leading c :: row) := by
    refine ⟨lo, ?_⟩
    rw [← lo]
    change Tiles Cell.lo Cell.len (leading c).hi c.hi row
    rw [cut]
    exact range
  have both := (split.mono (Nat.le_refl _) inside.2).trans (agree.mono inside.1 (Nat.le_refl _))
  refine ⟨whole, replace_blocks picked.wf whole both fun d member => ?_⟩
  rcases List.mem_cons.mp member with rfl | behind
  · refine front.frame (by omega) (agree.on (Or.inl ?_))
    rw [cut]
  · exact ok d behind

include picked inner room in
/-- The block reaches to the end of the hole. -/
theorem aligned_exact (exactly : (trailing c).size = needed n) :
    ∃ u, carve n 1 i s = some (aligned c + headerBytes, u) ∧
      AlignedIn before c after n (aligned c + headerBytes) u.heap u.mem [leading c]
        (frontBlock (trailing c) n) [] := by
  obtain ⟨lo, cut, top, sum, enough⟩ := cut_bounds picked room
  have noWrap := picked.noWrap
  have need := needed_toNat noWrap
  have small := picked.hi_lt
  have ends : (frontBlock (trailing c) n).hi = c.hi := by
    rw [← top]
    unfold Cell.hi
    rw [frontBlock_lo, frontBlock_len, ← exactly]
    unfold Cell.len
    rfl
  have wide := frontBlock_wide (c := trailing c) noWrap
  have agree := writeCell_agreeOff (m := splitMem c s.mem) wide (by omega)
  have written : BlockOk (writeCell (frontBlock (trailing c) n) (splitMem c s.mem))
      s.heap.endAddress.toNat (frontBlock (trailing c) n) := by
    refine writeCell_block wide (by omega) fun k used => ?_
    cases used
    exact Nat.le_of_eq need.symm
  rw [← blockMem_eq picked room s.mem] at agree written
  rw [frontBlock_lo, ends] at agree
  have row := (frontBlock (trailing c) n).tiles
  rw [frontBlock_lo, ends] at row
  obtain ⟨range, tiles, ok, indexed⟩ := lead_blocks picked room row agree fun d here => by
      rw [List.mem_singleton.mp here]
      exact written
  refine ⟨{ s with mem := blockMem c n s.mem }, ?_, range, fun d here => ?_, rfl, rfl, tiles, ok, ?_⟩
  · rw [carve_wide picked inner room, exactly, BitVec.sub_self]
    rfl
  · rw [List.mem_singleton.mp here]
    exact leading_used c
  · have block : (frontBlock (trailing c) n).used ≠ none := by
      rw [frontBlock_used]
      exact Option.some_ne_none n
    refine indexed.perm (List.Perm.of_eq ?_)
    simp only [List.cons_append, List.nil_append]
    rw [holes_append, holes_append, holes_cons_hole picked.hole, holes_cons_hole (leading_used c),
      holes_cons_block block, leading_base]

include picked inner room in
/-- A hole is left behind the block. -/
theorem aligned_split (enough : ¬ (trailing c).size - needed n < headerBytes + footerBytes)
    (space : s.heap.index.size.toNat < 0x20000) :
    ∃ u, carve n 1 i s = some (aligned c + headerBytes, u) ∧
      AlignedIn before c after n (aligned c + headerBytes) u.heap u.mem [leading c]
        (frontBlock (trailing c) n) [restHole (trailing c) n] := by
  obtain ⟨lo, cut, top, sum, large⟩ := cut_bounds picked room
  have noWrap := picked.noWrap
  have small : (trailing c).hi < 2 ^ 32 := by
    rw [top]
    exact picked.hi_lt
  have below : (trailing c).hi ≤ s.heap.endAddress.toNat := by
    rw [top]
    exact (picked.wf.layout.bounds c (by simp)).2
  obtain ⟨written, agree⟩ := writeSplit_spec noWrap large small enough (splitMem c s.mem)
    s.heap.endAddress.toNat
  have range := split_tiles noWrap large small
  rw [top] at range agree
  obtain ⟨range, tiles, ok, indexed⟩ := lead_blocks picked room range agree written
  generalize memory : writeCell (restHole (trailing c) n)
    (writeCell (frontBlock (trailing c) n) (splitMem c s.mem)) = m at agree ok indexed
  obtain ⟨m', inserted, listed, listing, frame⟩ := insertHole_spec (s := { s with mem := m })
    indexed space (restHole (trailing c) n).base
  have apart : AgreeOn s.heap.startAddress.toNat s.heap.endAddress.toNat m m' :=
    frame.on (Or.inr picked.wf.indexed.area)
  have base : (trailing c).base = aligned c := by
    unfold trailing
    rfl
  refine ⟨{ s with mem := m', heap := resize s.heap (s.heap.index.size + 1) }, ?_, range,
    fun d here => ?_, frontBlock_used _ _, ?_, tiles, fun d here => ?_, ?_⟩
  · have behind := addRemainder_hole (s := { s with mem := blockMem c n s.mem }) noWrap large below
      enough
    rw [blockMem_eq picked room, memory, base] at behind
    rw [carve_wide picked inner room, blockMem_eq picked room, behind, inserted]
    rfl
  · rcases List.mem_cons.mp here with rfl | late
    · exact leading_used c
    · rw [List.mem_singleton.mp late]
      rfl
  · rw [← base]
    rfl
  · have bounds := tiles.bounds d here
    exact (ok d here).frame (Nat.le_trans bounds.2 (Nat.le_of_lt s.heap.endAddress.isLt))
      (apart.mono bounds.1 bounds.2)
  · refine listed.perm ?_
    have block : (frontBlock (trailing c) n).used ≠ none := by
      rw [frontBlock_used]
      exact Option.some_ne_none n
    have behind : (restHole (trailing c) n).used = none := rfl
    simp only [List.cons_append, List.nil_append]
    rw [holes_append, holes_append, holes_cons_hole picked.hole, holes_cons_hole (leading_used c),
      holes_cons_block block, holes_cons_hole behind, leading_base]
    rw [List.append_cons, List.append_cons (holes before) c.base (_ :: holes after)]
    exact List.perm_middle.symm

end Wide

/-! ## The sizes in the headers -/

/-- The hole behind a block at any address, written. -/
def remainderMem (pos size rest stop : U32) (m : Mem) : Mem :=
  let hole := pos + headerBytes + footerBytes + size
  let m := writeHeader m hole 1 rest
  let footer := hole + rest - footerBytes
  if footer < stop then writeFooter m footer hole else m

theorem addRemainder_ran {pos size rest : U32} (ran : addRemainder pos size rest s = some u)
    (order : s.heap.index.lessThan = some headerLessThan) (room : Room s.heap.index) :
    (rest = 0 → u = s) ∧ (rest ≠ 0 →
      u.heap = resize s.heap (s.heap.index.size + 1) ∧
      AgreeOff s.heap.index.array.toNat
        (s.heap.index.array.toNat + 4 * (s.heap.index.size.toNat + 1))
        (remainderMem pos size rest s.heap.endAddress s.mem) u.mem) := by
  unfold addRemainder at ran
  constructor
  · intro nothing
    rw [if_neg (fun proper => proper nothing)] at ran
    exact (Option.some.inj ran).symm
  · intro some
    rw [if_pos some] at ran
    obtain ⟨m, inserted, -, agree⟩ := insertHole_total
      (s := { s with mem := remainderMem pos size rest s.heap.endAddress s.mem }) order room
      (pos + headerBytes + footerBytes + size)
    cases inserted.symm.trans ran
    exact ⟨rfl, agree⟩

/-- The block keeps its size when the hole behind it is written, however small that is. -/
theorem remainder_block {pos size rest stop : U32} {m : Mem} (wide : 20 ≤ (size + 20).toNat)
    (bound : (size + 20).toNat + 4 ≤ 2 ^ 32) (short : (size + 20).toNat + rest.toNat ≤ 2 ^ 32) :
    blockSize (remainderMem pos size rest stop m) pos = blockSize m pos := by
  have header : blockSize (writeHeader m (pos + headerBytes + footerBytes + size) 1 rest) pos =
      blockSize m pos := by
    unfold headerBytes footerBytes
    apply blockSize_writeHeader_of_apart <;> bv_omega
  have footer : ∀ m, blockSize (writeFooter m
      (pos + headerBytes + footerBytes + size + rest - footerBytes)
      (pos + headerBytes + footerBytes + size)) pos = blockSize m pos := by
    intro m
    unfold headerBytes footerBytes
    apply blockSize_writeFooter_of_apart <;> bv_omega
  unfold remainderMem
  dsimp only
  split
  · rw [footer, header]
  · exact header

theorem remainder_hole {pos size rest stop : U32} {m : Mem} (wide : 20 ≤ rest.toNat) :
    blockSize (remainderMem pos size rest stop m) (pos + headerBytes + footerBytes + size) = rest := by
  have header : ∀ hole, blockSize (writeHeader m hole 1 rest) hole = rest :=
    fun hole => blockSize_setBlockSize
  have footer : ∀ m hole, blockSize (writeFooter m (hole + rest - footerBytes) hole) hole =
      blockSize m hole := by
    intro m hole
    unfold footerBytes
    apply blockSize_writeFooter_of_apart <;> bv_omega
  unfold remainderMem
  dsimp only
  split
  · rw [footer, header]
  · exact header _

theorem blockMem_size {m : Mem} (wide : 20 ≤ (blockBytes c n).toNat) :
    blockSize (blockMem c n m) (aligned c) = blockBytes c n := by
  have size := bodyBytes_eq c n
  have header : ∀ m pos bytes, blockSize (writeHeader m pos 0 bytes) pos = bytes :=
    fun m pos bytes => blockSize_setBlockSize
  unfold blockMem
  generalize bodyBytes c n = body at size ⊢
  generalize aligned c = pos
  rw [blockSize_writeFooter_of_apart, header] <;> unfold headerBytes <;> bv_omega

/-- Without room in front, the split writes a header of size zero, which the block overwrites. -/
theorem splitMem_size {m : Mem} (nothing : (leading c).size.toNat = 0) :
    blockSize (splitMem c m) c.base = (leading c).size := by
  have place := aligned_eq c
  have header : ∀ m pos bytes, blockSize (writeHeader m pos 1 bytes) pos = bytes :=
    fun m pos bytes => blockSize_setBlockSize
  unfold splitMem
  generalize aligned c = pos at place ⊢
  generalize (leading c).size = front at nothing place ⊢
  rw [blockSize_writeFooter_of_apart, header] <;> unfold footerBytes <;> bv_omega

theorem leftOver_wide {m : Mem} (nothing : (leading c).size.toNat = 0) (more : leftOver c n m ≠ 0) :
    20 ≤ (leftOver c n m).toNat := by
  have zero : (leading c).size = 0#32 := BitVec.eq_of_toNat_eq nothing
  unfold leftOver at more ⊢
  rw [splitMem_size nothing, zero, BitVec.sub_zero] at more ⊢
  unfold blockBytes at more ⊢
  split at more
  · rw [BitVec.sub_self] at more
    exact absurd rfl more
  · next enough =>
    rw [if_neg enough]
    unfold headerBytes footerBytes at enough
    bv_omega

theorem blockBytes_wide (picked : Picked s before c after n i) :
    20 ≤ (blockBytes c n).toNat ∧ (blockBytes c n).toNat ≤ c.len := by
  have need := needed_toNat picked.noWrap
  have large := picked.large
  have wide := (picked.wf.ok c (by simp)).wide
  unfold blockBytes
  split
  · exact ⟨wide, Nat.le_refl _⟩
  · omega

/-! ## When it goes wrong -/

section Result

variable {front rest : List Cell} {block : Cell} (picked : Picked s before c after n i)
  (result : AlignedIn before c after n (aligned c + headerBytes) u.heap u.mem front block rest)

include result in
theorem block_base : block.base = aligned c :=
  (BitVec.add_right_inj headerBytes).mp (by rw [BitVec.add_comm, ← result.pointer, BitVec.add_comm])

include result in
theorem result_cells : ∀ d ∈ front ++ block :: rest,
    BlockOk u.mem u.heap.endAddress.toNat d ∧ c.lo ≤ d.lo ∧ d.hi ≤ c.hi := by
  intro d member
  have bounds := result.range.bounds d member
  refine ⟨result.wf.ok d ?_, bounds⟩
  simp only [List.mem_append] at member ⊢
  tauto

include picked result in
/-- The block begins in the hole, at its start or behind a hole. -/
theorem front_room : pageOffset c = 0xff4 ∨ pageOffset c + 20 ≤ 0xff4 := by
  have place := picked.aligned_toNat
  have base : block.lo = (aligned c).toNat := congrArg BitVec.toNat (block_base result)
  obtain ⟨first, -⟩ := tiles_middle.mp result.range
  have order := first.le
  cases front with
  | nil =>
    have same : c.lo = block.lo := first
    omega
  | cons d more =>
    obtain ⟨ok, low, -⟩ := result_cells result d (by simp)
    have bounds := first.bounds d (by simp)
    have wide := ok.wide
    omega

variable (ran : addRemainder (aligned c) (bodyBytes c n) (leftOver c n s.mem)
  { s with mem := blockMem c n s.mem } = some u)

include picked result ran in
/-- What is left of the hole is listed, so there was room in the index. -/
theorem space_of_more (more : leftOver c n s.mem ≠ 0) :
    u.heap = resize s.heap (s.heap.index.size + 1) ∧ s.heap.index.size.toNat < 0x20000 := by
  have indexed := picked.wf.indexed
  have few := indexed.few
  obtain ⟨heap, -⟩ := (addRemainder_ran ran indexed.order indexed.room).2 more
  have few' := result.wf.indexed.few
  rw [heap] at few'
  change (s.heap.index.size + 1).toNat ≤ 0x20000 at few'
  exact ⟨heap, by bv_omega⟩

include picked result ran in
/-- Listing what is left does not change a header of the heap. -/
theorem final_size {h : U32} (low : s.heap.startAddress.toNat ≤ h.toNat)
    (high : h.toNat + 12 ≤ 2 ^ 32) (more : leftOver c n s.mem ≠ 0) :
    blockSize u.mem h = blockSize (remainderMem (aligned c) (bodyBytes c n) (leftOver c n s.mem)
      s.heap.endAddress (blockMem c n s.mem)) h := by
  have indexed := picked.wf.indexed
  have area := indexed.area
  obtain ⟨-, space⟩ := space_of_more picked result ran more
  obtain ⟨-, agree⟩ := (addRemainder_ran ran indexed.order indexed.room).2 more
  refine blockSize_congr (agree.on (Or.inr ?_)) high
  change s.heap.index.array.toNat + 4 * (s.heap.index.size.toNat + 1) ≤ h.toNat
  omega

include picked result ran in
/-- The block has the size that its header was given. -/
theorem block_size (short : (blockBytes c n).toNat + (leftOver c n s.mem).toNat ≤ c.len) :
    block.size = blockBytes c n := by
  have base := block_base result
  obtain ⟨wide, -⟩ := blockBytes_wide picked
  obtain ⟨ok, low, high⟩ := result_cells result block (by simp)
  have start := (picked.wf.layout.bounds c (by simp)).1
  have small := picked.hi_lt
  have room := header_room picked.wf
  have long := ok.wide
  have body := bodyBytes_eq c n
  rw [← ok.header.size, base]
  by_cases more : leftOver c n s.mem = 0
  · rw [(addRemainder_ran ran picked.wf.indexed.order picked.wf.indexed.room).1 more]
    exact blockMem_size wide
  · have lo : block.lo = (aligned c).toNat := congrArg BitVec.toNat base
    have len : c.lo + c.len < 2 ^ 32 := small
    have room' : 0x80000 ≤ c.lo := room.1
    rw [final_size picked result ran (by omega) (by unfold Cell.hi at high; omega) more,
      remainder_block, blockMem_size wide]
    · rw [body]
      exact wide
    · rw [body]
      omega
    · rw [body]
      omega

include picked result in
/-- The index has an entry for each hole in the place of the old one. -/
theorem result_count : u.heap.index.size.toNat + 1 =
    s.heap.index.size.toNat + front.length + rest.length := by
  have block' : block.used ≠ none := by
    rw [result.used]
    exact Option.some_ne_none n
  have old := picked.wf.indexed.entries.length_eq
  have new := result.wf.indexed.entries.length_eq
  have fronts := length_holes fun d member => result.holes d (List.mem_append_left _ member)
  have rests := length_holes fun d member => result.holes d (List.mem_append_right _ member)
  rw [length_items, holes_append, holes_cons_hole picked.hole] at old
  rw [length_items, holes_append, holes_append, holes_append, holes_cons_block block'] at new
  simp only [List.length_append, List.length_cons] at old new
  omega

include picked in
/-- A hole whose body is aligned already has nothing in front of the block. -/
theorem touching_sum (touching : pageOffset c = 0xff4) :
    (leading c).size.toNat = 0 ∧ (aligned c).toNat = c.lo ∧
      (blockBytes c n).toNat + (leftOver c n s.mem).toNat = c.len := by
  have place := picked.aligned_toNat
  obtain ⟨wide, large⟩ := blockBytes_wide picked
  have size : c.len = c.size.toNat := rfl
  have nothing : (leading c).size.toNat = 0 := by
    have len := leading_len (c := c) (by omega)
    unfold Cell.len at len
    omega
  have left : leftOver c n s.mem = c.size - (leading c).size - blockBytes c n := by
    unfold leftOver
    rw [splitMem_size nothing]
  refine ⟨nothing, by omega, ?_⟩
  rw [left]
  generalize (leading c).size = lead at nothing
  bv_omega

include picked result ran in
/-- If the block and one hole fill it, both of their headers are listed. -/
theorem touching_splits (touching : pageOffset c = 0xff4) (first : block.lo = c.lo)
    (len : block.len = (blockBytes c n).toNat) (last : Tiles Cell.lo Cell.len block.hi c.hi rest)
    (more : leftOver c n s.mem ≠ 0) : rest.length ≠ 2 := by
  intro two
  obtain ⟨r, d, rfl⟩ : ∃ r d, rest = [r, d] := List.length_eq_two.mp two
  obtain ⟨nothing, place, sum⟩ := touching_sum picked touching
  obtain ⟨begins, ends⟩ := last
  obtain ⟨ok, low, high⟩ := result_cells result r (by simp)
  have below : r.lo + r.len < 2 ^ 32 := Nat.lt_of_le_of_lt high picked.hi_lt
  have enough := leftOver_wide nothing more
  have hole : r.base = aligned c + headerBytes + footerBytes + bodyBytes c n := by
    have body := bodyBytes_eq c n
    have behind : r.base.toNat = (aligned c).toNat + (blockBytes c n).toNat := by
      rw [place, ← first, ← len]
      exact begins
    unfold Cell.lo at below
    generalize aligned c = pos at behind ⊢
    unfold headerBytes footerBytes
    bv_omega
  have size : r.size = leftOver c n s.mem := by
    have start := (picked.wf.layout.bounds c (by simp)).1
    have long := ok.wide
    rw [← ok.header.size, final_size picked result ran, hole, remainder_hole enough]
    · exact Nat.le_trans start low
    · unfold Cell.lo at below
      omega
    · exact more
  have full : r.len = (leftOver c n s.mem).toNat := congrArg BitVec.toNat size
  have nothing' := Tiles.eq_nil_of_end ends (fun e member => Nat.lt_of_lt_of_le (by decide)
    (result_cells result e (by simp [List.mem_singleton.mp member])).1.wide)
    (by unfold Cell.hi at *; omega)
  cases nothing'

include picked result ran in
/-- A hole whose body is aligned already: the split leaves it in the index, although nothing
of it is a hole. -/
theorem not_touching : pageOffset c ≠ 0xff4 := by
  intro touching
  have count := result_count picked result
  obtain ⟨nothing, place, sum⟩ := touching_sum picked touching
  have base := block_base result
  have lo : block.lo = (aligned c).toNat := congrArg BitVec.toNat base
  have bytes := block_size picked result ran (Nat.le_of_eq sum)
  have len : block.len = (blockBytes c n).toNat := congrArg BitVec.toNat bytes
  obtain ⟨first, last⟩ := tiles_middle.mp result.range
  have none' : front = [] := first.eq_nil_of_end
    (fun d member => Nat.lt_of_lt_of_le (by decide)
      (result_cells result d (List.mem_append_left _ member)).1.wide) (by omega)
  rw [none', List.length_nil] at count
  by_cases more : leftOver c n s.mem = 0
  · -- the block fills the hole, which is still listed
    have same := (addRemainder_ran ran picked.wf.indexed.order picked.wf.indexed.room).1 more
    have empty : rest = [] := last.eq_nil_of_end
      (fun d member => Nat.lt_of_lt_of_le (by decide) (result_cells result d (by simp [member])).1.wide)
      (by
        rw [more] at sum
        unfold Cell.hi
        change _ + 0 = _ at sum
        omega)
    rw [same, empty, List.length_nil] at count
    change s.heap.index.size.toNat + 1 = s.heap.index.size.toNat + 0 + 0 at count
    omega
  · -- the block and one hole fill it
    obtain ⟨heap, space⟩ := space_of_more picked result ran more
    rw [heap] at count
    change (s.heap.index.size + 1).toNat + 1 = _ at count
    exact touching_splits picked result ran touching (lo.trans place) len last more (by bv_omega)

include picked result ran in
/-- The rest behind the block is a hole. -/
theorem rest_room (room : pageOffset c + 20 ≤ 0xff4) :
    (leading c).len + (n.toNat + 20) = c.len ∨
      (leading c).len + (n.toNat + 20) + 20 ≤ c.len ∧ s.heap.index.size.toNat < 0x20000 := by
  obtain ⟨-, cut, top, sum, enough⟩ := cut_bounds picked room
  obtain ⟨bytes, -, left⟩ := wide_sizes picked room
  have need := needed_toNat picked.noWrap
  have size : (trailing c).len = (trailing c).size.toNat := rfl
  by_cases more : leftOver c n s.mem = 0
  · refine Or.inl ?_
    rw [left] at more
    generalize (trailing c).size = tail at size more
    bv_omega
  · obtain ⟨-, space⟩ := space_of_more picked result ran more
    have after : (leftOver c n s.mem).toNat = (trailing c).len - (n.toNat + 20) := by
      rw [left]
      generalize (trailing c).size = tail at size
      bv_omega
    have some : 0 < (leftOver c n s.mem).toNat := by bv_omega
    have blockSize := block_size picked result ran (by rw [bytes]; omega)
    have lo : block.lo = (trailing c).lo := by
      unfold Cell.lo
      rw [block_base result]
      unfold trailing
      rfl
    have len : block.len = n.toNat + 20 := by
      unfold Cell.len
      rw [blockSize, bytes, need]
    obtain ⟨-, last⟩ := tiles_middle.mp result.range
    unfold Cell.hi at top
    cases rest with
    | nil =>
      have ends : block.lo + block.len = c.lo + c.len := last
      omega
    | cons r more =>
      obtain ⟨ok, -, high⟩ := result_cells result r (by simp)
      have begins : r.lo = block.lo + block.len := last.1
      have wide := ok.wide
      unfold Cell.hi at high
      exact Or.inr ⟨by omega, space⟩

end Result

/-! ## The guarantee -/

/-- A page-aligned block for `n` bytes in the place of the hole, on a well-formed heap. -/
def Placed (before : List Cell) (c : Cell) (after : List Cell) (n : U32)
    (returned : Option (U32 × HeapState ε)) : Prop :=
  ∃ p u front block rest, returned = some (p, u) ∧ p.toNat % 0x1000 = 0 ∧
    AlignedIn before c after n p u.heap u.mem front block rest

/-- The hole does not begin on a page, has room for a hole in front of the block, and
behind the block nothing, or room for a hole and in the index for its header. -/
def CanAlign (c : Cell) (n entries : U32) : Prop :=
  let leading := 0xff4 - pageOffset c
  0 < pageOffset c ∧ pageOffset c + 20 ≤ 0xff4 ∧
    (leading + (n.toNat + 20) = c.len ∨
      leading + (n.toNat + 20) + 20 ≤ c.len ∧ entries.toNat < 0x20000)

instance (c : Cell) (n entries : U32) : Decidable (CanAlign c n entries) :=
  inferInstanceAs (Decidable (_ ∧ _ ∧ _))

theorem placed_of_canAlign (picked : Picked s before c after n i)
    (can : CanAlign c n s.heap.index.size) : Placed before c after n (carve n 1 i s) := by
  obtain ⟨offset, room, behind⟩ := can
  have inner : pageOffset c ≠ 0 := by omega
  have len := leading_len (c := c) (by omega)
  have need := needed_toNat picked.noWrap
  obtain ⟨-, -, -, sum, enough⟩ := cut_bounds picked room
  have size : (trailing c).len = (trailing c).size.toNat := rfl
  have pointer := aligned_pointer picked
  rcases behind with full | ⟨more, space⟩
  · obtain ⟨u, ran, result⟩ := aligned_exact picked inner room (by
      apply BitVec.eq_of_toNat_eq
      omega)
    exact ⟨_, u, _, _, _, ran, pointer, result⟩
  · obtain ⟨u, ran, result⟩ := aligned_split picked inner room (by
      unfold headerBytes footerBytes
      generalize (trailing c).size = tail at size
      bv_omega) space
    exact ⟨_, u, _, _, _, ran, pointer, result⟩

theorem canAlign_of_placed (picked : Picked s before c after n i)
    (placed : Placed before c after n (carve n 1 i s)) : CanAlign c n s.heap.index.size := by
  obtain ⟨p, u, front, block, rest, ran, onPage, result⟩ := placed
  have wrap := header_room picked.wf
  have inner : pageOffset c ≠ 0 := by
    intro page
    rw [carve_page picked page ran] at onPage
    unfold pageOffset Cell.lo at page
    unfold headerBytes at onPage
    bv_omega
  rw [carve_inner picked inner] at ran
  obtain ⟨t, added, same⟩ := Option.map_eq_some_iff.mp ran
  obtain ⟨pointer, state⟩ := Prod.mk.inj same
  rw [← pointer, ← state] at result
  have room := (front_room picked result).resolve_left (not_touching picked result added)
  have len := leading_len (c := c) (by omega)
  have behind := rest_room picked result added room
  rw [len] at behind
  exact ⟨by omega, room, behind⟩

/-- Page-aligned requests of the kernel go to `alloc`. -/
theorem kmallocInt_aligned (pager : Pager ε) {k : Kernel ε} {heap : Heap} (made : k.kheap = some heap)
    (phys : Option U32) : kmallocInt pager n 1 phys k =
      (alloc pager n 1 { mem := k.mem, paging := k.paging, heap := heap }).map fun r =>
        (r.1, (k.withHeap r.2).report phys (pager.getPageAddr r.1 r.2.paging)) := by
  have align : (1 : U32).setWidth 8 = (1 : U8) := by decide
  unfold kmallocInt
  rw [made]
  dsimp only
  rw [align]
  cases alloc pager n 1 { mem := k.mem, paging := k.paging, heap := heap } <;> rfl

/-- On a well-formed heap with a hole that the search finds for a page-aligned block of
less than `2 ^ 31` bytes, the block is placed in that hole, on a page, on a heap that is well
formed again, if and only if the hole can be cut there. The kernel's functions return it. -/
theorem alloc_aligned_iff (pager : Pager ε) {cells : List Cell} (wf : WellFormed s.heap s.mem cells)
    (small : n.toNat + 20 < 2 ^ 31)
    (found : findSmallestHole (n + headerBytes + footerBytes) 1 s = some i) :
    ∃ before c after, cells = before ++ c :: after ∧ c.used = none ∧
      s.heap.index.item s.mem i = c.base ∧
      (Placed before c after n (alloc pager n 1 s) ↔ CanAlign c n s.heap.index.size) ∧
      ∀ k : Kernel ε, k.kheap = some s.heap → k.mem = s.mem → k.paging = s.paging →
        kmallocA pager n k = (alloc pager n 1 s).map (fun r => (r.1, k.withHeap r.2)) ∧
        ∀ phys, kmallocAp pager n phys k = (alloc pager n 1 s).map fun r =>
          (r.1, (k.withHeap r.2).report phys (pager.getPageAddr r.1 r.2.paging)) := by
  obtain ⟨before, c, after, row, picked⟩ := picked_of_found wf small found
  refine ⟨before, c, after, row, picked.hole, picked.found, ?_, fun k made mem paging => ?_⟩
  · rw [alloc_of_found_aligned pager found]
    exact ⟨canAlign_of_placed picked, placed_of_canAlign picked⟩
  · have state : { mem := k.mem, paging := k.paging, heap := s.heap } = s := by rw [mem, paging]
    have ran := fun phys => kmallocInt_aligned pager (n := n) made phys
    rw [state] at ran
    exact ⟨ran none, ran⟩

theorem row_singleton {d : Cell} (row : [d] = before ++ c :: after) :
    before = [] ∧ c = d ∧ after = [] := by
  cases before with
  | nil => cases row; exact ⟨rfl, rfl, rfl⟩
  | cons b more => simp at row

/-- The first page-aligned request on the initial kernel heap, whose only hole begins on a page. -/
theorem first_aligned_misplaced : ∃ m heap,
    createHeap 0x300000 0x400000 0xCFFFF000 (fun _ => 0) = some (m, heap) ∧
      WellFormed heap m [wholeHeap 0x300000 0x400000] ∧
      findSmallestHole (16 + headerBytes + footerBytes) 1
        { mem := m, paging := ([] : List U32), heap := heap } = some 0 ∧
      ¬ ∃ before c after, [wholeHeap 0x300000 0x400000] = before ++ c :: after ∧
        Placed before c after 16
          (alloc loggingPager 16 1 { mem := m, paging := [], heap := heap }) := by
  obtain ⟨m, heap, created, -, -, -, wf⟩ :=
    @createHeap_wellFormed 0x300000 0x400000 (by decide) (by decide) 0xCFFFF000 fun _ => 0
  have size := (wf.ok _ List.mem_cons_self).header.size
  have listed : items heap.index m = [(wholeHeap 0x300000 0x400000).base] :=
    List.perm_singleton.mp wf.indexed.entries
  have one : heap.index.size.toNat = 1 := by rw [← length_items (m := m), listed]; rfl
  have item : heap.index.item m 0 = (wholeHeap 0x300000 0x400000).base := by
    rw [← getElem_items (by rw [listed]; decide)]
    simp only [listed, List.getElem_cons_zero]
  have found : findSmallestHole (16 + headerBytes + footerBytes) 1
      { mem := m, paging := ([] : List U32), heap := heap } = some 0 := by
    have fitting : fits m (16 + headerBytes + footerBytes) 1 (wholeHeap 0x300000 0x400000).base := by
      unfold fits
      rw [size]
      decide
    unfold findSmallestHole
    simp only [one, scan, item, fitting]
    rfl
  refine ⟨m, heap, created, wf, found, ?_⟩
  rintro ⟨before, c, after, row, placed⟩
  obtain ⟨before', c', after', row', picked⟩ := picked_of_found wf (by decide) found
  obtain ⟨rfl, rfl, rfl⟩ := row_singleton row
  obtain ⟨rfl, rfl, rfl⟩ := row_singleton row'
  rw [alloc_of_found_aligned loggingPager found] at placed
  exact absurd (canAlign_of_placed picked placed).1 (by decide)

/-! ## A hole behind a block -/

/-- A small block at the start of the kernel heap. -/
def smallBlock : Cell := { base := 0x380000, size := 0x100, used := some 0xec }

/-- The hole behind it. -/
def restOfHeap : Cell := { base := 0x380100, size := 0x9f00, used := none }

/-- A heap of the two. -/
def blockAndHole : HeapState (List U32) :=
  { mem := writeCell restOfHeap (writeCell smallBlock (store32 (fun _ => 0) 0x300000 0x380100))
    paging := []
    heap :=
      { index := { array := 0x300000, size := 1, maxSize := heapIndexSize,
                   lessThan := some headerLessThan }
        startAddress := 0x380000
        endAddress := 0x38a000
        maxAddress := 0xCFFFF000 } }

theorem blockAndHole_wellFormed :
    WellFormed blockAndHole.heap blockAndHole.mem [smallBlock, restOfHeap] := by
  have low : BlockOk blockAndHole.mem blockAndHole.heap.endAddress.toNat smallBlock := by
    refine (writeCell_block (by decide) (by decide) fun n used => ?_).frame (by decide)
      ((writeCell_agreeOff (c := restOfHeap) (by decide) (by decide)).on (by decide))
    cases used
    decide
  have high : BlockOk blockAndHole.mem blockAndHole.heap.endAddress.toNat restOfHeap :=
    writeCell_block (by decide) (by decide) fun n used => by cases used
  refine ⟨⟨rfl, rfl, rfl⟩, fun c member => ?_, rfl, by decide, by decide, by decide, ?_⟩
  · rcases List.mem_cons.mp member with rfl | member
    · exact low
    · rw [List.mem_singleton.mp member]
      exact high
  · exact List.Perm.of_eq (by decide +kernel)

/-- Sixteen bytes in it. -/
theorem alloc_aligned_blockAndHole :
    Placed [smallBlock] restOfHeap [] 16 (alloc loggingPager 16 1 blockAndHole) := by
  obtain ⟨before, c, after, row, hole, -, iff, -⟩ := alloc_aligned_iff loggingPager (n := 16)
    (i := 0) blockAndHole_wellFormed (by decide) (by decide +kernel)
  have cells : before = [smallBlock] ∧ c = restOfHeap ∧ after = [] := by
    rcases before with _ | ⟨b, _ | ⟨d, rest⟩⟩
    · cases row
      exact absurd hole (by decide)
    · cases row
      exact ⟨rfl, rfl, rfl⟩
    · simp at row
  obtain ⟨rfl, rfl, rfl⟩ := cells
  exact iff.mpr (by decide)

end BlessOS.Guarantees.HeapAligned
