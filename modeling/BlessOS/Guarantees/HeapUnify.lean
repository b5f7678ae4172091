import BlessOS.Guarantees.HeapGrow

/-!
# Freeing

`free` marks the block a hole, joins it to the hole on its left and to the hole on
its right, gives pages at the end of the heap back and enters the hole into the
index. Each stage keeps `Joining`: the cells tile the heap, with the hole that is
being made between two stretches of cells, and the index lists the other holes,
and this one too when it was joined to a listed one. `Merging` says besides that
no two holes of a stretch are neighbours. The footers that `free` follows may be
stale; the guards of the stages say when they are not.
-/

set_option autoImplicit false

namespace BlessOS.Guarantees.HeapUnify
open BlessOS.Lib.ByteMemory BlessOS.Lib.Tiling
open BlessOS.Source BlessOS.Source.OrderedArray BlessOS.Source.Kheap
open BlessOS.Guarantees.OrderedArrayItems BlessOS.Guarantees.HeapLayout
open BlessOS.Guarantees.HeapInvariant BlessOS.Guarantees.HeapBounds BlessOS.Guarantees.HeapGrow

variable {ε : Type}

/-! ## The tests of `free` -/

section Tests

variable (m : Mem) (header : U32)

/-- The header that the footer in front of a header names. -/
def leftHeader : U32 := footerHeader m (header - footerBytes)

/-- The header behind a block. -/
def rightHeader : U32 := header + blockSize m header

def leftTest : Prop :=
  footerMagic m (header - footerBytes) = heapMagic ∧ isHole m (leftHeader m header) = 1

def rightTest : Prop := headerMagic m header = heapMagic ∧ isHole m header ≠ 0

instance : Decidable (leftTest m header) := by
  unfold leftTest
  infer_instance

instance : Decidable (rightTest m header) := by
  unfold rightTest
  infer_instance

end Tests

/-- The hole that is being made, `c`, between the cells `before` and `after`, in a
heap that had the cells `cells` when `free` was called in `s₀`. -/
structure Joining (s₀ : HeapState ε) (cells : List Cell) (d : Merge) (s : HeapState ε)
    (before : List Cell) (c : Cell) (after : List Cell) : Prop where
  layout : Layout s.heap s.mem (before ++ c :: after)
  hole : c.used = none
  header : d.header = c.base
  footer : d.footer = c.foot
  indexed : Indexed s.heap s.mem
    (holes before ++ ((if d.doAdd then [] else [c.base]) ++ holes after))
  start : s.heap.startAddress = s₀.heap.startAddress
  limit : s.heap.maxAddress = s₀.heap.maxAddress
  sub : (items s.heap.index s.mem).Sublist (items s₀.heap.index s₀.mem)
  kept : ∀ x ∈ before ++ after, x ∈ cells

/-- The same in a heap of whole pages without adjacent holes. -/
structure Merging (s₀ : HeapState ε) (cells : List Cell) (d : Merge) (s : HeapState ε)
    (before : List Cell) (c : Cell) (after : List Cell) : Prop where
  layout : Layout s.heap s.mem (before ++ c :: after)
  hole : c.used = none
  header : d.header = c.base
  footer : d.footer = c.foot
  indexed : Indexed s.heap s.mem
    (holes before ++ ((if d.doAdd then [] else [c.base]) ++ holes after))
  first : Coalesced before
  last : Coalesced after
  pages : PageBounds s.heap
  start : s.heap.startAddress = s₀.heap.startAddress
  limit : s.heap.maxAddress = s₀.heap.maxAddress
  sub : (items s.heap.index s.mem).Sublist (items s₀.heap.index s₀.mem)
  kept : ∀ x ∈ before ++ after, x ∈ cells

theorem Merging.joining {s₀ s : HeapState ε} {cells before after : List Cell} {d : Merge} {c : Cell}
    (merging : Merging s₀ cells d s before c after) : Joining s₀ cells d s before c after :=
  { merging with }

namespace Joining

variable {s₀ s : HeapState ε} {cells before after : List Cell} {d : Merge} {c : Cell}

theorem merging (joining : Joining s₀ cells d s before c after) (first : Coalesced before)
    (last : Coalesced after) (pages : PageBounds s.heap) : Merging s₀ cells d s before c after :=
  { joining with first := first, last := last, pages := pages }

section Bounds

variable (joining : Joining s₀ cells d s before c after)

include joining in
theorem ok : CellOk s.mem s.heap.endAddress.toNat c := joining.layout.ok c (by simp)

include joining in
theorem hi_lt : c.hi < 2 ^ 32 := joining.layout.hi_lt (c := c) (by simp)

include joining in
theorem bounds : s.heap.startAddress.toNat ≤ c.lo ∧ c.hi ≤ s.heap.endAddress.toNat :=
  joining.layout.bounds c (by simp)

include joining in
theorem foot_toNat : c.foot.toNat + 8 = c.hi :=
  HeapLayout.foot_toNat joining.ok.wide (Nat.le_of_lt joining.hi_lt)

include joining in
/-- Each entry of the index is the header of a hole. -/
theorem entry {h : U32} (listed : h ∈ items s.heap.index s.mem) :
    ∃ x ∈ before ++ c :: after, x.used = none ∧ x.base = h := by
  apply mem_holes.mp
  have present := joining.indexed.entries.subset listed
  rw [holes_append, holes_cons_hole joining.hole]
  split at present <;>
    simp only [List.mem_append, List.mem_cons, List.not_mem_nil] at present ⊢ <;> tauto

include joining in
/-- The index lies in front of all cells. -/
theorem area_le : s.heap.index.array.toNat + 4 * 0x20000 ≤ c.lo :=
  Nat.le_trans joining.indexed.area joining.bounds.1

include joining in
/-- The other cells lie in front of the hole or behind it. -/
theorem apart {x : Cell} (member : x ∈ before ++ after) : x.hi ≤ c.lo ∨ c.hi ≤ x.lo :=
  joining.layout.tiles.apart member

include joining in
/-- They lie in the heap, behind the index. -/
theorem behind_index {x : Cell} (member : x ∈ before ++ after) :
    s.heap.index.array.toNat + 4 * 0x20000 ≤ x.lo := by
  exact Nat.le_trans joining.indexed.area (joining.layout.bounds x (mem_around member)).1

include joining in
/-- The address behind the hole's footer, as `free` computes it. -/
theorem behind_toNat : (d.footer + footerBytes).toNat = c.hi := by
  have address := joining.foot_toNat
  have small := joining.hi_lt
  rw [joining.footer]
  unfold footerBytes
  bv_omega

end Bounds

end Joining

/-! ## The mark -/

/-- The block of `p`, marked a hole. -/
def marked (s : HeapState ε) (p : U32) : Mem := setIsHole s.mem (p - headerBytes) 1

variable {s : HeapState ε} {before after : List Cell} {c : Cell} {p : U32}

/-- The mark is written into the block's header. -/
theorem marked_agreeOff (pointer : p = c.base + headerBytes) (bound : c.base.toNat + 12 ≤ 2 ^ 32) :
    AgreeOff c.base.toNat (c.base.toNat + 12) s.mem (marked s p) := by
  rw [marked, pointer, BitVec.add_sub_cancel]
  exact setIsHole_agreeOff (Nat.le_refl _) (Nat.le_refl _) bound

theorem startFree_spec (layout : Layout s.heap s.mem (before ++ c :: after))
    (indexed : Indexed s.heap s.mem (holes (before ++ c :: after))) (block : c.used ≠ none)
    (pointer : p = c.base + headerBytes) :
    Joining s (before ++ c :: after) (startFree p s).1 (startFree p s).2 before
        { c with used := none } after ∧
      (startFree p s).1.doAdd = true ∧ OwnFooter (marked s p) c ∧
      (startFree p s).2 = { s with mem := marked s p } := by
  have member : c ∈ before ++ c :: after := List.mem_append_right _ List.mem_cons_self
  have ok := layout.ok c member
  have small := layout.hi_lt member
  have bounds := layout.bounds c member
  have wide := ok.wide
  have address := foot_toNat wide (Nat.le_of_lt small)
  have extent : c.base.toNat + c.len < 2 ^ 32 := small
  have low : c.base.toNat + 12 ≤ c.foot.toNat := by
    unfold Cell.hi Cell.lo at address
    omega
  have header : p - headerBytes = c.base := by rw [pointer, BitVec.add_sub_cancel]
  have memory : marked s p = setIsHole s.mem c.base 1 := by rw [marked, header]
  let hole : Cell := { c with used := none }
  have agree : AgreeOff c.base.toNat (c.base.toNat + 12) s.mem (marked s p) :=
    marked_agreeOff pointer (by omega)
  have top : HeaderOk (marked s p) hole := by
    rw [memory]
    exact ⟨(headerMagic_setIsHole (by omega)).trans ok.header.magic, isHole_setIsHole,
      (blockSize_setIsHole (by omega)).trans ok.header.size⟩
  have footer := ok.footer (Or.inl block)
  have tail : AgreeOn c.foot.toNat (c.foot.toNat + 8) s.mem (marked s p) := agree.on (Or.inr low)
  have own : OwnFooter (marked s p) c :=
    ⟨(footerMagic_congr tail (by omega)).trans footer.magic,
      (footerHeader_congr tail (by omega)).trans (footer.own block)⟩
  have good : CellOk (marked s p) s.heap.endAddress.toNat hole := by
    refine ⟨wide, fun k used => (by cases used), top, fun _ => FooterOk.of_own wide top ?_⟩
    exact ⟨own.magic, own.names⟩
  have laid : Layout s.heap (marked s p) (before ++ hole :: after) := by
    rw [List.append_cons] at layout ⊢
    refine layout.replace (by simp) c.tiles hole.tiles (agree.mono (Nat.le_refl _) ?_) fun x here => ?_
    · change c.base.toNat + 12 ≤ c.base.toNat + c.len
      omega
    · rw [List.mem_singleton.mp here]
      exact good
  have untouched : AgreeOn s.heap.index.array.toNat (s.heap.index.array.toNat + 4 * 0x20000) s.mem
      (marked s p) := agree.on (Or.inl (Nat.le_trans indexed.area bounds.1))
  have listed : Indexed s.heap (marked s p) (holes before ++ holes after) := by
    have kept := indexed.frame untouched
    rw [holes_append, holes_cons_block block] at kept
    exact kept
  refine ⟨⟨laid, rfl, header, ?_, listed, rfl, rfl, ?_, ?_⟩, rfl, own, rfl⟩
  · change p - headerBytes + blockSize s.mem (p - headerBytes) - footerBytes = c.foot
    rw [header, ok.header.size]
    rfl
  · change (items s.heap.index (marked s p)).Sublist _
    rw [indexed.items_frame untouched]
  · intro x present
    simp only [List.mem_append, List.mem_cons] at present ⊢
    tauto

/-! ## The left neighbour -/

/-- A hole joined to the one in front of it: the size is in the front header, and the
footer behind names that header. -/
def joinLeft (c : Cell) (m : Mem) : Mem := setBlockSize (setFooterHeader m c.foot c.base) c.base c.size

theorem joinLeft_own {m : Mem} (footer : footerMagic m c.foot = heapMagic) (wide : 20 ≤ c.len)
    (bound : c.hi ≤ 2 ^ 32) : OwnFooter (joinLeft c m) c := by
  have address := foot_toNat wide bound
  have low : c.base.toNat + 12 ≤ c.foot.toNat := by
    unfold Cell.hi Cell.lo at address
    omega
  have behind : AgreeOn c.foot.toNat (c.foot.toNat + 8) (setFooterHeader m c.foot c.base)
      (joinLeft c m) :=
    (setBlockSize_agreeOff (Nat.le_refl _) (Nat.le_refl _) (by omega)).on (Or.inr low)
  constructor
  · rw [footerMagic_congr behind (by omega), footerMagic_setFooterHeader (by omega)]
    exact footer
  · rw [footerHeader_congr behind (by omega)]
    simp only [footerHeader, setFooterHeader, load32_store32_self]

theorem joinLeft_ok {m : Mem} {stop : Nat} (magic : headerMagic m c.base = heapMagic)
    (flag : isHole m c.base = c.flag) (footer : footerMagic m c.foot = heapMagic)
    (wide : 20 ≤ c.len) (bound : c.hi ≤ 2 ^ 32)
    (room : ∀ n, c.used = some n → n.toNat + 20 ≤ c.len) : CellOk (joinLeft c m) stop c := by
  have address := foot_toNat wide bound
  have low : c.base.toNat + 12 ≤ c.foot.toNat := by
    unfold Cell.hi Cell.lo at address
    omega
  have before : AgreeOn c.base.toNat (c.base.toNat + 12) m (setFooterHeader m c.foot c.base) :=
    (setFooterHeader_agreeOff (Nat.le_refl _) (Nat.le_refl _) (by omega)).on (Or.inl low)
  have header : HeaderOk (joinLeft c m) c := by
    refine ⟨?_, ?_, blockSize_setBlockSize⟩
    · rw [joinLeft, headerMagic_setBlockSize (by omega), headerMagic_congr before (by omega)]
      exact magic
    · rw [joinLeft, isHole_setBlockSize (by omega), isHole_congr before (by omega)]
      exact flag
  exact ⟨wide, room, header, fun _ => FooterOk.of_own wide header (joinLeft_own footer wide bound)⟩

theorem joinLeft_agreeOff {m : Mem} (wide : 20 ≤ c.len) (bound : c.hi ≤ 2 ^ 32) :
    AgreeOff c.lo c.hi m (joinLeft c m) := by
  have address := foot_toNat wide bound
  unfold Cell.hi Cell.lo at *
  have footer : AgreeOff c.base.toNat (c.base.toNat + c.len) m
      (setFooterHeader m c.foot c.base) := by
    apply setFooterHeader_agreeOff <;> omega
  have header : AgreeOff c.base.toNat (c.base.toNat + c.len) (setFooterHeader m c.foot c.base)
      (joinLeft c m) := by
    apply setBlockSize_agreeOff <;> omega
  exact footer.trans header

/-- Two neighbours as one hole. -/
def joined (a b : Cell) : Cell := { base := a.base, size := a.size + b.size, used := none }

theorem joined_hi {a b : Cell} (adjacent : a.hi = b.lo) (small : b.hi < 2 ^ 32) :
    (joined a b).len = a.len + b.len ∧ (joined a b).hi = b.hi ∧ (joined a b).foot = b.foot := by
  unfold Cell.hi at *
  have len : (joined a b).len = a.len + b.len := by
    change (a.size + b.size).toNat = a.size.toNat + b.size.toNat
    unfold Cell.lo Cell.len at *
    bv_omega
  refine ⟨len, ?_, ?_⟩
  · rw [len]
    change a.lo + (a.len + b.len) = _
    omega
  · have base : a.base + a.size = b.base := by
      unfold Cell.lo Cell.len at *
      bv_omega
    change a.base + (a.size + b.size) - footerBytes = b.base + b.size - footerBytes
    rw [← BitVec.add_assoc, base]

section Left

variable {s₀ : HeapState ε} {cells front : List Cell} {d : Merge} {l : Cell}

theorem unifyLeft_no {d : Merge} (no : ¬ leftTest s.mem d.header) : unifyLeft d s = (d, s) := by
  unfold unifyLeft
  exact if_neg no

/-- What the test leads to when the footer in front is that of a neighbour. -/
theorem unifyLeft_joins {d : Merge} (yes : leftTest s.mem d.header)
    (names : leftHeader s.mem d.header = l.base) (header : d.header = c.base)
    (footer : d.footer = c.foot) (sizel : blockSize s.mem l.base = l.size)
    (sizec : blockSize s.mem c.base = c.size) (adjacent : l.hi = c.lo) (wide : 20 ≤ c.len)
    (widel : 20 ≤ l.len) (small : c.hi < 2 ^ 32) :
    unifyLeft d s = ({ d with header := l.base, doAdd := false },
      { s with mem := joinLeft (joined l c) s.mem }) := by
  obtain ⟨-, -, foot⟩ := joined_hi adjacent small
  have address := foot_toNat wide (Nat.le_of_lt small)
  have apart : l.base.toNat + 12 ≤ c.foot.toNat := by
    unfold Cell.hi Cell.lo at *
    omega
  have named : AgreeOn l.base.toNat (l.base.toNat + 12) s.mem
      (setFooterHeader s.mem c.foot l.base) :=
    (setFooterHeader_agreeOff (Nat.le_refl _) (Nat.le_refl _) (by omega)).on (Or.inl apart)
  have size : blockSize (setFooterHeader s.mem c.foot l.base) l.base = l.size :=
    (blockSize_congr named (by omega)).trans sizel
  unfold unifyLeft
  refine (if_pos yes).trans ?_
  unfold leftHeader at names
  rw [names, footer, header]
  dsimp only
  rw [size, sizec]
  unfold joinLeft
  rw [foot]
  rfl

/-- Two neighbours are joined where they are. -/
theorem joined_layout {heap : Heap} {m m' : Mem} {a b : Cell}
    (layout : Layout heap m (before ++ a :: b :: after)) (adjacent : a.hi = b.lo)
    (agree : AgreeOff a.lo b.hi m m') (ok : CellOk m' heap.endAddress.toNat (joined a b)) :
    Layout heap m' (before ++ joined a b :: after) := by
  have small := layout.hi_lt (c := b) (by simp)
  obtain ⟨-, top, -⟩ := joined_hi adjacent small
  have ends : a.lo + a.len + b.len = b.hi := congrArg (· + b.len) adjacent
  have old : Layout heap m (before ++ [a, b] ++ after) := by simpa using layout
  have replaced : Layout heap m' (before ++ [joined a b] ++ after) := by
    refine old.replace (by simp) (p := a.lo) (q := b.hi) ⟨rfl, adjacent.symm, ends⟩ ⟨rfl, top⟩ agree
      fun x here => ?_
    rw [List.mem_singleton.mp here]
    exact ok
  simpa using replaced

/-- The neighbour on the left ends where the hole begins, and has a footer. -/
theorem left_neighbour (layout : Layout s.heap s.mem (front ++ [l] ++ c :: after)) :
    l.hi = c.lo ∧ CellOk s.mem s.heap.endAddress.toNat l ∧ FooterOk s.mem l := by
  obtain ⟨first, -⟩ := tiles_middle.mp layout.tiles
  obtain ⟨-, ends⟩ := tiles_middle.mp first
  have adjacent : l.hi = c.lo := ends
  have member : c ∈ front ++ [l] ++ c :: after := List.mem_append_right _ List.mem_cons_self
  have wide := (layout.ok c member).wide
  have top := (layout.bounds c member).2
  have ok := layout.ok l (by simp)
  refine ⟨adjacent, ok, ok.footer (Or.inr ?_)⟩
  unfold Cell.hi at top adjacent ⊢
  omega

/-- The footer that `free` looks at on the left is the neighbour's. -/
theorem left_foot (adjacent : l.hi = c.lo) : c.base - footerBytes = l.foot := by
  have small := c.base.isLt
  unfold Cell.foot footerBytes
  unfold Cell.hi Cell.lo Cell.len at *
  bv_omega

/-- When the test fails there is no hole on the left. -/
theorem left_block (layout : Layout s.heap s.mem (before ++ c :: after))
    (no : ¬ leftTest s.mem c.base) : ∀ x ∈ before.getLast?, x.used ≠ none := by
  rcases List.eq_nil_or_concat' before with rfl | ⟨front, l, rfl⟩
  · intro x present
    cases present
  · intro x present hole
    rw [List.getLast?_concat, Option.mem_some_iff] at present
    subst present
    obtain ⟨adjacent, ok, footer⟩ := left_neighbour layout
    apply no
    unfold leftTest leftHeader
    rw [left_foot adjacent]
    refine ⟨footer.magic, footer.flag.trans ?_⟩
    unfold Cell.flag
    rw [if_pos hole]

/-- A listed hole that ends where the cell begins is its left neighbour. -/
theorem left_hole (layout : Layout s.heap s.mem (before ++ c :: after)) {h : U32}
    (listed : h ∈ holes before ++ holes after)
    (ends : h.toNat + (blockSize s.mem h).toNat = c.lo) :
    ∃ front l, before = front ++ [l] ∧ l.used = none ∧ l.base = h := by
  obtain ⟨first, last⟩ := tiles_middle.mp layout.tiles
  have proper : ∀ x ∈ before ++ c :: after, 0 < x.len := fun x member => by
    have wide := (layout.ok x member).wide
    omega
  have listed' : h ∈ holes (before ++ after) := by rwa [holes_append]
  obtain ⟨l, member, hole, base⟩ := mem_holes.mp listed'
  have present : l ∈ before ++ c :: after := mem_around member
  have ends' : l.lo + l.len = c.lo := by
    rw [← base, (layout.ok l present).header.size] at ends
    exact ends
  rcases List.mem_append.mp member with early | late
  · obtain ⟨front, back, rfl⟩ := List.append_of_mem early
    obtain ⟨-, behind⟩ := tiles_middle.mp first
    have nothing : back = [] := by
      refine behind.eq_nil_of_end (fun x inside => proper x ?_) ends'
      simp only [List.mem_append, List.mem_cons]
      tauto
    exact ⟨front, l, by rw [nothing], hole, base⟩
  · have bounds := last.bounds l late
    have positive := proper l present
    omega

/-- Joining the hole to a listed one on its left. -/
theorem unifyLeft_yes {d : Merge} (joining : Joining s₀ cells d s (front ++ [l]) c after)
    (fresh : d.doAdd = true) (magic : footerMagic s.mem c.foot = heapMagic) (hole : l.used = none)
    (yes : leftTest s.mem d.header) (names : leftHeader s.mem d.header = l.base) :
    Joining s₀ cells (unifyLeft d s).1 (unifyLeft d s).2 front (joined l c) after ∧
      (unifyLeft d s).1.doAdd = false ∧
      (unifyLeft d s).2 = { s with mem := joinLeft (joined l c) s.mem } := by
  obtain ⟨layout, chole, header, footer, indexed, start, limit, sub, kept⟩ := joining
  obtain ⟨adjacent, ok, -⟩ := left_neighbour layout
  have member : c ∈ front ++ [l] ++ c :: after := List.mem_append_right _ List.mem_cons_self
  have okc := layout.ok c member
  have small := layout.hi_lt member
  have boundsl := layout.bounds l (by simp)
  obtain ⟨len, top, foot⟩ := joined_hi adjacent small
  have wide := ok.wide
  have apart : l.lo + l.len = c.lo := adjacent
  have good : CellOk (joinLeft (joined l c) s.mem) s.heap.endAddress.toNat (joined l c) := by
    refine joinLeft_ok ok.header.magic (ok.header.flag.trans ?_) (foot ▸ magic) (by omega) (by omega)
      fun k used => by cases used
    unfold Cell.flag
    rw [if_pos hole]
    rfl
  have agree : AgreeOff l.lo c.hi s.mem (joinLeft (joined l c) s.mem) := by
    have written := joinLeft_agreeOff (m := s.mem) (c := joined l c) (by omega) (by omega)
    rw [top] at written
    exact written
  have laid : Layout s.heap (joinLeft (joined l c) s.mem) (front ++ joined l c :: after) := by
    rw [List.append_assoc] at layout
    exact joined_layout layout adjacent agree good
  have untouched : AgreeOn s.heap.index.array.toNat (s.heap.index.array.toNat + 4 * 0x20000) s.mem
      (joinLeft (joined l c) s.mem) := agree.on (Or.inl (Nat.le_trans indexed.area boundsl.1))
  rw [unifyLeft_joins yes names header footer ok.header.size okc.header.size adjacent okc.wide wide
    small]
  refine ⟨⟨laid, rfl, rfl, ?_, ?_, start, limit, ?_, ?_⟩, rfl, rfl⟩
  · exact footer.trans foot.symm
  · have listed := indexed.frame untouched
    rw [fresh, holes_append, holes_cons_hole hole, List.append_assoc] at listed
    exact listed
  · change (items s.heap.index (joinLeft (joined l c) s.mem)).Sublist _
    rw [indexed.items_frame untouched]
    exact sub
  · intro x present
    apply kept
    simp only [List.mem_append] at present ⊢
    tauto

/-- A footer on the left that names a hole names a listed one that ends here. -/
def LeftListed (index : OrderedArray) (m : Mem) (header : U32) : Prop :=
  leftTest m header → leftHeader m header ∈ items index m ∧
    (leftHeader m header).toNat + (blockSize m (leftHeader m header)).toNat = header.toNat

instance (index : OrderedArray) (m : Mem) (header : U32) :
    Decidable (LeftListed index m header) := by
  unfold LeftListed
  infer_instance

/-- The header of the hole once it is joined to the left. -/
def mergedHeader (m : Mem) (header : U32) : U32 :=
  if leftTest m header then leftHeader m header else header

/-- The cells in front of the hole once it is joined to the left. -/
def LeftOf (m : Mem) (header : U32) (before front : List Cell) : Prop :=
  if leftTest m header then ∃ l, before = front ++ [l] ∧ l.used = none else before = front

/-- What the caller had in front is there still. -/
theorem LeftOf.payloads {m : Mem} {header : U32} (side : LeftOf m header before front) :
    payloads front = payloads before := by
  unfold LeftOf at side
  split at side
  · obtain ⟨l, rfl, hole⟩ := side
    rw [payloads_append, payloads_cons_hole hole]
    exact (List.append_nil _).symm
  · rw [side]

theorem LeftOf.subset {m : Mem} {header : U32} (side : LeftOf m header before front) {x : Cell}
    (member : x ∈ before) (block : x.used ≠ none) : x ∈ front := by
  unfold LeftOf at side
  split at side
  · obtain ⟨l, rfl, hole⟩ := side
    rcases List.mem_append.mp member with early | last
    · exact early
    · rw [List.mem_singleton.mp last] at block
      exact absurd hole block
  · rwa [← side]

/-- In a heap without adjacent holes, a block is on the left in the end. -/
theorem LeftOf.coalesced (side : LeftOf s.mem c.base before front)
    (layout : Layout s.heap s.mem (before ++ c :: after)) (chain : Coalesced before) :
    Coalesced front ∧ ∀ x ∈ front.getLast?, x.used ≠ none := by
  unfold LeftOf at side
  split at side
  · obtain ⟨l, rfl, hole⟩ := side
    rw [← List.append_nil (front ++ [l]), List.append_assoc] at chain
    obtain ⟨first, -, left, -⟩ := coalesced_middle.mp chain
    exact ⟨first, fun x last => (left x last).resolve_right fun block => block hole⟩
  · next no =>
    rw [← side]
    exact ⟨chain, left_block layout no⟩

theorem unifyLeft_spec {d : Merge} (joining : Joining s₀ cells d s before c after)
    (fresh : d.doAdd = true) (own : OwnFooter s.mem c)
    (listed : LeftListed s.heap.index s.mem c.base) :
    ∃ front e m, Joining s₀ cells (unifyLeft d s).1 (unifyLeft d s).2 front e after ∧
      LeftOf s.mem c.base before front ∧ e.lo ≤ c.lo ∧ e.hi = c.hi ∧
      e.base = mergedHeader s.mem c.base ∧
      ((unifyLeft d s).1.doAdd = true ↔ ¬ leftTest s.mem c.base) ∧
      (unifyLeft d s).2 = { s with mem := m } ∧ AgreeOff e.lo c.hi s.mem m ∧ OwnFooter m e := by
  have header := joining.header
  unfold mergedHeader LeftOf
  by_cases test : leftTest s.mem c.base
  · obtain ⟨entry, ends⟩ := listed test
    have present := joining.indexed.entries.subset entry
    rw [fresh] at present
    obtain ⟨front, l, rfl, hole, base⟩ := left_hole joining.layout present ends
    obtain ⟨joining', added, result⟩ :=
      unifyLeft_yes joining fresh own.magic hole (header ▸ test) (header ▸ base.symm)
    obtain ⟨adjacent, ok, -⟩ := left_neighbour joining.layout
    obtain ⟨len, top, foot⟩ := joined_hi adjacent joining.hi_lt
    have wide := ok.wide
    have small := joining.hi_lt
    have own' : OwnFooter (joinLeft (joined l c) s.mem) (joined l c) :=
      joinLeft_own (foot ▸ own.magic) (by omega) (by omega)
    have written := joinLeft_agreeOff (m := s.mem) (c := joined l c) (by omega) (by omega)
    rw [top] at written
    refine ⟨front, joined l c, _, joining', ?_, ?_, top, ?_, ?_, result, written, own'⟩
    · rw [if_pos test]
      exact ⟨l, rfl, hole⟩
    · rw [← adjacent]
      exact Nat.le_add_right _ _
    · rw [if_pos test]
      exact base
    · simp [added, test]
  · rw [unifyLeft_no (header ▸ test)]
    refine ⟨before, c, s.mem, joining, ?_, Nat.le_refl _, rfl, ?_, ?_, rfl, AgreeOff.refl _ _ _,
      own⟩
    · rw [if_neg test]
    · rw [if_neg test]
    · simp [fresh, test]

end Left

/-! ## The right neighbour -/

/-- A listed header is found in the index. -/
theorem indexOf_spec {h : U32} (listed : h ∈ items s.heap.index s.mem) :
    indexOf h s < s.heap.index.size.toNat ∧ s.heap.index.item s.mem (indexOf h s) = h := by
  obtain ⟨-, limit, early, stops⟩ :=
    scan_spec (fun i => s.heap.index.item s.mem i != h) s.heap.index.size.toNat 0
  obtain ⟨j, inside, found⟩ := mem_items.mp listed
  unfold indexOf
  rcases Nat.lt_or_ge (scan (fun i => s.heap.index.item s.mem i != h) s.heap.index.size.toNat 0)
    s.heap.index.size.toNat with short | whole
  · refine ⟨short, ?_⟩
    have stopped := stops (by omega)
    simpa using stopped
  · have tested := early j (Nat.zero_le j) (by omega)
    rw [found] at tested
    simp at tested

section Right

variable {s₀ : HeapState ε} {cells back : List Cell} {d : Merge} {r : Cell}

/-- The neighbour on the right begins where the hole ends. -/
theorem right_neighbour (layout : Layout s.heap s.mem (before ++ c :: r :: back)) :
    c.hi = r.lo ∧ CellOk s.mem s.heap.endAddress.toNat r := by
  obtain ⟨-, last⟩ := tiles_middle.mp layout.tiles
  exact ⟨last.1.symm, layout.ok r (by simp)⟩

/-- A listed header in the hole behind its own, or at its end, is that of its right neighbour. -/
theorem listed_right (joining : Joining s₀ cells d s before c after) {h : U32}
    (listed : h ∈ items s.heap.index s.mem) (low : c.lo < h.toNat) (high : h.toNat ≤ c.hi) :
    ∃ r back, after = r :: back ∧ r.used = none ∧ r.base = h := by
  obtain ⟨x, member, hole, base⟩ := joining.entry listed
  obtain ⟨first, last⟩ := tiles_middle.mp joining.layout.tiles
  have lo : x.lo = h.toNat := by
    rw [← base]
    rfl
  have widex := (joining.layout.ok x member).wide
  rcases List.mem_append.mp member with early | late
  · have bounds := first.bounds x early
    omega
  · rcases List.mem_cons.mp late with rfl | late
    · omega
    · cases after with
      | nil => cases late
      | cons r back =>
        refine ⟨r, back, rfl, ?_⟩
        obtain ⟨adjacent, rest⟩ := last
        rcases List.mem_cons.mp late with rfl | later
        · exact ⟨hole, base⟩
        · have bounds := rest.bounds x later
          have wider := (joining.layout.ok r (by simp)).wide
          unfold Cell.hi at high
          omega

/-- A listed header behind the hole is that of its right neighbour. -/
theorem right_hole (joining : Joining s₀ cells d s before c after) {h : U32}
    (listed : h ∈ items s.heap.index s.mem) (behind : h.toNat = c.hi) :
    ∃ r back, after = r :: back ∧ r.used = none ∧ r.base = h := by
  have wide := joining.ok.wide
  refine listed_right joining listed ?_ (Nat.le_of_eq behind)
  unfold Cell.hi at behind
  omega

theorem unifyRight_no {d : Merge} (no : ¬ rightTest s.mem (d.footer + footerBytes)) :
    unifyRight d s = ({ d with testHeader := d.footer + footerBytes }, s) := by
  unfold unifyRight
  exact if_neg no

/-- What the test leads to when the header behind is that of a neighbour. -/
theorem unifyRight_joins {d : Merge} (yes : rightTest s.mem (d.footer + footerBytes))
    (place : d.footer + footerBytes = r.base) (header : d.header = c.base)
    (sizec : blockSize s.mem c.base = c.size) (sizer : HeaderOk s.mem r) (adjacent : c.hi = r.lo)
    (low : 12 ≤ c.lo) (wide : 20 ≤ c.len) (small : r.hi < 2 ^ 32) :
    let t : HeapState ε := { s with mem := setBlockSize s.mem c.base (joined c r).size }
    unifyRight d s =
      ({ d with testHeader := r.base, footer := r.foot }, t.removeHole (indexOf r.base t)) := by
  have bound : c.base.toNat + 12 ≤ r.lo := by
    unfold Cell.hi Cell.lo at *
    omega
  have place' : r.lo ≤ 2 ^ 32 := by
    unfold Cell.hi at small
    omega
  have resized : AgreeOff c.base.toNat (c.base.toNat + 12) s.mem
      (setBlockSize s.mem c.base (joined c r).size) :=
    setBlockSize_agreeOff (Nat.le_refl _) (Nat.le_refl _) (by omega)
  have size : blockSize (setBlockSize s.mem c.base (joined c r).size) r.base = r.size := by
    rw [(header_behind resized low bound).2.2]
    exact sizer.size
  intro t
  unfold unifyRight
  refine (if_pos yes).trans ?_
  rw [place, header, sizec, sizer.size]
  dsimp only
  rw [show setBlockSize s.mem c.base (c.size + r.size) = t.mem from rfl, size]
  rfl

/-- When the test fails there is no hole on the right. -/
theorem right_block (layout : Layout s.heap s.mem (before ++ c :: after)) {h : U32}
    (behind : h.toNat = c.hi) (no : ¬ rightTest s.mem h) : ∀ x ∈ after.head?, x.used ≠ none := by
  intro x present hole
  cases after with
  | nil => cases present
  | cons r back =>
    rw [List.head?_cons, Option.mem_some_iff] at present
    subst present
    obtain ⟨adjacent, ok⟩ := right_neighbour layout
    have base : h = r.base := BitVec.eq_of_toNat_eq (behind.trans adjacent)
    apply no
    rw [base]
    refine ⟨ok.header.magic, ?_⟩
    rw [ok.header.flag]
    unfold Cell.flag
    rw [if_pos hole]
    decide

/-- The joined hole ends with the footer of the right one, if that has one. -/
theorem joinRight_ok {m : Mem} {stop : Nat} (okc : CellOk m stop c) (okr : CellOk m stop r)
    (chole : c.used = none) (rhole : r.used = none) (adjacent : c.hi = r.lo) (small : r.hi < 2 ^ 32) :
    CellOk (setBlockSize m c.base (joined c r).size) stop (joined c r) := by
  obtain ⟨len, top, foot⟩ := joined_hi adjacent small
  have widec := okc.wide
  have wider := okr.wide
  have address := foot_toNat wider (Nat.le_of_lt small)
  have apart : c.base.toNat + 12 ≤ r.lo := by
    rw [← adjacent]
    unfold Cell.hi Cell.lo
    omega
  have flags : r.flag = (joined c r).flag := by
    unfold Cell.flag
    rw [if_pos rhole]
    rfl
  have agree : AgreeOff c.base.toNat (c.base.toNat + 12) m
      (setBlockSize m c.base (joined c r).size) :=
    setBlockSize_agreeOff (Nat.le_refl _) (Nat.le_refl _) (by unfold Cell.hi at small; omega)
  have bound : c.base.toNat + 12 ≤ 2 ^ 32 := by
    unfold Cell.hi at small
    omega
  refine ⟨by omega, fun k used => (by cases used), ⟨?_, ?_, blockSize_setBlockSize⟩, fun applies => ?_⟩
  · exact (headerMagic_setBlockSize bound).trans okc.header.magic
  · refine (isHole_setBlockSize bound).trans (okc.header.flag.trans ?_)
    unfold Cell.flag
    rw [if_pos chole]
    rfl
  · rw [top] at applies
    have full : r.used ≠ none ∨ r.hi ≠ stop := Or.inr (applies.resolve_left fun block => block rfl)
    obtain ⟨magic, low, high, flag, -⟩ :=
      (okr.footer full).frame wider (Nat.le_of_lt small) (agree.on (Or.inr apart))
    rw [← foot] at magic low high flag
    refine ⟨magic, ?_, ?_, flag.trans flags, fun block => absurd rfl block⟩
    · refine Nat.le_trans ?_ low
      change c.lo ≤ r.lo
      rw [← adjacent]
      exact Nat.le_add_right _ _
    · rw [top]
      exact high

/-- Joining the hole to the one on its right, which leaves the index. -/
theorem unifyRight_yes {d : Merge} (joining : Joining s₀ cells d s before c (r :: back))
    (hole : r.used = none) (yes : rightTest s.mem (d.footer + footerBytes)) :
    ∃ m size, Joining s₀ cells (unifyRight d s).1 (unifyRight d s).2 before (joined c r) back ∧
      (unifyRight d s).1.doAdd = d.doAdd ∧
      (unifyRight d s).2 = { s with mem := m, heap := resize s.heap size } ∧
      size.toNat < s.heap.index.size.toNat ∧
      ∀ x ∈ before ++ back, AgreeOn x.lo x.hi s.mem m := by
  have behind := joining.behind_toNat
  obtain ⟨layout, chole, header, footer, indexed, start, limit, sub, kept⟩ := joining
  obtain ⟨adjacent, okr⟩ := right_neighbour layout
  have okc := layout.ok c (by simp)
  have small := layout.hi_lt (c := r) (by simp)
  have boundsc := layout.bounds c (by simp)
  obtain ⟨len, top, foot⟩ := joined_hi adjacent small
  have testHeader : d.footer + footerBytes = r.base := BitVec.eq_of_toNat_eq (behind.trans adjacent)
  have widec := okc.wide
  have wider := okr.wide
  have apart : c.lo + c.len = r.lo := adjacent
  let m₁ := setBlockSize s.mem c.base (joined c r).size
  have good : CellOk m₁ s.heap.endAddress.toNat (joined c r) :=
    joinRight_ok okc okr chole hole adjacent small
  have agree : AgreeOff c.lo r.hi s.mem m₁ := by
    unfold Cell.hi Cell.lo at *
    apply setBlockSize_agreeOff <;> omega
  have laid : Layout s.heap m₁ (before ++ joined c r :: back) :=
    joined_layout layout adjacent agree good
  have untouched : AgreeOn s.heap.index.array.toNat (s.heap.index.array.toNat + 4 * 0x20000) s.mem m₁ :=
    agree.on (Or.inl (Nat.le_trans indexed.area boundsc.1))
  have listed : Indexed s.heap m₁ (r.base :: (holes before ++
      ((if d.doAdd then [] else [c.base]) ++ holes back))) := by
    refine (indexed.frame untouched).perm ?_
    rw [holes_cons_hole hole, ← List.append_assoc, ← List.append_assoc]
    exact List.perm_middle
  have entry : r.base ∈ items s.heap.index m₁ := listed.entries.symm.subset List.mem_cons_self
  let s₁ : HeapState ε := { s with mem := m₁ }
  obtain ⟨inside, found⟩ := indexOf_spec (s := s₁) entry
  obtain ⟨m, removed, indexed', listing, agree'⟩ := removeHole_spec (s := s₁) listed inside found
  have area := indexed.area
  have result : unifyRight d s = ({ d with testHeader := r.base, footer := r.foot },
      { s with mem := m, heap := resize s.heap (s.heap.index.size - 1) }) :=
    (unifyRight_joins yes testHeader header okc.header.size okr.header adjacent (by omega) widec
      small).trans (congrArg _ removed)
  rw [result]
  have final : Layout s.heap m (before ++ joined c r :: back) :=
    laid.frame (agree'.on (Or.inr indexed.area))
  have joining' : Joining s₀ cells { d with testHeader := r.base, footer := r.foot }
      { s with mem := m, heap := resize s.heap (s.heap.index.size - 1) } before (joined c r) back := by
    refine ⟨⟨final.tiles, final.ok⟩, rfl, header, foot.symm, indexed', start, limit, ?_, ?_⟩
    · change (items (resize s.heap (s.heap.index.size - 1)).index m).Sublist _
      rw [listing]
      refine (List.eraseIdx_sublist _ _).trans ?_
      change (items s.heap.index m₁).Sublist _
      rw [indexed.items_frame untouched]
      exact sub
    · intro x present
      apply kept
      simp only [List.mem_append, List.mem_cons] at present ⊢
      tauto
  refine ⟨m, s.heap.index.size - 1, joining', rfl, rfl, ?_, fun x member => ?_⟩
  · have nonempty : indexOf r.base s₁ < s.heap.index.size.toNat := inside
    bv_omega
  · have apart := joining'.apart member
    rw [top] at apart
    exact (agree.on apart).trans (agree'.on (Or.inr (joining'.behind_index member)))

/-- No entry lies in the hole behind its header, nor at its end. -/
theorem not_listed (joining : Joining s₀ cells d s before c after)
    (block : ∀ x ∈ after.head?, x.used ≠ none) {h : U32} (low : c.lo < h.toNat)
    (high : h.toNat ≤ c.hi) : h ∉ items s.heap.index s.mem := by
  intro listed
  obtain ⟨r, back, rfl, hole, -⟩ := listed_right joining listed low high
  exact block r rfl hole

/-- The cells behind the hole once it is joined to the right. -/
def RightOf (m : Mem) (h : U32) (after back : List Cell) : Prop :=
  if rightTest m h then ∃ r, after = r :: back ∧ r.used = none else after = back

theorem RightOf.payloads {m : Mem} {h : U32} (side : RightOf m h after back) :
    payloads back = payloads after := by
  unfold RightOf at side
  split at side
  · obtain ⟨r, rfl, hole⟩ := side
    exact (payloads_cons_hole hole).symm
  · rw [side]

theorem RightOf.subset {m : Mem} {h : U32} (side : RightOf m h after back) {x : Cell}
    (member : x ∈ after) (block : x.used ≠ none) : x ∈ back := by
  unfold RightOf at side
  split at side
  · obtain ⟨r, rfl, hole⟩ := side
    rcases List.mem_cons.mp member with rfl | late
    · exact absurd hole block
    · exact late
  · rwa [← side]

theorem RightOf.coalesced {h : U32} (side : RightOf s.mem h after back)
    (layout : Layout s.heap s.mem (before ++ c :: after)) (behind : h.toNat = c.hi)
    (chain : Coalesced after) : Coalesced back ∧ ∀ x ∈ back.head?, x.used ≠ none := by
  unfold RightOf at side
  split at side
  · obtain ⟨r, rfl, hole⟩ := side
    obtain ⟨right, last⟩ := List.isChain_cons.mp chain
    exact ⟨last, fun x first => (right x first).resolve_left fun block => block hole⟩
  · next no =>
    rw [← side]
    exact ⟨chain, right_block layout behind no⟩

theorem unifyRight_spec {d : Merge} (joining : Joining s₀ cells d s before c after) {h : U32}
    (behind : h.toNat = c.hi) (listed : rightTest s.mem h → h ∈ items s.heap.index s.mem) :
    ∃ e back m size, Joining s₀ cells (unifyRight d s).1 (unifyRight d s).2 before e back ∧
      RightOf s.mem h after back ∧ e.base = c.base ∧
      e.hi = c.hi + (if rightTest s.mem h then (blockSize s.mem h).toNat else 0) ∧
      (unifyRight d s).1.doAdd = d.doAdd ∧
      (unifyRight d s).2 = { s with mem := m, heap := resize s.heap size } ∧
      (if rightTest s.mem h then size.toNat < s.heap.index.size.toNat
        else size = s.heap.index.size) ∧
      (∀ x ∈ before ++ back, AgreeOn x.lo x.hi s.mem m) ∧
      (¬ rightTest s.mem h → e = c ∧ m = s.mem) := by
  have same : d.footer + footerBytes = h :=
    BitVec.eq_of_toNat_eq (joining.behind_toNat.trans behind.symm)
  unfold RightOf
  by_cases test : rightTest s.mem h
  · obtain ⟨r, back, rfl, hole, base⟩ := right_hole joining (listed test) behind
    obtain ⟨m, size, joining', added, result, fewer, frame⟩ :=
      unifyRight_yes joining hole (same ▸ test)
    obtain ⟨adjacent, ok⟩ := right_neighbour joining.layout
    have small := joining.layout.hi_lt (c := r) (by simp)
    obtain ⟨len, top, -⟩ := joined_hi adjacent small
    refine ⟨joined c r, back, m, size, joining', ?_, rfl, ?_, added, result, ?_, frame,
      fun no => absurd test no⟩
    · rw [if_pos test]
      exact ⟨r, rfl, hole⟩
    · rw [if_pos test, top, ← base, ok.header.size, adjacent]
      rfl
    · rw [if_pos test]
      exact fewer
  · rw [unifyRight_no (same.symm ▸ test)]
    refine ⟨c, after, s.mem, s.heap.index.size, { joining with }, ?_, rfl, ?_, rfl, rfl, ?_,
      fun x member => AgreeOn.refl _ _ _, fun _ => ⟨rfl, rfl⟩⟩
    · rw [if_neg test]
    · rw [if_neg test]
      rfl
    · rw [if_neg test]

end Right

end BlessOS.Guarantees.HeapUnify
