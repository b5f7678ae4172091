import BlessOS.Lib.Tiling
import BlessOS.Guarantees.OrderedArrayItems
import BlessOS.Source.Kheap

/-!
# The heap as a row of cells

A cell is a block or a hole: the addresses from its header to the end of its
footer. `Layout` says that cells tile the heap and that the memory holds a header
for each; `Indexed` says that the index lists certain headers. The footer of a
block names its header. The footer of a hole may name the header of a hole that
was absorbed, and a hole at the end of the heap may have none.
-/

set_option autoImplicit false

namespace BlessOS.Guarantees.HeapLayout
open BlessOS.Lib.ByteMemory BlessOS.Lib.Tiling
open BlessOS.Source BlessOS.Source.OrderedArray BlessOS.Source.Kheap
open BlessOS.Guarantees.OrderedArrayItems

/-- A block with the size that was requested for it, or a hole. -/
structure Cell where
  base : U32
  size : U32
  used : Option U32
  deriving DecidableEq, Repr

namespace Cell

def lo (c : Cell) : Nat := c.base.toNat
def len (c : Cell) : Nat := c.size.toNat
def hi (c : Cell) : Nat := c.lo + c.len
def foot (c : Cell) : U32 := c.base + c.size - footerBytes
def flag (c : Cell) : U8 := if c.used = none then 1 else 0

/-- The pointer to the body and the requested size of a block. -/
def payload (c : Cell) : Option (U32 × U32) := c.used.map fun n => (c.base + headerBytes, n)

def holeBase (c : Cell) : Option U32 := if c.used = none then some c.base else none

/-- A cell is a row by itself. -/
theorem tiles (c : Cell) : Tiles Cell.lo Cell.len c.lo c.hi [c] := tiles_singleton.mpr ⟨rfl, rfl⟩

end Cell

def holes (cells : List Cell) : List U32 := cells.filterMap Cell.holeBase

def payloads (cells : List Cell) : List (U32 × U32) := cells.filterMap Cell.payload

structure HeaderOk (m : Mem) (c : Cell) : Prop where
  magic : headerMagic m c.base = heapMagic
  flag : isHole m c.base = c.flag
  size : blockSize m c.base = c.size

/-- The footer names a header of the cell with the cell's flag, and a block's own. -/
structure FooterOk (m : Mem) (c : Cell) : Prop where
  magic : footerMagic m c.foot = heapMagic
  low : c.lo ≤ (footerHeader m c.foot).toNat
  high : (footerHeader m c.foot).toNat + 12 ≤ c.hi
  flag : isHole m (footerHeader m c.foot) = c.flag
  own : c.used ≠ none → footerHeader m c.foot = c.base

/-- A cell in a heap that ends at `stop`. -/
structure CellOk (m : Mem) (stop : Nat) (c : Cell) : Prop where
  wide : 20 ≤ c.len
  room : ∀ n, c.used = some n → n.toNat + 20 ≤ c.len
  header : HeaderOk m c
  footer : c.used ≠ none ∨ c.hi ≠ stop → FooterOk m c

/-- The footer names the cell's own header. -/
structure OwnFooter (m : Mem) (c : Cell) : Prop where
  magic : footerMagic m c.foot = heapMagic
  names : footerHeader m c.foot = c.base

/-- A cell whose footer, where it has one, is its own. -/
structure BlockOk (m : Mem) (stop : Nat) (c : Cell) : Prop where
  wide : 20 ≤ c.len
  room : ∀ n, c.used = some n → n.toNat + 20 ≤ c.len
  header : HeaderOk m c
  footer : c.used ≠ none ∨ c.hi ≠ stop → OwnFooter m c

/-! ## Reading and writing headers and footers -/

section Frame

variable {m m' : Mem} {c : Cell}

theorem headerMagic_congr {h : U32} (agree : AgreeOn h.toNat (h.toNat + 12) m m')
    (bound : h.toNat + 12 ≤ 2 ^ 32) : headerMagic m' h = headerMagic m h := by
  unfold headerMagic
  apply agree.load32 <;> omega

theorem isHole_congr {h : U32} (agree : AgreeOn h.toNat (h.toNat + 12) m m')
    (bound : h.toNat + 12 ≤ 2 ^ 32) : isHole m' h = isHole m h := by
  unfold isHole
  apply agree.load8 <;> bv_omega

theorem blockSize_congr {h : U32} (agree : AgreeOn h.toNat (h.toNat + 12) m m')
    (bound : h.toNat + 12 ≤ 2 ^ 32) : blockSize m' h = blockSize m h := by
  unfold blockSize
  apply agree.load32 <;> bv_omega

theorem footerMagic_congr {f : U32} (agree : AgreeOn f.toNat (f.toNat + 8) m m')
    (bound : f.toNat + 8 ≤ 2 ^ 32) : footerMagic m' f = footerMagic m f := by
  unfold footerMagic
  apply agree.load32 <;> omega

theorem footerHeader_congr {f : U32} (agree : AgreeOn f.toNat (f.toNat + 8) m m')
    (bound : f.toNat + 8 ≤ 2 ^ 32) : footerHeader m' f = footerHeader m f := by
  unfold footerHeader
  apply agree.load32 <;> bv_omega

/-- A header behind what was written, even one that wraps around the address space. -/
theorem header_behind {lo hi : Nat} {h : U32} (agree : AgreeOff lo hi m m') (low : 12 ≤ lo)
    (behind : hi ≤ h.toNat) : headerMagic m' h = headerMagic m h ∧ isHole m' h = isHole m h ∧
      blockSize m' h = blockSize m h := by
  refine ⟨agree.load32 fun k small => ?_, agree _ ?_, agree.load32 fun k small => ?_⟩ <;> bv_omega

theorem foot_toNat (wide : 20 ≤ c.len) (bound : c.hi ≤ 2 ^ 32) : c.foot.toNat + 8 = c.hi := by
  unfold Cell.foot footerBytes
  unfold Cell.hi Cell.lo Cell.len at *
  bv_omega

/-- The body of a cell is not at the null pointer. -/
theorem pointer_ne_zero {p : U32} (pointer : p = c.base + headerBytes) (wide : 20 ≤ c.len)
    (bound : c.hi ≤ 2 ^ 32) : p ≠ 0 := by
  rw [pointer]
  unfold headerBytes
  unfold Cell.hi Cell.lo at bound
  bv_omega

theorem HeaderOk.frame (ok : HeaderOk m c) (wide : 20 ≤ c.len) (bound : c.hi ≤ 2 ^ 32)
    (agree : AgreeOn c.lo c.hi m m') : HeaderOk m' c := by
  have inside : AgreeOn c.base.toNat (c.base.toNat + 12) m m' :=
    agree.mono (Nat.le_refl _) (by unfold Cell.hi Cell.lo; omega)
  have small : c.base.toNat + 12 ≤ 2 ^ 32 := by
    unfold Cell.hi Cell.lo at bound
    omega
  exact ⟨(headerMagic_congr inside small).trans ok.magic, (isHole_congr inside small).trans ok.flag,
    (blockSize_congr inside small).trans ok.size⟩

theorem foot_agree (wide : 20 ≤ c.len) (bound : c.hi ≤ 2 ^ 32) (agree : AgreeOn c.lo c.hi m m') :
    AgreeOn c.foot.toNat (c.foot.toNat + 8) m m' := by
  have address := foot_toNat wide bound
  refine agree.mono ?_ (Nat.le_of_eq address)
  unfold Cell.hi at address
  omega

theorem FooterOk.frame (ok : FooterOk m c) (wide : 20 ≤ c.len) (bound : c.hi ≤ 2 ^ 32)
    (agree : AgreeOn c.lo c.hi m m') : FooterOk m' c := by
  have address := foot_toNat wide bound
  have inside := foot_agree wide bound agree
  have names := footerHeader_congr inside (by omega)
  obtain ⟨magic, low, high, flag, own⟩ := ok
  refine ⟨(footerMagic_congr inside (by omega)).trans magic, ?_, ?_, ?_, ?_⟩
  · rw [names]; exact low
  · rw [names]; exact high
  · rw [names]
    exact (isHole_congr (agree.mono low high) (by omega)).trans flag
  · rw [names]; exact own

theorem OwnFooter.frame (ok : OwnFooter m c) (wide : 20 ≤ c.len) (bound : c.hi ≤ 2 ^ 32)
    (agree : AgreeOn c.lo c.hi m m') : OwnFooter m' c := by
  have address := foot_toNat wide bound
  have inside := foot_agree wide bound agree
  exact ⟨(footerMagic_congr inside (by omega)).trans ok.magic,
    (footerHeader_congr inside (by omega)).trans ok.names⟩

/-- What is written outside of a cell does not change it. -/
theorem CellOk.frame {stop : Nat} (ok : CellOk m stop c) (bound : c.hi ≤ 2 ^ 32)
    (agree : AgreeOn c.lo c.hi m m') : CellOk m' stop c where
  wide := ok.wide
  room := ok.room
  header := ok.header.frame ok.wide bound agree
  footer applies := (ok.footer applies).frame ok.wide bound agree

theorem BlockOk.frame {stop : Nat} (ok : BlockOk m stop c) (bound : c.hi ≤ 2 ^ 32)
    (agree : AgreeOn c.lo c.hi m m') : BlockOk m' stop c where
  wide := ok.wide
  room := ok.room
  header := ok.header.frame ok.wide bound agree
  footer applies := (ok.footer applies).frame ok.wide bound agree

end Frame

section Write

variable {m : Mem} {h f value size : U32} {hole : U8} {lo hi : Nat}

theorem setBlockSize_agreeOff (low : lo ≤ h.toNat) (high : h.toNat + 12 ≤ hi)
    (bound : h.toNat + 12 ≤ 2 ^ 32) : AgreeOff lo hi m (setBlockSize m h size) := by
  unfold setBlockSize
  apply store32_agreeOff <;> bv_omega

theorem setIsHole_agreeOff (low : lo ≤ h.toNat) (high : h.toNat + 12 ≤ hi)
    (bound : h.toNat + 12 ≤ 2 ^ 32) : AgreeOff lo hi m (setIsHole m h hole) := by
  unfold setIsHole
  apply store8_agreeOff <;> bv_omega

theorem setFooterHeader_agreeOff (low : lo ≤ f.toNat) (high : f.toNat + 8 ≤ hi)
    (bound : f.toNat + 8 ≤ 2 ^ 32) : AgreeOff lo hi m (setFooterHeader m f value) := by
  unfold setFooterHeader
  apply store32_agreeOff <;> bv_omega

theorem writeHeader_agreeOff (low : lo ≤ h.toNat) (high : h.toNat + 12 ≤ hi)
    (bound : h.toNat + 12 ≤ 2 ^ 32) : AgreeOff lo hi m (writeHeader m h hole size) := by
  have magic : AgreeOff lo hi m (store32 m h heapMagic) := by
    apply store32_agreeOff <;> omega
  exact (magic.trans (setIsHole_agreeOff low high bound)).trans
    (setBlockSize_agreeOff low high bound)

theorem writeFooter_agreeOff (low : lo ≤ f.toNat) (high : f.toNat + 8 ≤ hi)
    (bound : f.toNat + 8 ≤ 2 ^ 32) : AgreeOff lo hi m (writeFooter m f value) := by
  have magic : AgreeOff lo hi m (store32 m f heapMagic) := by
    apply store32_agreeOff <;> omega
  exact magic.trans (setFooterHeader_agreeOff low high bound)

/-- A footer that may wrap around writes eight bytes and no other. -/
theorem writeFooter_apply_of_outside {x : U32} (outside : 8 ≤ x - f) :
    writeFooter m f value x = m x := by
  unfold writeFooter setFooterHeader
  rw [store32_apply_of_outside _ _ _ _ (by bv_omega), store32_apply_of_outside _ _ _ _ (by bv_omega)]

/-- A header that may wrap around writes within twelve bytes. -/
theorem writeHeader_apply_of_outside {x : U32} (outside : 12 ≤ x - h) :
    writeHeader m h hole size x = m x := by
  have flag : x ≠ h + 4 := by bv_omega
  unfold writeHeader setBlockSize setIsHole
  rw [store32_apply_of_outside _ _ _ _ (by bv_omega), store8, if_neg flag,
    store32_apply_of_outside _ _ _ _ (by bv_omega)]

/-- A header keeps its size when another header is written, both wherever they are. -/
theorem blockSize_writeHeader_of_apart {g : U32} (behind : 12 ≤ (h + 8 - g).toNat)
    (before : (h + 8 - g).toNat + 4 ≤ 2 ^ 32) :
    blockSize (writeHeader m g hole size) h = blockSize m h :=
  load32_congr fun k small => writeHeader_apply_of_outside (by bv_omega)

theorem blockSize_writeFooter_of_apart (behind : 8 ≤ (h + 8 - f).toNat)
    (before : (h + 8 - f).toNat + 4 ≤ 2 ^ 32) :
    blockSize (writeFooter m f value) h = blockSize m h :=
  load32_congr fun k small => writeFooter_apply_of_outside (by bv_omega)

/-- A size store leaves the rest of its header alone. -/
theorem headerMagic_setBlockSize (bound : h.toNat + 12 ≤ 2 ^ 32) :
    headerMagic (setBlockSize m h size) h = headerMagic m h := by
  unfold headerMagic setBlockSize
  apply load32_store32_of_disjoint <;> bv_omega

theorem isHole_setBlockSize (bound : h.toNat + 12 ≤ 2 ^ 32) :
    isHole (setBlockSize m h size) h = isHole m h := by
  have agree : AgreeOn h.toNat (h.toNat + 8) m (setBlockSize m h size) := by
    unfold setBlockSize
    apply store32_agree <;> bv_omega
  unfold isHole
  apply agree.load8 <;> bv_omega

@[simp] theorem blockSize_setBlockSize : blockSize (setBlockSize m h size) h = size := by
  simp only [blockSize, setBlockSize, load32_store32_self]

theorem headerMagic_setIsHole (bound : h.toNat + 12 ≤ 2 ^ 32) :
    headerMagic (setIsHole m h hole) h = headerMagic m h := by
  have agree : AgreeOn h.toNat (h.toNat + 4) m (setIsHole m h hole) := by
    unfold setIsHole
    apply store8_agree
    bv_omega
  unfold headerMagic
  apply agree.load32 <;> omega

@[simp] theorem isHole_setIsHole : isHole (setIsHole m h hole) h = hole := by
  simp only [isHole, setIsHole, load8_store8_self]

theorem blockSize_setIsHole (bound : h.toNat + 12 ≤ 2 ^ 32) :
    blockSize (setIsHole m h hole) h = blockSize m h := by
  have agree : AgreeOn (h.toNat + 8) (h.toNat + 12) m (setIsHole m h hole) := by
    unfold setIsHole
    apply store8_agree
    bv_omega
  unfold blockSize
  apply agree.load32 <;> bv_omega

theorem writeHeader_ok {c : Cell} (bound : c.base.toNat + 12 ≤ 2 ^ 32) :
    HeaderOk (writeHeader m c.base c.flag c.size) c := by
  refine ⟨?_, ?_, blockSize_setBlockSize⟩
  · rw [writeHeader, headerMagic_setBlockSize bound, headerMagic_setIsHole bound]
    exact load32_store32_self _ _ _
  · rw [writeHeader, isHole_setBlockSize bound, isHole_setIsHole]

@[simp] theorem footerHeader_writeFooter : footerHeader (writeFooter m f value) f = value := by
  simp only [footerHeader, writeFooter, setFooterHeader, load32_store32_self]

theorem footerMagic_setFooterHeader (bound : f.toNat + 8 ≤ 2 ^ 32) :
    footerMagic (setFooterHeader m f value) f = footerMagic m f := by
  unfold footerMagic setFooterHeader
  apply load32_store32_of_disjoint <;> bv_omega

theorem footerMagic_writeFooter (bound : f.toNat + 8 ≤ 2 ^ 32) :
    footerMagic (writeFooter m f value) f = heapMagic := by
  rw [writeFooter, footerMagic_setFooterHeader bound]
  exact load32_store32_self _ _ _

/-- A footer that names the cell's own header. -/
theorem FooterOk.of_own {c : Cell} (wide : 20 ≤ c.len) (header : HeaderOk m c)
    (own : OwnFooter m c) : FooterOk m c := by
  obtain ⟨magic, names⟩ := own
  refine ⟨magic, ?_, ?_, ?_, fun _ => names⟩
  · rw [names]; exact Nat.le_refl _
  · rw [names]
    unfold Cell.hi Cell.lo
    omega
  · rw [names]; exact header.flag

theorem BlockOk.cellOk {c : Cell} {stop : Nat} (ok : BlockOk m stop c) : CellOk m stop c :=
  ⟨ok.wide, ok.room, ok.header, fun applies => .of_own ok.wide ok.header (ok.footer applies)⟩

theorem writeFooter_own {c : Cell} (wide : 20 ≤ c.len) (bound : c.hi ≤ 2 ^ 32) :
    OwnFooter (writeFooter m c.foot c.base) c := by
  have address := foot_toNat wide bound
  exact ⟨footerMagic_writeFooter (by omega), footerHeader_writeFooter⟩

/-- A cell's header and footer, written. -/
def writeCell (c : Cell) (m : Mem) : Mem :=
  writeFooter (writeHeader m c.base c.flag c.size) c.foot c.base

/-- A written cell is good, whatever was there. -/
theorem writeCell_block {c : Cell} {stop : Nat} (wide : 20 ≤ c.len) (bound : c.hi ≤ 2 ^ 32)
    (room : ∀ n, c.used = some n → n.toNat + 20 ≤ c.len) : BlockOk (writeCell c m) stop c := by
  have address := foot_toNat wide bound
  have low : c.base.toNat + 12 ≤ c.foot.toNat := by
    unfold Cell.hi Cell.lo at address
    omega
  have header : HeaderOk (writeCell c m) c := by
    have written := writeHeader_ok (m := m) (c := c) (by omega)
    have kept : AgreeOn c.base.toNat (c.base.toNat + 12) (writeHeader m c.base c.flag c.size)
        (writeCell c m) :=
      (writeFooter_agreeOff (Nat.le_refl _) (Nat.le_refl _) (by omega)).on (Or.inl low)
    exact ⟨(headerMagic_congr kept (by omega)).trans written.magic,
      (isHole_congr kept (by omega)).trans written.flag,
      (blockSize_congr kept (by omega)).trans written.size⟩
  exact ⟨wide, room, header, fun _ => writeFooter_own wide bound⟩

theorem writeCell_agreeOff {c : Cell} (wide : 20 ≤ c.len) (bound : c.hi ≤ 2 ^ 32) :
    AgreeOff c.lo c.hi m (writeCell c m) := by
  have address := foot_toNat wide bound
  unfold Cell.hi Cell.lo at *
  have header : AgreeOff c.base.toNat (c.base.toNat + c.len) m
      (writeHeader m c.base c.flag c.size) := by
    apply writeHeader_agreeOff <;> omega
  have footer : AgreeOff c.base.toNat (c.base.toNat + c.len) (writeHeader m c.base c.flag c.size)
      (writeCell c m) := by
    apply writeFooter_agreeOff <;> omega
  exact header.trans footer

/-- A cell whose header is there already, with another size and a footer of its own. -/
def resizeCell (c : Cell) (m : Mem) : Mem :=
  writeFooter (setBlockSize m c.base c.size) c.foot c.base

theorem blockSize_resizeCell {c : Cell} (wide : 20 ≤ c.len) (bound : c.hi ≤ 2 ^ 32) :
    blockSize (resizeCell c m) c.base = c.size := by
  have address := foot_toNat wide bound
  have low : c.base.toNat + 12 ≤ c.foot.toNat := by
    unfold Cell.hi Cell.lo at address
    omega
  have kept : AgreeOn c.base.toNat (c.base.toNat + 12) (setBlockSize m c.base c.size)
      (resizeCell c m) :=
    (writeFooter_agreeOff (Nat.le_refl _) (Nat.le_refl _) (by omega)).on (Or.inl low)
  rw [blockSize_congr kept (by omega), blockSize_setBlockSize]

theorem resizeCell_block {c : Cell} {stop : Nat} (magic : headerMagic m c.base = heapMagic)
    (flag : isHole m c.base = c.flag) (wide : 20 ≤ c.len) (bound : c.hi ≤ 2 ^ 32)
    (room : ∀ n, c.used = some n → n.toNat + 20 ≤ c.len) : BlockOk (resizeCell c m) stop c := by
  have address := foot_toNat wide bound
  have low : c.base.toNat + 12 ≤ c.foot.toNat := by
    unfold Cell.hi Cell.lo at address
    omega
  have header : HeaderOk (resizeCell c m) c := by
    have kept : AgreeOn c.base.toNat (c.base.toNat + 12) (setBlockSize m c.base c.size)
        (resizeCell c m) :=
      (writeFooter_agreeOff (Nat.le_refl _) (Nat.le_refl _) (by omega)).on (Or.inl low)
    refine ⟨?_, ?_, ?_⟩
    · rw [headerMagic_congr kept (by omega), headerMagic_setBlockSize (by omega)]
      exact magic
    · rw [isHole_congr kept (by omega), isHole_setBlockSize (by omega)]
      exact flag
    · exact blockSize_resizeCell wide bound
  exact ⟨wide, room, header, fun _ => writeFooter_own wide bound⟩

theorem resizeCell_ok {c : Cell} {stop : Nat} (magic : headerMagic m c.base = heapMagic)
    (flag : isHole m c.base = c.flag) (wide : 20 ≤ c.len) (bound : c.hi ≤ 2 ^ 32)
    (room : ∀ n, c.used = some n → n.toNat + 20 ≤ c.len) : CellOk (resizeCell c m) stop c :=
  (resizeCell_block magic flag wide bound room).cellOk

theorem resizeCell_agreeOff {c : Cell} (wide : 20 ≤ c.len) (bound : c.hi ≤ 2 ^ 32) :
    AgreeOff c.lo c.hi m (resizeCell c m) := by
  have address := foot_toNat wide bound
  unfold Cell.hi Cell.lo at *
  have header : AgreeOff c.base.toNat (c.base.toNat + c.len) m (setBlockSize m c.base c.size) := by
    apply setBlockSize_agreeOff <;> omega
  have footer : AgreeOff c.base.toNat (c.base.toNat + c.len) (setBlockSize m c.base c.size)
      (resizeCell c m) := by
    apply writeFooter_agreeOff <;> omega
  exact header.trans footer

/-- Of a cell that is too small, the footer reaches into the bytes in front of it. -/
theorem resizeCell_near {c : Cell} {top : Nat} (some : 1 ≤ c.len) (low : 8 ≤ c.lo)
    (header : c.lo + 12 ≤ top) (high : c.hi ≤ top) (bound : top ≤ 2 ^ 32) :
    AgreeOff (c.lo - 7) top m (resizeCell c m) := by
  have address : c.foot.toNat + 8 = c.hi := by
    unfold Cell.foot footerBytes
    unfold Cell.hi Cell.lo Cell.len at *
    bv_omega
  unfold Cell.hi Cell.lo at *
  have size : AgreeOff (c.base.toNat - 7) top m (setBlockSize m c.base c.size) := by
    apply setBlockSize_agreeOff <;> omega
  have footer : AgreeOff (c.base.toNat - 7) top (setBlockSize m c.base c.size) (resizeCell c m) := by
    apply writeFooter_agreeOff <;> omega
  exact size.trans footer

/-- A cell with a footer is good wherever the heap ends. -/
theorem CellOk.any_stop {c : Cell} {stop stop' : Nat} (ok : CellOk m stop c)
    (full : c.used ≠ none ∨ c.hi ≠ stop) : CellOk m stop' c :=
  ⟨ok.wide, ok.room, ok.header, fun _ => ok.footer full⟩

theorem BlockOk.any_stop {c : Cell} {stop stop' : Nat} (ok : BlockOk m stop c)
    (full : c.used ≠ none ∨ c.hi ≠ stop) : BlockOk m stop' c :=
  ⟨ok.wide, ok.room, ok.header, fun _ => ok.footer full⟩

end Write

end BlessOS.Guarantees.HeapLayout
