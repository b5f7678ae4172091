import BlessOS.Guarantees.ConsoleBounds
import BlessOS.Lib.ScrollWindow

/-!
# Printed text fills the screen as a scrolling window

The cells of the screen are what the video memory holds, two bytes a cell. A printed
character is drawn under the cursor, and a full screen is copied up by one line onto itself,
from its first byte on, so that each byte is read before it is written.
-/

set_option autoImplicit false

namespace BlessOS.Guarantees.ConsoleText
open BlessOS.Lib.ByteMemory BlessOS.Lib.ScrollWindow
open BlessOS.Source BlessOS.Source.Console BlessOS.Guarantees.ConsoleBounds

/-- The cell of a row and a column: the attribute and the character. -/
def cell (s : Console) (r c : Nat) : U16 :=
  load8 s.mem (vgaMem (r * 80 + c : Nat) + 1) ++ load8 s.mem (vgaMem (r * 80 + c : Nat))

section Bytes

/-- Byte `i` of the video memory. -/
def videoAddr (i : Nat) : Addr := BitVec.ofInt 32 (videoramStart + i)

def byteAt (s : Console) (i : Nat) : U8 := load8 s.mem (videoAddr i)

variable {s : Console} {i j : Nat}

theorem videoAddr_succ (i : Nat) : videoAddr i + 1 = videoAddr (i + 1) := by
  have one : (1 : Addr) = BitVec.ofInt 32 1 := rfl
  rw [videoAddr, videoAddr, one, ← BitVec.ofInt_add, Int.natCast_succ, Int.add_assoc]

theorem videoAddr_injective (left : i < 4000) (right : j < 4000)
    (same : videoAddr i = videoAddr j) : i = j := by
  have first := toNat_videoram i (by simp only [lines, columns]; omega)
  have second := toNat_videoram j (by simp only [lines, columns]; omega)
  have equal : (videoAddr i).toNat = (videoAddr j).toNat := by rw [same]
  unfold videoAddr at equal
  omega

theorem byteAt_poke (value : U8) (left : i < 4000) (right : j < 4000) :
    byteAt (poke (videoAddr i) value s) j = if j = i then value else byteAt s j := by
  by_cases same : j = i
  · subst same
    rw [if_pos rfl]
    exact load8_store8_self _ _ _
  · rw [if_neg same]
    exact if_neg fun equal => same (videoAddr_injective right left equal)

theorem byteAt_pokew (value : U16) (left : i + 1 < 4000) (right : j < 4000) :
    byteAt (pokew (videoAddr i) value s) j =
      if j = i + 1 then (value >>> 8).setWidth 8
      else if j = i then value.setWidth 8 else byteAt s j := by
  rw [pokew, videoAddr_succ, byteAt_poke _ left right,
    byteAt_poke _ (Nat.lt_of_succ_lt left) right]

/-- Copying down within the screen: every byte is read where nothing was written yet. -/
theorem byteAt_memcpy (distance : Nat) (apart : 0 < distance) (n start : Nat) (s : Console)
    (room : start + distance + n ≤ 4000) (right : j < 4000) :
    byteAt (memcpy (videoAddr (start + distance)) (videoAddr start) n s) j =
      if start ≤ j ∧ j < start + n then byteAt s (j + distance) else byteAt s j := by
  induction n generalizing start s with
  | zero => exact (if_neg (by omega)).symm
  | succ n ih =>
    have step := ih (start + 1)
      (poke (videoAddr start) (byteAt s (start + distance)) s) (by omega)
    rw [show start + 1 + distance = start + distance + 1 by omega, ← videoAddr_succ,
      ← videoAddr_succ, byteAt_poke _ (by omega) right] at step
    refine step.trans ?_
    by_cases first : j = start
    · subst first
      rw [if_neg (by omega), if_pos rfl, if_pos (by omega)]
    · rw [if_neg first]
      by_cases inside : start + 1 ≤ j ∧ j < start + 1 + n
      · rw [if_pos inside, if_pos (by omega), byteAt_poke _ (by omega) (by omega),
          if_neg (by omega)]
      · rw [if_neg inside, if_neg (by omega)]

theorem byteAt_blankLast (turns : Nat) (s : Console) (room : turns ≤ 80) (right : j < 4000) :
    byteAt (blankLast turns s) j =
      if 3840 ≤ j ∧ j < 3840 + 2 * turns then if j % 2 = 0 then 0x20 else 0x0f
      else byteAt s j := by
  induction turns with
  | zero => exact (if_neg (by omega)).symm
  | succ i ih =>
    have address : vgaMem (columns * (lines - 1) + i) = videoAddr (3840 + 2 * i) := by
      simp only [vgaMem, videoAddr, columns, lines]
      congr 2
      push_cast
      omega
    rw [blankLast, address, byteAt_pokew _ (by omega) right, ih (by omega)]
    by_cases high : j = 3840 + 2 * i + 1
    · rw [if_pos high, if_pos (by omega), if_neg (by omega)]
      rfl
    · rw [if_neg high]
      by_cases low : j = 3840 + 2 * i
      · rw [if_pos low, if_pos (by omega), if_pos (by omega)]
        rfl
      · rw [if_neg low]
        exact if_congr (by omega) rfl rfl

theorem byteAt_scrollDown (s : Console) (right : j < 4000) :
    byteAt (scrollDown s) j =
      if j < 3840 then byteAt s (j + 160) else if j % 2 = 0 then 0x20 else 0x0f := by
  have source : vgaMem columns = videoAddr (0 + 160) := by decide
  have target : vgaMem 0 = videoAddr 0 := by decide
  have copied := byteAt_memcpy 160 (by decide) 3840 0 s (by decide) right
  rw [← source, ← target] at copied
  have blanked := byteAt_blankLast 80 (memcpy (vgaMem columns) (vgaMem 0) 3840 s)
    (Nat.le_refl _) right
  refine blanked.trans ?_
  by_cases last : j < 3840
  · rw [if_neg (by omega), if_pos last, copied, if_pos (by omega)]
  · rw [if_pos (by omega), if_neg last]

end Bytes

section Cells
variable {s : Console} {r c : Nat}

theorem cell_eq (s : Console) (r c : Nat) :
    cell s r c = byteAt s (2 * (r * 80 + c) + 1) ++ byteAt s (2 * (r * 80 + c)) := by
  have address : vgaMem (r * 80 + c : Nat) = videoAddr (2 * (r * 80 + c)) := by
    rw [vgaMem, videoAddr, Int.natCast_mul, Int.mul_comm]
    rfl
  rw [cell, address, videoAddr_succ]
  rfl

/-- The cells are those of the memory; neither cursor nor ports matter. -/
theorem cell_setCursor (x y : Int) (s : Console) : cell (setCursor x y s) r c = cell s r c := rfl

theorem cell_scrollDown (s : Console) (row : r < 25) (column : c < 80) :
    cell (scrollDown s) r c = scroll 25 0x0f20 (cell s) r c := by
  rw [cell_eq, byteAt_scrollDown s (by omega), byteAt_scrollDown s (by omega)]
  unfold scroll
  by_cases more : r + 1 < 25
  · rw [if_pos more, if_pos (by omega), if_pos (by omega), cell_eq]
    congr 2
    · omega
    · omega
  · rw [if_neg more, if_neg (by omega), if_neg (by omega), if_neg (by omega), if_pos (by omega)]
    rfl

/-- A character drawn under the cursor. -/
def drawAt (ch attr : U8) (s : Console) : Console :=
  poke (cursorCell s + 1) attr (poke (cursorCell s) ch s)

theorem cell_drawAt (ch attr : U8) (on : OnScreen s) (row : r < 25) (column : c < 80) :
    cell (drawAt ch attr s) r c =
      draw (cell s) s.csrY.toNat s.csrX.toNat (attr ++ ch) r c := by
  obtain ⟨left, right, above, below⟩ := on
  simp only [columns, lines] at right below
  have address : cursorCell s = videoAddr (2 * (s.csrY.toNat * 80 + s.csrX.toNat)) := by
    rw [cursorCell, videoAddr]
    simp only [vramLine, columns]
    congr 1
    omega
  have row' : s.csrY.toNat < 25 := by omega
  have column' : s.csrX.toNat < 80 := by omega
  rw [cell_eq, drawAt, address, videoAddr_succ, byteAt_poke _ (by omega) (by omega),
    byteAt_poke _ (by omega) (by omega), byteAt_poke _ (by omega) (by omega),
    byteAt_poke _ (by omega) (by omega)]
  unfold draw
  by_cases here : r = s.csrY.toNat ∧ c = s.csrX.toNat
  · rw [if_pos here, here.1, here.2, if_pos rfl, if_neg (by omega), if_pos rfl]
  · have other : r * 80 + c ≠ s.csrY.toNat * 80 + s.csrX.toNat := fun same =>
      here (cell_injective column column' same)
    rw [if_neg here, if_neg (by omega), if_neg (by omega), if_neg (by omega), if_neg (by omega),
      cell_eq]

end Cells

section Printing
variable {s : Console} {w : Window U16} {fg bg : Colour} {ch : U8}

/-- A character that is drawn. -/
def Plain (ch : U8) : Prop := ch ≠ cr ∧ ch ≠ lf ∧ ch ≠ tab ∧ ch ≠ backspace

theorem printC_plain (plain : Plain ch) (fg bg : Colour) (s : Console) :
    printC ch fg bg s =
      endPrint { drawAt ch (attrOf fg bg) s with csrX := s.csrX + 1 } := by
  obtain ⟨not_cr, not_lf, not_tab, not_backspace⟩ := plain
  simp only [printC, if_neg not_cr, if_neg not_lf, if_neg not_tab, if_neg not_backspace]
  rfl

/-! The three ways a call ends: on the line, on the next line, or with a scroll. -/

theorem endPrint_inside (inside : s.csrX < columns) :
    endPrint s = setCursor s.csrX s.csrY s := by
  simp only [endPrint, if_neg (Int.not_le.mpr inside)]

theorem endPrint_wraps (wraps : columns ≤ s.csrX) (more : s.csrY < lines - 1) :
    endPrint s = setCursor 0 (s.csrY + 1) { s with csrX := 0, csrY := s.csrY + 1 } := by
  simp only [endPrint, if_pos wraps, if_pos more]

theorem endPrint_scrolls (wraps : columns ≤ s.csrX) (last : ¬ s.csrY < lines - 1) :
    endPrint s = setCursor 0 s.csrY (scrollDown { s with csrX := 0 }) := by
  simp only [endPrint, if_pos wraps, if_neg last, scrollDown_csrX, scrollDown_csrY]

/-- The screen shows what the window holds, and the cursor is where its next cell goes. -/
structure Displays (s : Console) (w : Window U16) : Prop where
  on : OnScreen s
  row : s.csrY = w.row
  column : s.csrX = w.column
  cells : ∀ r < 25, ∀ c < 80, cell s r c = w.cells r c

theorem Displays.printC (displays : Displays s w) (plain : Plain ch) :
    Displays (Console.printC ch fg bg s) (w.put 80 25 0x0f20 (attrOf fg bg ++ ch)) := by
  obtain ⟨on, row, column, cells⟩ := displays
  have drawn : ∀ r < 25, ∀ c < 80, cell (drawAt ch (attrOf fg bg) s) r c =
      draw w.cells w.row w.column (attrOf fg bg ++ ch) r c := by
    intro r above c inside
    rw [cell_drawAt ch _ on above inside, row, column, Int.toNat_natCast, Int.toNat_natCast]
    unfold draw
    rw [cells r above c inside]
  obtain ⟨left, right, above, below⟩ := on
  rw [printC_plain plain]
  have down : (drawAt ch (attrOf fg bg) s).csrY = s.csrY := rfl
  generalize drawAt ch (attrOf fg bg) s = d at *
  unfold Window.put
  dsimp only
  split
  next inside =>
    have stays : s.csrX + 1 < columns := by simp only [columns]; omega
    rw [endPrint_inside stays]
    exact ⟨setCursor_onScreen _ (Int.add_nonneg left Int.one_nonneg) stays (down ▸ above)
      (down ▸ below), down.trans row, congrArg (· + 1) column, drawn⟩
  next outside =>
    have wraps : columns ≤ s.csrX + 1 := by simp only [columns]; omega
    split
    next more =>
      have above_last : d.csrY < lines - 1 := by simp only [lines]; omega
      rw [@endPrint_wraps { d with csrX := s.csrX + 1 } wraps above_last]
      refine ⟨setCursor_onScreen _ (Int.le_refl 0) zero_lt_columns ?_ ?_, ?_, rfl, drawn⟩
      · simp only
        omega
      · simp only [lines]
        omega
      · exact congrArg (· + 1) (down.trans row)
    next last =>
      have on_last : ¬ d.csrY < lines - 1 := by simp only [lines]; omega
      rw [@endPrint_scrolls { d with csrX := s.csrX + 1 } wraps on_last]
      refine ⟨setCursor_onScreen _ (Int.le_refl 0) zero_lt_columns (down ▸ above) (down ▸ below),
        down.trans row, rfl, ?_⟩
      intro r above c inside
      rw [cell_setCursor, cell_scrollDown _ above inside]
      exact scroll_congr fun below => drawn (r + 1) below c inside

theorem Displays.print (displays : Displays s w) (text : List U8)
    (plain : ∀ ch ∈ text, Plain ch) :
    Displays (text.foldl (fun s ch => Console.printC ch fg bg s) s)
      ((text.map fun ch => attrOf fg bg ++ ch).foldl (Window.put 80 25 0x0f20) w) := by
  induction text generalizing s w with
  | nil => exact displays
  | cons ch rest ih =>
    exact ih (displays.printC (plain ch List.mem_cons_self))
      fun x member => plain x (List.mem_cons_of_mem _ member)

/-- **Text layout.** Printed from the first cell on, the text is shown after its first `k`
lines, which have been scrolled off; what it leaves free is the old screen, or blank when a
line has been scrolled in. -/
theorem print_layout (text : List U8) (plain : ∀ ch ∈ text, Plain ch) (fg bg : Colour)
    (s : Console) (home : s.csrX = 0 ∧ s.csrY = 0) :
    let after := text.foldl (fun s ch => Console.printC ch fg bg s) s
    let n := text.length
    let k := n / 80 - 24
    after.csrX = (n % 80 : Nat) ∧ after.csrY = (min (n / 80) 24 : Nat) ∧
      ∀ r < 25, ∀ c < 80, cell after r c =
        match text[(r + k) * 80 + c]? with
        | some ch => attrOf fg bg ++ ch
        | none => if k = 0 then cell s r c else 0x0f20 := by
  intro after n k
  have on : OnScreen s := by
    obtain ⟨left, top⟩ := home
    constructor
    · exact Int.le_of_eq left.symm
    · exact left ▸ zero_lt_columns
    · exact Int.le_of_eq top.symm
    · exact top ▸ (by decide)
  have start : Displays s ⟨cell s, 0, 0⟩ :=
    ⟨on, home.2, home.1, fun _ _ _ _ => rfl⟩
  have printed := @Displays.print _ _ fg bg start text plain
  obtain ⟨scrolled, shown⟩ := @shows_foldl _ 80 25 0x0f20 (cell s) (by decide) (by decide)
    (text.map fun ch => attrOf fg bg ++ ch)
  obtain ⟨count, column, row⟩ := shown.scrolled_eq
  rw [List.length_map] at count column row
  refine ⟨by rw [printed.column, column], by rw [printed.row, row], fun r above c inside => ?_⟩
  have number : scrolled = k := count
  rw [printed.cells r above c inside, shown.cells r above c inside, number, List.getElem?_map]
  cases text[(r + k) * 80 + c]? with
  | none => rfl
  | some ch => rfl

theorem print_layout_two :
    let after := [0x48, 0x69].foldl (fun s ch => Console.printC ch .brightWhite .black s)
      (boot fun _ => 0)
    (after.csrX = 2 ∧ after.csrY = 0) ∧ cell after 0 1 = 0x0f69 ∧ cell after 24 79 = 0 := by
  have plain : ∀ ch ∈ ([0x48, 0x69] : List U8), Plain ch := by
    intro ch member
    rcases List.mem_cons.mp member with rfl | member
    · exact ⟨by decide, by decide, by decide, by decide⟩
    · cases List.mem_singleton.mp member
      exact ⟨by decide, by decide, by decide, by decide⟩
  have printed := print_layout [0x48, 0x69] plain .brightWhite .black (boot fun _ => 0) ⟨rfl, rfl⟩
  exact ⟨⟨printed.1, printed.2.1⟩, printed.2.2 0 (by decide) 1 (by decide),
    printed.2.2 24 (by decide) 79 (by decide)⟩

end Printing

end BlessOS.Guarantees.ConsoleText
