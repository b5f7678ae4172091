import BlessOS.Guarantees.ConsoleErase
import BlessOS.Lib.Terminal

/-!
# The console is a terminal

Every byte that is printed is a command to a terminal of 80 columns and 25 rows: the two loops
that put empty characters draw a run of one row, and the row is left as it is behind a single
character.
-/

set_option autoImplicit false

namespace BlessOS.Guarantees.ConsoleTerminal
open BlessOS.Lib.ByteMemory BlessOS.Lib.ScrollWindow BlessOS.Lib.Terminal
open BlessOS.Source BlessOS.Source.Console
open BlessOS.Guarantees.ConsoleBounds BlessOS.Guarantees.ConsoleText
open BlessOS.Guarantees.ConsoleErase

/-- What a byte means to the terminal. -/
def command (fg bg : Colour) (ch : U8) : Command U16 :=
  if ch = cr then .carriageReturn
  else if ch = lf then .newLine (attrOf fg bg ++ emptyChar)
  else if ch = tab then .tab (attrOf fg bg ++ emptyChar)
  else if ch = backspace then .erase (blankAttr ++ emptyChar)
  else .put (attrOf fg bg ++ ch)

/-- A byte with the colours it is printed in. -/
abbrev Coloured := U8 × Colour × Colour

def printAll (text : List Coloured) (s : Console) : Console :=
  text.foldl (fun s p => printC p.1 p.2.1 p.2.2 s) s

/-- The terminal that the screen stands for. -/
def terminal (s : Console) : Window U16 := ⟨cell s, s.csrY.toNat, s.csrX.toNat⟩

def feed (text : List Coloured) (w : Window U16) : Window U16 :=
  (text.map fun p => command p.2.1 p.2.2 p.1).foldl (step 80 25 4 0x0f20) w

variable {s d : Console} {w : Window U16} {r c row column turns : Nat} {fg bg : Colour} {ch : U8}

/-! ## Runs of empty characters -/

/-- A character and its attribute stored at a cell. -/
theorem cell_pokes (ch attr : U8) (s : Console) (above : row < 25) (inside : column < 80)
    (hr : r < 25) (hc : c < 80) :
    cell (poke (videoAddr (2 * (row * 80 + column)) + 1) attr
        (poke (videoAddr (2 * (row * 80 + column))) ch s)) r c =
      if r = row ∧ c = column then attr ++ ch else cell s r c := by
  rw [cell_eq, videoAddr_succ, byteAt_poke _ (by omega) (by omega),
    byteAt_poke _ (by omega) (by omega), byteAt_poke _ (by omega) (by omega),
    byteAt_poke _ (by omega) (by omega)]
  by_cases here : r = row ∧ c = column
  · rw [if_pos here, here.1, here.2, if_pos rfl, if_neg (by omega), if_pos rfl]
  · have other : r * 80 + c ≠ row * 80 + column := fun same =>
      here (cell_injective hc inside same)
    rw [if_neg here, if_neg (by omega), if_neg (by omega), if_neg (by omega), if_neg (by omega),
      cell_eq]

/-- The cells after the loop. -/
theorem cell_fill (attr : U8) (s : Console) (above : row < 25) (room : column + turns ≤ 80)
    (hr : r < 25) (hc : c < 80) :
    cell (fill attr turns (videoAddr (2 * (row * 80 + column))) s) r c =
      drawRun (cell s) row column turns (attr ++ emptyChar) r c := by
  induction turns generalizing column s with
  | zero => rw [drawRun_zero]; rfl
  | succ turns ih =>
    have next : videoAddr (2 * (row * 80 + column)) + 2 =
        videoAddr (2 * (row * 80 + (column + 1))) := by
      have two : (2 : Addr) = 1 + 1 := rfl
      rw [two, ← BitVec.add_assoc, videoAddr_succ, videoAddr_succ]
      congr 1
    rw [fill, next, ih _ (by omega)]
    unfold drawRun
    by_cases behind : r = row ∧ column + 1 ≤ c ∧ c < column + 1 + turns
    · rw [if_pos behind, if_pos (by omega)]
    · rw [if_neg behind]
      refine (cell_pokes emptyChar attr s above (by omega) hr hc).trans ?_
      exact if_congr (by omega) rfl rfl

theorem fill_cursor (attr : U8) (turns : Nat) (dest : Addr) (s : Console) :
    (fill attr turns dest s).csrX = s.csrX + turns ∧
      (fill attr turns dest s).csrY = s.csrY := by
  induction turns generalizing dest s with
  | zero => exact ⟨(Int.add_zero _).symm, rfl⟩
  | succ turns ih =>
    obtain ⟨across, down⟩ := ih (dest + 2)
      { poke (dest + 1) attr (poke dest emptyChar s) with csrX := s.csrX + 1 }
    refine ⟨across.trans ?_, down⟩
    dsimp only
    omega

/-! ## The end of a command -/

/-- A cursor inside its line stays. -/
theorem displays_inside {cells : Nat → Nat → U16}
    (drawn : ∀ r < 25, ∀ c < 80, cell d r c = cells r c) (x : d.csrX = column)
    (y : d.csrY = row) (inside : column < 80) (above : row < 25) :
    Displays (endPrint d) ⟨cells, row, column⟩ := by
  have stays : d.csrX < columns := by simp only [columns]; omega
  rw [endPrint_inside stays]
  refine ⟨setCursor_onScreen _ ?_ stays ?_ ?_, y, x, drawn⟩
  · omega
  · omega
  · simp only [lines]
    omega

/-- A cursor behind its line goes to the next one, and the screen is scrolled behind the last. -/
theorem displays_wrapped {cells : Nat → Nat → U16}
    (drawn : ∀ r < 25, ∀ c < 80, cell d r c = cells r c) (x : d.csrX = 80) (y : d.csrY = row)
    (above : row < 25) : Displays (endPrint d) (wrapped 25 0x0f20 cells row) := by
  have wraps : columns ≤ d.csrX := by simp only [columns]; omega
  unfold wrapped
  split
  next more =>
    rw [endPrint_wraps wraps (by simp only [lines]; omega)]
    refine ⟨setCursor_onScreen _ (Int.le_refl 0) zero_lt_columns ?_ ?_, ?_, rfl, drawn⟩
    · omega
    · simp only [lines]
      omega
    · exact congrArg (· + 1) y
  next last =>
    rw [endPrint_scrolls wraps (by simp only [lines]; omega)]
    refine ⟨setCursor_onScreen _ (Int.le_refl 0) zero_lt_columns ?_ ?_, y, rfl, ?_⟩
    · omega
    · simp only [lines]
      omega
    · intro r hr c hc
      rw [cell_setCursor, cell_scrollDown _ hr hc]
      exact scroll_congr fun below => drawn (r + 1) below c hc

/-- The loops that put empty characters up to a column. -/
theorem Displays.fillTo (displays : Displays s w) {limit : Int} (attr : U8)
    (end_of : limit = (w.column + turns : Nat)) (some : 0 < turns)
    (room : w.column + turns ≤ 80) :
    Displays (endPrint (Console.fillTo limit attr (cursorCell s) s))
      (repeatPut 80 25 0x0f20 (attr ++ emptyChar) turns w) := by
  obtain ⟨on, down, across, cells⟩ := displays
  obtain ⟨left, right, above, below⟩ := on
  simp only [columns, lines] at right below
  have row : w.row < 25 := by omega
  have count : (limit - s.csrX).toNat = turns := by omega
  have start : cursorCell s = videoAddr (2 * (w.row * 80 + w.column)) := by
    rw [cursorCell, videoAddr]
    simp only [vramLine, columns]
    congr 1
    omega
  rw [Console.fillTo, count, start]
  obtain ⟨x, y⟩ := fill_cursor attr turns (videoAddr (2 * (w.row * 80 + w.column))) s
  have drawn : ∀ r < 25, ∀ c < 80,
      cell (fill attr turns (videoAddr (2 * (w.row * 80 + w.column))) s) r c =
        drawRun w.cells w.row w.column turns (attr ++ emptyChar) r c := by
    intro r hr c hc
    rw [cell_fill attr s row room hr hc]
    unfold drawRun
    rw [cells r hr c hc]
  by_cases full : w.column + turns = 80
  · rw [repeatPut_wraps some full]
    exact displays_wrapped drawn (by omega) (y.trans down) row
  · rw [repeatPut_inside (by omega)]
    exact displays_inside drawn (by omega) (y.trans down) (by omega) row

/-! ## The commands -/

theorem tabStop_eq (inside : column < 80) :
    tabStop column = (column + (4 - column % 4) : Nat) := by
  have small : ((column : Int) + tabWidth - column % tabWidth).bmod 256 =
      (column + (4 - column % 4) : Nat) := by
    unfold tabWidth
    rw [Int.bmod_eq_of_le (by omega) (by omega)]
    omega
  unfold tabStop
  dsimp only
  rw [small]
  split
  · rfl
  · next last =>
    simp only [columns] at last ⊢
    omega

/-- One cell back. -/
theorem Displays.erase (displays : Displays s w) (fg bg : Colour) :
    Displays (Console.printC backspace fg bg s) (back 80 (blankAttr ++ emptyChar) w) := by
  have ⟨on, down, across, cells⟩ := displays
  have ⟨left, right, above, below⟩ := on
  simp only [columns, lines] at right below
  by_cases corner : w.column = 0 ∧ w.row = 0
  · have stays : Console.printC backspace fg bg s = s := by
      have other : backspace ≠ cr ∧ backspace ≠ lf ∧ backspace ≠ tab := by decide
      simp only [Console.printC, if_neg other.1, if_neg other.2.1, if_neg other.2.2, if_pos]
      rw [if_pos (by omega)]
    rw [stays, back, if_pos corner.1, if_pos corner.2]
    exact displays
  · -- The cell in front of the cursor, which may be the last one of the row above.
    obtain ⟨r, c, target, front⟩ : ∃ r c, back 80 (blankAttr ++ emptyChar) w =
        ⟨draw w.cells r c (blankAttr ++ emptyChar), r, c⟩ ∧ InFront s r c := by
      unfold back
      by_cases first : w.column = 0
      · have more : w.row ≠ 0 := fun zero => corner ⟨first, zero⟩
        rw [if_pos first, if_neg more]
        refine ⟨w.row - 1, 79, rfl, by omega, by omega, ?_⟩
        unfold place
        omega
      · rw [if_neg first]
        refine ⟨w.row, w.column - 1, rfl, by omega, by omega, ?_⟩
        unfold place
        omega
    obtain ⟨x, y, shown⟩ := printC_backspace on front fg bg
    have hr := front.row
    have hc := front.column
    rw [target]
    refine ⟨?_, y, x, fun r' hr' c' hc' => ?_⟩
    · constructor
      · omega
      · simp only [columns]
        omega
      · omega
      · simp only [lines]
        omega
    · rw [shown r' hr' c' hc', cell_eraseAt front hr' hc']
      unfold draw
      rw [cells r' hr' c' hc']

/-- One byte, whatever it is. -/
theorem Displays.command (displays : Displays s w) (fg bg : Colour) (ch : U8) :
    Displays (Console.printC ch fg bg s) (step 80 25 4 0x0f20 w (command fg bg ch)) := by
  have ⟨on, down, across, cells⟩ := displays
  have ⟨left, right, above, below⟩ := on
  simp only [columns, lines] at right below
  have inside : w.column < 80 := by omega
  have row : w.row < 25 := by omega
  unfold ConsoleTerminal.command
  by_cases isCr : ch = cr
  · rw [if_pos isCr, Console.printC, if_pos isCr]
    exact displays_inside cells rfl down (by decide) row
  · rw [if_neg isCr]
    by_cases isLf : ch = lf
    · rw [if_pos isLf]
      simp only [Console.printC, if_neg isCr, if_pos isLf]
      exact Displays.fillTo displays _ (by simp only [columns]; omega) (by omega) (by omega)
    · rw [if_neg isLf]
      by_cases isTab : ch = tab
      · rw [if_pos isTab]
        simp only [Console.printC, if_neg isCr, if_neg isLf, if_pos isTab]
        rw [across, tabStop_eq inside]
        exact Displays.fillTo displays _ rfl (by omega) (by omega)
      · rw [if_neg isTab]
        by_cases isBackspace : ch = backspace
        · rw [if_pos isBackspace, isBackspace]
          exact Displays.erase displays fg bg
        · rw [if_neg isBackspace]
          exact ConsoleText.Displays.printC displays ⟨isCr, isLf, isTab, isBackspace⟩

theorem Displays.feed (displays : Displays s w) (text : List Coloured) :
    Displays (printAll text s) (feed text w) := by
  induction text generalizing s w with
  | nil => exact displays
  | cons p rest ih => exact ih (Displays.command displays p.2.1 p.2.2 p.1)

theorem displays_terminal (on : OnScreen s) : Displays s (terminal s) :=
  ⟨on, (Int.toNat_of_nonneg on.above).symm, (Int.toNat_of_nonneg on.left).symm,
    fun _ _ _ _ => rfl⟩

/-- **The console refines the terminal.** From any state with the cursor on the screen, any
bytes in any colours leave the cursor and every cell where the terminal has them. -/
theorem console_is_terminal (on : OnScreen s) (text : List Coloured) :
    let after := printAll text s
    let w := feed text (terminal s)
    after.csrX = w.column ∧ after.csrY = w.row ∧
      ∀ r < 25, ∀ c < 80, cell after r c = w.cells r c := by
  intro after w
  obtain ⟨-, down, across, cells⟩ := Displays.feed (displays_terminal on) text
  exact ⟨across, down, cells⟩

/-- A tab, a new line and a backspace that goes back across the end of the line. -/
theorem console_is_terminal_back :
    let s := boot fun _ => 0x41
    let text : List Coloured :=
      [(0x09, .white, .black), (0x0a, .yellow, .red), (0x08, .white, .black)]
    (printAll text s).csrX = 79 ∧ (printAll text s).csrY = 0 ∧
      cell (printAll text s) 0 79 = 0x0720 ∧ cell (printAll text s) 0 5 = 0x4e20 := by
  intro s text
  have on : OnScreen s := ⟨by decide, by decide, by decide, by decide⟩
  obtain ⟨across, down, cells⟩ := console_is_terminal on text
  have column : (feed text (terminal s)).column = 79 := by decide +kernel
  have row : (feed text (terminal s)).row = 0 := by decide +kernel
  refine ⟨by rw [across, column]; rfl, by rw [down, row]; rfl, ?_, ?_⟩
  · rw [cells 0 (by decide) 79 (by decide)]
    decide +kernel
  · rw [cells 0 (by decide) 5 (by decide)]
    decide +kernel

/-! ## Lines -/

/-- The bytes of the lines, each with a new line behind it. -/
def lineText (fg bg : Colour) (lines : List (List U8)) : List Coloured :=
  (lines.flatMap fun line => line ++ [lf]).map fun ch => (ch, fg, bg)

theorem command_plain (plain : Plain ch) (fg bg : Colour) :
    command fg bg ch = .put (attrOf fg bg ++ ch) := by
  obtain ⟨not_cr, not_lf, not_tab, not_backspace⟩ := plain
  simp only [command, if_neg not_cr, if_neg not_lf, if_neg not_tab, if_neg not_backspace]

theorem feed_lineText (fg bg : Colour) (lines : List (List U8))
    (plain : ∀ line ∈ lines, ∀ ch ∈ line, Plain ch) (w : Window U16) :
    feed (lineText fg bg lines) w =
      ((lines.map (·.map (attrOf fg bg ++ ·))).flatMap
        (lineCommands (attrOf fg bg ++ emptyChar))).foldl (step 80 25 4 0x0f20) w := by
  have same : ((lineText fg bg lines).map fun p => command p.2.1 p.2.2 p.1) =
      (lines.map (·.map (attrOf fg bg ++ ·))).flatMap
        (lineCommands (attrOf fg bg ++ emptyChar)) := by
    unfold lineText
    induction lines with
    | nil => rfl
    | cons line rest ih =>
      have first : (line.map fun ch => command fg bg ch) =
          (line.map (attrOf fg bg ++ ·)).map Command.put := by
        rw [List.map_map]
        exact List.map_congr_left fun ch member =>
          command_plain (plain line List.mem_cons_self ch member) fg bg
      have others := ih fun other member => plain other (List.mem_cons_of_mem line member)
      rw [List.map_map] at others ⊢
      rw [List.flatMap_cons, List.map_append, others, List.map_cons, List.flatMap_cons,
        lineCommands, List.map_append, ← first]
      rfl
  rw [feed, same]

/-- **Lines of text.** Printed from the first cell on, lines that are shorter than the screen
is wide are shown one in each row, the first ones scrolled off when there are more than 24. -/
theorem lines_layout (fg bg : Colour) (lines : List (List U8))
    (plain : ∀ line ∈ lines, ∀ ch ∈ line, Plain ch) (short : ∀ line ∈ lines, line.length < 80)
    (s : Console) (home : s.csrX = 0 ∧ s.csrY = 0) :
    let after := printAll (lineText fg bg lines) s
    let k := lines.length - 24
    after.csrX = 0 ∧ after.csrY = (min lines.length 24 : Nat) ∧
      ∀ r < 25, ∀ c < 80, cell after r c =
        match lines[r + k]? with
        | some line => attrOf fg bg ++ line.getD c emptyChar
        | none => if k = 0 then cell s r c else 0x0f20 := by
  intro after k
  have on : OnScreen s := by
    obtain ⟨left, top⟩ := home
    constructor
    · exact Int.le_of_eq left.symm
    · exact left ▸ zero_lt_columns
    · exact Int.le_of_eq top.symm
    · exact top ▸ (by decide)
  have start : Displays s ⟨cell s, 0, 0⟩ := ⟨on, home.2, home.1, fun _ _ _ _ => rfl⟩
  have shown := Displays.feed start (lineText fg bg lines)
  have cells_short : ∀ line ∈ lines.map (·.map (attrOf fg bg ++ ·)), line.length < 80 := by
    intro line member
    obtain ⟨bytes, listed, rfl⟩ := List.mem_map.mp member
    rw [List.length_map]
    exact short bytes listed
  rw [feed_lineText fg bg lines plain, foldl_lines (by decide) (by decide) _ cells_short] at shown
  obtain ⟨scrolled, shows⟩ := @shows_foldl _ 80 25 0x0f20 (cell s) (by decide) (by decide)
    ((lines.map (·.map (attrOf fg bg ++ ·))).flatMap (padded 80 (attrOf fg bg ++ emptyChar)))
  obtain ⟨count, column, row⟩ := shows.scrolled_eq
  rw [flatMap_padded_length cells_short, List.length_map] at count column row
  rw [scrolledOff, Nat.mul_div_cancel _ (by decide)] at count
  rw [Nat.mul_mod_left] at column
  rw [Nat.mul_div_cancel _ (by decide)] at row
  refine ⟨by rw [shown.column, column]; rfl, by rw [shown.row, row], fun r hr c hc => ?_⟩
  have number : scrolled = k := count
  rw [shown.cells r hr c hc, shows.cells r hr c hc, number,
    flatMap_padded_getElem cells_short hc, List.getElem?_map, background]
  cases lines[r + k]? with
  | none => rfl
  | some text =>
    simp only [Option.map_some, Option.getD_some, List.getD_eq_getElem?_getD, List.getElem?_map]
    cases text[c]? with
    | none => rfl
    | some ch => rfl

/-- Two lines on a fresh screen. -/
theorem lines_layout_two :
    let after := printAll (lineText .brightWhite .black [[0x48, 0x69], [0x21]]) (boot fun _ => 0)
    after.csrX = 0 ∧ after.csrY = 2 ∧ cell after 0 1 = 0x0f69 ∧ cell after 1 0 = 0x0f21 ∧
      cell after 1 1 = 0x0f20 := by
  intro after
  have plain : ∀ line ∈ [[0x48, 0x69], [(0x21 : U8)]], ∀ ch ∈ line, Plain ch := by
    unfold Plain
    decide
  obtain ⟨across, down, cells⟩ := lines_layout .brightWhite .black [[0x48, 0x69], [0x21]] plain
    (by decide) (boot fun _ => 0) ⟨rfl, rfl⟩
  exact ⟨across, down, cells 0 (by decide) 1 (by decide), cells 1 (by decide) 0 (by decide),
    cells 1 (by decide) 1 (by decide)⟩

end BlessOS.Guarantees.ConsoleTerminal
