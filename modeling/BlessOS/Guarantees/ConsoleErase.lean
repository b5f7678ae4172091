import BlessOS.Guarantees.ConsoleText

/-!
# Backspace erases what was printed last

A backspace goes to the cell in front of the cursor, across the end of a line if need be, and
blanks it. After a character has been printed that is the cell that shows it: when the screen
was scrolled, both have moved up by one line.
-/

set_option autoImplicit false

namespace BlessOS.Guarantees.ConsoleErase
open BlessOS.Lib.ByteMemory BlessOS.Lib.ScrollWindow
open BlessOS.Source BlessOS.Source.Console
open BlessOS.Guarantees.ConsoleBounds BlessOS.Guarantees.ConsoleText

variable {s : Console} {r c : Nat} {fg bg : Colour} {ch : U8}

/-! ## One backspace -/

/-- The number of the cursor's cell, in reading order. -/
def place (s : Console) : Int := s.csrY * 80 + s.csrX

/-- The cell in front of the cursor's. -/
structure InFront (s : Console) (r c : Nat) : Prop where
  row : r < 25
  column : c < 80
  next : place s = r * 80 + c + 1

/-- The two bytes in front of the cursor's cell are those of the cell in front of it. -/
theorem cursorCell_inFront (front : InFront s r c) :
    cursorCell s - 2 = videoAddr (2 * (r * 80 + c)) ∧
      cursorCell s - 1 = videoAddr (2 * (r * 80 + c) + 1) := by
  obtain ⟨row, column, next⟩ := front
  unfold place at next
  have address : cursorCell s = videoAddr (2 * (r * 80 + c) + 2) := by
    rw [cursorCell, videoAddr]
    simp only [vramLine, columns]
    congr 1
    push_cast
    omega
  have first := videoAddr_succ (2 * (r * 80 + c))
  have second := videoAddr_succ (2 * (r * 80 + c) + 1)
  rw [address, ← second, ← first]
  constructor
  · bv_omega
  · bv_omega

/-- The bytes that a backspace writes. -/
def eraseAt (s : Console) : Console :=
  poke (cursorCell s - 2) emptyChar (poke (cursorCell s - 1) blankAttr s)

theorem cell_eraseAt (front : InFront s r c) {r' c' : Nat} (row : r' < 25) (column : c' < 80) :
    cell (eraseAt s) r' c' =
      if r' = r ∧ c' = c then blankAttr ++ emptyChar else cell s r' c' := by
  obtain ⟨low, high⟩ := cursorCell_inFront front
  have above := front.row
  have inside := front.column
  rw [cell_eq, eraseAt, low, high, byteAt_poke _ (by omega) (by omega),
    byteAt_poke _ (by omega) (by omega), byteAt_poke _ (by omega) (by omega),
    byteAt_poke _ (by omega) (by omega)]
  by_cases here : r' = r ∧ c' = c
  · rw [if_pos here, here.1, here.2, if_neg (by omega), if_pos rfl, if_pos rfl]
  · have other : r' * 80 + c' ≠ r * 80 + c := fun same => here (cell_injective column inside same)
    rw [if_neg here, if_neg (by omega), if_neg (by omega), if_neg (by omega), if_neg (by omega),
      cell_eq]

/-- A backspace behind a cell. -/
theorem printC_backspace (on : OnScreen s) (front : InFront s r c) (fg bg : Colour) :
    (printC backspace fg bg s).csrX = c ∧ (printC backspace fg bg s).csrY = r ∧
      ∀ r' < 25, ∀ c' < 80, cell (printC backspace fg bg s) r' c' = cell (eraseAt s) r' c' := by
  obtain ⟨left, right, above, below⟩ := on
  obtain ⟨row, column, next⟩ := front
  unfold place at next
  simp only [columns, lines] at right below
  have behind : ¬ (s.csrX = 0 ∧ s.csrY = 0) := by
    rintro ⟨first, top⟩
    omega
  have moved : printC backspace fg bg s =
      endPrint { eraseAt s with csrX := c, csrY := r } := by
    have other : backspace ≠ cr ∧ backspace ≠ lf ∧ backspace ≠ tab := by decide
    simp only [printC, if_neg other.1, if_neg other.2.1, if_neg other.2.2, if_pos, if_neg behind]
    by_cases first : s.csrX = 0
    · have column' : (c : Int) = columns - 1 := by simp only [columns]; omega
      have row' : (r : Int) = s.csrY - 1 := by omega
      rw [if_pos first, column', row']
      rfl
    · have column' : (c : Int) = s.csrX - 1 := by omega
      have row' : (r : Int) = s.csrY := by omega
      rw [if_neg first, column', row']
      rfl
  rw [moved, endPrint_inside (by simp only [columns]; omega)]
  exact ⟨rfl, rfl, fun _ _ _ _ => rfl⟩

/-! ## A character and a backspace -/

/-- The row that shows what is printed at the cursor: behind its last cell the screen is
scrolled. -/
def shownRow (s : Console) : Nat :=
  if s.csrX < columns - 1 ∨ s.csrY < lines - 1 then s.csrY.toNat else s.csrY.toNat - 1

/-- Where a printed character is, and that the cursor is behind it. -/
theorem printC_shown (plain : Plain ch) (on : OnScreen s) (fg bg : Colour) :
    OnScreen (printC ch fg bg s) ∧
      cell (printC ch fg bg s) (shownRow s) s.csrX.toNat = attrOf fg bg ++ ch ∧
      InFront (printC ch fg bg s) (shownRow s) s.csrX.toNat := by
  let w : Window U16 := ⟨cell s, s.csrY.toNat, s.csrX.toNat⟩
  have here : Displays s w :=
    ⟨on, (Int.toNat_of_nonneg on.above).symm, (Int.toNat_of_nonneg on.left).symm,
      fun _ _ _ _ => rfl⟩
  obtain ⟨on', down, across, cells⟩ := @Displays.printC _ _ fg bg _ here plain
  obtain ⟨left, right, above, below⟩ := on
  simp only [columns, lines] at right below
  have row : s.csrY.toNat < 25 := by omega
  have column : s.csrX.toNat < 80 := by omega
  obtain ⟨shown, next⟩ := @Window.put_shown _ 80 25 0x0f20 w row column (by decide)
    (attrOf fg bg ++ ch)
  have same : w.shownRow 80 25 = shownRow s := by
    refine if_congr ?_ rfl rfl
    simp only [w, columns, lines]
    omega
  have bound : shownRow s < 25 := by
    unfold shownRow
    split <;> omega
  rw [same] at shown next
  refine ⟨on', (cells _ bound _ column).trans shown, bound, column, ?_⟩
  unfold place
  rw [down, across]
  exact_mod_cast next

/-- **Backspace.** A character printed anywhere on the screen and then a backspace: the cursor
is on the cell that showed the character, which is blank, and all other cells are as they were
after the character. -/
theorem backspace_erases (plain : Plain ch) (on : OnScreen s) (fg bg fg' bg' : Colour) :
    let printed := printC ch fg bg s
    let erased := printC backspace fg' bg' printed
    let r := shownRow s
    let c := s.csrX.toNat
    cell printed r c = attrOf fg bg ++ ch ∧
      erased.csrX = c ∧ erased.csrY = r ∧ cell erased r c = blankAttr ++ emptyChar ∧
      ∀ r' < 25, ∀ c' < 80, ¬ (r' = r ∧ c' = c) → cell erased r' c' = cell printed r' c' := by
  intro printed erased r c
  obtain ⟨on', shown, front⟩ := printC_shown plain on fg bg
  obtain ⟨across, down, cells⟩ := printC_backspace on' front fg' bg'
  refine ⟨shown, across, down, ?_, fun r' row c' column other => ?_⟩
  · exact (cells r front.row c front.column).trans
      ((cell_eraseAt front front.row front.column).trans (if_pos ⟨rfl, rfl⟩))
  · exact (cells r' row c' column).trans ((cell_eraseAt front row column).trans (if_neg other))

/-- In the last cell of the screen: the character is erased in the line above. -/
theorem backspace_erases_corner :
    let corner : Console := { boot (fun _ => 0x41) with csrX := 79, csrY := 24 }
    let erased := printC backspace .white .black (printC 0x42 .brightWhite .black corner)
    erased.csrX = 79 ∧ erased.csrY = 23 ∧ cell erased 23 79 = 0x0720 ∧
      cell erased 24 79 = cell (printC 0x42 .brightWhite .black corner) 24 79 := by
  intro corner erased
  have plain : Plain 0x42 := ⟨by decide, by decide, by decide, by decide⟩
  have on : OnScreen corner := ⟨by decide, by decide, by decide, by decide⟩
  obtain ⟨-, across, down, blanked, others⟩ :=
    backspace_erases plain on .brightWhite .black .white .black
  exact ⟨across, down, blanked, others 24 (by decide) 79 (by decide) (by decide)⟩

end BlessOS.Guarantees.ConsoleErase
