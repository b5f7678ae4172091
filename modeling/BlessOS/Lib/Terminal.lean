import BlessOS.Lib.ScrollWindow

/-!
# A terminal over a scrolling window

The commands of a terminal on a window: a character goes to the next cell, a new line and a tab
are blanks up to a column, and erasing goes one cell back. A text of lines is then the text of
the lines that are filled up to the width.
-/

set_option autoImplicit false

namespace BlessOS.Lib.Terminal
open BlessOS.Lib.ScrollWindow

inductive Command (α : Type*) where
  | put (x : α)
  | carriageReturn
  | newLine (x : α)
  | tab (x : α)
  | erase (x : α)

variable {α : Type*}

section Steps
variable (width height tabWidth : Nat) (blank : α)

/-- The same cell `n` times. -/
def repeatPut (x : α) : Nat → Window α → Window α
  | 0, w => w
  | n + 1, w => repeatPut x n (w.put width height blank x)

/-- One cell back, to the end of the row above from the start of a row. -/
def back (x : α) (w : Window α) : Window α :=
  if w.column = 0 then
    if w.row = 0 then w
    else ⟨draw w.cells (w.row - 1) (width - 1) x, w.row - 1, width - 1⟩
  else ⟨draw w.cells w.row (w.column - 1) x, w.row, w.column - 1⟩

def step (w : Window α) : Command α → Window α
  | .put x => w.put width height blank x
  | .carriageReturn => { w with column := 0 }
  | .newLine x => repeatPut width height blank x (width - w.column) w
  | .tab x => repeatPut width height blank x (tabWidth - w.column % tabWidth) w
  | .erase x => back width x w

end Steps

variable {width height tabWidth n : Nat} {blank x : α} {w : Window α}

/-- A run of cells of one row. -/
def drawRun (cells : Nat → Nat → α) (row column n : Nat) (x : α) (r c : Nat) : α :=
  if r = row ∧ column ≤ c ∧ c < column + n then x else cells r c

theorem drawRun_zero (cells : Nat → Nat → α) (row column : Nat) (x : α) :
    drawRun cells row column 0 x = cells := by
  funext r c
  exact if_neg (by omega)

theorem draw_drawRun (cells : Nat → Nat → α) (row column n : Nat) (x : α) :
    draw (drawRun cells row column n x) row (column + n) x =
      drawRun cells row column (n + 1) x := by
  funext r c
  unfold draw drawRun
  by_cases last : r = row ∧ c = column + n
  · rw [if_pos last, if_pos (by omega)]
  · rw [if_neg last]
    exact if_congr (by omega) rfl rfl

theorem repeatPut_succ (x : α) (n : Nat) (w : Window α) :
    repeatPut width height blank x (n + 1) w =
      (repeatPut width height blank x n w).put width height blank x := by
  induction n generalizing w with
  | zero => rfl
  | succ n ih => exact ih (w.put width height blank x)

theorem repeatPut_eq_foldl (x : α) (n : Nat) (w : Window α) :
    repeatPut width height blank x n w =
      (List.replicate n x).foldl (Window.put width height blank) w := by
  induction n generalizing w with
  | zero => rfl
  | succ n ih => exact ih (w.put width height blank x)

/-- As long as the row does not end, its cells are drawn one after another. -/
theorem repeatPut_inside (room : w.column + n < width) :
    repeatPut width height blank x n w =
      ⟨drawRun w.cells w.row w.column n x, w.row, w.column + n⟩ := by
  induction n with
  | zero =>
    rw [drawRun_zero]
    rfl
  | succ n ih =>
    rw [repeatPut_succ, ih (by omega), Window.put, if_pos (by dsimp only; omega)]
    dsimp only
    rw [draw_drawRun, Nat.add_assoc]

/-- The window when a row has been filled to its end. -/
def wrapped (height : Nat) (blank : α) (cells : Nat → Nat → α) (row : Nat) : Window α :=
  if row + 1 < height then ⟨cells, row + 1, 0⟩ else ⟨scroll height blank cells, row, 0⟩

theorem put_wraps (last : width ≤ w.column + 1) :
    w.put width height blank x = wrapped height blank (draw w.cells w.row w.column x) w.row := by
  rw [Window.put, if_neg (Nat.not_lt.mpr last)]
  rfl

/-- Filled to its end, the row is left. -/
theorem repeatPut_wraps (positive : 0 < n) (full : w.column + n = width) :
    repeatPut width height blank x n w =
      wrapped height blank (drawRun w.cells w.row w.column n x) w.row := by
  obtain ⟨n, rfl⟩ := Nat.exists_eq_add_one_of_ne_zero (Nat.ne_of_gt positive)
  rw [repeatPut_succ, repeatPut_inside (by omega), put_wraps (by dsimp only; omega)]
  dsimp only
  rw [draw_drawRun]

/-! ## Text in lines -/

section Lines
variable {original : Nat → Nat → α}

/-- A line filled up to the width. -/
def padded (width : Nat) (x : α) (line : List α) : List α :=
  line ++ List.replicate (width - line.length) x

/-- A line and the new line behind it. -/
def lineCommands (x : α) (line : List α) : List (Command α) :=
  line.map Command.put ++ [.newLine x]

theorem foldl_put (width height tabWidth : Nat) (blank : α) (line : List α) (w : Window α) :
    (line.map Command.put).foldl (step width height tabWidth blank) w =
      line.foldl (Window.put width height blank) w := by
  rw [List.foldl_map]
  rfl

theorem padded_length {line : List α} (short : line.length < width) :
    (padded width x line).length = width := by
  rw [padded, List.length_append, List.length_replicate]
  omega

theorem flatMap_padded_length {lines : List (List α)}
    (short : ∀ line ∈ lines, line.length < width) :
    (lines.flatMap (padded width x)).length = lines.length * width := by
  induction lines with
  | nil => simp
  | cons line rest ih =>
    rw [List.flatMap_cons, List.length_append, padded_length (short line List.mem_cons_self),
      ih fun other member => short other (List.mem_cons_of_mem line member), List.length_cons,
      Nat.succ_mul, Nat.add_comm]

/-- A cell of the filled lines, by its line and its place there. -/
theorem flatMap_padded_getElem {lines : List (List α)}
    (short : ∀ line ∈ lines, line.length < width) {c : Nat} (inside : c < width) (i : Nat) :
    (lines.flatMap (padded width x))[i * width + c]? =
      lines[i]?.map fun line => line.getD c x := by
  induction lines generalizing i with
  | nil => simp
  | cons line rest ih =>
    have length := padded_length (x := x) (short line List.mem_cons_self)
    rw [List.flatMap_cons]
    cases i with
    | zero =>
      rw [Nat.zero_mul, Nat.zero_add, List.getElem?_append_left (by omega),
        List.getElem?_cons_zero, Option.map_some, List.getD_eq_getElem?_getD, padded]
      by_cases text : c < line.length
      · rw [List.getElem?_append_left text, List.getElem?_eq_getElem text, Option.getD_some]
      · have behind : line.length ≤ c := Nat.le_of_not_lt text
        rw [List.getElem?_append_right behind, List.getElem?_eq_none behind, Option.getD_none,
          List.getElem?_replicate_of_lt (by omega)]
    | succ i =>
      rw [Nat.succ_mul, List.getElem?_append_right (by omega), List.getElem?_cons_succ,
        ← ih (fun other member => short other (List.mem_cons_of_mem line member)) i]
      congr 1
      omega

/-- Lines that are shorter than the width, each with a new line behind it, are the text of the
filled lines. -/
theorem foldl_lines (wide : 0 < width) (high : 0 < height) (lines : List (List α))
    (short : ∀ line ∈ lines, line.length < width) :
    (lines.flatMap (lineCommands x)).foldl (step width height tabWidth blank) ⟨original, 0, 0⟩ =
      (lines.flatMap (padded width x)).foldl (Window.put width height blank) ⟨original, 0, 0⟩ := by
  induction lines using List.reverseRecOn with
  | nil => rfl
  | append_singleton lines line ih =>
    have before : ∀ other ∈ lines, other.length < width := fun other member =>
      short other (List.mem_append_left _ member)
    have last : line.length < width := short line (by simp)
    rw [List.flatMap_append, List.flatMap_append, List.foldl_append, List.foldl_append, ih before,
      List.flatMap_singleton, List.flatMap_singleton, lineCommands, padded, List.foldl_append,
      List.foldl_append, foldl_put]
    -- The column behind the line is its length, so the rest of the row is blanks.
    have column : (line.foldl (Window.put width height blank)
        ((lines.flatMap (padded width x)).foldl (Window.put width height blank)
          ⟨original, 0, 0⟩)).column = line.length := by
      rw [← List.foldl_append]
      obtain ⟨scrolled, shows⟩ := @shows_foldl _ width height blank original wide high
        (lines.flatMap (padded width x) ++ line)
      rw [shows.scrolled_eq.2.1, List.length_append, flatMap_padded_length before,
        Nat.mul_add_mod', Nat.mod_eq_of_lt last]
    rw [List.foldl_cons, List.foldl_nil, step, column, repeatPut_eq_foldl]

end Lines

end BlessOS.Lib.Terminal
