import Mathlib.Logic.Function.Basic
import Mathlib.Data.List.Induction

/-!
# Text in a scrolling window

A window of `height` rows and `width` columns is filled cell by cell, row after row. Past its
last cell the rows move up by one and a blank row comes in at the bottom. What it shows is
the text from a row of it on: the rows that were scrolled off are the first ones.
-/

set_option autoImplicit false

namespace BlessOS.Lib.ScrollWindow

variable {α : Type*}

/-- The cells by row and column, and where the next one goes. -/
structure Window (α : Type*) where
  cells : Nat → Nat → α
  row : Nat
  column : Nat

section Filling
variable (width height : Nat) (blank : α)

/-- All rows one up; the last one is blank. -/
def scroll (cells : Nat → Nat → α) (r c : Nat) : α :=
  if r + 1 < height then cells (r + 1) c else blank

def draw (cells : Nat → Nat → α) (row column : Nat) (x : α) (r c : Nat) : α :=
  if r = row ∧ c = column then x else cells r c

def Window.put (w : Window α) (x : α) : Window α :=
  let drawn := draw w.cells w.row w.column x
  if w.column + 1 < width then ⟨drawn, w.row, w.column + 1⟩
  else if w.row + 1 < height then ⟨drawn, w.row + 1, 0⟩
  else ⟨scroll height blank drawn, w.row, 0⟩

/-- The rows of a text of `n` cells that have been scrolled off. -/
def scrolledOff (n : Nat) : Nat := n / width - (height - 1)

/-- What is not text: the first screen, until a row has been scrolled in. -/
def background (original : Nat → Nat → α) (scrolled r c : Nat) : α :=
  if scrolled = 0 then original r c else blank

/-- The window shows the text after its first `scrolled` rows. -/
structure Shows (original : Nat → Nat → α) (text : List α) (scrolled : Nat) (w : Window α) :
    Prop where
  column : w.column < width
  row : w.row < height
  length : text.length = (w.row + scrolled) * width + w.column
  bottom : scrolled ≠ 0 → w.row = height - 1
  cells : ∀ r < height, ∀ c < width, w.cells r c =
    (text[(r + scrolled) * width + c]?).getD (background blank original scrolled r c)

end Filling

variable {width height : Nat} {blank : α} {original : Nat → Nat → α} {text : List α}
  {scrolled : Nat} {w : Window α}

/-- Row and column of a cell are determined by its number. -/
theorem cell_injective {r r' c c' : Nat} (left : c < width) (right : c' < width)
    (same : r * width + c = r' * width + c') : r = r' ∧ c = c' := by
  have positive : 0 < width := Nat.zero_lt_of_lt left
  have rows := congrArg (· / width) same
  have columns := congrArg (· % width) same
  simp only [Nat.add_comm _ c, Nat.add_comm _ c', Nat.add_mul_div_right _ _ positive,
    Nat.div_eq_of_lt left, Nat.div_eq_of_lt right, Nat.add_mul_mod_self_right,
    Nat.mod_eq_of_lt left, Nat.mod_eq_of_lt right, Nat.zero_add] at rows columns
  exact ⟨rows, columns⟩

/-- The numbers behind the text's length are those of the closed form. -/
theorem Shows.scrolled_eq (shows : Shows width height blank original text scrolled w) :
    scrolled = scrolledOff width height text.length ∧ w.column = text.length % width ∧
      w.row = min (text.length / width) (height - 1) := by
  obtain ⟨column, row, length, bottom, -⟩ := shows
  have positive : 0 < width := Nat.zero_lt_of_lt column
  have rows : text.length / width = w.row + scrolled := by
    rw [length, Nat.add_comm, Nat.add_mul_div_right _ _ positive, Nat.div_eq_of_lt column,
      Nat.zero_add]
  have columns : text.length % width = w.column := by
    rw [length, Nat.add_comm, Nat.add_mul_mod_self_right, Nat.mod_eq_of_lt column]
  rw [scrolledOff, rows, columns]
  by_cases none : scrolled = 0
  · omega
  · have last := bottom none
    omega

theorem scroll_congr {cells cells' : Nat → Nat → α} {r c : Nat}
    (same : r + 1 < height → cells (r + 1) c = cells' (r + 1) c) :
    scroll height blank cells r c = scroll height blank cells' r c := by
  unfold scroll
  split
  · next more => exact same more
  · rfl

/-- The row that shows the next cell when it has been filled. -/
def Window.shownRow (w : Window α) (width height : Nat) : Nat :=
  if w.column + 1 < width ∨ w.row + 1 < height then w.row else w.row - 1

/-- The cell just filled is shown in front of where the next one goes. -/
theorem Window.put_shown (row : w.row < height) (column : w.column < width) (rows : 1 < height)
    (x : α) :
    (w.put width height blank x).cells (w.shownRow width height) w.column = x ∧
      (w.put width height blank x).row * width + (w.put width height blank x).column =
        w.shownRow width height * width + w.column + 1 := by
  have drawn : ScrollWindow.draw w.cells w.row w.column x w.row w.column = x :=
    if_pos ⟨rfl, rfl⟩
  have edge : ¬ w.column + 1 < width → (w.row + 1) * width = w.row * width + w.column + 1 := by
    intro wraps
    rw [Nat.succ_mul]
    omega
  unfold Window.put Window.shownRow
  dsimp only
  split
  · next inside =>
    rw [if_pos (Or.inl inside)]
    exact ⟨drawn, rfl⟩
  · next wraps =>
    split
    · next more =>
      rw [if_pos (Or.inr more)]
      exact ⟨drawn, edge wraps⟩
    · next last =>
      have up : w.row - 1 + 1 = w.row := by omega
      have corner : ¬ (w.column + 1 < width ∨ w.row + 1 < height) := by omega
      rw [if_neg corner]
      constructor
      · change ScrollWindow.scroll height blank _ (w.row - 1) w.column = x
        rw [ScrollWindow.scroll, up, if_pos row]
        exact drawn
      · change w.row * width + 0 = (w.row - 1) * width + w.column + 1
        have above := Nat.succ_mul (w.row - 1) width
        rw [Nat.succ_eq_add_one, up] at above
        omega

/-- The cell just drawn continues the text. -/
theorem Shows.draw (shows : Shows width height blank original text scrolled w) (x : α) {r c : Nat}
    (row : r < height) (column : c < width) :
    draw w.cells w.row w.column x r c =
      ((text ++ [x])[(r + scrolled) * width + c]?).getD
        (background blank original scrolled r c) := by
  unfold ScrollWindow.draw
  by_cases here : r = w.row ∧ c = w.column
  · have number : (r + scrolled) * width + c = text.length := by
      rw [here.1, here.2, shows.length]
    rw [if_pos here, number, List.getElem?_concat_length, Option.getD_some]
  · have other : (r + scrolled) * width + c ≠ text.length := by
      rw [shows.length]
      intro same
      obtain ⟨rows, columns⟩ := cell_injective column shows.column same
      exact here ⟨Nat.add_right_cancel rows, columns⟩
    rw [if_neg here, shows.cells r row c column]
    congr 1
    by_cases inside : (r + scrolled) * width + c < text.length
    · rw [List.getElem?_append_left inside]
    · have behind : (text ++ [x]).length ≤ (r + scrolled) * width + c := by
        rw [List.length_append, List.length_singleton]
        omega
      rw [List.getElem?_eq_none (Nat.not_lt.mp inside), List.getElem?_eq_none behind]

/-- When the last cell of the last row is drawn the rows move up, and the text has filled
all of them. -/
theorem Shows.scroll (shows : Shows width height blank original text scrolled w) (x : α)
    (full : (text ++ [x]).length = (height + scrolled) * width) {r c : Nat} (row : r < height)
    (column : c < width) :
    scroll height blank (ScrollWindow.draw w.cells w.row w.column x) r c =
      ((text ++ [x])[(r + (scrolled + 1)) * width + c]?).getD
        (background blank original (scrolled + 1) r c) := by
  have fresh : background blank original (scrolled + 1) r c = blank :=
    if_neg (Nat.succ_ne_zero scrolled)
  have above : r + 1 + scrolled = r + (scrolled + 1) := by omega
  unfold ScrollWindow.scroll
  split
  · next more =>
    have filled : (r + (scrolled + 1)) * width + c < (text ++ [x]).length := by
      have below := Nat.mul_le_mul_right width (show r + (scrolled + 1) + 1 ≤ height + scrolled by
        omega)
      rw [Nat.add_mul, Nat.one_mul] at below
      omega
    rw [shows.draw x more column, above, List.getElem?_eq_getElem filled, Option.getD_some,
      Option.getD_some]
  · next last =>
    have behind : (text ++ [x]).length ≤ (r + (scrolled + 1)) * width + c := by
      have same : r + (scrolled + 1) = height + scrolled := by omega
      rw [same, full]
      exact Nat.le_add_right _ _
    rw [List.getElem?_eq_none behind, Option.getD_none, fresh]

theorem Shows.put (shows : Shows width height blank original text scrolled w) (x : α) :
    ∃ scrolled', Shows width height blank original (text ++ [x]) scrolled'
      (w.put width height blank x) := by
  have drawn := fun r (row : r < height) c (column : c < width) => shows.draw x row column
  have column := shows.column
  have row := shows.row
  have length : (text ++ [x]).length = (w.row + scrolled) * width + (w.column + 1) := by
    rw [List.length_append, List.length_singleton, shows.length, Nat.add_assoc]
  have next_row : ¬ w.column + 1 < width →
      (text ++ [x]).length = (w.row + scrolled + 1) * width := by
    intro wraps
    have edge : w.column + 1 = width := by omega
    rw [length, edge, Nat.succ_mul]
  unfold Window.put
  dsimp only
  split
  · next inside => exact ⟨scrolled, inside, row, length, shows.bottom, drawn⟩
  · next wraps =>
    split
    · next more =>
      refine ⟨scrolled, Nat.zero_lt_of_lt column, more, ?_, ?_, drawn⟩
      · rw [next_row wraps, Nat.add_right_comm]
        rfl
      · intro some
        have last := shows.bottom some
        omega
    · next bottom =>
      have last : w.row = height - 1 := by omega
      refine ⟨scrolled + 1, Nat.zero_lt_of_lt column, row, next_row wraps, fun _ => last, ?_⟩
      intro r above c inside
      refine shows.scroll x ?_ above inside
      rw [next_row wraps]
      congr 1
      omega

/-- A text filled into a window from its first cell on. -/
theorem shows_foldl (wide : 0 < width) (high : 0 < height) (text : List α) :
    ∃ scrolled, Shows width height blank original text scrolled
      (text.foldl (Window.put width height blank) ⟨original, 0, 0⟩) := by
  induction text using List.reverseRecOn with
  | nil =>
    refine ⟨0, wide, high, by simp, fun some => absurd rfl some, fun r _ c _ => ?_⟩
    rw [List.getElem?_nil, Option.getD_none]
    exact (if_pos rfl).symm
  | append_singleton text x ih =>
    obtain ⟨scrolled, shows⟩ := ih
    rw [List.foldl_append]
    exact shows.put x

end BlessOS.Lib.ScrollWindow
