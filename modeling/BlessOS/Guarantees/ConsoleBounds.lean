import BlessOS.Source.Console

/-!
# The console stays on the screen

Before and after every call the cursor is on the screen; each loop of `print_c`
starts at the cursor's cell and ends at the last cell of its line at the latest.
The writes are read off the record the model keeps of them.
-/

set_option autoImplicit false

namespace BlessOS.Guarantees.ConsoleBounds
open BlessOS.Lib.ByteMemory BlessOS.Source BlessOS.Source.Console

/-- The byte belongs to a cell of the screen. -/
def InVideo (a : Addr) : Prop :=
  videoramStart ≤ a.toNat ∧ (a.toNat : Int) < videoramStart + lines * columns * 2

/-- Nothing outside the cells of the screen was written. -/
def VideoOnly (s : Console) : Prop := ∀ a ∈ s.written, InVideo a

structure OnScreen (s : Console) : Prop where
  left : 0 ≤ s.csrX
  right : s.csrX < columns
  above : 0 ≤ s.csrY
  below : s.csrY < lines

theorem zero_lt_columns : 0 < columns := by decide

section Writes

@[simp] theorem poke_csrX (a : Addr) (value : U8) (s : Console) :
    (poke a value s).csrX = s.csrX := rfl

@[simp] theorem poke_csrY (a : Addr) (value : U8) (s : Console) :
    (poke a value s).csrY = s.csrY := rfl

@[simp] theorem pokew_csrX (a : Addr) (value : U16) (s : Console) :
    (pokew a value s).csrX = s.csrX := rfl

@[simp] theorem pokew_csrY (a : Addr) (value : U16) (s : Console) :
    (pokew a value s).csrY = s.csrY := rfl

theorem setCursor_videoOnly (x y : Int) {s : Console} (clean : VideoOnly s) :
    VideoOnly (setCursor x y s) := clean

theorem setCursor_onScreen {x y : Int} (s : Console) (left : 0 ≤ x) (right : x < columns)
    (above : 0 ≤ y) (below : y < lines) : OnScreen (setCursor x y s) :=
  ⟨left, right, above, below⟩

theorem poke_videoOnly {a : Addr} (value : U8) {s : Console} (clean : VideoOnly s)
    (inside : InVideo a) : VideoOnly (poke a value s) := by
  intro x member
  rcases List.mem_append.mp member with old | new
  · exact clean x old
  · rw [List.mem_singleton.mp new]
    exact inside

theorem pokew_videoOnly {a : Addr} (value : U16) {s : Console} (clean : VideoOnly s)
    (low : InVideo a) (high : InVideo (a + 1)) : VideoOnly (pokew a value s) :=
  poke_videoOnly _ (poke_videoOnly _ clean low) high

/-- The bytes from `a` on as far as the end of the screen, by the offset of `a`. -/
theorem inVideo_add {a : Addr} {offset : Nat} (i : Nat)
    (start : (a.toNat : Int) = videoramStart + offset)
    (room : (offset + i : Int) < lines * columns * 2) : InVideo (a + BitVec.ofNat 32 i) := by
  simp only [InVideo, videoramStart, lines, columns] at *
  rw [BitVec.toNat_add, BitVec.toNat_ofNat]
  omega

theorem inVideo_self {a : Addr} {offset : Nat} (start : (a.toNat : Int) = videoramStart + offset)
    (room : (offset : Int) < lines * columns * 2) : InVideo a := by
  simp only [InVideo, videoramStart, lines, columns] at *
  omega

/-- The address of the byte at an offset. -/
theorem toNat_videoram (offset : Nat) (room : (offset : Int) < lines * columns * 2) :
    ((BitVec.ofInt 32 (videoramStart + offset)).toNat : Int) = videoramStart + offset := by
  simp only [videoramStart, lines, columns] at *
  rw [BitVec.toNat_ofInt]
  omega

/-- Moving on inside the screen. -/
theorem start_add {a : Addr} {offset : Nat} (i : Nat)
    (start : (a.toNat : Int) = videoramStart + offset)
    (room : (offset + i : Int) ≤ lines * columns * 2) :
    ((a + BitVec.ofNat 32 i).toNat : Int) = videoramStart + (offset + i : Nat) := by
  simp only [videoramStart, lines, columns] at *
  rw [BitVec.toNat_add, BitVec.toNat_ofNat]
  omega

end Writes

section Scrolling

@[simp] theorem memcpy_csrX (n : Nat) (sp dp : Addr) (s : Console) :
    (memcpy sp dp n s).csrX = s.csrX := by
  induction n generalizing sp dp s with
  | zero => rfl
  | succ n ih => rw [memcpy, ih, poke_csrX]

@[simp] theorem memcpy_csrY (n : Nat) (sp dp : Addr) (s : Console) :
    (memcpy sp dp n s).csrY = s.csrY := by
  induction n generalizing sp dp s with
  | zero => rfl
  | succ n ih => rw [memcpy, ih, poke_csrY]

theorem memcpy_videoOnly (n : Nat) (sp dp : Addr) (s : Console) (offset : Nat)
    (start : (dp.toNat : Int) = videoramStart + offset)
    (room : (offset + n : Int) ≤ lines * columns * 2) (clean : VideoOnly s) :
    VideoOnly (memcpy sp dp n s) := by
  induction n generalizing sp dp s offset with
  | zero => exact clean
  | succ n ih =>
    have here : InVideo dp := inVideo_self start (by omega)
    have next := start_add 1 start (by omega)
    refine ih (sp + 1) (dp + 1) _ (offset + 1) next (by omega) ?_
    exact poke_videoOnly _ clean here

theorem memsetw_videoOnly (count : Nat) (dest : Addr) (val : U16) (s : Console) (offset : Nat)
    (start : (dest.toNat : Int) = videoramStart + offset)
    (room : (offset + count * 2 : Int) ≤ lines * columns * 2) (clean : VideoOnly s) :
    VideoOnly (memsetw dest val count s) := by
  induction count generalizing dest s offset with
  | zero => exact clean
  | succ count ih =>
    have low : InVideo dest := inVideo_self start (by omega)
    have high : InVideo (dest + 1) :=
      inVideo_add 1 start (by omega)
    have next := start_add 2 start (by omega)
    refine ih (dest + 2) _ (offset + 2) next (by omega) ?_
    exact pokew_videoOnly _ clean low high

@[simp] theorem blankLast_csrX (i : Nat) (s : Console) : (blankLast i s).csrX = s.csrX := by
  induction i with
  | zero => rfl
  | succ i ih => rw [blankLast, pokew_csrX, ih]

@[simp] theorem blankLast_csrY (i : Nat) (s : Console) : (blankLast i s).csrY = s.csrY := by
  induction i with
  | zero => rfl
  | succ i ih => rw [blankLast, pokew_csrY, ih]

theorem blankLast_videoOnly (i : Nat) (s : Console) (room : (i : Int) ≤ columns)
    (clean : VideoOnly s) : VideoOnly (blankLast i s) := by
  induction i with
  | zero => exact clean
  | succ i ih =>
    simp only [columns] at room
    have cell : vgaMem (columns * (lines - 1) + i) =
        BitVec.ofInt 32 (videoramStart + ((1920 + i) * 2 : Nat)) := by
      simp only [vgaMem, columns, lines]
      congr 2
    have start := toNat_videoram ((1920 + i) * 2) (by simp only [lines, columns]; omega)
    rw [← cell] at start
    rw [blankLast]
    refine pokew_videoOnly _ (ih (by simp only [columns]; omega)) ?_ ?_
    · exact inVideo_self start (by simp only [lines, columns]; omega)
    · exact inVideo_add 1 start (by simp only [lines, columns]; omega)

@[simp] theorem scrollDown_csrX (s : Console) : (scrollDown s).csrX = s.csrX := by
  rw [scrollDown, blankLast_csrX, memcpy_csrX]

@[simp] theorem scrollDown_csrY (s : Console) : (scrollDown s).csrY = s.csrY := by
  rw [scrollDown, blankLast_csrY, memcpy_csrY]

theorem scrollDown_videoOnly {s : Console} (clean : VideoOnly s) : VideoOnly (scrollDown s) := by
  have start : ((vgaMem 0).toNat : Int) = videoramStart + (0 : Nat) := by decide
  refine blankLast_videoOnly _ _ (by decide) ?_
  exact memcpy_videoOnly _ _ _ _ 0 start (by decide) clean

theorem clearScreen_videoOnly {s : Console} (clean : VideoOnly s) : VideoOnly (clearScreen s) := by
  have start : ((vgaMem 0).toNat : Int) = videoramStart + (0 : Nat) := by decide
  exact memsetw_videoOnly _ _ _ _ 0 start (by decide) clean

end Scrolling

section Printing

/-- The address of the cursor's cell. -/
theorem cursorCell_start {s : Console} (on : OnScreen s) :
    ((cursorCell s).toNat : Int) = videoramStart + (s.csrY * vramLine + s.csrX * 2).toNat := by
  rcases on with ⟨left, right, above, below⟩
  simp only [columns, lines] at right below
  have cell : cursorCell s =
      BitVec.ofInt 32 (videoramStart + (s.csrY * vramLine + s.csrX * 2).toNat) := by
    simp only [cursorCell, vramLine, columns]
    congr 1
    omega
  rw [cell]
  exact toNat_videoram _ (by simp only [vramLine, lines, columns]; omega)

/-- The filling loop moves the cursor by its turns and writes to the end of them only. -/
theorem fill_spec (attr : U8) (turns : Nat) (dest : Addr) (s : Console) (offset : Nat)
    (start : (dest.toNat : Int) = videoramStart + offset)
    (room : (offset + turns * 2 : Int) ≤ lines * columns * 2) (clean : VideoOnly s) :
    (fill attr turns dest s).csrX = s.csrX + turns ∧ (fill attr turns dest s).csrY = s.csrY ∧
      VideoOnly (fill attr turns dest s) := by
  induction turns generalizing dest s offset with
  | zero => exact ⟨by simp [fill], rfl, clean⟩
  | succ turns ih =>
    have low : InVideo dest := inVideo_self start (by omega)
    have high : InVideo (dest + 1) :=
      inVideo_add 1 start (by omega)
    have next := start_add 2 start (by omega)
    have drawn : VideoOnly (poke (dest + 1) attr (poke dest emptyChar s)) :=
      poke_videoOnly _ (poke_videoOnly _ clean low) high
    obtain ⟨across, down, writes⟩ := ih (dest + 2)
      { poke (dest + 1) attr (poke dest emptyChar s) with csrX := s.csrX + 1 }
      (offset + 2) next (by omega) drawn
    refine ⟨?_, down, writes⟩
    simp only [fill, poke_csrX, across]
    omega

/-- What `print_c` needs at its end: the cursor may be one past the line. -/
theorem endPrint_spec {s : Console} (left : 0 ≤ s.csrX) (above : 0 ≤ s.csrY)
    (below : s.csrY < lines) (clean : VideoOnly s) :
    OnScreen (endPrint s) ∧ VideoOnly (endPrint s) := by
  simp only [endPrint]
  split
  next wraps =>
    split
    next more =>
      exact ⟨setCursor_onScreen _ (Int.le_refl 0) zero_lt_columns (by dsimp only; omega)
        (by dsimp only; omega), setCursor_videoOnly _ _ clean⟩
    next last =>
      have scrolled : VideoOnly (scrollDown { s with csrX := 0 }) := scrollDown_videoOnly clean
      rw [scrollDown_csrX, scrollDown_csrY]
      exact ⟨setCursor_onScreen _ (Int.le_refl 0) zero_lt_columns above below,
        setCursor_videoOnly _ _ scrolled⟩
  next stays =>
    exact ⟨setCursor_onScreen _ left (Int.not_le.mp stays) above below,
      setCursor_videoOnly _ _ clean⟩

/-- Filling up to a column of the line, then the end of `print_c`. -/
theorem fillTo_spec {s : Console} (attr : U8) (limit : Int) (on : OnScreen s)
    (bound : limit ≤ columns) (clean : VideoOnly s) :
    OnScreen (endPrint (fillTo limit attr (cursorCell s) s)) ∧
      VideoOnly (endPrint (fillTo limit attr (cursorCell s) s)) := by
  have start := cursorCell_start on
  rcases on with ⟨left, right, above, below⟩
  have room : ((s.csrY * vramLine + s.csrX * 2).toNat + (limit - s.csrX).toNat * 2 : Int) ≤
      lines * columns * 2 := by
    simp only [vramLine, lines, columns] at *
    omega
  obtain ⟨across, down, writes⟩ := fill_spec attr _ _ _ _ start room clean
  refine endPrint_spec ?_ ?_ ?_ writes
  · rw [fillTo, across]
    exact Int.add_nonneg left (Int.natCast_nonneg _)
  · rw [fillTo, down]
    exact above
  · rw [fillTo, down]
    exact below

theorem tabStop_le (x : Int) : tabStop x ≤ columns := by
  simp only [tabStop]
  split <;> omega

/-- One call of `print_c`, by the character. -/
theorem printC_spec (c : U8) (fg bg : Colour) {s : Console} (on : OnScreen s)
    (clean : VideoOnly s) : OnScreen (printC c fg bg s) ∧ VideoOnly (printC c fg bg s) := by
  have start := cursorCell_start on
  have cellBound : ((s.csrY * vramLine + s.csrX * 2).toNat : Int) + 1 < lines * columns * 2 := by
    rcases on with ⟨left, right, above, below⟩
    simp only [vramLine, lines, columns] at *
    omega
  simp only [printC]
  split
  next => exact endPrint_spec (Int.le_refl 0) on.above on.below clean
  split
  next => exact fillTo_spec _ _ on (Int.le_refl _) clean
  split
  next => exact fillTo_spec _ _ on (tabStop_le _) clean
  split
  next =>
    split
    next => exact ⟨on, clean⟩
    next moves =>
      -- away from the origin there is a cell before the cursor's
      have before : 2 ≤ (s.csrY * vramLine + s.csrX * 2).toNat := by
        rcases on with ⟨left, right, above, below⟩
        simp only [vramLine, lines, columns] at *
        omega
      have second : InVideo (cursorCell s - 1) := by
        simp only [InVideo, videoramStart, lines, columns] at *
        bv_omega
      have first : InVideo (cursorCell s - 2) := by
        simp only [InVideo, videoramStart, lines, columns] at *
        bv_omega
      refine endPrint_spec ?_ ?_ ?_ (poke_videoOnly _ (poke_videoOnly _ ?_ second) first)
      all_goals
        rcases on with ⟨left, right, above, below⟩
        simp only [poke_csrX, poke_csrY, columns, lines] at *
        split
      · simp
      · simp only []
        omega
      · simp only []
        omega
      · exact above
      · simp only []
        omega
      · exact below
      · exact clean
      · exact clean
  next =>
    have low : InVideo (cursorCell s) := inVideo_self start (by omega)
    have high : InVideo (cursorCell s + 1) :=
      inVideo_add 1 start (by omega)
    have drawn : VideoOnly (poke (cursorCell s + 1) (attrOf fg bg) (poke (cursorCell s) c s)) :=
      poke_videoOnly _ (poke_videoOnly _ clean low) high
    exact endPrint_spec (Int.add_nonneg on.left (by decide)) on.above on.below drawn

end Printing

section Runs

/-- What may use the console between two calls of `print_c`. -/
inductive Call where
  | printC (c : U8) (fg bg : Colour)
  | timer

def Call.run : Call → Console → Console
  | .printC c fg bg, s => Console.printC c fg bg s
  | .timer, s => doTimerCursor s

/-- The console after the calls, from `console_init` on. -/
def afterCalls (mem : Mem) (calls : List Call) : Console :=
  calls.foldl (fun s call => call.run s) (consoleInit (boot mem))

theorem call_spec (call : Call) {s : Console} (on : OnScreen s) (clean : VideoOnly s) :
    OnScreen (call.run s) ∧ VideoOnly (call.run s) := by
  cases call with
  | printC c fg bg => exact printC_spec c fg bg on clean
  | timer => exact ⟨⟨on.left, on.right, on.above, on.below⟩, clean⟩

theorem scrollDown_onScreen {s : Console} (on : OnScreen s) : OnScreen (scrollDown s) := by
  constructor
  all_goals simp only [scrollDown_csrX, scrollDown_csrY]
  · exact on.left
  · exact on.right
  · exact on.above
  · exact on.below

theorem scrolls_spec (i : Nat) {s : Console} (on : OnScreen s) (clean : VideoOnly s) :
    OnScreen (scrolls i s) ∧ VideoOnly (scrolls i s) := by
  induction i with
  | zero => exact ⟨on, clean⟩
  | succ i ih => exact ⟨scrollDown_onScreen ih.1, scrollDown_videoOnly ih.2⟩

theorem consoleInit_spec (mem : Mem) :
    OnScreen (consoleInit (boot mem)) ∧ VideoOnly (consoleInit (boot mem)) := by
  have empty : VideoOnly (boot mem) := fun a member => absurd member List.not_mem_nil
  have cleared : VideoOnly (setCursor 0 0 (clearScreen (boot mem))) :=
    setCursor_videoOnly 0 0 (clearScreen_videoOnly empty)
  have on : OnScreen (setCursor 0 0 (clearScreen (boot mem))) :=
    setCursor_onScreen _ (Int.le_refl 0) (by decide) (Int.le_refl 0) (by decide)
  exact scrolls_spec 10 on cleared

/-- **Console bounds.** After any calls of `print_c` and the timer, in any order, the
cursor is on the screen, and nothing but the cells of the screen was ever written. -/
theorem console_in_bounds (mem : Mem) (calls : List Call) :
    OnScreen (afterCalls mem calls) ∧ ∀ a ∈ (afterCalls mem calls).written, InVideo a := by
  refine List.foldlRecOn calls (fun s (call : Call) => call.run s)
    (motive := fun s => OnScreen s ∧ VideoOnly s) (consoleInit_spec mem) ?_
  intro s held call _
  exact call_spec call held.1 held.2

end Runs

end BlessOS.Guarantees.ConsoleBounds
