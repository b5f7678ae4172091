import BlessOS.Guarantees.ConsoleTerminal
import BlessOS.Guarantees.ShiftState

/-!
# What is on the screen

Scancodes, ticks and printed text come in any order. Each scancode stands for the bytes it
echoes as under the shift state it finds, and the screen is the one of a terminal that is sent
these bytes and the printed ones, in the order of the events.
-/

set_option autoImplicit false

namespace BlessOS.Guarantees.ScreenRun
open BlessOS.Lib.ByteMemory BlessOS.Lib.ScrollWindow
open BlessOS.Source BlessOS.Source.CyclicBuffer BlessOS.Source.Console BlessOS.Source.Keyboard
open BlessOS.Guarantees.CyclicBufferFifo BlessOS.Guarantees.EchoPipeline
open BlessOS.Guarantees.ConsoleBounds BlessOS.Guarantees.ConsoleText
open BlessOS.Guarantees.ConsoleTerminal BlessOS.Guarantees.ShiftState

inductive Event where
  | scancode (code : U8)
  | tick
  | print (text : List Coloured)

def exec : Event → Keyboard → Option Keyboard
  | .scancode code, s => doKb code s
  | .tick, s => some { s with console := doTimerCursor s.console }
  | .print text, s => some { s with console := printAll text s.console }

def run (events : List Event) (s : Keyboard) : Option Keyboard :=
  events.foldlM (fun s event => exec event s) s

/-- The bytes a scancode echoes as. -/
def typed (shift : Bool) (code : U8) : List U8 :=
  if code &&& 0x80 = 0 ∧ keytable code = .normal then
    echoOf (if shift then shiftKbdus code else kbdus code)
  else []

/-- `tty_write` prints bright white on black. -/
def whiteText (bytes : List U8) : List Coloured := bytes.map fun c => (c, .brightWhite, .black)

/-- All that the events send to the screen. -/
def sentBy : Bool → List Event → List Coloured
  | _, [] => []
  | shift, .scancode code :: rest => whiteText (typed shift code) ++ sentBy (byteShift code shift) rest
  | shift, .tick :: rest => sentBy shift rest
  | shift, .print text :: rest => text ++ sentBy shift rest

/-! ## The first screen -/

section Cleared
variable {s : Console} {j r c : Nat}

theorem byteAt_memsetw (val : U16) (n start : Nat) (s : Console) (room : 2 * (start + n) ≤ 4000)
    (right : j < 4000) :
    byteAt (memsetw (videoAddr (2 * start)) val n s) j =
      if 2 * start ≤ j ∧ j < 2 * (start + n) then
        if j % 2 = 0 then val.setWidth 8 else (val >>> 8).setWidth 8
      else byteAt s j := by
  induction n generalizing start s with
  | zero => exact (if_neg (by omega)).symm
  | succ n ih =>
    have two : (2 : Addr) = 1 + 1 := rfl
    have next : videoAddr (2 * start) + 2 = videoAddr (2 * (start + 1)) := by
      rw [two, ← BitVec.add_assoc, videoAddr_succ, videoAddr_succ]
      rfl
    rw [memsetw, next, ih (start + 1) _ (by omega), byteAt_pokew _ (by omega) right]
    by_cases behind : 2 * (start + 1) ≤ j ∧ j < 2 * (start + 1 + n)
    · have both : 2 * start ≤ j ∧ j < 2 * (start + (n + 1)) := by omega
      rw [if_pos behind, if_pos both]
    · rw [if_neg behind]
      by_cases high : j = 2 * start + 1
      · rw [if_pos high, if_pos (by omega), if_neg (by omega)]
      · rw [if_neg high]
        by_cases low : j = 2 * start
        · rw [if_pos low, if_pos (by omega), if_pos (by omega)]
        · rw [if_neg low, if_neg (by omega)]

theorem cell_clearScreen (s : Console) (row : r < 25) (column : c < 80) :
    cell (clearScreen s) r c = 0x0f20 := by
  have start : vgaMem 0 = videoAddr (2 * 0) := by decide
  have cleared : ∀ j < 4000, byteAt (clearScreen s) j = if j % 2 = 0 then 0x20 else 0x0f := by
    intro j right
    have set := byteAt_memsetw blank 2000 0 s (by decide) right
    rw [← start, if_pos (by omega)] at set
    exact set
  rw [cell_eq, cleared _ (by omega), cleared _ (by omega), if_neg (by omega), if_pos (by omega)]
  rfl

/-- Blank lines stay blank. -/
theorem cell_scrolls (blank : ∀ r < 25, ∀ c < 80, cell s r c = 0x0f20) (n : Nat) :
    ∀ r < 25, ∀ c < 80, cell (scrolls n s) r c = 0x0f20 := by
  induction n with
  | zero => exact blank
  | succ n ih =>
    intro r row c column
    rw [scrolls, cell_scrollDown _ row column, scroll]
    split
    · next more => exact ih (r + 1) more c column
    · rfl

end Cleared

theorem feed_append (text more : List Coloured) (w : Window U16) :
    feed (text ++ more) w = feed more (feed text w) := by
  rw [feed, List.map_append, List.foldl_append]
  rfl

def blankScreen : Window U16 := ⟨fun _ _ => 0x0f20, 0, 0⟩

theorem displays_scrolls (m : Mem) (n : Nat) :
    Displays (scrolls n (setCursor 0 0 (clearScreen (Console.boot m)))) blankScreen := by
  have cursor : ∀ s : Console, (scrolls n s).csrX = s.csrX ∧ (scrolls n s).csrY = s.csrY := by
    intro s
    induction n with
    | zero => exact ⟨rfl, rfl⟩
    | succ n ih => exact ⟨(scrollDown_csrX _).trans ih.1, (scrollDown_csrY _).trans ih.2⟩
  obtain ⟨column, row⟩ := cursor (setCursor 0 0 (clearScreen (Console.boot m)))
  refine ⟨⟨?_, ?_, ?_, ?_⟩, row, column, ?_⟩
  · exact Int.le_of_eq column.symm
  · rw [column]
    exact zero_lt_columns
  · exact Int.le_of_eq row.symm
  · rw [row]
    exact (by decide : (0 : Int) < lines)
  · have blank : ∀ r < 25, ∀ c < 80,
        cell (setCursor 0 0 (clearScreen (Console.boot m))) r c = 0x0f20 := by
      intro r above c inside
      rw [cell_setCursor]
      exact cell_clearScreen _ above inside
    exact cell_scrolls blank n

theorem displays_consoleInit (m : Mem) :
    Displays (consoleInit (Console.boot m)) blankScreen := by
  rw [consoleInit]
  exact displays_scrolls m 10

/-! ## One event -/

variable {s t : Keyboard} {w : Window U16} {code : U8}

/-- Nothing waits in the queues, and the settings are those of `main_tty`. -/
structure Idle (s : Keyboard) : Prop where
  read : Represents s.mainTty.readQueue []
  write : Represents s.mainTty.writeQueue []
  iflag : s.mainTty.cIflag = Tty.mainTty.cIflag
  lflag : s.mainTty.cLflag = Tty.mainTty.cLflag

theorem Idle.serviceable (idle : Idle s) : Serviceable s :=
  ⟨⟨idle.read.head_lt, idle.read.tail_lt⟩, ⟨idle.write.head_lt, idle.write.tail_lt⟩,
    idle.write.isEmpty⟩

theorem echoed_mainTty (c : U8) : echoed Tty.mainTty.cIflag Tty.mainTty.cLflag c = echoOf c := by
  have same : translated Tty.mainTty.cIflag c = [c] := by
    unfold translated
    by_cases isCr : c = Tty.kbdCr
    · rw [if_pos isCr, isCr]
      rfl
    · rw [if_neg isCr]
      by_cases isLf : c = Tty.kbdLf
      · rw [if_pos isLf, isLf]
        rfl
      · rw [if_neg isLf]
  unfold echoed
  rw [if_pos (by decide), same, List.flatMap_singleton]

/-- A byte that goes through the queues to the screen. -/
theorem input_echoes (idle : Idle s) (c : U8) :
    ∃ t, input c s = some t ∧ Idle t ∧ t.console = printAll (whiteText (echoOf c)) s.console := by
  have read := (idle.read.push (by decide) c).2
  obtain ⟨t, turn, read_empty, write_empty, iflag, lflag⟩ :=
    parseLoop_turn (fun c => printC c .brightWhite .black) circBuffSize.toNat
      { s.mainTty with readQueue := (cbPush c s.mainTty.readQueue).2 } s.console read idle.write
  have bytes : echoed s.mainTty.cIflag s.mainTty.cLflag c = echoOf c := by
    rw [idle.iflag, idle.lflag, echoed_mainTty]
  dsimp only at turn iflag lflag
  rw [bytes] at turn
  have printed : (echoOf c).foldl (fun out c => printC c .brightWhite .black out) s.console =
      printAll (whiteText (echoOf c)) s.console := by
    rw [printAll, whiteText, List.foldl_map]
  have done : cbIsEmpty (some t.readQueue) ≠ 0 := by
    rw [read_empty.isEmpty]
    decide
  have ends : ∀ out, Tty.parseLoop ttyWriteConsole circBuffSize.toNat t out = some (t, out) :=
    fun out => if_pos done
  refine ⟨{ s with mainTty := t, console := printAll (whiteText (echoOf c)) s.console }, ?_, ?_, rfl⟩
  · refine Option.bind_eq_some_iff.mpr ⟨(t, printAll (whiteText (echoOf c)) s.console), ?_, rfl⟩
    rw [← printed]
    exact turn.trans (ends _)
  · exact ⟨read_empty, write_empty, iflag.trans idle.iflag, lflag.trans idle.lflag⟩

theorem displays_outside {s d : Console} (same : d.csrX = s.csrX ∧ d.csrY = s.csrY ∧ d.mem = s.mem)
    (displays : Displays s w) : Displays d w := by
  obtain ⟨across, down, memory⟩ := same
  obtain ⟨⟨left, right, above, below⟩, row, column, cells⟩ := displays
  constructor
  case on => exact ⟨across ▸ left, across ▸ right, down ▸ above, down ▸ below⟩
  case row => rw [down, row]
  case column => rw [across, column]
  case cells =>
    intro r hr c hc
    rw [cell, memory]
    exact cells r hr c hc

theorem released_keeps (code : U8) (s : Keyboard) :
    (released code s).mainTty = s.mainTty ∧ (released code s).console = s.console := by
  unfold released
  split <;> exact ⟨rfl, rfl⟩

/-- A key that stands for no character changes the modifiers only. -/
theorem pressed_modifier (other : keytable code ≠ .normal) (s : Keyboard) :
    ∃ t, pressed code s = some t ∧ t.mainTty = s.mainTty ∧ t.console = s.console := by
  unfold pressed
  cases type : keytable code with
  | normal => exact absurd type other
  | _ => exact ⟨_, rfl, rfl, rfl⟩

theorem Idle.of_tty (idle : Idle s) (same : t.mainTty = s.mainTty) : Idle t := by
  obtain ⟨read, write, iflag, lflag⟩ := idle
  rw [← same] at read write iflag lflag
  exact ⟨read, write, iflag, lflag⟩

theorem endOfInterrupt_keeps (idle : Idle s) (displays : Displays s.console w) :
    Idle (endOfInterrupt s) ∧ Displays (endOfInterrupt s).console w := by
  have outside : (endOfInterrupt s).console.csrX = s.console.csrX ∧
      (endOfInterrupt s).console.csrY = s.console.csrY ∧
      (endOfInterrupt s).console.mem = s.console.mem := ⟨rfl, rfl, rfl⟩
  exact ⟨idle.of_tty rfl, displays_outside outside displays⟩

theorem typed_silent {shift : Bool} (other : ¬ (code &&& 0x80 = 0 ∧ keytable code = .normal)) :
    feed (whiteText (typed shift code)) w = w := by
  rw [typed, if_neg other]
  rfl

/-- One interrupt of the keyboard. -/
theorem doKb_draws (idle : Idle s) (displays : Displays s.console w) (code : U8) :
    ∃ t, doKb code s = some t ∧ Idle t ∧
      Displays t.console (feed (whiteText (typed (shiftBit s) code)) w) := by
  unfold doKb
  by_cases breaks : code &&& 0x80 ≠ 0
  · obtain ⟨tty, console⟩ := released_keeps (code &&& ~~~0x80) s
    rw [if_pos breaks, typed_silent fun both => breaks both.1]
    have shown : Displays (released (code &&& ~~~0x80) s).console w := by
      rw [console]
      exact displays
    exact ⟨_, rfl, endOfInterrupt_keeps (idle.of_tty tty) shown⟩
  · rw [if_neg breaks]
    by_cases normal : keytable code = .normal
    · obtain ⟨t, ran, idle_t, console⟩ :=
        input_echoes idle (if shiftBit s then shiftKbdus code else kbdus code)
      have echoes : pressed code s = some t := by
        unfold pressed
        rw [normal, ← ran]
        simp only [shiftBit, decide_eq_true_eq]
      have shown : Displays t.console (feed (whiteText (typed (shiftBit s) code)) w) := by
        have typing : code &&& 0x80 = 0 ∧ keytable code = .normal := ⟨not_not.mp breaks, normal⟩
        rw [console, typed, if_pos typing]
        exact Displays.feed displays _
      rw [echoes]
      exact ⟨_, rfl, endOfInterrupt_keeps idle_t shown⟩
    · obtain ⟨t, ran, tty, console⟩ := pressed_modifier normal s
      rw [typed_silent fun both => normal both.2, ran]
      have shown : Displays t.console w := by
        rw [console]
        exact displays
      exact ⟨_, rfl, endOfInterrupt_keeps (idle.of_tty tty) shown⟩

/-! ## Runs -/

theorem run_draws (events : List Event) (idle : Idle s) (displays : Displays s.console w) :
    ∃ t, run events s = some t ∧ Displays t.console (feed (sentBy (shiftBit s) events) w) := by
  induction events generalizing s w with
  | nil => exact ⟨s, rfl, displays⟩
  | cons event rest ih =>
    cases event with
    | scancode code =>
      obtain ⟨t, ran, idle_t, shown⟩ := doKb_draws idle displays code
      obtain ⟨t', ran', -, shift⟩ := doKb_spec code idle.serviceable
      obtain rfl : t = t' := Option.some.inj (ran.symm.trans ran')
      obtain ⟨u, rest_ran, final⟩ := ih idle_t shown
      refine ⟨u, ?_, ?_⟩
      · rw [run, List.foldlM_cons, exec, ran]
        exact rest_ran
      · rw [sentBy, feed_append, ← shift]
        exact final
    | tick =>
      have outside : (doTimerCursor s.console).csrX = s.console.csrX ∧
          (doTimerCursor s.console).csrY = s.console.csrY ∧
          (doTimerCursor s.console).mem = s.console.mem := ⟨rfl, rfl, rfl⟩
      exact ih (s := { s with console := doTimerCursor s.console }) (idle.of_tty rfl)
        (displays_outside outside displays)
    | print text =>
      have shown := Displays.feed displays text
      obtain ⟨u, rest_ran, final⟩ := ih (s := { s with console := printAll text s.console })
        (idle.of_tty rfl) shown
      refine ⟨u, rest_ran, ?_⟩
      rw [sentBy, feed_append]
      exact final

/-- **What is on the screen.** From the boot on, scancodes, ticks and printed texts in any order
leave the cursor and every cell where a blank terminal has them that is sent, in this order, what
the scancodes echo as and what is printed. -/
theorem screen_run (m : Mem) (events : List Event) :
    ∃ t, run events (Keyboard.boot (consoleInit (Console.boot m))) = some t ∧
      let w := feed (sentBy false events) blankScreen
      t.console.csrX = w.column ∧ t.console.csrY = w.row ∧
        ∀ r < 25, ∀ c < 80, cell t.console r c = w.cells r c := by
  have read : Represents Tty.mainTty.readQueue [] :=
    represents_nil_of_isEmpty ⟨by decide, by decide⟩ rfl
  have write : Represents Tty.mainTty.writeQueue [] :=
    represents_nil_of_isEmpty ⟨by decide, by decide⟩ rfl
  have idle : Idle (Keyboard.boot (consoleInit (Console.boot m))) := ⟨read, write, rfl, rfl⟩
  obtain ⟨t, ran, shown⟩ := run_draws events idle (displays_consoleInit m)
  have unshifted : shiftBit (Keyboard.boot (consoleInit (Console.boot m))) = false := by
    change decide ((0 : U32) &&& kmLshift ≠ 0) = false
    decide
  rw [unshifted] at shown
  obtain ⟨-, row, column, cells⟩ := shown
  exact ⟨t, ran, column, row, cells⟩

end BlessOS.Guarantees.ScreenRun
