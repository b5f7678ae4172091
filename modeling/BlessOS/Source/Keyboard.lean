import BlessOS.Source.Console
import BlessOS.Source.Tty

/-!
# The keyboard interrupt, `kernel/keyboard.c`

One interrupt reads one scancode byte. The byte that a key stands for goes through
the queues of `main_tty`, whose handler is `tty_write`, to the console.
-/

set_option autoImplicit false
set_option linter.dupNamespace false

namespace BlessOS.Source.Keyboard
open BlessOS.Source.CyclicBuffer BlessOS.Source.Tty BlessOS.Source.Console

def kmLshift : U32 := 1
def kmCtrl : U32 := 2
def kmAlt : U32 := 4

/-- `keytype_t`. -/
inductive KeyType where
  | none | normal | lshift | lctrl | rshift | rctrl | capslock | cursor | minus | alt | func
  | numlock | scroll
deriving DecidableEq, Repr

/-- The initialiser of `keytable`, by index. -/
def keytable (scancode : U8) : KeyType :=
  if scancode = 0 then .none
  else if scancode ≤ 28 then .normal
  else if scancode = 29 then .lctrl
  else if scancode ≤ 0x29 then .normal
  else if scancode = 0x2a then .lshift
  else if scancode ≤ 0x35 then .normal
  else if scancode = 0x36 then .rshift
  else if scancode = 0x37 then .normal
  else if scancode = 0x38 then .alt
  else if scancode = 0x39 then .normal
  else if scancode = 0x3a then .capslock
  else if scancode ≤ 0x44 then .func
  else if scancode = 0x45 then .numlock
  else if scancode = 0x46 then .scroll
  else if scancode ≤ 0x48 then .cursor
  else if scancode = 0x49 then .normal
  else if scancode = 0x4a then .none
  else if scancode ≤ 0x4d then .cursor
  else if scancode = 0x4e then .normal
  else if scancode ≤ 0x53 then .cursor
  else if scancode ≤ 0x55 then .none
  else if scancode = 0x56 then .normal
  else if scancode ≤ 0x58 then .func
  else .none

/-- The listed characters of `kbdus`; the array is zero from there on. -/
def kbdusListed : List U8 :=
  [0, 27, 49, 50, 51, 52, 53, 54, 55, 56, 57, 48, 45, 61, 8, 9, 113, 119, 101, 114, 116, 121,
    117, 105, 111, 112, 91, 93, 10, 0, 97, 115, 100, 102, 103, 104, 106, 107, 108, 59, 39, 96,
    0, 92, 122, 120, 99, 118, 98, 110, 109, 44, 46, 47, 0, 42, 0, 32, 0, 0, 0, 0, 0, 0, 0, 0, 0,
    0, 0, 0, 0, 0, 0, 0, 45, 0, 0, 0, 43, 0, 0, 0, 0, 0, 0, 0, 0, 0, 0, 0]

/-- The listed characters of `shift_kbdus`. -/
def shiftKbdusListed : List U8 :=
  [0, 27, 33, 64, 35, 36, 37, 94, 38, 42, 40, 41, 95, 43, 8, 9, 81, 87, 69, 82, 84, 89, 85, 73,
    79, 80, 123, 125, 10, 0, 65, 83, 68, 70, 71, 72, 74, 75, 76, 58, 34, 126, 0, 124, 90, 88,
    67, 86, 66, 78, 77, 60, 62, 63, 0, 42, 0, 32, 0, 0, 0, 0, 0, 0, 0, 0, 0, 0, 0, 0, 0, 0, 0,
    0, 45, 0, 0, 0, 43, 0, 0, 0, 0, 0, 0, 0, 0, 0, 0, 0]

def kbdus (scancode : U8) : U8 := kbdusListed.getD scancode.toNat 0
def shiftKbdus (scancode : U8) : U8 := shiftKbdusListed.getD scancode.toNat 0

structure Keyboard where
  keyMode : U32
  mainTty : Tty
  console : Console

/-- `key_mode` is static and starts at zero. -/
def boot (console : Console) : Keyboard := ⟨0, Tty.mainTty, console⟩

/-- `tty_write`, with the colours it prints in. -/
def ttyWriteConsole (tty : Tty) (console : Console) : Tty × Console :=
  ttyWrite (fun c => printC c .brightWhite .black) tty console

/-- `cb_push(c, &main_tty.read_queue); do_tty_interrupt(&main_tty);` -/
def input (c : U8) (s : Keyboard) : Option Keyboard := do
  let tty := { s.mainTty with readQueue := (cbPush c s.mainTty.readQueue).2 }
  let done ← doTtyInterrupt ttyWriteConsole tty s.console
  some { s with mainTty := done.1, console := done.2 }

/-- The `switch` of a released key. -/
def released (scancode : U8) (s : Keyboard) : Keyboard :=
  match keytable scancode with
  | .lshift => { s with keyMode := s.keyMode &&& ~~~kmLshift }
  | .lctrl => { s with keyMode := s.keyMode &&& ~~~kmCtrl }
  | .alt => { s with keyMode := s.keyMode &&& ~~~kmAlt }
  | _ => s

/-- The `switch` of a pressed key. -/
def pressed (scancode : U8) (s : Keyboard) : Option Keyboard :=
  match keytable scancode with
  | .normal =>
    input (if s.keyMode &&& kmLshift ≠ 0 then shiftKbdus scancode else kbdus scancode) s
  | .rshift | .lshift => some { s with keyMode := s.keyMode ||| kmLshift }
  | .lctrl => some { s with keyMode := s.keyMode ||| kmCtrl }
  | .alt => some { s with keyMode := s.keyMode ||| kmAlt }
  | _ => some s

/-- The two end-of-interrupt commands. -/
def endOfInterrupt (s : Keyboard) : Keyboard :=
  { s with console := outb 0x20 0x20 (outb 0xA0 0x20 s.console) }

/-- `do_kb` on the byte read from the port. -/
def doKb (scancode : U8) (s : Keyboard) : Option Keyboard :=
  if scancode &&& 0x80 ≠ 0 then some (endOfInterrupt (released (scancode &&& ~~~0x80) s))
  else (pressed scancode s).map endOfInterrupt

end BlessOS.Source.Keyboard
