import BlessOS.Source.CyclicBuffer

/-!
# The terminal, `kernel/tty.c`

Of the settings only the input and the local flags are read. The console that
`print_c` writes to is any state with a function on it, and the handler `tty->write`
is an argument of the functions that call it. A loop over a queue that does not end
leaves no state and is `none`.
-/

set_option autoImplicit false
set_option linter.dupNamespace false

namespace BlessOS.Source.Tty
open BlessOS.Source.CyclicBuffer

def kbdCr : U8 := 0x0d
def kbdLf : U8 := 0x0a

def inlcr : U32 := 0o100
def igncr : U32 := 0o200
def icrnl : U32 := 0o400
def icanon : U32 := 0o2
def echo : U32 := 0o10
def echoctl : U32 := 0o1000
def echoke : U32 := 0o4000

structure Tty where
  readQueue : CircularBuf
  writeQueue : CircularBuf
  cIflag : U32
  cLflag : U32

/-- `_I_FLAG` and `_L_FLAG`. -/
def flag (flags f : U32) : Bool := decide (flags &&& f ≠ 0)

/-- `main_tty`, as it is initialised. -/
def mainTty : Tty where
  readQueue := { data := fun _ => 0, head := 0, tail := 0 }
  writeQueue := { data := fun _ => 0, head := 0, tail := 0 }
  cIflag := 0
  cLflag := icanon ||| echo ||| echoctl ||| echoke

variable {σ : Type}

/-- `cb_pop` on a queue of the terminal. -/
def popFrom (queue : CircularBuf) : U8 × CircularBuf :=
  let popped := cbPop (some queue)
  (popped.1, popped.2.getD queue)

/-- `while (char_count--) print_c(cb_pop(&tty->write_queue), BRIGHT_WHITE, BLACK);` -/
def writeLoop (printC : U8 → σ → σ) : Nat → Tty → σ → Tty × σ
  | 0, tty, out => (tty, out)
  | charCount + 1, tty, out =>
    let popped := popFrom tty.writeQueue
    writeLoop printC charCount { tty with writeQueue := popped.2 } (printC popped.1 out)

def ttyWrite (printC : U8 → σ → σ) (tty : Tty) (out : σ) : Tty × σ :=
  writeLoop printC (cbGetCount (some tty.writeQueue)).toNat tty out

/-- The byte an input byte stands for; `none` is the `continue`. -/
def translate (iflag : U32) (c : U8) : Option U8 :=
  if c = kbdCr then
    if flag iflag icrnl then some kbdLf else if flag iflag igncr then none else some c
  else if c = kbdLf ∧ flag iflag inlcr then some kbdCr
  else some c

def pushWrite (c : U8) (tty : Tty) : Tty :=
  { tty with writeQueue := (cbPush c tty.writeQueue).2 }

/-- What is put into the write queue for a byte. -/
def queueEcho (c : U8) (tty : Tty) : Tty :=
  if c = kbdLf then pushWrite kbdCr (pushWrite c tty)
  else if 32 ≤ c then pushWrite c tty
  else if c = 0x08 then pushWrite c tty
  else tty

/-- No loop over a queue has more turns than the queue has bytes, and the last test. -/
def queueBound : Nat := circBuffSize.toNat + 1

def parseLoop (write : Tty → σ → Tty × σ) : Nat → Tty → σ → Option (Tty × σ)
  | 0, _, _ => none
  | left + 1, tty, out =>
    if cbIsEmpty (some tty.readQueue) ≠ 0 then some (tty, out)
    else
      let popped := popFrom tty.readQueue
      let tty := { tty with readQueue := popped.2 }
      match translate tty.cIflag popped.1 with
      | none => parseLoop write left tty out
      | some c =>
        if flag tty.cLflag echo then
          let written := write (queueEcho c tty) out
          parseLoop write left written.1 written.2
        else parseLoop write left tty out

def parseKey (write : Tty → σ → Tty × σ) (tty : Tty) (out : σ) : Option (Tty × σ) :=
  parseLoop write queueBound tty out

def doTtyInterrupt (write : Tty → σ → Tty × σ) (tty : Tty) (out : σ) : Option (Tty × σ) :=
  parseKey write tty out

end BlessOS.Source.Tty
