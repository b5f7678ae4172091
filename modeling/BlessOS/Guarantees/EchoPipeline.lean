import BlessOS.Guarantees.CyclicBufferFifo
import BlessOS.Source.Tty

/-!
# The echo of the terminal

`parse_key` empties the read queue and sends what each byte echoes as to the console,
in order. The write queue never holds more than the echo of one byte, so nothing is
lost to a full queue.
-/

set_option autoImplicit false

namespace BlessOS.Guarantees.EchoPipeline
open BlessOS.Lib.RingWindow
open BlessOS.Source BlessOS.Source.CyclicBuffer BlessOS.Source.Tty
open BlessOS.Guarantees.CyclicBufferFifo

variable {σ : Type} {printC : U8 → σ → σ} {buf : CircularBuf} {tty : Tty} {q rest : List U8} {c : U8}

/-! ## What a queue holds -/

def InRange (buf : CircularBuf) : Prop := buf.head < circBuffSize ∧ buf.tail < circBuffSize

/-- The bytes from the tail to the head. -/
def contents (buf : CircularBuf) : List U8 :=
  (List.range (cbGetCount (some buf)).toNat).map fun i =>
    buf.data ((buf.tail + BitVec.ofNat 32 i) &&& (circBuffSize - 1))

theorem represents_contents (range : InRange buf) : Represents buf (contents buf) := by
  obtain ⟨head, tail⟩ := range
  have head' : buf.head.toNat < 1024 := head
  have tail' : buf.tail.toNat < 1024 := tail
  have length : (contents buf).length = (buf.head.toNat + 1024 - buf.tail.toNat) % 1024 := by
    have wide := buf.head.isLt
    simp only [contents, List.length_map, List.length_range, cbGetCount, mask_toNat, Int.toNat_natCast,
      BitVec.toNat_sub]
    omega
  refine ⟨head, tail, ?_, ?_, fun i inside => ?_⟩
  · rw [length]
    exact Nat.le_of_lt_succ (Nat.mod_lt _ (by decide))
  · rw [length]
    change buf.head.toNat = (buf.tail.toNat + _) % 1024
    omega
  · have small : i < 1024 := by
      rw [length] at inside
      omega
    have place : (buf.tail + BitVec.ofNat 32 i) &&& (circBuffSize - 1) =
        BitVec.ofNat 32 ((buf.tail.toNat + i) % 1024) := by
      apply BitVec.eq_of_toNat_eq
      rw [mask_toNat, BitVec.toNat_add, BitVec.toNat_ofNat, BitVec.toNat_ofNat]
      omega
    simp only [contents, List.getElem_map, List.getElem_range, place, cells]
    rfl

theorem represents_nil_of_isEmpty (range : InRange buf) (empty : cbIsEmpty (some buf) = 1) :
    Represents buf [] := by
  have held := represents_contents range
  have none_held : contents buf = [] := by
    by_contra more
    rw [held.isEmpty, if_neg more] at empty
    cases empty
  rwa [none_held] at held

theorem popFrom_spec (held : Represents buf (c :: rest)) :
    ∃ after, popFrom buf = (c, after) ∧ Represents after rest := by
  obtain ⟨after, popped, held'⟩ := held.pop
  refine ⟨after, ?_, held'⟩
  unfold popFrom
  rw [popped]
  rfl

/-! ## The echo of a byte -/

/-- What an input byte stands for. -/
def translated (iflag : U32) (c : U8) : List U8 :=
  if c = kbdCr then
    if flag iflag icrnl then [kbdLf] else if flag iflag igncr then [] else [kbdCr]
  else if c = kbdLf then
    if flag iflag inlcr then [kbdCr] else [kbdLf]
  else [c]

/-- What a byte echoes as. -/
def echoOf (c : U8) : List U8 :=
  if c = kbdLf then [kbdLf, kbdCr] else if 32 ≤ c ∨ c = 0x08 then [c] else []

/-- What an input byte sends to the console under the flags. -/
def echoed (iflag lflag : U32) (c : U8) : List U8 :=
  if flag lflag echo then (translated iflag c).flatMap echoOf else []

theorem translate_toList (iflag : U32) (c : U8) :
    (Tty.translate iflag c).toList = translated iflag c := by
  unfold Tty.translate translated
  by_cases cr : c = kbdCr
  · rw [if_pos cr, if_pos cr]
    split
    · rfl
    · split
      · rfl
      · rw [cr]
        rfl
  · rw [if_neg cr, if_neg cr]
    by_cases lf : c = kbdLf
    · rw [if_pos lf]
      by_cases toCr : flag iflag inlcr
      · rw [if_pos ⟨lf, toCr⟩, if_pos toCr]
        rfl
      · rw [if_neg fun both => toCr both.2, if_neg toCr, lf]
        rfl
    · rw [if_neg fun both => lf both.1, if_neg lf]
      rfl

theorem queueEcho_spec (tty : Tty) (empty : Represents tty.writeQueue []) (c : U8) :
    ∃ queue, queueEcho c tty = { tty with writeQueue := queue } ∧ Represents queue (echoOf c) := by
  have one : ∀ x, Represents (cbPush x tty.writeQueue).2 [x] := fun x =>
    (empty.push (by decide) x).2
  unfold queueEcho echoOf pushWrite
  split
  · next lf =>
    have two := ((one c).push (by show 1 < capacity; decide) kbdCr).2
    refine ⟨_, rfl, ?_⟩
    rw [lf] at two ⊢
    exact two
  · split
    · next printable =>
      rw [if_pos (Or.inl printable)]
      exact ⟨_, rfl, one c⟩
    · next control =>
      split
      · next backspace =>
        rw [if_pos (Or.inr backspace)]
        exact ⟨_, rfl, one c⟩
      · next other =>
        rw [if_neg (not_or.mpr ⟨control, other⟩)]
        exact ⟨_, rfl, empty⟩

theorem writeLoop_succ (printC : U8 → σ → σ) (charCount : Nat) (tty : Tty) (out : σ) :
    writeLoop printC (charCount + 1) tty out =
      writeLoop printC charCount { tty with writeQueue := (popFrom tty.writeQueue).2 }
        (printC (popFrom tty.writeQueue).1 out) := rfl

/-- `tty_write` prints the write queue and leaves it empty. -/
theorem writeLoop_spec (printC : U8 → σ → σ) (q : List U8) (tty : Tty) (out : σ)
    (held : Represents tty.writeQueue q) :
    ∃ queue, writeLoop printC q.length tty out =
      ({ tty with writeQueue := queue }, q.foldl (fun out c => printC c out) out) ∧
      Represents queue [] := by
  induction q generalizing tty out with
  | nil => exact ⟨tty.writeQueue, rfl, held⟩
  | cons c rest ih =>
    obtain ⟨after, popped, held'⟩ := popFrom_spec held
    obtain ⟨queue, ran, empty⟩ := ih { tty with writeQueue := after } (printC c out) held'
    refine ⟨queue, ?_, empty⟩
    rw [List.length_cons, List.foldl_cons, writeLoop_succ, popped]
    exact ran

theorem ttyWrite_spec (printC : U8 → σ → σ) (tty : Tty) (out : σ)
    (held : Represents tty.writeQueue q) :
    ∃ queue, ttyWrite printC tty out =
      ({ tty with writeQueue := queue }, q.foldl (fun out c => printC c out) out) ∧
      Represents queue [] := by
  unfold ttyWrite
  rw [held.count, Int.toNat_natCast]
  exact writeLoop_spec printC q tty out held

/-! ## The loop of `parse_key` -/

/-- One turn of the loop takes a byte out and prints what it echoes as. -/
theorem parseLoop_turn (printC : U8 → σ → σ) (left : Nat) (tty : Tty) (out : σ)
    (read : Represents tty.readQueue (c :: rest)) (write : Represents tty.writeQueue []) :
    ∃ t, parseLoop (ttyWrite printC) (left + 1) tty out =
        parseLoop (ttyWrite printC) left t
          ((echoed tty.cIflag tty.cLflag c).foldl (fun out c => printC c out) out) ∧
      Represents t.readQueue rest ∧ Represents t.writeQueue [] ∧ t.cIflag = tty.cIflag ∧
      t.cLflag = tty.cLflag := by
  obtain ⟨after, popped, read'⟩ := popFrom_spec read
  have more : ¬ cbIsEmpty (some tty.readQueue) ≠ 0 := by
    rw [read.isEmpty, if_neg (List.cons_ne_nil c rest)]
    decide
  have listed := translate_toList tty.cIflag c
  rw [parseLoop, if_neg more, popped]
  dsimp only
  unfold echoed
  cases meant : Tty.translate tty.cIflag c with
  | none =>
    rw [meant] at listed
    refine ⟨{ tty with readQueue := after }, ?_, read', write, rfl, rfl⟩
    rw [← listed, Option.toList_none, List.flatMap_nil, ite_self]
    rfl
  | some d =>
    rw [meant] at listed
    by_cases on : flag tty.cLflag echo = true
    · obtain ⟨queue, queued, held⟩ := queueEcho_spec { tty with readQueue := after } write d
      obtain ⟨queue', printed, empty⟩ :=
        ttyWrite_spec printC { tty with readQueue := after, writeQueue := queue } out held
      dsimp only at queued
      refine ⟨{ tty with readQueue := after, writeQueue := queue' }, ?_, read', empty, rfl, rfl⟩
      dsimp only
      rw [if_pos on, queued, printed, if_pos on, ← listed]
      simp only [Option.toList_some, List.flatMap_cons, List.flatMap_nil, List.append_nil]
    · refine ⟨{ tty with readQueue := after }, ?_, read', write, rfl, rfl⟩
      dsimp only
      rw [if_neg on, if_neg on]
      rfl

theorem parseLoop_spec (q : List U8) (left : Nat) (tty : Tty) (out : σ)
    (read : Represents tty.readQueue q) (write : Represents tty.writeQueue [])
    (enough : q.length < left) :
    ∃ t, parseLoop (ttyWrite printC) left tty out =
        some (t, (q.flatMap (echoed tty.cIflag tty.cLflag)).foldl (fun out c => printC c out) out) ∧
      Represents t.readQueue [] ∧ Represents t.writeQueue [] := by
  induction q generalizing left tty out with
  | nil =>
    obtain ⟨left, rfl⟩ := Nat.exists_eq_add_one_of_ne_zero (Nat.ne_of_gt enough)
    have done : cbIsEmpty (some tty.readQueue) ≠ 0 := by
      rw [read.isEmpty]
      decide
    refine ⟨tty, ?_, read, write⟩
    rw [parseLoop, if_pos done]
    rfl
  | cons c rest ih =>
    obtain ⟨left, rfl⟩ := Nat.exists_eq_add_one_of_ne_zero (Nat.ne_of_gt (Nat.zero_lt_of_lt enough))
    obtain ⟨t, turn, read', write', iflag, lflag⟩ :=
      parseLoop_turn printC left tty out read write
    obtain ⟨u, ran, final⟩ := ih left t _ read' write' (Nat.lt_of_succ_lt_succ enough)
    refine ⟨u, ?_, final⟩
    rw [turn, ran, List.flatMap_cons, List.foldl_append, iflag, lflag]

/-- No queue holds more than the loop has turns. -/
theorem length_lt_queueBound (held : Represents buf q) : q.length < queueBound := by
  have bound := held.length_le
  unfold capacity at bound
  unfold queueBound
  omega

/-- `parse_key` ends, with both queues empty. -/
theorem parseKey_drains (printC : U8 → σ → σ) (tty : Tty) (out : σ)
    (read : Represents tty.readQueue q) (write : Represents tty.writeQueue []) :
    ∃ t printed, parseKey (ttyWrite printC) tty out = some (t, printed) ∧
      Represents t.readQueue [] ∧ Represents t.writeQueue [] := by
  obtain ⟨t, ran, empty⟩ := parseLoop_spec q queueBound tty out read write (length_lt_queueBound read)
  exact ⟨t, _, ran, empty⟩

/-- For every content of the read queue, any flags and any console, `parse_key` ends with
both queues empty, and the bytes it printed are those that the content echoes as. -/
theorem parseKey_echoes (printC : U8 → σ → σ) (tty : Tty) (out : σ) (read : InRange tty.readQueue)
    (write : InRange tty.writeQueue) (empty : cbIsEmpty (some tty.writeQueue) = 1) :
    ∃ t, parseKey (ttyWrite printC) tty out =
        some (t, ((contents tty.readQueue).flatMap (echoed tty.cIflag tty.cLflag)).foldl
          (fun out c => printC c out) out) ∧
      cbIsEmpty (some t.readQueue) = 1 ∧ cbIsEmpty (some t.writeQueue) = 1 := by
  have held := represents_contents read
  have write' := represents_nil_of_isEmpty write empty
  obtain ⟨t, ran, read_empty, write_empty⟩ :=
    parseLoop_spec _ _ tty out held write' (length_lt_queueBound held)
  exact ⟨t, ran, read_empty.isEmpty, write_empty.isEmpty⟩

/-- A carriage return, a letter and a control character, wrapping around the end. -/
theorem parseKey_echoes_wrapped : ∃ tty t, contents tty.readQueue = [0x0d, 0x41, 0x07] ∧
    tty.readQueue.head < tty.readQueue.tail ∧
    parseKey (ttyWrite fun c out => out ++ [c]) tty [] = some (t, [0x0a, 0x0d, 0x41]) := by
  let read : CircularBuf :=
    { data := fun i => if i = 1022 then 0x0d else if i = 1023 then 0x41 else 0x07
      head := 1
      tail := 1022 }
  let write : CircularBuf := { data := fun _ => 0, head := 5, tail := 5 }
  let tty : Tty := { readQueue := read, writeQueue := write, cIflag := icrnl, cLflag := echo }
  have held : contents read = [0x0d, 0x41, 0x07] := by decide
  obtain ⟨t, ran, -⟩ := parseKey_echoes (fun c (out : List U8) => out ++ [c]) tty []
    ⟨by decide, by decide⟩ ⟨by decide, by decide⟩ rfl
  have bytes :
      (contents tty.readQueue).flatMap (echoed tty.cIflag tty.cLflag) = [0x0a, 0x0d, 0x41] := by
    decide
  rw [bytes] at ran
  exact ⟨tty, t, held, by decide, ran⟩

end BlessOS.Guarantees.EchoPipeline
