import BlessOS.Guarantees.InterruptReturn
import BlessOS.Source.Exceptions

/-!
# The report of an exception

Each exception but the page fault ends in one call of a handler that prints a report and halts.
Below 0x10 the report is that of the interrupted code. Vector 0x10 is entered through a stub that
expects an error code that the processor does not push, and behind it the message is read past the
end of its table.
-/

set_option autoImplicit false

namespace BlessOS.Guarantees.ExceptionReport
open BlessOS.Lib.ByteMemory BlessOS.Lib.StackMachine
open BlessOS.Source BlessOS.Source.Isr BlessOS.Source.Exceptions
open BlessOS.Guarantees.InterruptReturn

/-! ## What a report says -/

/-- The frame with the registers of a machine and the words on its stack. -/
def frameOf (s : Machine) (isrNr err eip cs eflags oldEsp oldSs : U32) : IntrStackFrame where
  ss := s.ss.setWidth 32
  gs := s.gs.setWidth 32
  fs := s.fs.setWidth 32
  es := s.es.setWidth 32
  ds := s.ds.setWidth 32
  edi := s.edi
  esi := s.esi
  ebp := s.ebp
  esp := s.esp
  ebx := s.ebx
  edx := s.edx
  ecx := s.ecx
  eax := s.eax
  isrNr := isrNr
  err := err
  eip := eip
  cs := cs
  eflags := eflags
  oldEsp := oldEsp
  oldSs := oldSs

/-- The words that the interrupted code had on its stack, the top first. -/
def above (i : Nat) (context : Machine) : U32 := stackWord (BitVec.ofNat 32 (4 * i)) context

/-- The frame of an exception: the stack pointer is the one behind the five words that were
pushed, and the old one is read where no change of the stack has left it. -/
def exceptionFrame (vector eip cs eflags error : U32) (context : Machine) : IntrStackFrame :=
  frameOf (drop (-20) context) vector (if vector ∈ errorVectors then error else 0) eip cs eflags
    (above 0 context) (above 1 context)

/-- The frame when a word is missing: each one is taken for the one below it. -/
def shiftedFrame (vector eip cs eflags : U32) (context : Machine) : IntrStackFrame :=
  frameOf (drop (-16) context) vector eip cs eflags (above 0 context) (above 1 context)
    (above 2 context)

def report (vector : U32) (message : String) (f : IntrStackFrame) (cr2 cr3 : U32) : List Call :=
  ⟨.panic, "EXCEPTION %d: %s\n=======================\n", [.word vector, .string message]⟩ ::
    registers .panic f cr2 cr3

/-- What the handler of each vector prints. -/
def expected (vector eip cs eflags error cr3 : U32) (context : Machine) : Option (List Call) :=
  (exceptionMsg[vector.toNat]?).map fun message =>
    report vector message
      (if vector = 0x10 then shiftedFrame vector eip cs eflags context
        else exceptionFrame vector eip cs eflags error context)
      context.cr2 cr3

/-- The message that is a handler's own. -/
def ownMessage : CFunction → Option String
  | .divideError => some "DIVIDE ERROR"
  | .debug => some "DEBUG EXCEPTION"
  | .nmi => some "NMI"
  | .breakpoint => some "BREAKPOINT"
  | .overflow => some "OVERFLOW"
  | .boundsCheck => some "BOUNDS CHECK"
  | .invalidOpcode => some "INVALID OPCODE"
  | .coprocessorNotAv => some "COPROCESSOR NOT VALID"
  | .doubleFault => some "DOUBLE FAULT"
  | .invalidTSS => some "INVALID TSS"
  | .segmentNotPresent => some "SEGMENTATION NOT PRESENT"
  | .stackException => some "STACK EXCEPTION"
  | .generalProtection => some "GENERAL PROTECTION"
  | .coprocessorError => some "COPROCESSOR_ERROR"
  | .reserved | .doTimer | .doKb | .hdInterrupt | .noPage => none

/-! ## The vectors -/

section Vectors

variable {vector : U32}

/-- A fact about the exceptions, checked one by one. -/
theorem forall_exceptions {p : U32 → Prop} [DecidablePred p]
    (checked : ∀ k < 32, p (BitVec.ofNat 32 k)) (exception : vector < 0x20) : p vector := by
  have small : vector.toNat < 32 := exception
  have same : vector = BitVec.ofNat 32 vector.toNat := by rw [BitVec.ofNat_toNat, BitVec.setWidth_eq]
  rw [same]
  exact checked vector.toNat small

def exceptionFunctions : List CFunction :=
  [.divideError, .debug, .nmi, .breakpoint, .overflow, .boundsCheck, .invalidOpcode,
    .coprocessorNotAv, .doubleFault, .reserved, .invalidTSS, .segmentNotPresent, .stackException,
    .generalProtection, .coprocessorError]

theorem handler_panic {function : CFunction} (listed : function ∈ exceptionFunctions) :
    handler function = some panic := by
  cases function
  all_goals first
    | rfl
    | exact absurd listed (by decide)

theorem exception_entry (exception : vector < 0x20) (other : vector ≠ 0x0e) :
    ∃ function ∈ exceptionFunctions, isrTable[(vector * 8).toNat / 8]? = some (.c function) ∧
      isrTable[vector.toNat]? = some (.c function) := by
  revert other
  exact forall_exceptions (p := fun vector => vector ≠ 0x0e → ∃ function ∈ exceptionFunctions,
    isrTable[(vector * 8).toNat / 8]? = some (.c function) ∧
      isrTable[vector.toNat]? = some (.c function)) (by decide) exception

def Handler.message : Handler → Option String
  | .c function => ownMessage function
  | .doPageFault => some "PAGE FAULT"
  | .defaultIsr => none

/-- The messages of two vectors stand in each other's place. -/
theorem message_own (exception : vector < 0x20) {function : CFunction} {name : String}
    (entry : isrTable[vector.toNat]? = some (.c function)) (own : ownMessage function = some name) :
    exceptionMsg[vector.toNat]? = some name ↔ vector ≠ 2 ∧ vector ≠ 3 :=
  forall_exceptions (p := fun vector => ∀ handler ∈ isrTable[vector.toNat]?,
    ∀ name ∈ Handler.message handler,
      (exceptionMsg[vector.toNat]? = some name ↔ vector ≠ 2 ∧ vector ≠ 3))
    (by decide) exception _ entry _ own

/-- The machine in which the common path is entered: some stubs expect an error code. -/
def pushed (vector : U32) (s : Machine) : Machine :=
  push vector
    (if vector = 0x08 ∨ (0x0a ≤ vector ∧ vector ≤ 0x0e) ∨ vector = 0x10 then s else push 0 s)

theorem stub_exception (link : Link) (s : Machine) (exception : vector < 0x20) :
    stub link vector s = comm link .isrComm (pushed vector s) := by
  have low : ¬ 0x20 ≤ vector := BitVec.not_le.mpr exception
  unfold stub pushed
  rw [if_neg low]
  split_ifs <;> rfl

/-- The expectation is met but at two vectors. -/
theorem expects_iff (exception : vector < 0x20) (proper : vector ≠ 0x10) (proper' : vector ≠ 0x11) :
    (vector = 0x08 ∨ (0x0a ≤ vector ∧ vector ≤ 0x0e) ∨ vector = 0x10) ↔
      vector ∈ errorVectors := by
  revert proper proper'
  exact forall_exceptions (p := fun vector => vector ≠ 0x10 → vector ≠ 0x11 →
    ((vector = 0x08 ∨ (0x0a ≤ vector ∧ vector ≤ 0x0e) ∨ vector = 0x10) ↔
      vector ∈ errorVectors)) (by decide) exception

end Vectors

/-! ## The stack -/

section Stack

variable {s : Machine} {nr err eip cs eflags oldEsp oldSs : U32} {rest : List U32}

theorem parameter_word {t : Machine} {ret : U32} {words : List U32}
    (stack : Stacked t (ret :: words)) (i : Nat) (inside : i < words.length) :
    parameter i t = words[i] :=
  stack.word (i + 1) (Nat.succ_lt_succ inside)

/-- The machine at the first instruction of a handler. -/
def atHandler (link : Link) (s : Machine) : Machine :=
  push (link.after .isrComm) (saveContext s)

/-- The machine at the first instruction of `info`. -/
def atInfo (after : U32) (s : Machine) : Machine :=
  push after (push kplPanic { s with eax := kplPanic })

theorem atInfo_stacked (link : Link) (after : U32)
    (stack : Stacked s (nr :: err :: eip :: cs :: eflags :: oldEsp :: oldSs :: rest))
    (room : rest.length < 32) :
    Stacked (atInfo after (atHandler link s))
      (after :: kplPanic :: link.after .isrComm :: (selectorWords s ++ (generalWords s ++
        nr :: err :: eip :: cs :: eflags :: oldEsp :: oldSs :: rest))) := by
  have saved := saveContext_stacked stack (by simp only [List.length_cons]; omega)
  have length : (selectorWords s ++ (generalWords s ++
      nr :: err :: eip :: cs :: eflags :: oldEsp :: oldSs :: rest)).length = 20 + rest.length := by
    simp only [selectorWords, generalWords, List.length_append, List.length_cons, List.length_nil]
    omega
  have called := saved.push (link.after .isrComm) (by omega)
  have level : Stacked (push kplPanic { atHandler link s with eax := kplPanic }) _ :=
    called.push kplPanic (by rw [List.length_cons]; omega)
  exact level.push after (by simp only [List.length_cons]; omega)

/-- `info` gets what stands on the stack of the common path. -/
theorem info_parameters (link : Link) (after : U32)
    (stack : Stacked s (nr :: err :: eip :: cs :: eflags :: oldEsp :: oldSs :: rest))
    (room : rest.length < 32) :
    parameter 0 (atInfo after (atHandler link s)) = kplPanic ∧
      frameParameters (atInfo after (atHandler link s)) =
        frameOf s nr err eip cs eflags oldEsp oldSs := by
  have called := atInfo_stacked link after stack room
  constructor
  · exact parameter_word called 0 (Nat.zero_lt_succ _)
  · unfold frameParameters frameOf
    congr 1
    all_goals exact parameter_word called _ (by simp [selectorWords, generalWords])

theorem atInfo_cr2 (link : Link) (after : U32) (s : Machine) :
    (atInfo after (atHandler link s)).cr2 = s.cr2 := by
  have saved : (saveContext s).cr2 = (pushSelectors (pushal s)).cr2 := rfl
  unfold atInfo atHandler
  rw [push_cr2, push_cr2, push_cr2, saved, pushSelectors_cr2, pushal_cr2]

/-- An exception's number is below the size of the table, which counts bytes. -/
theorem heading_exception (exception : nr < 0x20) :
    heading .panic nr = (exceptionMsg[nr.toNat]?).map fun message =>
      ⟨.panic, "EXCEPTION %d: %s\n=======================\n", [.word nr, .string message]⟩ :=
  if_pos (Nat.lt_of_lt_of_le exception (by decide : 32 ≤ exceptionMsgSize))

/-- What a handler prints of the words on the stack of the common path. -/
theorem panic_prints (link : Link) (after cr3 : U32)
    (stack : Stacked s (nr :: err :: eip :: cs :: eflags :: oldEsp :: oldSs :: rest))
    (room : rest.length < 32) (exception : nr < 0x20) :
    panic after cr3 (atHandler link s) = (exceptionMsg[nr.toNat]?).map fun message =>
      report nr message (frameOf s nr err eip cs eflags oldEsp oldSs) s.cr2 cr3 := by
  obtain ⟨level, frame⟩ := info_parameters link after stack room
  have kl : kpLevel kplPanic = some .panic := rfl
  change info cr3 (atInfo after (atHandler link s)) = _
  unfold info
  rw [level, frame, kl, atInfo_cr2]
  change (heading .panic nr).bind _ = _
  rw [heading_exception exception]
  cases exceptionMsg[nr.toNat]? <;> rfl

end Stack

/-! ## The report -/

section Report

variable {vector : U32}

/-- The rest of the common path. -/
def afterHandler : Option Machine → Exit
  | some t => .iret (restoreContext t)
  | none => .halted

theorem comm_calls {s : Machine} {nr : U32} {rest : List U32} {function : CFunction} (link : Link)
    (stack : Stacked s (nr :: rest)) (room : rest.length < 64)
    (entry : isrTable[(nr * 8).toNat / 8]? = some (.c function)) :
    comm link .isrComm s = afterHandler (link.run function (atHandler link s)) := by
  unfold Isr.comm
  simp only [saveContext_ecx stack room, entry, Handler.run, callC]
  unfold atHandler
  cases link.run function _ <;> rfl

theorem context_above (context : Machine) :
    Stacked context [above 0 context, above 1 context, above 2 context] := by
  have up : context.esp + 4 + 4 = context.esp + 8 := by
    rw [BitVec.add_assoc]
    rfl
  refine ⟨?_, rfl, ?_, trivial⟩
  · exact congrArg (load32 context.mem) (BitVec.add_zero context.esp).symm
  · rw [up]
    rfl

/-- What is pushed changes of the frame the stack pointer only. -/
theorem frameOf_pushed {context s : Machine}
    (offset isrNr err eip cs eflags oldEsp oldSs : U32)
    (pushed : { context with esp := s.esp, mem := s.mem } = s)
    (esp : s.esp = context.esp + offset) :
    frameOf s isrNr err eip cs eflags oldEsp oldSs =
      frameOf (drop offset context) isrNr err eip cs eflags oldEsp oldSs := by
  rw [← pushed]
  unfold frameOf drop
  rw [esp]

/-- The frame of the processor, and what is above it. -/
theorem frame_stacked (eip cs eflags : U32) (context : Machine) :
    Stacked (push eip (push cs (push eflags context)))
      [eip, cs, eflags, above 0 context, above 1 context, above 2 context] :=
  (((context_above context).push eflags (by simp)).push cs (by simp)).push eip (by simp)

/-- A word for the error code is there at all vectors but two. -/
theorem expected_entered (exception : vector < 0x20) (proper : vector ≠ 0x10) (link : Link)
    (after cr3 eip cs eflags error : U32) (context : Machine) :
    let err := if vector ∈ errorVectors then error else 0
    panic after cr3 (atHandler link (entered vector err eip cs eflags context)) =
      expected vector eip cs eflags error cr3 context := by
  intro err
  have stack := ((frame_stacked eip cs eflags context).push err (by simp)).push vector (by simp)
  have prints := panic_prints link after cr3 stack (by simp) exception
  have esp := (entered_esp vector err eip cs eflags context).trans (BitVec.sub_eq_add_neg _ _)
  have frame := frameOf_pushed (-20) vector err eip cs eflags (above 0 context) (above 1 context)
    rfl esp
  refine prints.trans ?_
  unfold expected exceptionFrame
  rw [if_neg proper]
  exact congrArg (fun f => (exceptionMsg[vector.toNat]?).map fun message =>
    report vector message f context.cr2 cr3) frame

/-- The error code that the stub of vector 0x10 expects is not there. -/
theorem expected_shifted (link : Link) (after cr3 eip cs eflags error : U32) (context : Machine) :
    panic after cr3 (atHandler link (push 0x10 (push eip (push cs (push eflags context))))) =
      expected 0x10 eip cs eflags error cr3 context := by
  have stack := (frame_stacked eip cs eflags context).push 0x10 (by simp)
  have prints := panic_prints link after cr3 stack (by simp) (by decide)
  have esp : (push 0x10 (push eip (push cs (push eflags context)))).esp =
      context.esp + -16 := by
    simp only [push_esp]
    bv_omega
  have frame := frameOf_pushed (-16) 0x10 eip cs eflags (above 0 context) (above 1 context)
    (above 2 context) rfl esp
  refine prints.trans ?_
  unfold expected shiftedFrame
  rw [if_pos rfl]
  exact congrArg (fun f => (exceptionMsg[(0x10 : U32).toNat]?).map fun message =>
    report 0x10 message f context.cr2 cr3) frame

/-- At vector 0x11 there is one too many, and no message either. -/
theorem expected_behind (link : Link) (after cr3 eip cs eflags error : U32) (context : Machine) :
    panic after cr3 (atHandler link (push 0x11 (push 0 (push error
        (push eip (push cs (push eflags context))))))) =
      expected 0x11 eip cs eflags error cr3 context := by
  have coded := (frame_stacked eip cs eflags context).push error (by simp)
  have stack := (coded.push 0 (by simp)).push 0x11 (by simp)
  have prints := panic_prints link after cr3 stack (by simp) (by decide)
  have message : exceptionMsg[(0x11 : U32).toNat]? = none := rfl
  rw [message, Option.map_none] at prints
  unfold expected
  rw [message, Option.map_none]
  exact prints

theorem pushed_prints (exception : vector < 0x20) (link : Link)
    (after cr3 eip cs eflags error : U32) (context : Machine) :
    panic after cr3 (atHandler link (pushed vector (interrupt vector eip cs eflags error context))) =
      expected vector eip cs eflags error cr3 context := by
  by_cases shifted : vector = 0x10
  · rw [shifted]
    exact expected_shifted link after cr3 eip cs eflags error context
  by_cases behind : vector = 0x11
  · rw [behind]
    exact expected_behind link after cr3 eip cs eflags error context
  have prints := expected_entered exception shifted link after cr3 eip cs eflags error context
  have iff := expects_iff exception shifted behind
  unfold pushed interrupt
  by_cases coded : vector ∈ errorVectors
  · rw [if_pos (iff.mpr coded), if_pos coded]
    rw [if_pos coded] at prints
    exact prints
  · rw [if_neg (mt iff.mp coded), if_neg coded]
    rw [if_neg coded] at prints
    exact prints

/-- **The report of an exception.** For every context and every exception but the page fault, the
path from the stub leads to one call of a handler, which prints the report of the interrupted
context below vector 0x10 and one that is shifted by a word at 0x10; behind it the pointer to
the message is read past the table. Two messages are not the handler's own. -/
theorem exception_report (exception : vector < 0x20) (other : vector ≠ 0x0e) (link : Link)
    (after cr3 eip cs eflags error : U32) (context : Machine) :
    let fault := interrupt vector eip cs eflags error context
    let called := atHandler link (pushed vector fault)
    ∃ function body, isrTable[vector.toNat]? = some (.c function) ∧
      handler function = some body ∧
      stub link vector fault = afterHandler (link.run function called) ∧
      body after cr3 called = expected vector eip cs eflags error cr3 context ∧
      ∀ name, ownMessage function = some name →
        (exceptionMsg[vector.toNat]? = some name ↔ vector ≠ 2 ∧ vector ≠ 3) := by
  intro fault called
  obtain ⟨function, listed, index, entry⟩ := exception_entry exception other
  have empty : ∀ s : Machine, Stacked s [] := fun _ => trivial
  refine ⟨function, panic, entry, handler_panic listed, ?_,
    pushed_prints exception link after cr3 eip cs eflags error context,
    fun name own => message_own exception entry own⟩
  rw [stub_exception link fault exception]
  exact comm_calls link ((empty _).push vector (by decide)) (by decide) index

/-- A general protection fault. -/
theorem exception_report_protection :
    let fault := interrupt 0x0d 0x100000 0x0f 0x202 0x18 someContext
    let called := atHandler plainLink (pushed 0x0d fault)
    ∃ function body, isrTable[(0x0d : U32).toNat]? = some (.c function) ∧
      handler function = some body ∧
      stub plainLink 0x0d fault = afterHandler (plainLink.run function called) ∧
      body 0x2000 0 called = expected 0x0d 0x100000 0x0f 0x202 0x18 0 someContext ∧
      ∀ name, ownMessage function = some name →
        (exceptionMsg[(0x0d : U32).toNat]? = some name ↔ (0x0d : U32) ≠ 2 ∧ (0x0d : U32) ≠ 3) :=
  exception_report (by decide) (by decide) plainLink 0x2000 0 0x100000 0x0f 0x202 0x18 someContext

end Report

end BlessOS.Guarantees.ExceptionReport
