import BlessOS.Lib.InterruptController

/-!
# Handlers that interrupt each other

What a handler does for the processor's interrupt flag and for the controllers, and the
processor that runs it. A handler runs on top of what it interrupted; a handler may also give
the processor to another stack, on which it is continued later. What an interrupt does depends
on whether the gates have been set.
-/

set_option autoImplicit false

namespace BlessOS.Lib.InterruptNesting
open BlessOS.Lib.InterruptController

inductive Op where
  | cli
  | sti
  | out (value : BitVec 8) (port : BitVec 16)
  /-- What is read from the port is written back, but for some bits. -/
  | outAnd (keep : BitVec 8) (port : BitVec 16)
  | setGates
  | switchTask
  | iret
deriving DecidableEq

/-- What is left to do, and if an interrupt may come in between. -/
structure Frame where
  rest : List Op
  enabled : Bool
deriving DecidableEq

/-- The stacks with the innermost frame first, and the interrupts that were taken: if the gates
were set, and the vector. -/
structure Machine where
  pics : Cascade
  gates : Bool
  running : List Frame
  suspended : List (List Frame)
  taken : List (Bool × BitVec 8)

inductive Event where
  | raise (slave : Bool) (line : Line)
  | accept
  | exec
  | switch (task : Nat)
deriving DecidableEq

/-- A task that no interrupt is on top of can be interrupted. -/
def Machine.interruptible (s : Machine) : Bool :=
  match s.running with
  | [] => true
  | frame :: _ => frame.enabled

def raise (slave : Bool) (line : Line) (c : Cascade) : Cascade :=
  if slave then { c with slave := c.slave.raise line } else { c with master := c.master.raise line }

/-- What an operation does to the controllers. -/
def opPics (op : Op) (c : Cascade) : Cascade :=
  match op with
  | .out value port => c.outb value port
  | .outAnd keep port => c.outb (c.inb port &&& keep) port
  | _ => c

/-- The stack after an operation of its innermost frame; `switchTask` finds no other task. -/
def afterOp (op : Op) (rest : List Op) (enabled : Bool) (below : List Frame) : List Frame :=
  match op with
  | .cli => ⟨rest, false⟩ :: below
  | .sti | .switchTask => ⟨rest, true⟩ :: below
  | .iret => below
  | _ => ⟨rest, enabled⟩ :: below

/-- `entry` is the handler of a vector. -/
def step (entry : Bool → BitVec 8 → List Op) (s : Machine) : Event → Option Machine
  | .raise slave line => some { s with pics := raise slave line s.pics }
  | .accept =>
    if s.interruptible then
      s.pics.accept.map fun taken => { s with
        pics := taken.2
        running := ⟨entry s.gates taken.1, false⟩ :: s.running
        taken := s.taken ++ [(s.gates, taken.1)] }
    else none
  | .exec =>
    match s.running with
    | ⟨op :: rest, enabled⟩ :: below =>
      some { s with
        pics := opPics op s.pics
        gates := s.gates || decide (op = .setGates)
        running := afterOp op rest enabled below }
    | _ => none
  | .switch task =>
    match s.suspended[task]?, s.running with
    | some stack, [] =>
      some { s with running := stack, suspended := s.suspended.set task [] }
    | some stack, ⟨.switchTask :: rest, _⟩ :: below =>
      some { s with
        running := stack
        suspended := s.suspended.set task (⟨rest, true⟩ :: below) }
    | _, _ => none

/-- The steps that there are. -/
inductive Step (entry : Bool → BitVec 8 → List Op) (s : Machine) : Event → Machine → Prop where
  | raise (slave : Bool) (line : Line) :
      Step entry s (.raise slave line) { s with pics := raise slave line s.pics }
  | accept {vector : BitVec 8} {pics : Cascade} (interrupts : s.interruptible = true)
      (taken : s.pics.accept = some (vector, pics)) :
      Step entry s .accept { s with
        pics := pics
        running := ⟨entry s.gates vector, false⟩ :: s.running
        taken := s.taken ++ [(s.gates, vector)] }
  | exec {op : Op} {rest : List Op} {enabled : Bool} {below : List Frame}
      (running : s.running = ⟨op :: rest, enabled⟩ :: below) :
      Step entry s .exec { s with
        pics := opPics op s.pics
        gates := s.gates || decide (op = .setGates)
        running := afterOp op rest enabled below }
  | idle {task : Nat} {stack : List Frame} (found : s.suspended[task]? = some stack)
      (running : s.running = []) :
      Step entry s (.switch task) { s with
        running := stack, suspended := s.suspended.set task [] }
  | switch {task : Nat} {stack : List Frame} {rest : List Op} {enabled : Bool}
      {below : List Frame} (found : s.suspended[task]? = some stack)
      (running : s.running = ⟨.switchTask :: rest, enabled⟩ :: below) :
      Step entry s (.switch task) { s with
        running := stack, suspended := s.suspended.set task (⟨rest, true⟩ :: below) }

theorem step_iff {entry : Bool → BitVec 8 → List Op} {s t : Machine} {event : Event} :
    step entry s event = some t ↔ Step entry s event t := by
  constructor
  · intro stepped
    cases event with
    | raise slave line =>
      cases stepped
      exact .raise slave line
    | accept =>
      simp only [step] at stepped
      split at stepped
      case isTrue interrupts =>
        obtain ⟨⟨vector, pics⟩, taken, rfl⟩ := Option.map_eq_some_iff.mp stepped
        exact .accept interrupts taken
      case isFalse => cases stepped
    | exec =>
      simp only [step] at stepped
      split at stepped
      case h_1 running =>
        cases stepped
        exact .exec running
      case h_2 => cases stepped
    | switch task =>
      simp only [step] at stepped
      split at stepped
      case h_1 found running =>
        cases stepped
        exact .idle found running
      case h_2 found running =>
        cases stepped
        exact .switch found running
      case h_3 => cases stepped
  · rintro (_ | ⟨interrupts, taken⟩ | running | ⟨found, running⟩ | ⟨found, running⟩)
    · rfl
    · simp only [step, interrupts, taken, if_true, Option.map_some]
    · simp only [step, running]
    · simp only [step, found, running]
    · simp only [step, found, running]

/-- Interrupts that were taken stay taken. -/
theorem Step.taken_grows {entry : Bool → BitVec 8 → List Op} {s t : Machine} {event : Event}
    (step : Step entry s event t) :
    ∃ more, t.taken = s.taken ++ more := by
  cases step with
  | accept interrupts taken => exact ⟨_, rfl⟩
  | raise slave line => exact ⟨[], (List.append_nil _).symm⟩
  | exec running => exact ⟨[], (List.append_nil _).symm⟩
  | idle found running => exact ⟨[], (List.append_nil _).symm⟩
  | switch found running => exact ⟨[], (List.append_nil _).symm⟩

/-- An operation that some stack has still before it. -/
def Machine.Left (s : Machine) (op : Op) : Prop :=
  ∃ stack, (stack = s.running ∨ stack ∈ s.suspended) ∧ ∃ frame ∈ stack, op ∈ frame.rest

theorem mem_afterOp {op : Op} {rest : List Op} {enabled : Bool} {below : List Frame} {frame : Frame}
    (member : frame ∈ afterOp op rest enabled below) : frame.rest = rest ∨ frame ∈ below := by
  cases op with
  | iret => exact .inr member
  | _ => exact (List.mem_cons.mp member).imp_left fun equal => congrArg Frame.rest equal

/-- What is left after a step was left before it, or belongs to the handler that was entered. -/
theorem Step.left {entry : Bool → BitVec 8 → List Op} {s t : Machine} {event : Event} {op : Op}
    (step : Step entry s event t) (left : t.Left op) :
    s.Left op ∨ ∃ vector pics, s.pics.accept = some (vector, pics) ∧ op ∈ entry s.gates vector := by
  obtain ⟨stack, place, frame, member, inside⟩ := left
  cases step with
  | raise slave line => exact .inl ⟨stack, place, frame, member, inside⟩
  | accept interrupts taken =>
    rcases place with rfl | suspended
    · rcases List.mem_cons.mp member with rfl | below
      · exact .inr ⟨_, _, taken, inside⟩
      · exact .inl ⟨s.running, .inl rfl, frame, below, inside⟩
    · exact .inl ⟨stack, .inr suspended, frame, member, inside⟩
  | @exec first rest enabled below running =>
    refine .inl ?_
    rcases place with rfl | suspended
    · rcases mem_afterOp member with same | under
      · exact ⟨s.running, .inl rfl, _, running ▸ List.mem_cons_self,
          List.mem_cons_of_mem first (same ▸ inside)⟩
      · exact ⟨s.running, .inl rfl, frame, running ▸ List.mem_cons_of_mem _ under, inside⟩
    · exact ⟨stack, .inr suspended, frame, member, inside⟩
  | idle found running =>
    refine .inl ?_
    rcases place with rfl | suspended
    · exact ⟨_, .inr (List.mem_of_getElem? found), frame, member, inside⟩
    · rcases List.mem_or_eq_of_mem_set suspended with old | rfl
      · exact ⟨stack, .inr old, frame, member, inside⟩
      · exact absurd member List.not_mem_nil
  | @switch task resumed rest enabled below found running =>
    refine .inl ?_
    rcases place with rfl | suspended
    · exact ⟨_, .inr (List.mem_of_getElem? found), frame, member, inside⟩
    · rcases List.mem_or_eq_of_mem_set suspended with old | rfl
      · exact ⟨stack, .inr old, frame, member, inside⟩
      · rcases List.mem_cons.mp member with rfl | under
        · exact ⟨s.running, .inl rfl, _, running ▸ List.mem_cons_self,
            List.mem_cons_of_mem _ inside⟩
        · exact ⟨s.running, .inl rfl, frame, running ▸ List.mem_cons_of_mem _ under, inside⟩

end BlessOS.Lib.InterruptNesting
