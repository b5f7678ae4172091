import BlessOS.Guarantees.InterruptDelivery

/-!
# The interrupt of the disk

The disk's handler ends no interrupt. Whatever came in before the gates were set, it is entered
once; and when a key had been pressed before, it is the last handler that is entered.
-/

set_option autoImplicit false

namespace BlessOS.Guarantees.DiskInterrupts
open BlessOS.Lib.InterruptController BlessOS.Lib.InterruptNesting BlessOS.Lib.Transition
open BlessOS.Source BlessOS.Source.Interrupts
open BlessOS.Guarantees.InterruptNesting BlessOS.Guarantees.InterruptDelivery

attribute [local instance] lineNeZero

/-! ## After a keystroke and the disk -/

/-- The cascade line is in service above all others, or the timer's line above those that are
still open; whoever ends an interrupt ends the cascade line. -/
inductive Frozen (disk : Bool) (c : Controller) : List Frame → Prop where
  | still {line : Line} {running : List Frame} (blocks : line = 2 ∨ line = 0)
      (served : line ∈ c.inService) (stack : Stack disk running ∅) : Frozen disk c running
  | timer {below : List Frame} (far : 2 ∈ c.inService) (near : 0 ∈ c.inService)
      (settled : ∀ other ∈ below, Settled disk other) :
      Frozen disk c (⟨[.out 0x20 0x20, .switchTask, .iret], true⟩ :: below)
  | nested {below : List Frame} (far : 2 ∈ c.inService) (near : 0 ∈ c.inService)
      (settled : ∀ other ∈ below, Settled disk other) :
      Frozen disk c
        (⟨[.iret], false⟩ :: ⟨[.out 0x20 0x20, .switchTask, .iret], true⟩ :: below)

/-- No interrupt is taken any more. -/
structure Halted (disk : Bool) (s : Machine) : Prop where
  phase : Frozen disk s.pics.master s.running
  lowest : s.pics.master.lowest = 1
  suspended : ∀ stack ∈ s.suspended, ∀ frame ∈ stack, Settled disk frame
  disk_taken : (true, 0x2e) ∈ s.taken

/-- The disk's interrupt came before any keystroke. -/
def Unkeyed (s : Machine) : Prop :=
  ∃ before after, s.taken = before ++ (true, 0x2e) :: after ∧ (true, 0x21) ∉ before

section Runs
variable {disk : Bool} {masterRequests slaveRequests : Finset Line} {tasks : Nat}
  {events more : List Event} {event : Event} {s t : Machine}

theorem Frozen.blocks {c : Controller} {running : List Frame} (frozen : Frozen disk c running) :
    ∃ line ∈ c.inService, line = 2 ∨ line = 0 := by
  cases frozen with
  | still blocks served stack => exact ⟨_, served, blocks⟩
  | timer far near settled => exact ⟨2, far, .inl rfl⟩
  | nested far near settled => exact ⟨2, far, .inl rfl⟩

theorem Frozen.of_same {c d : Controller} {running : List Frame} (frozen : Frozen disk c running)
    (served : d.inService = c.inService) : Frozen disk d running := by
  cases frozen with
  | still blocks member stack => exact .still blocks (served ▸ member) stack
  | timer far near settled => exact .timer (served ▸ far) (served ▸ near) settled
  | nested far near settled => exact .nested (served ▸ far) (served ▸ near) settled

theorem Halted.accept_ne (behind : Behind disk s) (halted : Halted disk s) {vector : BitVec 8}
    {pics : Cascade} : s.pics.accept ≠ some (vector, pics) := by
  intro taken
  cases accept_cases behind.configured taken with
  | near l first free =>
    obtain ⟨line, served, blocks⟩ := halted.phase.blocks
    have before := free line served
    rw [Controller.rank, Controller.rank, halted.lowest] at before
    rcases first with rfl | rfl <;> rcases blocks with rfl | rfl <;> exact absurd before (by decide)
  | far opened once free => exact once (behind.dead halted.disk_taken).2

theorem Halted.executed {op : Op} {rest : List Op} {enabled : Bool} {below : List Frame}
    (behind : Behind disk s) (halted : Halted disk s)
    (running : s.running = ⟨op :: rest, enabled⟩ :: below) :
    Halted disk { s with
      pics := opPics op s.pics
      gates := s.gates || decide (op = .setGates)
      running := afterOp op rest enabled below } := by
  obtain ⟨phase, one, suspended, disk_taken⟩ := halted
  generalize frames : s.running = stack at phase
  rw [running] at frames
  cases phase with
  | still blocks served stack =>
    subst frames
    rcases stack.exec with ⟨plain, after⟩ | ⟨-, absurd_owed, -⟩
    · obtain ⟨-, same, lowest, -⟩ := plain s.pics behind.configured
      exact ⟨.still blocks (same ▸ served) after, lowest.trans one, suspended, disk_taken⟩
    · exact absurd absurd_owed.symm (Finset.singleton_ne_empty 0)
  | timer far near settled =>
    cases frames
    -- The cascade line has the highest priority, so it is the one that is ended.
    have highest : s.pics.master.highest s.pics.master.inService = some 2 := by
      refine Controller.highest_eq_some.mpr ⟨far, fun k _ => ?_⟩
      rw [Controller.rank, one]
      exact Nat.zero_le _
    have ends : (opPics (.out 0x20 0x20) s.pics).master =
        { s.pics.master with inService := s.pics.master.inService.erase 2 } :=
      Controller.endOfInterrupt_of_highest highest
    refine ⟨?_, ?_, suspended, disk_taken⟩
    · dsimp only
      rw [ends]
      exact .still (.inr rfl) (Finset.mem_erase.mpr ⟨by decide, near⟩)
        (.top (.settled .switches) settled)
    · dsimp only
      rw [ends]
      exact one
  | nested far near settled =>
    cases frames
    exact ⟨.timer far near settled, one, suspended, disk_taken⟩

theorem Halted.switched {rest : List Op} {enabled : Bool} {below stack left : List Frame}
    {task : Nat} (halted : Halted disk s) (found : s.suspended[task]? = some stack)
    (yields : (s.running = [] ∧ left = []) ∨
      (s.running = ⟨.switchTask :: rest, enabled⟩ :: below ∧ left = ⟨rest, true⟩ :: below)) :
    Halted disk { s with running := stack, suspended := s.suspended.set task left } := by
  obtain ⟨phase, one, suspended, disk_taken⟩ := halted
  have resumed : Stack disk stack ∅ := .of_settled (suspended stack (List.mem_of_getElem? found))
  have others : ∀ frame ∈ left, Settled disk frame := by
    rcases yields with ⟨-, rfl⟩ | ⟨frames, rfl⟩
    · exact fun frame inside => absurd inside List.not_mem_nil
    · rw [frames] at phase
      cases phase with
      | still blocks served stack => exact stack.switches.2
  obtain ⟨line, served, blocks⟩ := phase.blocks
  refine ⟨.still blocks served resumed, one, fun other member frame inside => ?_, disk_taken⟩
  rcases List.mem_or_eq_of_mem_set member with old | rfl
  · exact suspended other old frame inside
  · exact others frame inside

theorem Halted.step (behind : Behind disk s) (halted : Halted disk s)
    (step : Step entry s event t) : Halted disk t ∧ t.taken = s.taken := by
  cases step with
  | raise slave line =>
    obtain ⟨phase, one, suspended, disk_taken⟩ := halted
    cases slave with
    | false => exact ⟨⟨phase.of_same rfl, one, suspended, disk_taken⟩, rfl⟩
    | true => exact ⟨⟨phase, one, suspended, disk_taken⟩, rfl⟩
  | accept interrupts taken => exact absurd taken (halted.accept_ne behind)
  | exec running => exact ⟨halted.executed behind running, rfl⟩
  | @idle task stack found running =>
    have yields : (s.running = [] ∧ ([] : List Frame) = []) ∨
        (s.running = [⟨[.switchTask], true⟩] ∧ ([] : List Frame) = [⟨[], true⟩]) :=
      .inl ⟨running, rfl⟩
    exact ⟨halted.switched found yields, rfl⟩
  | switch found running => exact ⟨halted.switched found (.inr ⟨running, rfl⟩), rfl⟩

/-! ## The disk's interrupt itself -/

/-- The handler of the disk is entered on a stack that owes nothing, or above the timer's. -/
theorem halted_of_disk {stale : Finset Line} (slave : Controller) (late : Late disk stale s)
    (interrupts : s.interruptible = true) (key : (true, 0x21) ∈ s.taken) :
    Halted disk { s with
      pics := ⟨s.pics.master.acknowledge 2, slave⟩
      gates := true
      running := ⟨hdInterrupt, false⟩ :: s.running
      taken := s.taken ++ [(true, 0x2e)] } := by
  obtain ⟨-, notKey, owes⟩ := late.phase.open interrupts
  have one : s.pics.master.lowest = 1 := by
    rcases late.keyed key with one | ⟨frames, absurd_key⟩
    · exact one
    · exact absurd absurd_key (notKey frames)
  have far : (2 : Line) ∈ (s.pics.master.acknowledge 2).inService := Finset.mem_insert_self _ _
  refine ⟨?_, one, late.suspended, List.mem_append_right _ (List.mem_singleton_self _)⟩
  rcases owes with ⟨-, settled⟩ | ⟨served, below, settled, timer⟩
  · exact .still (.inl rfl) far (.top .leaving settled)
  · dsimp only
    rw [timer]
    exact .nested far (Finset.mem_insert_of_mem (served ▸ Finset.mem_insert_self 0 stale)) settled

/-- What the disk's interrupt leaves: nothing else is taken, or no key had been pressed. -/
theorem known_disk (known : Known disk s)
    (before : (true, 0x2e) ∈ s.taken → Unkeyed s ∨ Halted disk s)
    (step : Step entry s event t) (disk_taken : (true, 0x2e) ∈ t.taken) :
    Unkeyed t ∨ Halted disk t := by
  rcases known with early | ⟨behind, orderly⟩
  · have all_early : ∀ taken ∈ t.taken, taken.1 = false := by
      rcases early.step step with still | opened
      · exact still.early
      · exact opened.early
    exact absurd (all_early _ disk_taken) (by decide)
  by_cases old : (true, 0x2e) ∈ s.taken
  · rcases before old with ⟨first, later, split, none_key⟩ | halted
    · obtain ⟨last, taken⟩ := step.taken_grows
      refine .inl ⟨first, later ++ last, ?_, none_key⟩
      rw [taken, split, List.append_assoc, List.cons_append]
    · exact .inr (halted.step behind step).1
  · obtain ⟨stale, late⟩ := orderly old
    cases step with
    | accept interrupts taken =>
      by_cases key : (true, 0x21) ∈ s.taken
      · right
        rw [behind.gates] at disk_taken ⊢
        cases accept_cases behind.configured taken with
        | near l first free =>
          have other : (0x20 : BitVec 8) + BitVec.ofNat 8 l ≠ 0x2e := by
            rcases first with rfl | rfl <;> decide
          rcases List.mem_append.mp disk_taken with earlier | new
          · exact absurd earlier old
          · exact absurd (Prod.mk.inj (List.mem_singleton.mp new)).2.symm other
        | far opened once free => exact halted_of_disk _ late interrupts key
      · rcases List.mem_append.mp disk_taken with earlier | new
        · exact absurd earlier old
        · exact .inl ⟨s.taken, [], by rw [List.mem_singleton.mp new], key⟩
    | raise slave line => exact absurd disk_taken old
    | exec running => exact absurd disk_taken old
    | idle found running => exact absurd disk_taken old
    | switch found running => exact absurd disk_taken old

theorem reaches_disk (run : Reaches disk masterRequests slaveRequests tasks events s) :
    Known disk s ∧ ((true, 0x2e) ∈ s.taken → Unkeyed s ∨ Halted disk s) := by
  refine run.invariant
    (fun s => Known disk s ∧ ((true, 0x2e) ∈ s.taken → Unkeyed s ∨ Halted disk s)) ?_
    ⟨.inl (early_start masterRequests slaveRequests tasks),
      fun member => absurd member List.not_mem_nil⟩
  rintro s event t ⟨known, before⟩ - stepped
  have step := step_iff.mp stepped
  exact ⟨known.step step, known_disk known before step⟩

/-- **One disk interrupt.** With the disk unmasked too, its handler is entered at most once. -/
theorem hdInterrupt_once (run : Reaches disk masterRequests slaveRequests tasks events s) :
    s.taken.count (true, 0x2e) ≤ 1 := by
  rcases reaches_known run with early | ⟨behind, -⟩
  · have none_taken : (true, 0x2e) ∉ s.taken := fun member =>
      Bool.noConfusion (early.early _ member)
    exact (List.count_eq_zero.mpr none_taken).trans_le (Nat.zero_le 1)
  · exact behind.once

/-- **The last interrupt.** When `do_kb` was entered before the disk's interrupt, no interrupt is
taken after it, whatever the devices ask for. -/
theorem hdInterrupt_last (run : Reaches disk masterRequests slaveRequests tasks events s)
    {before : List (Bool × BitVec 8)} (disk_last : s.taken = before ++ [(true, 0x2e)])
    (key : (true, 0x21) ∈ before) (later : Continues s more t) : t.taken = s.taken := by
  obtain ⟨known, disk_taken⟩ := reaches_disk run
  have member : (true, 0x2e) ∈ s.taken := by
    rw [disk_last]
    exact List.mem_append_right _ (List.mem_singleton_self _)
  rcases known with early | ⟨behind, -⟩
  · exact absurd (early.early _ member) (by decide)
  rcases disk_taken member with ⟨first, after, split, none_key⟩ | halted
  · -- There is one disk interrupt, so the keystroke is before it here too.
    have fresh : (true, 0x2e) ∉ before := by
      have once := behind.once
      rw [disk_last, List.count_append, List.count_singleton_self] at once
      exact List.count_eq_zero.mp (Nat.le_zero.mp (Nat.le_of_succ_le_succ once))
    rw [disk_last] at split
    obtain ⟨rfl, -⟩ := (List.append_cons_inj_of_notMem fresh List.not_mem_nil).mp split
    exact absurd key none_key
  · refine (later.invariant (fun t => Behind disk t ∧ Halted disk t ∧ t.taken = s.taken) ?_
      ⟨behind, halted, rfl⟩).2.2
    rintro t event u ⟨behind_t, halted_t, same⟩ - stepped
    have step := step_iff.mp stepped
    obtain ⟨halted_u, kept⟩ := halted_t.step behind_t step
    exact ⟨behind_t.step step, halted_u, kept.trans same⟩

end Runs

/-! ## Runs that were evaluated -/

/-- `main` up to the last line that it unmasks; an interrupt of line 5 comes in before the
gates are set. -/
def installedAfterEarly : List Event :=
  List.replicate 7 .exec ++ [.raise false 5, .accept] ++ List.replicate 12 .exec

/-- The disk's interrupt, and another one that it asks for. -/
theorem hdInterrupt_once_asked :
    ∃ s, Reaches true ∅ ∅ 0 (installedAfterEarly ++
        [.raise true 6, .accept, .exec, .raise true 6, .raise false 1, .accept]) s ∧
      s.taken.count (true, 0x2e) ≤ 1 := by
  obtain ⟨s, run, -⟩ := exists_run (installedAfterEarly ++
      [.raise true 6, .accept, .exec, .raise true 6, .raise false 1, .accept])
    (start (installs true) ∅ ∅ 0) (fun _ => true) (by decide +kernel)
  exact ⟨s, run, hdInterrupt_once run⟩

/-- A keystroke, and the disk's interrupt after it. -/
def keyThenDisk : List Event :=
  installedAfterEarly ++ [.raise false 1, .accept, .exec, .exec, .exec, .raise true 6, .accept]

/-- A tick after that. -/
theorem hdInterrupt_last_tick :
    ∃ s t, Reaches true ∅ ∅ 0 keyThenDisk s ∧
      s.taken = [(false, 0x25), (true, 0x21), (true, 0x2e)] ∧
      Continues s [.raise false 0, .exec] t ∧ t.taken = s.taken := by
  obtain ⟨s, run, held⟩ := exists_run keyThenDisk (start (installs true) ∅ ∅ 0)
    (fun s => decide (s.taken = [(false, 0x25), (true, 0x21), (true, 0x2e)] ∧
      (List.foldlM (step entry) s [.raise false 0, .exec]).isSome)) (by decide +kernel)
  obtain ⟨taken, more⟩ := of_decide_eq_true held
  obtain ⟨t, continues, -⟩ := exists_run [.raise false 0, .exec] s (fun _ => true) (by
    rw [Option.any_true]
    exact more)
  have last : s.taken = [(false, 0x25), (true, 0x21)] ++ [(true, 0x2e)] := taken
  exact ⟨s, t, run, taken, continues, hdInterrupt_last run last (by decide) continues⟩

end BlessOS.Guarantees.DiskInterrupts
