import BlessOS.Lib.Transition
import BlessOS.Source.Interrupts

/-!
# The interrupts of a run

While the controllers are programmed the interrupts are on, and one that comes in leaves its line
in service. Behind the gates: what the controllers are set to and which operations are left, in
every state; and as long as the disk's handler has not been entered, which lines are in service
and how the handlers stand on the stacks.
-/

set_option autoImplicit false

namespace BlessOS.Guarantees.InterruptNesting
open BlessOS.Lib.InterruptController BlessOS.Lib.InterruptNesting BlessOS.Lib.Transition
open BlessOS.Source BlessOS.Source.Interrupts

attribute [local instance] lineNeZero

/-- `main`, with the installs of the disk's driver or without them. -/
def installs (disk : Bool) : List Op := mainInstalls ++ if disk then initializePata else []

/-- A run of the kernel from the boot on, whatever has been requested meanwhile. -/
def Reaches (disk : Bool) (masterRequests slaveRequests : Finset Line) (tasks : Nat)
    (events : List Event) (s : Machine) : Prop :=
  GuardedRun (fun s event t => step entry s event = some t) always
    (start (installs disk) masterRequests slaveRequests tasks) events s

/-- No interrupt was taken before the gates were set. -/
def NoneEarly (s : Machine) : Prop := ∀ taken ∈ s.taken, taken.1 = true

instance (s : Machine) : Decidable (NoneEarly s) :=
  inferInstanceAs (Decidable (∀ taken ∈ s.taken, taken.1 = true))

/-! ## The controllers -/

/-- The controllers without requests and lines in service. -/
def calm (c : Cascade) : Cascade where
  master := { c.master with requests := ∅, inService := ∅ }
  slave := { c.slave with requests := ∅, inService := ∅ }

/-- The controllers after some words of `pic_install`. -/
def programmed (words : List Op) : Cascade := words.foldl (fun c op => opPics op c) (booted ∅ ∅)

section Words
variable {c : Cascade} {op : Op}

theorem data_calm (value : BitVec 8) (c : Controller) :
    { Controller.data value c with requests := ∅, inService := ∅ } =
      { Controller.data value { c with requests := ∅, inService := ∅ } with
        requests := ∅, inService := ∅ } := by
  obtain ⟨base, mask, waiting, served, lowest, stage⟩ := c
  cases stage <;> rfl

theorem calm_opPics (listed : op ∈ picInstall) (c : Cascade) :
    calm (opPics op c) = calm (opPics op (calm c)) := by
  have near : ∀ value, calm (opPics (.out value 0x21) c) = calm (opPics (.out value 0x21) (calm c)) :=
    fun value => congrArg₂ Cascade.mk (data_calm value c.master) rfl
  have far : ∀ value, calm (opPics (.out value 0xa1) c) = calm (opPics (.out value 0xa1) (calm c)) :=
    fun value => congrArg₂ Cascade.mk rfl (data_calm value c.slave)
  simp only [picInstall, List.mem_cons, List.not_mem_nil, or_false] at listed
  rcases listed with rfl | rfl | rfl | rfl | rfl | rfl | rfl | rfl | rfl | rfl
  · rfl
  · rfl
  · exact near _
  · exact far _
  · exact near _
  · exact far _
  · exact near _
  · exact far _
  · exact near _
  · exact far _

/-- The words put nothing into service. -/
theorem served_opPics (listed : op ∈ picInstall) (c : Cascade) :
    (opPics op c).master.inService ⊆ c.master.inService ∧
      (opPics op c).slave.inService ⊆ c.slave.inService := by
  have data_same : ∀ (value : BitVec 8) (c : Controller), (c.data value).inService = c.inService := by
    intro value c
    obtain ⟨base, mask, waiting, served, lowest, stage⟩ := c
    cases stage <;> rfl
  have near : ∀ value, (opPics (.out value 0x21) c).master.inService = c.master.inService :=
    fun value => data_same value c.master
  have far : ∀ value, (opPics (.out value 0xa1) c).slave.inService = c.slave.inService :=
    fun value => data_same value c.slave
  simp only [picInstall, List.mem_cons, List.not_mem_nil, or_false] at listed
  rcases listed with rfl | rfl | rfl | rfl | rfl | rfl | rfl | rfl | rfl | rfl
  · exact ⟨Finset.empty_subset _, Finset.Subset.refl _⟩
  · exact ⟨Finset.Subset.refl _, Finset.empty_subset _⟩
  · exact ⟨(near _).subset, Finset.Subset.refl _⟩
  · exact ⟨Finset.Subset.refl _, (far _).subset⟩
  · exact ⟨(near _).subset, Finset.Subset.refl _⟩
  · exact ⟨Finset.Subset.refl _, (far _).subset⟩
  · exact ⟨(near _).subset, Finset.Subset.refl _⟩
  · exact ⟨Finset.Subset.refl _, (far _).subset⟩
  · exact ⟨(near _).subset, Finset.Subset.refl _⟩
  · exact ⟨Finset.Subset.refl _, (far _).subset⟩

/-- What is the same without the requests and the lines in service. -/
theorem calm_field {α : Type} (field : Cascade → α) (kept : ∀ c, field (calm c) = field c)
    {c d : Cascade} (same : calm c = calm d) : field c = field d := by
  rw [← kept c, same, kept]

end Words

/-- The installs open no other lines than those of the timer, of the keyboard and, with the
disk, of the second controller and of the disk. -/
structure Configured (disk : Bool) (c : Cascade) : Prop where
  masterReady : c.master.stage = .ready
  slaveReady : c.slave.stage = .ready
  masterBase : c.master.base = 0x20
  slaveBase : c.slave.base = 0x28
  masterMask : ∀ l : Line, c.master.mask.getLsbD l = false → l = 0 ∨ l = 1 ∨ (disk = true ∧ l = 2)
  slaveMask : ∀ l : Line, c.slave.mask.getLsbD l = false → disk = true ∧ l = 6

/-- What the processor can be handed then. -/
inductive Accepted (disk : Bool) (c : Cascade) : BitVec 8 → Cascade → Prop where
  | near (l : Line) (first : l = 0 ∨ l = 1)
      (free : ∀ k ∈ c.master.inService, c.master.rank l < c.master.rank k) :
      Accepted disk c (0x20 + BitVec.ofNat 8 l) { c with master := c.master.acknowledge l }
  | far (opened : disk = true) (once : (6 : Line) ∉ c.slave.inService)
      (free : ∀ k ∈ c.master.inService, c.master.rank 2 < c.master.rank k) :
      Accepted disk c 0x2e ⟨c.master.acknowledge 2, c.slave.acknowledge 6⟩

section Accepting
variable {disk : Bool} {c d : Cascade} {vector : BitVec 8}

theorem accept_cases (conf : Configured disk c) (taken : c.accept = some (vector, d)) :
    Accepted disk c vector d := by
  obtain ⟨l, requested, rest⟩ := Option.bind_eq_some_iff.mp taken
  obtain ⟨-, ⟨first, -⟩, free⟩ := Controller.request_eq_some.mp requested
  have unmasked : c.master.mask.getLsbD l = false := (Controller.mem_pending.mp first).2
  by_cases cascade : l = 2
  · subst cascade
    rw [if_pos rfl] at rest
    obtain ⟨k, asked, equal⟩ := Option.map_eq_some_iff.mp rest
    obtain ⟨-, ⟨waiting, -⟩, idle⟩ := Controller.request_eq_some.mp asked
    obtain ⟨opened, rfl⟩ := conf.slaveMask k (Controller.mem_pending.mp waiting).2
    have once : (6 : Line) ∉ c.slave.inService := fun served => Nat.lt_irrefl _ (idle 6 served)
    have vector_eq : Cascade.vector c.slave 6 = 0x2e := by
      rw [Cascade.vector, conf.slaveBase]
      rfl
    rw [vector_eq, Prod.mk.injEq] at equal
    obtain ⟨rfl, rfl⟩ := equal
    exact .far opened once free
  · rw [if_neg cascade] at rest
    obtain ⟨rfl, rfl⟩ := Prod.mk.inj (Option.some.inj rest)
    have vector_eq : Cascade.vector c.master l = 0x20 + BitVec.ofNat 8 l := by
      rw [Cascade.vector, conf.masterBase]
    rw [vector_eq]
    rcases conf.masterMask l unmasked with timer | keyboard | ⟨-, disk_line⟩
    · exact .near l (.inl timer) free
    · exact .near l (.inr keyboard) free
    · exact absurd disk_line cascade

theorem Configured.accepted (conf : Configured disk c) (taken : Accepted disk c vector d) :
    Configured disk d := by
  cases taken with
  | near l first free => exact ⟨conf.1, conf.2, conf.3, conf.4, conf.5, conf.6⟩
  | far opened once free => exact ⟨conf.1, conf.2, conf.3, conf.4, conf.5, conf.6⟩

theorem Configured.raise (conf : Configured disk c) (slave : Bool) (line : Line) :
    Configured disk (raise slave line c) := by
  cases slave with
  | false => exact ⟨conf.1, conf.2, conf.3, conf.4, conf.5, conf.6⟩
  | true => exact ⟨conf.1, conf.2, conf.3, conf.4, conf.5, conf.6⟩

end Accepting

/-! ## The frames -/

/-- What is left of `main` after the gates were set. -/
inductive InstallOp (disk : Bool) : Op → Prop where
  | timer (value : BitVec 8) (port : BitVec 16) (other : port = 0x43 ∨ port = 0x40) :
      InstallOp disk (.out value port)
  | near (keep : BitVec 8)
      (opens : ∀ l : Line, keep.getLsbD l = false → l = 0 ∨ l = 1 ∨ (disk = true ∧ l = 2)) :
      InstallOp disk (.outAnd keep 0x21)
  | far (keep : BitVec 8)
      (opens : ∀ l : Line, keep.getLsbD l = false → disk = true ∧ l = 6) :
      InstallOp disk (.outAnd keep 0xa1)

/-- The frames that interrupts are still due to come back to: each has ended its own. -/
inductive Settled (disk : Bool) : Frame → Prop where
  | main (rest : List Op) (installs : ∀ op ∈ rest, InstallOp disk op) : Settled disk ⟨rest, true⟩
  | switches : Settled disk ⟨[.switchTask, .iret], true⟩
  | returns : Settled disk ⟨[.iret], true⟩

/-- The innermost frame and the line that it still has to end. -/
inductive Top (disk : Bool) : Frame → Finset Line → Prop where
  | settled {frame : Frame} (done : Settled disk frame) : Top disk frame ∅
  | timer : Top disk ⟨doTimer, false⟩ {0}
  | masked : Top disk ⟨[.sti, .out 0x20 0x20, .switchTask, .iret], false⟩ {0}
  | opened : Top disk ⟨[.out 0x20 0x20, .switchTask, .iret], true⟩ {0}
  | leaving : Top disk ⟨[.iret], false⟩ ∅

inductive Stack (disk : Bool) : List Frame → Finset Line → Prop where
  | idle : Stack disk [] ∅
  | top {frame : Frame} {below : List Frame} {owed : Finset Line} (first : Top disk frame owed)
      (settled : ∀ other ∈ below, Settled disk other) : Stack disk (frame :: below) owed

/-- The lines in service, with the stack that is running: what is owed, and the `stale` lines that
interrupts before the gates were set have left behind. -/
inductive Phase (disk : Bool) (stale : Finset Line) (c : Controller) : List Frame → Prop where
  | work {owed : Finset Line} {running : List Frame} (low : c.lowest = 7 ∨ c.lowest = 1)
      (stack : Stack disk running owed) (first : ∀ l ∈ owed, ∀ k ∈ stale, c.rank l < c.rank k)
      (served : c.inService = owed ∪ stale) : Phase disk stale c running
  | key {below : List Frame} (first : ∀ k ∈ stale, c.rank 1 < c.rank k)
      (served : c.inService = insert 1 stale) (settled : ∀ other ∈ below, Settled disk other) :
      Phase disk stale c (⟨doKb, false⟩ :: below)
  | rotated {below : List Frame} (low : c.lowest = 1) (served : c.inService = stale)
      (settled : ∀ other ∈ below, Settled disk other) :
      Phase disk stale c (⟨[.out 0x20 0x20, .iret], false⟩ :: below)

/-! ## Operations -/

/-- An operation that takes nothing out of service and opens no more lines. -/
def Plain (disk : Bool) (op : Op) : Prop :=
  ∀ c, Configured disk c → Configured disk (opPics op c) ∧
    (opPics op c).master.inService = c.master.inService ∧
    (opPics op c).master.lowest = c.master.lowest ∧
    (opPics op c).slave.inService = c.slave.inService

section Operations
variable {disk : Bool} {op : Op} {rest : List Op} {enabled : Bool} {below running : List Frame}
  {owed : Finset Line} {c : Cascade}

theorem data_ready {c : Controller} (ready : c.stage = .ready) (value : BitVec 8) :
    c.data value = { c with mask := value } := by
  rw [Controller.data, ready]

theorem InstallOp.plain (listed : InstallOp disk op) : Plain disk op := by
  intro c conf
  cases listed with
  | timer value port other =>
    have ignored : opPics (.out value port) c = c := by
      rcases other with rfl | rfl <;> rfl
    rw [ignored]
    exact ⟨conf, rfl, rfl, rfl⟩
  | near keep opens =>
    have written : opPics (.outAnd keep 0x21) c =
        { c with master := { c.master with mask := c.master.mask &&& keep } } := by
      change { c with master := c.master.data (c.master.mask &&& keep) } = _
      rw [data_ready conf.masterReady]
    rw [written]
    refine ⟨⟨conf.1, conf.2, conf.3, conf.4, ?_, conf.6⟩, rfl, rfl, rfl⟩
    intro l closed
    rw [BitVec.getLsbD_and, Bool.and_eq_false_iff] at closed
    rcases closed with masked | kept
    · exact conf.masterMask l masked
    · exact opens l kept
  | far keep opens =>
    have written : opPics (.outAnd keep 0xa1) c =
        { c with slave := { c.slave with mask := c.slave.mask &&& keep } } := by
      change { c with slave := c.slave.data (c.slave.mask &&& keep) } = _
      rw [data_ready conf.slaveReady]
    rw [written]
    refine ⟨⟨conf.1, conf.2, conf.3, conf.4, conf.5, ?_⟩, rfl, rfl, rfl⟩
    intro l closed
    rw [BitVec.getLsbD_and, Bool.and_eq_false_iff] at closed
    rcases closed with masked | kept
    · exact conf.slaveMask l masked
    · exact opens l kept

theorem plain_of_pics (same : ∀ c, opPics op c = c) : Plain disk op := by
  intro c conf
  rw [same]
  exact ⟨conf, rfl, rfl, rfl⟩

theorem Stack.of_settled (settled : ∀ frame ∈ running, Settled disk frame) :
    Stack disk running ∅ := by
  cases running with
  | nil => exact .idle
  | cons frame below =>
    exact .top (.settled (settled frame List.mem_cons_self))
      fun other member => settled other (List.mem_cons_of_mem _ member)

/-- One operation of the innermost frame: it ends the line that it owes, or none. -/
theorem Stack.exec (stack : Stack disk (⟨op :: rest, enabled⟩ :: below) owed) :
    (Plain disk op ∧ Stack disk (afterOp op rest enabled below) owed) ∨
      (op = .out 0x20 0x20 ∧ owed = {0} ∧ Stack disk (afterOp op rest enabled below) ∅) := by
  cases stack with
  | top first settled =>
    cases first with
    | settled done =>
      left
      cases done with
      | main _ installs =>
        have listed := installs op List.mem_cons_self
        have others : ∀ other ∈ rest, InstallOp disk other :=
          fun other member => installs other (List.mem_cons_of_mem _ member)
        have after : afterOp op rest true below = ⟨rest, true⟩ :: below := by
          cases listed <;> rfl
        rw [after]
        exact ⟨listed.plain, .top (.settled (.main rest others)) settled⟩
      | switches => exact ⟨plain_of_pics fun _ => rfl, .top (.settled .returns) settled⟩
      | returns => exact ⟨plain_of_pics fun _ => rfl, .of_settled settled⟩
    | timer => exact .inl ⟨plain_of_pics fun _ => rfl, .top .masked settled⟩
    | masked => exact .inl ⟨plain_of_pics fun _ => rfl, .top .opened settled⟩
    | opened => exact .inr ⟨rfl, rfl, .top (.settled .switches) settled⟩
    | leaving => exact .inl ⟨plain_of_pics fun _ => rfl, .of_settled settled⟩

/-- A frame that gives the processor away owes nothing. -/
theorem Stack.switches (stack : Stack disk (⟨.switchTask :: rest, enabled⟩ :: below) owed) :
    owed = ∅ ∧ ∀ frame ∈ (⟨rest, true⟩ : Frame) :: below, Settled disk frame := by
  cases stack with
  | top first settled =>
    cases first with
    | settled done =>
      cases done with
      | main _ installs =>
        have listed := installs .switchTask List.mem_cons_self
        cases listed
      | switches => exact ⟨rfl, List.forall_mem_cons.mpr ⟨.returns, settled⟩⟩

/-- What an interrupt can come on top of: nothing is owed, or the timer's line still is. -/
theorem Stack.interruptible {s : Machine} (stack : Stack disk s.running owed)
    (open_to : s.interruptible = true) :
    (owed = ∅ ∧ ∀ frame ∈ s.running, Settled disk frame) ∨
      (owed = {0} ∧ ∃ below, (∀ frame ∈ below, Settled disk frame) ∧
        s.running = ⟨[.out 0x20 0x20, .switchTask, .iret], true⟩ :: below) := by
  unfold Machine.interruptible at open_to
  generalize s.running = running at stack open_to
  cases stack with
  | idle => exact .inl ⟨rfl, fun _ member => absurd member List.not_mem_nil⟩
  | top first settled =>
    cases first with
    | settled done => exact .inl ⟨rfl, List.forall_mem_cons.mpr ⟨done, settled⟩⟩
    | opened => exact .inr ⟨rfl, _, settled, rfl⟩
    | timer => cases open_to
    | masked => cases open_to
    | leaving => cases open_to

theorem Configured.endOfInterrupt (conf : Configured disk c) :
    Configured disk { c with master := c.master.endOfInterrupt } := by
  obtain ⟨ready, far, base, farBase, mask, farMask⟩ := conf
  unfold Controller.endOfInterrupt
  cases c.master.highest c.master.inService <;> exact ⟨ready, far, base, farBase, mask, farMask⟩

theorem Configured.rotateOnEnd (conf : Configured disk c) :
    Configured disk { c with master := c.master.rotateOnEnd } := by
  obtain ⟨ready, far, base, farBase, mask, farMask⟩ := conf
  unfold Controller.rotateOnEnd
  cases c.master.highest c.master.inService <;> exact ⟨ready, far, base, farBase, mask, farMask⟩

end Operations

/-! ## Behind the gates -/

/-- What the handlers that `main` unmasks do besides the rest of `main`. -/
def Listed (disk : Bool) (op : Op) : Prop :=
  InstallOp disk op ∨ op ∈ [.cli, .sti, .switchTask, .iret, .out 0x20 0x20, .out 0xA0 0x20]

/-- What holds in every state behind the gates. -/
structure Behind (disk : Bool) (s : Machine) : Prop where
  gates : s.gates = true
  configured : Configured disk s.pics
  left : ∀ op, s.Left op → Listed disk op
  once : s.taken.count (true, 0x2e) ≤ 1
  dead : (true, 0x2e) ∈ s.taken → disk = true ∧ (6 : Line) ∈ s.pics.slave.inService

section Gates
variable {disk : Bool} {op : Op} {c d : Cascade} {vector : BitVec 8} {s t : Machine} {event : Event}

theorem Listed.configured (listed : Listed disk op) (conf : Configured disk c) :
    Configured disk (opPics op c) ∧ (opPics op c).slave.inService = c.slave.inService := by
  rcases listed with install | other
  · obtain ⟨configured, -, -, slave⟩ := install.plain c conf
    exact ⟨configured, slave⟩
  · simp only [List.mem_cons, List.not_mem_nil, or_false] at other
    rcases other with rfl | rfl | rfl | rfl | rfl | rfl
    · exact ⟨conf, rfl⟩
    · exact ⟨conf, rfl⟩
    · exact ⟨conf, rfl⟩
    · exact ⟨conf, rfl⟩
    · exact ⟨conf.endOfInterrupt, rfl⟩
    · exact ⟨conf.rotateOnEnd, rfl⟩

theorem Accepted.listed (taken : Accepted disk c vector d) : ∀ op ∈ entry true vector, Listed disk op := by
  have timer : ∀ op ∈ doTimer, op ∈ [Op.cli, .sti, .switchTask, .iret, .out 0x20 0x20,
      .out 0xA0 0x20] := by decide
  have key : ∀ op ∈ doKb, op ∈ [Op.cli, .sti, .switchTask, .iret, .out 0x20 0x20,
      .out 0xA0 0x20] := by decide
  have far : ∀ op ∈ hdInterrupt, op ∈ [Op.cli, .sti, .switchTask, .iret, .out 0x20 0x20,
      .out 0xA0 0x20] := by decide
  cases taken with
  | near l first free =>
    rcases first with rfl | rfl
    · exact fun op member => .inr (timer op member)
    · exact fun op member => .inr (key op member)
  | far opened once free => exact fun op member => .inr (far op member)

/-- The disk's interrupt is counted when it is handed over. -/
theorem Behind.accepted {pics : Cascade} (behind : Behind disk s)
    (taken : Accepted disk s.pics vector pics) :
    (s.taken ++ [(true, vector)]).count (true, 0x2e) ≤ 1 ∧
      ((true, 0x2e) ∈ s.taken ++ [(true, vector)] →
        disk = true ∧ (6 : Line) ∈ pics.slave.inService) := by
  cases taken with
  | near l first free =>
    have other : (0x20 : BitVec 8) + BitVec.ofNat 8 l ≠ 0x2e := by
      rcases first with rfl | rfl <;> decide
    have none_new : [(true, (0x20 : BitVec 8) + BitVec.ofNat 8 l)].count (true, 0x2e) = 0 :=
      List.count_eq_zero.mpr fun member =>
        other (Prod.mk.inj (List.mem_singleton.mp member)).2.symm
    constructor
    · rw [List.count_append, none_new]
      exact behind.once
    · intro member
      rcases List.mem_append.mp member with old | new
      · exact behind.dead old
      · exact absurd (Prod.mk.inj (List.mem_singleton.mp new)).2.symm other
  | far opened once free =>
    have none_before : s.taken.count (true, 0x2e) = 0 :=
      List.count_eq_zero.mpr fun member => once (behind.dead member).2
    constructor
    · rw [List.count_append, none_before]
      exact Nat.le_refl 1
    · exact fun _ => ⟨opened, Finset.mem_insert_self 6 s.pics.slave.inService⟩

theorem Behind.step (behind : Behind disk s) (step : Step entry s event t) : Behind disk t := by
  have left : ∀ op, t.Left op → Listed disk op := by
    intro op after
    rcases step.left after with before | ⟨vector, pics, taken, inside⟩
    · exact behind.left op before
    · rw [behind.gates] at inside
      exact (accept_cases behind.configured taken).listed op inside
  cases step with
  | raise slave line =>
    have same : (raise slave line s.pics).slave.inService = s.pics.slave.inService := by
      cases slave <;> rfl
    exact ⟨behind.gates, behind.configured.raise slave line, left, behind.once,
      fun member => same.symm ▸ behind.dead member⟩
  | accept interrupts taken =>
    have accepted := accept_cases behind.configured taken
    obtain ⟨once, dead⟩ := behind.accepted accepted
    rw [← behind.gates] at once dead
    exact ⟨behind.gates, behind.configured.accepted accepted, left, behind.gates ▸ once,
      behind.gates ▸ dead⟩
  | @exec op rest enabled below running =>
    have first : s.Left op :=
      ⟨s.running, .inl rfl, _, running ▸ List.mem_cons_self, List.mem_cons_self⟩
    obtain ⟨configured, slave⟩ := (behind.left op first).configured behind.configured
    refine ⟨?_, configured, left, behind.once, fun member => ?_⟩
    · change (s.gates || _) = true
      rw [behind.gates, Bool.true_or]
    · change _ ∧ (6 : Line) ∈ (opPics op s.pics).slave.inService
      rw [slave]
      exact behind.dead member
  | idle found running => exact ⟨behind.gates, behind.configured, left, behind.once, behind.dead⟩
  | switch found running =>
    exact ⟨behind.gates, behind.configured, left, behind.once, behind.dead⟩

end Gates

/-! ## Until the disk's interrupt -/

/-- The keystrokes taken so far have ended their line, but for one that is about to. -/
def Keyed (lowest : Line) (running : List Frame) : Prop :=
  lowest = 1 ∨ ∃ below, running = ⟨doKb, false⟩ :: below

/-- Behind the gates, with the lines in `stale` left in service by interrupts before. -/
structure Late (disk : Bool) (stale : Finset Line) (s : Machine) : Prop where
  phase : Phase disk stale s.pics.master s.running
  suspended : ∀ stack ∈ s.suspended, ∀ frame ∈ stack, Settled disk frame
  keyed : (true, 0x21) ∈ s.taken → Keyed s.pics.master.lowest s.running

section Phases
variable {disk : Bool} {stale : Finset Line} {op : Op} {rest : List Op} {enabled : Bool}
  {below running : List Frame} {c d : Cascade} {s t : Machine}

/-- A phase does not depend on the requests and on the masks. -/
theorem Phase.of_same {c d : Controller} (phase : Phase disk stale c running)
    (served : d.inService = c.inService) (lowest : d.lowest = c.lowest) :
    Phase disk stale d running := by
  have ranks : d.rank = c.rank := by
    funext l
    rw [Controller.rank, Controller.rank, lowest]
  cases phase with
  | work low stack first same =>
    refine .work (lowest ▸ low) stack ?_ (served.trans same)
    rw [ranks]
    exact first
  | key first same settled =>
    refine .key ?_ (served.trans same) settled
    rw [ranks]
    exact first
  | rotated low same settled => exact .rotated (lowest.trans low) (served.trans same) settled

theorem Stack.notKey {owed : Finset Line} (stack : Stack disk running owed) :
    ∀ below, running ≠ ⟨doKb, false⟩ :: below := by
  rintro below rfl
  cases stack with
  | top first settled =>
    cases first with
    | settled done => cases done

theorem Keyed.of_notKey {lowest after : Line} {running' : List Frame}
    (keyed : Keyed lowest running) (same : after = lowest)
    (notKey : ∀ below, running ≠ ⟨doKb, false⟩ :: below) : Keyed after running' := by
  rcases keyed with one | ⟨frames, key⟩
  · exact .inl (same.trans one)
  · exact absurd key (notKey frames)

/-- One operation of the innermost frame, in each phase. -/
theorem Phase.exec (conf : Configured disk c)
    (phase : Phase disk stale c.master (⟨op :: rest, enabled⟩ :: below)) :
    (∃ left ⊆ stale, Phase disk left (opPics op c).master (afterOp op rest enabled below)) ∧
      (Keyed c.master.lowest (⟨op :: rest, enabled⟩ :: below) →
        Keyed (opPics op c).master.lowest (afterOp op rest enabled below)) := by
  generalize frames : (⟨op :: rest, enabled⟩ :: below : List Frame) = running at phase
  cases phase with
  | work low stack first served =>
    subst frames
    rcases stack.exec with ⟨plain, after⟩ | ⟨rfl, rfl, after⟩
    · obtain ⟨-, same, lowest, -⟩ := plain c conf
      have still : Phase disk stale c.master (afterOp op rest enabled below) :=
        .work low after first served
      exact ⟨⟨stale, Finset.Subset.refl _, still.of_same same lowest⟩,
        fun keyed => keyed.of_notKey lowest stack.notKey⟩
    · -- The timer's line comes before all that is stale, so it is the one that is ended.
      have free := first 0 (Finset.mem_singleton_self 0)
      have highest : c.master.highest c.master.inService = some 0 := by
        rw [served]
        exact Controller.highest_insert free
      have fresh : (0 : Line) ∉ stale := fun member => Nat.lt_irrefl _ (free 0 member)
      have ends : (opPics (.out 0x20 0x20) c).master =
          { c.master with inService := c.master.inService.erase 0 } :=
        Controller.endOfInterrupt_of_highest highest
      have left : c.master.inService.erase 0 = ∅ ∪ stale := by
        rw [served, Finset.empty_union]
        exact Finset.erase_insert fresh
      rw [ends]
      exact ⟨⟨stale, Finset.Subset.refl _, .work low after
        (fun l member => absurd member (Finset.notMem_empty l)) left⟩,
        fun keyed => keyed.of_notKey rfl stack.notKey⟩
  | key first served settled =>
    cases frames
    have highest : c.master.highest c.master.inService = some 1 := by
      rw [served]
      exact Controller.highest_insert first
    have fresh : (1 : Line) ∉ stale := fun member => Nat.lt_irrefl _ (first 1 member)
    have ends : (opPics (.out 0xA0 0x20) c).master =
        { c.master with inService := c.master.inService.erase 1, lowest := 1 } :=
      Controller.rotateOnEnd_of_highest highest
    have left : c.master.inService.erase 1 = stale := by
      rw [served]
      exact Finset.erase_insert fresh
    rw [ends]
    exact ⟨⟨stale, Finset.Subset.refl _, .rotated rfl left settled⟩, fun _ => .inl rfl⟩
  | rotated low served settled =>
    cases frames
    -- Whatever is stale loses its first line here.
    obtain ⟨lines, fewer, ends⟩ := Controller.endOfInterrupt_shape c.master
    have ends : (opPics (.out 0x20 0x20) c).master = { c.master with inService := lines } := ends
    rw [ends]
    refine ⟨⟨lines, served ▸ fewer, .work (.inr low) (.top .leaving settled)
      (fun l member => absurd member (Finset.notMem_empty l)) (Finset.empty_union _).symm⟩, ?_⟩
    exact fun _ => .inl low

/-- What an interrupt can come on top of: nothing is owed, or the timer's line still is. -/
theorem Phase.open (phase : Phase disk stale c.master s.running)
    (interrupts : s.interruptible = true) :
    (c.master.lowest = 7 ∨ c.master.lowest = 1) ∧
      (∀ below, s.running ≠ ⟨doKb, false⟩ :: below) ∧
      ((c.master.inService = stale ∧ ∀ frame ∈ s.running, Settled disk frame) ∨
        (c.master.inService = insert 0 stale ∧ ∃ below, (∀ frame ∈ below, Settled disk frame) ∧
          s.running = ⟨[.out 0x20 0x20, .switchTask, .iret], true⟩ :: below)) := by
  have enabled : ∀ rest below, s.running ≠ (⟨rest, false⟩ : Frame) :: below := by
    intro rest below frames
    rw [Machine.interruptible, frames] at interrupts
    cases interrupts
  generalize frames : s.running = running at phase enabled
  cases phase with
  | work low stack first served =>
    refine ⟨low, enabled doKb, ?_⟩
    rw [← frames] at stack ⊢
    rcases stack.interruptible interrupts with ⟨rfl, settled⟩ | ⟨rfl, timer⟩
    · exact .inl ⟨served.trans (Finset.empty_union _), settled⟩
    · exact .inr ⟨served, timer⟩
  | key first served settled => exact absurd rfl (enabled _ _)
  | rotated low served settled => exact absurd rfl (enabled _ _)

/-- The timer's line comes before that of the keyboard. -/
theorem not_rank_lt_timer {c : Controller} (low : c.lowest = 7 ∨ c.lowest = 1) {l : Line}
    (first : l = 0 ∨ l = 1) : ¬ c.rank l < c.rank 0 := by
  rw [Controller.rank, Controller.rank]
  rcases low with low | low <;> rcases first with rfl | rfl <;> rw [low] <;> decide

/-- A line of the first controller is taken when nothing is owed. -/
theorem Phase.near {l : Line} (phase : Phase disk stale c.master s.running)
    (interrupts : s.interruptible = true) (first : l = 0 ∨ l = 1)
    (free : ∀ k ∈ c.master.inService, c.master.rank l < c.master.rank k) :
    Phase disk stale (c.master.acknowledge l)
      (⟨entry true (0x20 + BitVec.ofNat 8 l), false⟩ :: s.running) := by
  obtain ⟨low, -, ⟨served, settled⟩ | ⟨served, -⟩⟩ := phase.open interrupts
  · rw [served] at free
    have grown : (c.master.acknowledge l).inService = insert l stale := congrArg (insert l) served
    rcases first with rfl | rfl
    · refine .work low (.top .timer settled) (fun l member => ?_) grown
      rw [Finset.mem_singleton.mp member]
      exact free
    · exact .key free grown settled
  · have owed := free 0 (served ▸ Finset.mem_insert_self 0 stale)
    exact absurd owed (not_rank_lt_timer low first)

/-- Another task can be given the processor only by a stack that owes nothing, and takes its
place. -/
theorem Phase.switch {c : Controller} (phase : Phase disk stale c running)
    (yields : running = [] ∨ running = ⟨.switchTask :: rest, enabled⟩ :: below) :
    (∀ frame ∈ (⟨rest, true⟩ : Frame) :: below,
        running = ⟨.switchTask :: rest, enabled⟩ :: below → Settled disk frame) ∧
      (∀ frames, running ≠ ⟨doKb, false⟩ :: frames) ∧
      ∀ stack, (∀ frame ∈ stack, Settled disk frame) → Phase disk stale c stack := by
  cases phase with
  | work low stack first served =>
    refine ⟨?_, stack.notKey, fun _ others => .work low (.of_settled others)
      (fun l member => absurd member (Finset.notMem_empty l)) ?_⟩
    · rintro frame member rfl
      exact stack.switches.2 frame member
    · rcases yields with rfl | rfl
      · cases stack
        exact served
      · rw [stack.switches.1] at served
        exact served
  | key first served settled => rcases yields with other | other <;> cases other
  | rotated low served settled => rcases yields with other | other <;> cases other

theorem Late.executed (behind : Behind disk s) (late : Late disk stale s)
    (running : s.running = ⟨op :: rest, enabled⟩ :: below) :
    ∃ left ⊆ stale, Late disk left { s with
      pics := opPics op s.pics
      gates := s.gates || decide (op = .setGates)
      running := afterOp op rest enabled below } := by
  obtain ⟨phase, suspended, keyed⟩ := late
  rw [running] at phase keyed
  obtain ⟨⟨left, fewer, after⟩, keys⟩ := phase.exec behind.configured
  exact ⟨left, fewer, after, suspended, fun member => keys (keyed member)⟩

theorem Late.accepted {vector : BitVec 8} {pics : Cascade} (behind : Behind disk s)
    (late : Late disk stale s) (interrupts : s.interruptible = true)
    (taken : s.pics.accept = some (vector, pics)) (other : vector ≠ 0x2e) :
    Late disk stale { s with
      pics := pics
      running := ⟨entry s.gates vector, false⟩ :: s.running
      taken := s.taken ++ [(s.gates, vector)] } := by
  obtain ⟨-, notKey, -⟩ := late.phase.open interrupts
  rw [behind.gates]
  cases accept_cases behind.configured taken with
  | near l first free =>
    refine ⟨late.phase.near interrupts first free, late.suspended, fun member => ?_⟩
    rcases List.mem_append.mp member with old | new
    · exact (late.keyed old).of_notKey rfl notKey
    · have key := (Prod.mk.inj (List.mem_singleton.mp new)).2
      rw [← key]
      exact .inr ⟨s.running, rfl⟩
  | far opened once free => exact absurd rfl other

theorem Late.switched {stack left : List Frame} {task : Nat} (late : Late disk stale s)
    (found : s.suspended[task]? = some stack)
    (yields : (s.running = [] ∧ left = []) ∨
      (s.running = ⟨.switchTask :: rest, enabled⟩ :: below ∧ left = ⟨rest, true⟩ :: below)) :
    Late disk stale { s with running := stack, suspended := s.suspended.set task left } := by
  have yields' : s.running = [] ∨ s.running = ⟨.switchTask :: rest, enabled⟩ :: below :=
    yields.imp And.left And.left
  obtain ⟨settled, notKey, next⟩ := late.phase.switch yields'
  refine ⟨next stack (late.suspended stack (List.mem_of_getElem? found)), ?_,
    fun member => (late.keyed member).of_notKey rfl notKey⟩
  intro other member frame inside
  rcases List.mem_or_eq_of_mem_set member with old | rfl
  · exact late.suspended other old frame inside
  · rcases yields with ⟨-, rfl⟩ | ⟨frames, rfl⟩
    · exact absurd inside List.not_mem_nil
    · exact settled frame inside frames

/-- As long as the disk's handler is not entered, the stacks stay as they are described, and no
more lines become stale. -/
theorem Late.step {event : Event} (behind : Behind disk s) (late : Late disk stale s)
    (step : Step entry s event t) (none_disk : (true, 0x2e) ∉ t.taken) :
    ∃ left ⊆ stale, Late disk left t := by
  cases step with
  | raise slave line =>
    refine ⟨stale, Finset.Subset.refl _, ?_⟩
    cases slave with
    | false => exact ⟨late.phase.of_same rfl rfl, late.suspended, late.keyed⟩
    | true => exact ⟨late.phase, late.suspended, late.keyed⟩
  | accept interrupts taken =>
    refine ⟨stale, Finset.Subset.refl _, late.accepted behind interrupts taken ?_⟩
    rintro rfl
    rw [behind.gates] at none_disk
    exact none_disk (List.mem_append_right _ (List.mem_singleton_self _))
  | exec running => exact late.executed behind running
  | @idle task stack found running =>
    have yields : (s.running = [] ∧ ([] : List Frame) = []) ∨
        (s.running = [⟨[.switchTask], true⟩] ∧ ([] : List Frame) = [⟨[], true⟩]) :=
      .inl ⟨running, rfl⟩
    exact ⟨stale, Finset.Subset.refl _, late.switched found yields⟩
  | switch found running =>
    exact ⟨stale, Finset.Subset.refl _, late.switched found (.inr ⟨running, rfl⟩)⟩

end Phases

/-! ## Before the gates -/

/-- What `main` does behind the gates. -/
def opening (disk : Bool) : List Op :=
  timerInstall divisorOfHZ ++ kbInstall ++ if disk then initializePata else []

/-- While the controllers are programmed. -/
structure Early (disk : Bool) (s : Machine) : Prop where
  gates : s.gates = false
  early : ∀ taken ∈ s.taken, taken.1 = false
  words : ∃ done left, done ++ left = picInstall ∧ calm s.pics = calm (programmed done) ∧
    (s.running = [⟨left ++ .setGates :: opening disk, true⟩] ∨
      s.running = [⟨[.iret], false⟩, ⟨left ++ .setGates :: opening disk, true⟩])
  suspended : ∀ stack ∈ s.suspended, stack = []
  unserved : s.taken = [] → s.pics.master.inService = ∅ ∧ s.pics.slave.inService = ∅

/-- The gates have just been set. -/
structure Opened (disk : Bool) (s : Machine) : Prop where
  gates : s.gates = true
  early : ∀ taken ∈ s.taken, taken.1 = false
  pics : calm s.pics = booted ∅ ∅
  running : s.running = [⟨opening disk, true⟩]
  suspended : ∀ stack ∈ s.suspended, stack = []
  unserved : s.taken = [] → s.pics.master.inService = ∅ ∧ s.pics.slave.inService = ∅

section Gates
variable {disk : Bool} {s t : Machine} {event : Event}

theorem opening_installs : ∀ op ∈ opening disk, InstallOp disk op := by
  intro op member
  have opens_timer : ∀ l : Line, (~~~0x01 : BitVec 8).getLsbD l = false →
      l = 0 ∨ l = 1 ∨ (disk = true ∧ l = 2) := by
    intro l closed
    left
    revert l
    decide
  have opens_keyboard : ∀ l : Line, (0xfd : BitVec 8).getLsbD l = false →
      l = 0 ∨ l = 1 ∨ (disk = true ∧ l = 2) := by
    intro l closed
    right
    left
    revert l
    decide
  cases disk with
  | false =>
    simp only [opening, timerInstall, kbInstall, List.mem_append, List.mem_cons,
      Bool.false_eq_true, if_false, List.not_mem_nil, or_false] at member
    rcases member with (rfl | rfl | rfl | rfl) | rfl
    · exact .timer _ _ (.inl rfl)
    · exact .timer _ _ (.inr rfl)
    · exact .timer _ _ (.inr rfl)
    · exact .near _ opens_timer
    · exact .near _ opens_keyboard
  | true =>
    simp only [opening, timerInstall, kbInstall, initializePata, List.mem_append, List.mem_cons,
      if_true, List.not_mem_nil, or_false] at member
    rcases member with ((rfl | rfl | rfl | rfl) | rfl) | rfl | rfl
    · exact .timer _ _ (.inl rfl)
    · exact .timer _ _ (.inr rfl)
    · exact .timer _ _ (.inr rfl)
    · exact .near _ opens_timer
    · exact .near _ opens_keyboard
    · exact .near _ (by decide)
    · exact .far _ (by decide)

theorem early_start (masterRequests slaveRequests : Finset Line) (tasks : Nat) :
    Early disk (start (installs disk) masterRequests slaveRequests tasks) := by
  refine ⟨rfl, fun _ member => absurd member List.not_mem_nil,
    ⟨[], picInstall, rfl, rfl, .inl ?_⟩, fun stack member => ?_, fun _ => ⟨rfl, rfl⟩⟩
  · cases disk <;> rfl
  · exact (List.mem_replicate.mp member).2

/-- An interrupt that comes in so early goes on top of `main`. -/
theorem Early.interruptible (early : Early disk s) (interrupts : s.interruptible = true) :
    ∃ done left, done ++ left = picInstall ∧ calm s.pics = calm (programmed done) ∧
      s.running = [⟨left ++ .setGates :: opening disk, true⟩] := by
  obtain ⟨done, left, split, same, main | nested⟩ := early.words
  · exact ⟨done, left, split, same, main⟩
  · rw [Machine.interruptible, nested] at interrupts
    cases interrupts

theorem calm_accept {c d : Cascade} {vector : BitVec 8} (taken : c.accept = some (vector, d)) :
    calm d = calm c := by
  obtain ⟨l, -, rest⟩ := Option.bind_eq_some_iff.mp taken
  by_cases cascade : l = 2
  · rw [if_pos cascade] at rest
    obtain ⟨k, -, equal⟩ := Option.map_eq_some_iff.mp rest
    obtain ⟨-, rfl⟩ := Prod.mk.inj equal
    rfl
  · rw [if_neg cascade] at rest
    obtain ⟨-, rfl⟩ := Prod.mk.inj (Option.some.inj rest)
    rfl

theorem Early.step (early : Early disk s) (step : Step entry s event t) :
    Early disk t ∨ Opened disk t := by
  have whole := early
  obtain ⟨gates, taken_early, ⟨done, left, split, same, frames⟩, suspended, unserved⟩ := early
  cases step with
  | raise slave line =>
    refine .inl ⟨gates, taken_early, ⟨done, left, split, ?_, frames⟩, suspended, ?_⟩
    · rw [← same]
      cases slave <;> rfl
    · cases slave <;> exact unserved
  | accept interrupts requested =>
    obtain ⟨done, left, split, same, main⟩ := whole.interruptible interrupts
    refine .inl ⟨gates, fun taken member => ?_,
      ⟨done, left, split, (calm_accept requested).trans same, .inr ?_⟩, suspended,
      fun none => absurd none (by simp)⟩
    · rcases List.mem_append.mp member with old | new
      · exact taken_early taken old
      · rw [List.mem_singleton.mp new]
        exact gates
    · rw [gates, main]
      rfl
  | @exec op rest enabled below running =>
    rw [running] at frames
    rcases frames with main | nested
    · cases left with
      | nil =>
        cases main
        rw [List.append_nil] at split
        refine .inr ⟨Bool.or_true _, taken_early, ?_, rfl, suspended, unserved⟩
        change calm s.pics = booted ∅ ∅
        rw [same, split]
        decide
      | cons op' left =>
        cases main
        have listed : op ∈ picInstall := by
          rw [← split]
          exact List.mem_append_right _ List.mem_cons_self
        have notGates : op ≠ .setGates := by
          rintro rfl
          exact absurd listed (by decide)
        have same_running : afterOp op (left ++ .setGates :: opening disk) true [] =
            [⟨left ++ .setGates :: opening disk, true⟩] := by
          simp only [picInstall, List.mem_cons, List.not_mem_nil, or_false] at listed
          rcases listed with rfl | rfl | rfl | rfl | rfl | rfl | rfl | rfl | rfl | rfl <;> rfl
        obtain ⟨near, far⟩ := served_opPics listed s.pics
        refine .inl ⟨?_, taken_early, ⟨done ++ [op], left, ?_, ?_, .inl same_running⟩, suspended,
          fun none => ?_⟩
        · change (s.gates || decide (op = .setGates)) = false
          rw [gates, decide_eq_false notGates]
          rfl
        · rw [List.append_assoc]
          exact split
        · change calm (opPics op s.pics) = _
          rw [calm_opPics listed, same, ← calm_opPics listed, programmed, programmed,
            List.foldl_append]
          rfl
        · obtain ⟨master, slave⟩ := unserved none
          exact ⟨Finset.subset_empty.mp (master ▸ near), Finset.subset_empty.mp (slave ▸ far)⟩
    · cases nested
      refine .inl ⟨?_, taken_early, ⟨done, left, split, same, .inl rfl⟩, suspended, unserved⟩
      change (s.gates || false) = false
      rw [gates]
      rfl
  | idle found running =>
    rw [running] at frames
    rcases frames with main | nested
    · cases main
    · cases nested
  | switch found running =>
    rw [running] at frames
    rcases frames with main | nested
    · cases left with
      | nil => cases main
      | cons op left =>
        cases main
        have listed : Op.switchTask ∈ picInstall := by
          rw [← split]
          exact List.mem_append_right _ List.mem_cons_self
        exact absurd listed (by decide)
    · cases nested

theorem Opened.none_taken (opened : Opened disk s) (vector : BitVec 8) : (true, vector) ∉ s.taken :=
  fun member => Bool.noConfusion (opened.early _ member)

/-- The gates are set when both controllers are programmed and all lines are masked. -/
theorem Opened.behind (opened : Opened disk s) : Behind disk s := by
  have same : calm s.pics = calm (booted ∅ ∅) := opened.pics
  have mask := calm_field (fun c => c.master.mask) (fun _ => rfl) same
  have farMask := calm_field (fun c => c.slave.mask) (fun _ => rfl) same
  have closed : ∀ l : Line, (0xff : BitVec 8).getLsbD l = false → False := by decide
  constructor
  case gates => exact opened.gates
  case configured =>
    constructor
    case masterReady => exact calm_field (fun c => c.master.stage) (fun _ => rfl) same
    case slaveReady => exact calm_field (fun c => c.slave.stage) (fun _ => rfl) same
    case masterBase => exact calm_field (fun c => c.master.base) (fun _ => rfl) same
    case slaveBase => exact calm_field (fun c => c.slave.base) (fun _ => rfl) same
    case masterMask =>
      rw [mask]
      exact fun l unmasked => absurd unmasked (closed l)
    case slaveMask =>
      rw [farMask]
      exact fun l unmasked => absurd unmasked (closed l)
  case left =>
    rintro op ⟨stack, rfl | suspended, frame, member, inside⟩
    · rw [opened.running] at member
      rw [List.mem_singleton.mp member] at inside
      exact .inl (opening_installs op inside)
    · rw [opened.suspended stack suspended] at member
      exact absurd member List.not_mem_nil
  case once => exact (List.count_eq_zero.mpr (opened.none_taken 0x2e)).trans_le (Nat.zero_le 1)
  case dead => exact fun member => absurd member (opened.none_taken 0x2e)

/-- What is in service then is stale. -/
theorem Opened.late (opened : Opened disk s) : Late disk s.pics.master.inService s := by
  have same : calm s.pics = calm (booted ∅ ∅) := opened.pics
  have lowest := calm_field (fun c => c.master.lowest) (fun _ => rfl) same
  refine ⟨?_, fun stack member frame inside => ?_, fun member => absurd member (opened.none_taken 0x21)⟩
  · rw [opened.running]
    exact .work (.inl lowest) (.top (.settled (.main _ opening_installs))
      fun _ member => absurd member List.not_mem_nil)
      (fun l member => absurd member (Finset.notMem_empty l)) (Finset.empty_union _).symm
  · rw [opened.suspended stack member] at inside
    exact absurd inside List.not_mem_nil

/-- A state of a run: before the gates are set, or behind them, and then with the stacks in
order as long as the disk's handler has not been entered. -/
def Known (disk : Bool) (s : Machine) : Prop :=
  Early disk s ∨ (Behind disk s ∧ ((true, 0x2e) ∉ s.taken → ∃ stale, Late disk stale s))

theorem Known.step (known : Known disk s) (step : Step entry s event t) : Known disk t := by
  rcases known with early | ⟨behind, orderly⟩
  · rcases early.step step with still | opened
    · exact .inl still
    · exact .inr ⟨opened.behind, fun _ => ⟨_, opened.late⟩⟩
  · refine .inr ⟨behind.step step, fun none_disk => ?_⟩
    obtain ⟨more, taken⟩ := step.taken_grows
    have none_before : (true, 0x2e) ∉ s.taken := fun member =>
      none_disk (taken ▸ List.mem_append_left more member)
    obtain ⟨stale, late⟩ := orderly none_before
    obtain ⟨left, -, late_t⟩ := late.step behind step none_disk
    exact ⟨left, late_t⟩

/-- Every state of every run. -/
theorem reaches_known {masterRequests slaveRequests : Finset Line} {tasks : Nat}
    {events : List Event} (run : Reaches disk masterRequests slaveRequests tasks events s) :
    Known disk s :=
  run.invariant (Known disk) (fun _ _ _ known _ stepped => known.step (step_iff.mp stepped))
    (.inl (early_start masterRequests slaveRequests tasks))

end Gates

end BlessOS.Guarantees.InterruptNesting
