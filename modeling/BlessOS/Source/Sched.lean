import BlessOS.Lib.LinkedChain
import BlessOS.Source.Common

/-!
# Tasks, `kernel/sched.c` and the tick of `kernel/timer.c`

Task structures live at 32-bit addresses and `0` is `NULL`. A task that calls
`schedule` from `sleep_on` and is switched away keeps the local `tmp` of that
call on its stack: `saved` holds it until the task runs on. A loop over a task
list that never ends, and the `halt()` of a sleeping init task, leave no state
and are `none`. The console work of `do_timer` is not part of this state.
-/

set_option autoImplicit false

namespace BlessOS.Source.Sched
open BlessOS.Lib.LinkedChain

/-- The eight bytes of a `struct desc_struct`. -/
abbrev Desc := Fin 8 → U8

def firstTssSel : Nat := 4
def firstLdtSel : Nat := firstTssSel + 1

def initialPrio : U8 := 200

inductive TaskState where
  | running | runable | stopped | uninterruptible | interruptible
  deriving DecidableEq, Repr

/-- The fields of `struct tss_struct` that the kernel writes. -/
structure Tss where
  esp0 : U32
  eip : U32
  eflags : U32
  esp : U32

structure Task where
  tss : Tss
  tssEntry : Desc
  priority : U8
  state : TaskState
  ldtEntry : Desc
  next : U32

/-- Offset of `tss` in `struct task_struct`. -/
def tssOffset : U32 := 0

/-- Offset of `ldt`: the 104 bytes of `tss`, `tss_entry`, `priority`, `signal`,
32 handlers and `state`, with `priority` padded to a word. -/
def ldtOffset : U32 := 104 + 8 + 4 + 4 + 4 * 32 + 4

structure SchedState where
  task0 : U32
  tasks : U32 → Task
  current : U32
  gdt : Nat → Desc
  /-- The wait pointers, by their addresses. -/
  waiting : U32 → U32
  /-- `tmp` of the `sleep_on` a task has called and not finished. -/
  saved : U32 → Option U32
  timerTicks : U32

/-- Writes through a task pointer. -/
def SchedState.modify (s : SchedState) (t : U32) (f : Task → Task) : SchedState :=
  { s with tasks := Function.update s.tasks t (f (s.tasks t)) }

/-- Byte 1, the high byte of the limit, is not written. -/
def setTssLdtDesc (gdtDest : Desc) (addr : U32) (type : U8) : Desc
  | 0 => 0x68
  | 1 => gdtDest 1
  | 2 => (addr &&& 0xff).setWidth 8
  | 3 => ((addr >>> 8) &&& 0xff).setWidth 8
  | 4 => ((addr >>> 16) &&& 0xff).setWidth 8
  | 5 => type
  | 6 => 0x00
  | 7 => ((addr >>> 24) &&& 0xff).setWidth 8

/-- The base address the processor reads from a descriptor. -/
def descBase (d : Desc) : U32 := d 7 ++ d 4 ++ d 3 ++ d 2

/-- The limit it reads: two bytes and the low half of a third. -/
def descLimit (d : Desc) : U32 := ((d 6).setWidth 4 ++ d 1 ++ d 0).setWidth 32

/-- The processor sets the busy bit of the descriptor it loads the task register from. -/
def markBusy (d : Desc) : Desc := Function.update d 5 (d 5 ||| 0x02)

def setTssDesc (s : SchedState) (addr : U32) : SchedState :=
  { s with gdt := Function.update s.gdt firstTssSel (setTssLdtDesc (s.gdt firstTssSel) addr 0x89) }

def setLdtDesc (s : SchedState) (addr : U32) : SchedState :=
  { s with gdt := Function.update s.gdt firstLdtSel (setTssLdtDesc (s.gdt firstLdtSel) addr 0x82) }

/-- `ltr` and the far jump to the task selector. -/
def loadTaskRegister (s : SchedState) : SchedState :=
  { s with gdt := Function.update s.gdt firstTssSel (markBusy (s.gdt firstTssSel)) }

def schedInit (s : SchedState) : SchedState :=
  loadTaskRegister (setLdtDesc (setTssDesc s (s.task0 + tssOffset)) (s.task0 + ldtOffset))

/-- No list has more tasks than there are addresses. -/
def listBound : Nat := 2 ^ 32

/-- One turn of the selection loop of `schedule` on the pair `(tmp, cp)`. -/
def pick (tasks : U32 → Task) (best : U32 × Nat) (v : U32) : U32 × Nat :=
  if (tasks v).state = .runable ∧ best.2 < (tasks v).priority.toNat then
    (v, (tasks v).priority.toNat)
  else best

def select (s : SchedState) : Option (U32 × Nat) :=
  traverse 0 (fun _ v => (s.tasks v).next) (pick s.tasks) listBound s.task0
    (0, (s.tasks s.current).priority.toNat)

/-- `current->tss_entry = get_tss(); current->ldt_entry = get_ldt();` -/
def saveEntries (s : SchedState) : SchedState :=
  s.modify s.current fun task =>
    { task with tssEntry := s.gdt firstTssSel, ldtEntry := s.gdt firstLdtSel }

/-- The two descriptors of `tmp`, written to the table and copied from there into the task. -/
def loadEntries (tmp : U32) (s : SchedState) : SchedState :=
  let s := setLdtDesc (setTssDesc s (tmp + tssOffset)) (tmp + ldtOffset)
  s.modify tmp fun task =>
    { task with tssEntry := s.gdt firstTssSel, ldtEntry := s.gdt firstLdtSel }

/-- The state changes of a switch, and the new `current`. -/
def handOver (tmp : U32) (s : SchedState) : SchedState :=
  let s := s.modify s.current fun task =>
    if task.state = .running then { task with state := .runable } else task
  let s := s.modify tmp fun task => { task with state := .running }
  { s with current := tmp }

/-- The switching branch of `schedule`. -/
def switchTo (tmp : U32) (s : SchedState) : SchedState :=
  loadTaskRegister (handOver tmp (loadEntries tmp (saveEntries s)))

def schedule (s : SchedState) : Option SchedState := do
  let (tmp, _) ← select s
  if tmp ≠ 0 ∧ tmp ≠ s.current then some (switchTo tmp s) else some s

/-- `tmp = *task;` -/
def readTmp (task : U32) (s : SchedState) : SchedState :=
  { s with saved := Function.update s.saved s.current (some (s.waiting task)) }

/-- `*task = current;` -/
def writeTask (task : U32) (s : SchedState) : SchedState :=
  { s with waiting := Function.update s.waiting task s.current }

/-- `current->state = TS_UNINTERRUPTIBLE;` -/
def markAsleep (s : SchedState) : SchedState :=
  s.modify s.current fun t => { t with state := .uninterruptible }

/-- `current->priority = 0;` -/
def dropPriority (s : SchedState) : SchedState :=
  s.modify s.current fun t => { t with priority := 0 }

/-- `sleep_on` up to the return of its call of `schedule`. -/
def sleepOn (task : U32) (s : SchedState) : Option SchedState :=
  if task = 0 then some s
  else if s.current = s.task0 then none
  else schedule (dropPriority (markAsleep (writeTask task (readTmp task s))))

/-- `task->state = TS_RUNNING;` -/
def markRunning (task : U32) (s : SchedState) : SchedState :=
  s.modify task fun t => { t with state := .running }

/-- The rest of `sleep_on`, when the task that called it runs on. -/
def sleepOnReturn (s : SchedState) : Option SchedState := do
  let tmp ← s.saved s.current
  let s := { s with saved := Function.update s.saved s.current none }
  if tmp ≠ 0 then some (markRunning tmp s) else some s

def wakeUp (task : U32) (s : SchedState) : SchedState :=
  if task ≠ 0 ∧ s.waiting task ≠ 0 then
    let s := markRunning (s.waiting task) s
    { s with waiting := Function.update s.waiting task 0 }
  else s

def newTask (task eip sp0 sp3 : U32) (s : SchedState) : SchedState :=
  let s := s.modify task fun _ =>
    { s.tasks s.task0 with
      tss := { esp0 := sp0, eip := eip, esp := sp3, eflags := 0x3202 }
      priority := initialPrio
      state := .stopped }
  let s := s.modify task fun t => { t with next := (s.tasks s.current).next }
  let s := s.modify s.current fun t => { t with next := task }
  s.modify task fun t => { t with state := .runable }

/-- The priority a tick leaves a task with; the subtraction wraps before it is tested. -/
def agedPriority (task : Task) : U8 :=
  if task.state = .running then
    let lowered := task.priority - 30
    if lowered.toNat ≤ 0 then 0 else lowered
  else task.priority + 10

def age (s : SchedState) (v : U32) : SchedState :=
  s.modify v fun task => { task with priority := agedPriority task }

def doTimer (s : SchedState) : Option SchedState := do
  let s := { s with timerTicks := s.timerTicks + 1 }
  let s ← traverse 0 (fun s v => (s.tasks v).next) age listBound s.task0 s
  schedule s

end BlessOS.Source.Sched
