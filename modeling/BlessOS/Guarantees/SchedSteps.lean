import BlessOS.Lib.Transition
import BlessOS.Source.Sched

/-!
# What the scheduler's operations do

`schedule` leaves the state alone or switches to a runnable task of the list,
and `do_timer` ages priorities and schedules. The calls a kernel makes on the
scheduler are collected in one executable step; the run properties of the
scheduler are derived from the lemmas of this file.
-/

set_option autoImplicit false

namespace BlessOS.Guarantees.SchedSteps
open BlessOS.Lib.LinkedChain BlessOS.Lib.Transition
open BlessOS.Source BlessOS.Source.Sched

/-- The tasks in the order of the list that starts at `task0`. -/
def TaskList (s : SchedState) (tasks : List U32) : Prop :=
  Chain (fun v => (s.tasks v).next) 0 s.task0 tasks

instance (s : SchedState) (tasks : List U32) : Decidable (TaskList s tasks) :=
  inferInstanceAs (Decidable (Chain _ _ _ _))

def prio (s : SchedState) (v : U32) : Nat := (s.tasks v).priority.toNat

/-! ## Frames -/

section Modify

variable (s : SchedState) (t x : U32) (f : Task → Task)

@[simp] theorem modify_task0 : (s.modify t f).task0 = s.task0 := rfl
@[simp] theorem modify_current : (s.modify t f).current = s.current := rfl
@[simp] theorem modify_gdt : (s.modify t f).gdt = s.gdt := rfl
@[simp] theorem modify_waiting : (s.modify t f).waiting = s.waiting := rfl
@[simp] theorem modify_saved : (s.modify t f).saved = s.saved := rfl

theorem modify_apply : (s.modify t f).tasks x = if x = t then f (s.tasks t) else s.tasks x := by
  simp only [SchedState.modify, Function.update_apply]

/-- A field the update leaves alone in its task is left alone in every task. -/
theorem modify_keeps {α : Type*} (field : Task → α)
    (same : field (f (s.tasks t)) = field (s.tasks t)) :
    field ((s.modify t f).tasks x) = field (s.tasks x) := by
  rw [modify_apply]
  split
  · next here => rw [here, same]
  · rfl

end Modify

section SwitchTo

variable (v : U32) (s : SchedState) (x : U32)

@[simp] theorem switchTo_task0 : (switchTo v s).task0 = s.task0 := rfl
@[simp] theorem switchTo_current : (switchTo v s).current = v := rfl
@[simp] theorem switchTo_waiting : (switchTo v s).waiting = s.waiting := rfl
@[simp] theorem switchTo_saved : (switchTo v s).saved = s.saved := rfl

theorem switchTo_gdt : (switchTo v s).gdt =
    (loadTaskRegister (setLdtDesc (setTssDesc s (v + tssOffset)) (v + ldtOffset))).gdt := rfl

/-- Saving and loading descriptors touches the two entries of a task and nothing else of it. -/
theorem entries_keep {α : Type*} (field : Task → α)
    (same : ∀ task tss ldt, field { task with tssEntry := tss, ldtEntry := ldt } = field task) :
    field ((loadEntries v (saveEntries s)).tasks x) = field (s.tasks x) := by
  calc field ((loadEntries v (saveEntries s)).tasks x)
    _ = field ((saveEntries s).tasks x) := by
      unfold loadEntries
      exact modify_keeps _ v x _ field (by exact same _ _ _)
    _ = field (s.tasks x) := by
      unfold saveEntries
      exact modify_keeps _ _ x _ field (by exact same _ _ _)

/-- What is neither a descriptor entry nor the state survives a switch in every task. -/
theorem switchTo_keeps {α : Type*} (field : Task → α)
    (entries : ∀ task tss ldt, field { task with tssEntry := tss, ldtEntry := ldt } = field task)
    (state : ∀ task state, field { task with state := state } = field task) :
    field ((switchTo v s).tasks x) = field (s.tasks x) := by
  have handed : ∀ r : SchedState, field ((handOver v r).tasks x) = field (r.tasks x) := by
    intro r
    unfold handOver
    dsimp only
    refine Eq.trans (modify_keeps _ v x _ field ?_) (modify_keeps r r.current x _ field ?_)
    · exact state _ _
    · split
      · exact state _ _
      · rfl
  exact (handed _).trans (entries_keep v s x field entries)

@[simp] theorem switchTo_next : ((switchTo v s).tasks x).next = (s.tasks x).next :=
  switchTo_keeps v s x (·.next) (fun _ _ _ => rfl) (fun _ _ => rfl)

@[simp] theorem switchTo_priority : ((switchTo v s).tasks x).priority = (s.tasks x).priority :=
  switchTo_keeps v s x (·.priority) (fun _ _ _ => rfl) (fun _ _ => rfl)

/-- The new task runs, the old one becomes runnable if it was running, the others
keep their state. -/
theorem switchTo_state : ((switchTo v s).tasks x).state =
    if x = v then .running
    else if x = s.current ∧ (s.tasks x).state = .running then .runable
    else (s.tasks x).state := by
  have entries : ∀ y, ((loadEntries v (saveEntries s)).tasks y).state = (s.tasks y).state :=
    fun y => entries_keep v s y (·.state) fun _ _ _ => rfl
  change ((handOver v (loadEntries v (saveEntries s))).tasks x).state = _
  unfold handOver
  simp only [modify_apply]
  by_cases new : x = v
  · simp [new]
  · by_cases old : x = s.current
    · subst old
      have here : (loadEntries v (saveEntries s)).current = s.current := rfl
      simp only [new, here, if_true, if_false, entries]
      split <;> simp_all
    · have here : x ≠ (loadEntries v (saveEntries s)).current := old
      simp only [new, here, old, if_false, entries, false_and]

end SwitchTo

/-! ## `schedule` -/

/-- A switch goes to the task the selection loop found. -/
theorem schedule_cases {s t : SchedState} (ran : schedule s = some t) :
    t = s ∨ ∃ best, select s = some best ∧ best.1 ≠ 0 ∧ best.1 ≠ s.current ∧
      t = switchTo best.1 s := by
  obtain ⟨best, found, after⟩ := Option.bind_eq_some_iff.mp ran
  change (if best.1 ≠ 0 ∧ best.1 ≠ s.current then _ else _) = _ at after
  split at after
  · next proper => exact Or.inr ⟨best, found, proper.1, proper.2, (Option.some.inj after).symm⟩
  · exact Or.inl (Option.some.inj after).symm

/-- A list of tasks fits the bound of the loops over it. -/
theorem TaskList.length_lt {s : SchedState} {tasks : List U32} (list : TaskList s tasks) :
    tasks.length < listBound := by
  have nodup : (0 :: tasks).Nodup :=
    List.nodup_cons.mpr ⟨fun null => list.ne_null 0 null rfl, list.nodup⟩
  have injective : Function.Injective (BitVec.toFin (w := 32)) := fun _ _ => BitVec.eq_of_toFin_eq
  have size := (nodup.map injective).length_le_card
  rw [List.length_map, List.length_cons, Fintype.card_fin] at size
  exact size

theorem select_eq {s : SchedState} {tasks : List U32} (list : TaskList s tasks) :
    select s = some (tasks.foldl (pick s.tasks) (0, (s.tasks s.current).priority.toNat)) := by
  unfold select
  apply traverse_eq_foldl
  · intro best v x
    rfl
  · exact list
  · exact list.length_lt

/-- What the selection loop finds is runnable, on any list. -/
theorem select_runable {s : SchedState} {best : U32 × Nat} (found : select s = some best)
    (proper : best.1 ≠ 0) : (s.tasks best.1).state = .runable := by
  refine traverse_invariant (fun b : U32 × Nat => b.1 ≠ 0 → (s.tasks b.1).state = .runable)
    ?_ found (fun none => absurd rfl none) proper
  intro b v _ before
  unfold pick
  split
  · next eligible => exact fun _ => eligible.1
  · exact before

/-- What the selection loop finds is a member of the list. -/
theorem select_mem {s : SchedState} {tasks : List U32} (list : TaskList s tasks)
    {best : U32 × Nat} (found : select s = some best) (proper : best.1 ≠ 0) : best.1 ∈ tasks := by
  rw [select_eq list] at found
  cases found
  refine List.foldlRecOn tasks (pick s.tasks) (motive := fun b => b.1 ≠ 0 → b.1 ∈ tasks)
    (fun none => absurd rfl none) ?_ proper
  intro b before v member
  unfold pick
  split
  · exact fun _ => member
  · exact before

theorem schedule_returns {s : SchedState} {tasks : List U32} (list : TaskList s tasks) :
    ∃ t, schedule s = some t := by
  unfold schedule
  rw [select_eq list]
  simp only [Option.bind_eq_bind, Option.bind_some]
  split <;> exact ⟨_, rfl⟩

/-- `schedule` keeps the list and stays on it. -/
theorem TaskList.scheduled {s t : SchedState} {tasks : List U32} (list : TaskList s tasks)
    (ran : schedule s = some t) : TaskList t tasks := by
  rcases schedule_cases ran with rfl | ⟨best, -, -, -, rfl⟩
  · exact list
  · exact list.congr fun x _ => switchTo_next best.1 s x

theorem TaskList.schedule {s t : SchedState} {tasks : List U32} (list : TaskList s tasks)
    (member : s.current ∈ tasks) (ran : schedule s = some t) :
    TaskList t tasks ∧ t.current ∈ tasks := by
  refine ⟨list.scheduled ran, ?_⟩
  rcases schedule_cases ran with rfl | ⟨best, found, proper, -, rfl⟩
  · exact member
  · exact select_mem list found proper

/-! ## `do_timer` -/

/-- Ageing changes priorities and the tick count only. -/
structure AgedFrom (s t : SchedState) : Prop where
  task0 : t.task0 = s.task0
  current : t.current = s.current
  gdt : t.gdt = s.gdt
  waiting : t.waiting = s.waiting
  saved : t.saved = s.saved
  next : ∀ x, (t.tasks x).next = (s.tasks x).next
  state : ∀ x, (t.tasks x).state = (s.tasks x).state

theorem AgedFrom.age {s t : SchedState} (aged : AgedFrom s t) (v : U32) : AgedFrom s (age t v) where
  task0 := aged.task0
  current := aged.current
  gdt := aged.gdt
  waiting := aged.waiting
  saved := aged.saved
  next x := (modify_keeps t v x _ (·.next) rfl).trans (aged.next x)
  state x := (modify_keeps t v x _ (·.state) rfl).trans (aged.state x)

theorem doTimer_cases {s t : SchedState} (ran : doTimer s = some t) :
    ∃ u, AgedFrom s u ∧ schedule u = some t := by
  obtain ⟨u, ended, after⟩ := Option.bind_eq_some_iff.mp ran
  refine ⟨u, traverse_invariant (AgedFrom s) (fun r v _ aged => aged.age v) ended ?_, after⟩
  exact ⟨rfl, rfl, rfl, rfl, rfl, fun _ => rfl, fun _ => rfl⟩

theorem AgedFrom.taskList {s t : SchedState} (aged : AgedFrom s t) {tasks : List U32}
    (list : TaskList s tasks) : TaskList t tasks := by
  unfold TaskList
  rw [aged.task0]
  exact list.congr fun x _ => aged.next x

theorem TaskList.tick {s t : SchedState} {tasks : List U32} (list : TaskList s tasks)
    (ran : doTimer s = some t) : TaskList t tasks := by
  obtain ⟨u, aged, scheduled⟩ := doTimer_cases ran
  exact (aged.taskList list).scheduled scheduled

/-- The state a tick ages. -/
def ticked (s : SchedState) : SchedState := { s with timerTicks := s.timerTicks + 1 }

/-- The ageing loop considers every task of the list. -/
theorem ageing_eq {s : SchedState} {tasks : List U32} (list : TaskList s tasks) :
    traverse 0 (fun (r : SchedState) v => (r.tasks v).next) age listBound s.task0 (ticked s) =
      some (tasks.foldl age (ticked s)) := by
  apply traverse_eq_foldl
  · intro r v x
    exact modify_keeps r v x _ Task.next (by rfl)
  · exact list
  · exact list.length_lt

theorem doTimer_eq {s : SchedState} {tasks : List U32} (list : TaskList s tasks) :
    doTimer s = schedule (tasks.foldl age (ticked s)) := by
  have ended := ageing_eq list
  unfold ticked at ended
  unfold doTimer
  simp only [Option.bind_eq_bind]
  rw [ended]
  rfl

theorem AgedFrom.ticked (s : SchedState) : AgedFrom s (ticked s) :=
  ⟨rfl, rfl, rfl, rfl, rfl, fun _ => rfl, fun _ => rfl⟩

theorem doTimer_returns {s : SchedState} {tasks : List U32} (list : TaskList s tasks) :
    ∃ t, doTimer s = some t := by
  have aged : AgedFrom s (tasks.foldl age (SchedSteps.ticked s)) :=
    traverse_invariant (AgedFrom s) (fun r v _ aged => aged.age v) (ageing_eq list) (.ticked s)
  rw [doTimer_eq list]
  exact schedule_returns (aged.taskList list)

/-! ## `new_task` -/

section NewTask

variable (task eip sp0 sp3 : U32) {s : SchedState}

theorem newTask_state (x : U32) :
    ((newTask task eip sp0 sp3 s).tasks x).state =
      if x = task then .runable else (s.tasks x).state := by
  unfold newTask
  by_cases new : x = task
  · simp only [modify_apply, new, if_true]
  · by_cases here : x = s.current
    · simp only [modify_apply, modify_current, new, ← here, if_true, if_false]
    · simp only [modify_apply, modify_current, new, here, if_false]

theorem newTask_next (apart : task ≠ s.current) :
    (fun x => ((newTask task eip sp0 sp3 s).tasks x).next) =
      Function.update (Function.update (fun x => (s.tasks x).next) task (s.tasks s.current).next)
        s.current task := by
  funext x
  have back : s.current ≠ task := apart.symm
  unfold newTask
  simp only [modify_apply, modify_current, Function.update_apply, apart, back, if_true, if_false]
  by_cases new : x = task
  · simp only [new, apart, if_true, if_false]
  · by_cases here : x = s.current
    · simp only [here, back, if_true, if_false]
    · simp only [new, here, if_false]

/-- A fresh task is spliced into the list after the current one. -/
theorem newTask_taskList (proper : task ≠ 0) {before after : List U32}
    (list : TaskList s (before ++ s.current :: after))
    (fresh : task ∉ before ++ s.current :: after) :
    TaskList (newTask task eip sp0 sp3 s) (before ++ s.current :: task :: after) := by
  have apart : task ≠ s.current := fun same => fresh (by simp [same])
  unfold TaskList
  rw [newTask_next task eip sp0 sp3 apart]
  exact list.insert fresh proper

end NewTask

/-! ## The calls of the kernel -/

/-- A tick, or a call made by the current task. `sleepOnReturn` is the end of the
`sleep_on` the current task is in. -/
inductive SchedCall where
  | tick
  | schedule
  | sleepOn (task : U32)
  | sleepOnReturn
  | wakeUp (task : U32)
  | newTask (task eip sp0 sp3 : U32)

def SchedCall.exec : SchedCall → SchedState → Option SchedState
  | .tick, s => doTimer s
  | .schedule, s => Sched.schedule s
  | .sleepOn task, s => Sched.sleepOn task s
  | .sleepOnReturn, s => Sched.sleepOnReturn s
  | .wakeUp task, s => some (Sched.wakeUp task s)
  | .newTask task eip sp0 sp3, s => some (Sched.newTask task eip sp0 sp3 s)

def step (s : SchedState) (call : SchedCall) (t : SchedState) : Prop :=
  call.exec s = some t

def execAll (calls : List SchedCall) (s : SchedState) : Option SchedState :=
  calls.foldlM (fun (s : SchedState) (call : SchedCall) => call.exec s) s

theorem run_of_execAll {calls : List SchedCall} {s t : SchedState}
    (ran : execAll calls s = some t) : GuardedRun step always s calls t :=
  GuardedRun.of_foldlM (fun _ _ _ next => ⟨trivial, next⟩) calls ran

/-- The state in which `sleep_on` calls `schedule`. -/
def fallAsleep (task : U32) (s : SchedState) : SchedState :=
  dropPriority (markAsleep (writeTask task (readTmp task s)))

theorem fallAsleep_tasks (q : U32) (s : SchedState) (x : U32) :
    (fallAsleep q s).tasks x = if x = s.current then
      { s.tasks x with state := .uninterruptible, priority := 0 } else s.tasks x := by
  unfold fallAsleep dropPriority markAsleep
  simp only [modify_apply, modify_current]
  by_cases here : x = s.current
  · simp only [here, writeTask, readTmp, if_true]
  · simp only [here, writeTask, readTmp, if_false]

theorem fallAsleep_state (q : U32) (s : SchedState) (x : U32) :
    ((fallAsleep q s).tasks x).state =
      if x = s.current then .uninterruptible else (s.tasks x).state := by
  rw [fallAsleep_tasks]
  split <;> rfl

theorem fallAsleep_priority (q : U32) (s : SchedState) (x : U32) :
    ((fallAsleep q s).tasks x).priority = if x = s.current then 0 else (s.tasks x).priority := by
  rw [fallAsleep_tasks]
  split <;> rfl

@[simp] theorem fallAsleep_current (q : U32) (s : SchedState) :
    (fallAsleep q s).current = s.current := rfl

theorem fallAsleep_waiting (q : U32) (s : SchedState) :
    (fallAsleep q s).waiting = Function.update s.waiting q s.current := rfl

theorem fallAsleep_saved (q : U32) (s : SchedState) :
    (fallAsleep q s).saved = Function.update s.saved s.current (some (s.waiting q)) := rfl

theorem markAsleep_next (s : SchedState) (x : U32) :
    ((markAsleep s).tasks x).next = (s.tasks x).next := by
  unfold markAsleep
  exact modify_keeps _ _ x _ Task.next (by rfl)

theorem dropPriority_next (s : SchedState) (x : U32) :
    ((dropPriority s).tasks x).next = (s.tasks x).next := by
  unfold dropPriority
  exact modify_keeps _ _ x _ Task.next (by rfl)

theorem fallAsleep_next (q : U32) (s : SchedState) (x : U32) :
    ((fallAsleep q s).tasks x).next = (s.tasks x).next :=
  (dropPriority_next _ x).trans (markAsleep_next _ x)

theorem sleepOn_cases {q : U32} {s t : SchedState} (ran : sleepOn q s = some t) :
    t = s ∨ (s.current ≠ s.task0 ∧ schedule (fallAsleep q s) = some t) := by
  unfold sleepOn at ran
  split at ran
  · exact Or.inl (Option.some.inj ran).symm
  · split at ran
    · cases ran
    · next awake => exact Or.inr ⟨awake, ran⟩

/-- The local `tmp` of the current task's `sleep_on` goes out of scope. -/
def finished (s : SchedState) : SchedState :=
  { s with saved := Function.update s.saved s.current none }

theorem sleepOnReturn_cases {s t : SchedState} (ran : sleepOnReturn s = some t) :
    (s.saved s.current = some 0 ∧ t = finished s) ∨
      ∃ tmp, tmp ≠ 0 ∧ s.saved s.current = some tmp ∧ t = markRunning tmp (finished s) := by
  obtain ⟨tmp, kept, after⟩ := Option.bind_eq_some_iff.mp ran
  dsimp only at after
  split at after
  · next proper => exact Or.inr ⟨tmp, proper, kept, (Option.some.inj after).symm⟩
  · next null =>
    rw [not_not] at null
    exact Or.inl ⟨null ▸ kept, (Option.some.inj after).symm⟩

/-- The wait pointer is set to `NULL`. -/
def cleared (q : U32) (s : SchedState) : SchedState :=
  { s with waiting := Function.update s.waiting q 0 }

theorem wakeUp_cases (q : U32) (s : SchedState) :
    ((q = 0 ∨ s.waiting q = 0) ∧ wakeUp q s = s) ∨
      (q ≠ 0 ∧ s.waiting q ≠ 0 ∧ wakeUp q s = cleared q (markRunning (s.waiting q) s)) := by
  unfold wakeUp
  split
  · next proper => exact Or.inr ⟨proper.1, proper.2, rfl⟩
  · next idle =>
    refine Or.inl ⟨?_, rfl⟩
    tauto

section MarkRunning

variable (v : U32) (s : SchedState) (x : U32)

@[simp] theorem markRunning_current : (markRunning v s).current = s.current := rfl

theorem markRunning_state :
    ((markRunning v s).tasks x).state = if x = v then .running else (s.tasks x).state := by
  unfold markRunning
  rw [modify_apply]
  split <;> rfl

theorem markRunning_next : ((markRunning v s).tasks x).next = (s.tasks x).next := by
  unfold markRunning
  exact modify_keeps _ _ x _ Task.next (by rfl)

end MarkRunning

end BlessOS.Guarantees.SchedSteps
