import BlessOS.Guarantees.SchedSteps

/-!
# A single running task, and what breaks it

`wake_up` and the end of `sleep_on` set the task they wake to `TS_RUNNING`, not
to `TS_RUNABLE`, although only the current task runs and `schedule` only selects
runnable tasks. A run keeps one running task exactly as long as no call wakes a
task other than the caller.
-/

set_option autoImplicit false

namespace BlessOS.Guarantees.SingleRunning
open BlessOS.Lib.LinkedChain BlessOS.Lib.Transition
open BlessOS.Source BlessOS.Source.Sched BlessOS.Guarantees.SchedSteps

/-- The list of the kernel image: `task0` alone, running, nobody asleep. -/
structure Initial (s : SchedState) : Prop where
  proper : s.task0 ≠ 0
  current : s.current = s.task0
  alone : (s.tasks s.task0).next = 0
  running : (s.tasks s.task0).state = .running
  waiting : ∀ q, s.waiting q = 0
  saved : ∀ v, s.saved v = none

/-- The tasks a walk from `task0` meets. -/
def onList (s : SchedState) : Option (List U32) :=
  traverse 0 (fun _ v => (s.tasks v).next) (fun met v => met ++ [v]) listBound s.task0 []

/-- A task inside `sleep_on` makes no other call before it has finished it, and
`new_task` is given a structure that is not in use. -/
def Admitted (s : SchedState) : SchedCall → Prop
  | .tick | .schedule | .sleepOnReturn => True
  | .sleepOn _ | .wakeUp _ => s.saved s.current = none
  | .newTask task _ _ _ => s.saved s.current = none ∧ task ≠ 0 ∧
      (onList s).any (fun tasks => task ∉ tasks)

instance (s : SchedState) : DecidablePred (Admitted s)
  | .tick | .schedule | .sleepOnReturn => inferInstanceAs (Decidable True)
  | .sleepOn _ | .wakeUp _ => inferInstanceAs (Decidable (s.saved s.current = none))
  | .newTask task _ _ _ => inferInstanceAs (Decidable (s.saved s.current = none ∧ task ≠ 0 ∧
      (onList s).any (fun tasks => task ∉ tasks)))

def admittedExec (s : SchedState) (call : SchedCall) : Option SchedState :=
  if Admitted s call then call.exec s else none

def admittedStep (s : SchedState) (call : SchedCall) (t : SchedState) : Prop :=
  admittedExec s call = some t

/-- The call wakes nobody but the current task. -/
def WakesOnlyCurrent (s : SchedState) : SchedCall → Prop
  | .wakeUp task => task = 0 ∨ s.waiting task = 0 ∨ s.waiting task = s.current
  | .sleepOnReturn => s.saved s.current = some 0 ∨ s.saved s.current = some s.current
  | .tick | .schedule | .sleepOn _ | .newTask _ _ _ _ => True

instance (s : SchedState) : DecidablePred (WakesOnlyCurrent s)
  | .wakeUp task => inferInstanceAs
      (Decidable (task = 0 ∨ s.waiting task = 0 ∨ s.waiting task = s.current))
  | .sleepOnReturn => inferInstanceAs
      (Decidable (s.saved s.current = some 0 ∨ s.saved s.current = some s.current))
  | .tick | .schedule | .sleepOn _ | .newTask _ _ _ _ => inferInstanceAs (Decidable True)

/-- Of the listed tasks only the current one is running, and the others that are
not asleep can be selected. -/
structure OneRunning (s : SchedState) (tasks : List U32) : Prop where
  running : ∀ v ∈ tasks, (s.tasks v).state = .running → v = s.current
  runable : ∀ v ∈ tasks, v ≠ s.current → (s.tasks v).state ≠ .uninterruptible →
    (s.tasks v).state = .runable

/-- `OneRunning` with what carries it through a run. -/
structure Orderly (s : SchedState) (tasks : List U32) : Prop where
  list : TaskList s tasks
  current : s.current ∈ tasks
  mine : (s.tasks s.current).state = .running ∨ (s.tasks s.current).state = .uninterruptible
  others : ∀ v ∈ tasks, v ≠ s.current →
    (s.tasks v).state = .runable ∨ (s.tasks v).state = .uninterruptible
  waits : ∀ q, s.waiting q = 0 ∨ s.waiting q ∈ tasks
  saves : ∀ v tmp, s.saved v = some tmp → tmp = 0 ∨ tmp ∈ tasks

variable {s t : SchedState} {tasks : List U32}

theorem Orderly.oneRunning (orderly : Orderly s tasks) : OneRunning s tasks where
  running v member running := by
    by_contra other
    rcases orderly.others v member other with state | state <;> rw [state] at running <;> cases running
  runable v member other awake := (orderly.others v member other).resolve_right awake

theorem Initial.orderly (initial : Initial s) : Orderly s [s.task0] where
  list := ⟨rfl, initial.proper, initial.alone⟩
  current := by simp [initial.current]
  mine := Or.inl (by rw [initial.current, initial.running])
  others v member other := absurd ((List.mem_singleton.mp member).trans initial.current.symm) other
  waits q := Or.inl (initial.waiting q)
  saves v tmp kept := by simp [initial.saved v] at kept

/-! ## One step -/

theorem Orderly.schedule (orderly : Orderly s tasks) (ran : schedule s = some t) :
    Orderly t tasks := by
  have kept := orderly.list.schedule orderly.current ran
  rcases schedule_cases ran with rfl | ⟨⟨v, cp⟩, found, proper, other, rfl⟩
  · exact orderly
  · refine ⟨kept.1, kept.2, ?_, ?_, orderly.waits, orderly.saves⟩
    · exact Or.inl (by rw [switchTo_current, switchTo_state, if_pos rfl])
    · intro x listed apart
      rw [switchTo_current] at apart
      rw [switchTo_state, if_neg apart]
      by_cases old : x = s.current
      · rcases orderly.mine with state | state
        · exact Or.inl (by rw [if_pos ⟨old, old ▸ state⟩])
        · exact Or.inr (by rw [if_neg (by simp [old, state]), old, state])
      · rw [if_neg (by simp [old])]
        exact orderly.others x listed old

theorem Orderly.aged (orderly : Orderly s tasks) (aged : AgedFrom s t) : Orderly t tasks where
  list := aged.taskList orderly.list
  current := aged.current ▸ orderly.current
  mine := by rw [aged.current, aged.state]; exact orderly.mine
  others v member other := by
    rw [aged.current] at other
    rw [aged.state]
    exact orderly.others v member other
  waits q := aged.waiting ▸ orderly.waits q
  saves v tmp kept := orderly.saves v tmp (aged.saved ▸ kept)

theorem Orderly.fallAsleep (orderly : Orderly s tasks) (q : U32) :
    Orderly (fallAsleep q s) tasks where
  list := orderly.list.congr fun x _ => fallAsleep_next q s x
  current := orderly.current
  mine := Or.inr ((fallAsleep_state q s _).trans (if_pos rfl))
  others v member other := by
    rw [fallAsleep_current] at other
    rw [fallAsleep_state, if_neg other]
    exact orderly.others v member other
  waits p := by
    rw [fallAsleep_waiting, Function.update_apply]
    split
    · exact Or.inr orderly.current
    · exact orderly.waits p
  saves v tmp kept := by
    rw [fallAsleep_saved, Function.update_apply] at kept
    split at kept
    · exact Option.some.inj kept ▸ orderly.waits q
    · exact orderly.saves v tmp kept

/-- Waking the current task. -/
theorem Orderly.wakeCurrent (orderly : Orderly s tasks) :
    Orderly (markRunning s.current s) tasks where
  list := orderly.list.congr fun x _ => markRunning_next _ s x
  current := orderly.current
  mine := Or.inl ((markRunning_state _ s _).trans (if_pos rfl))
  others v member other := by
    rw [markRunning_current] at other
    rw [markRunning_state, if_neg other]
    exact orderly.others v member other
  waits := orderly.waits
  saves := orderly.saves

theorem Orderly.cleared (orderly : Orderly s tasks) (q : U32) : Orderly (cleared q s) tasks :=
  { orderly with
    waits := fun p => by
      unfold SchedSteps.cleared
      dsimp only
      rw [Function.update_apply]
      split
      · exact Or.inl rfl
      · exact orderly.waits p }

theorem Orderly.finished (orderly : Orderly s tasks) : Orderly (finished s) tasks :=
  { orderly with
    saves := fun v tmp kept => by
      unfold SchedSteps.finished at kept
      dsimp only at kept
      rw [Function.update_apply] at kept
      split at kept
      · cases kept
      · exact orderly.saves v tmp kept }

theorem onList_eq (list : TaskList s tasks) : onList s = some tasks := by
  have ended : traverse 0 (fun _ v => (s.tasks v).next) (fun met v => met ++ [v]) listBound s.task0
      ([] : List U32) = some (tasks.foldl (fun met v => met ++ [v]) []) := by
    apply traverse_eq_foldl
    · intro met v x
      rfl
    · exact list
    · exact list.length_lt
  rw [onList, ended, List.foldl_append_eq_append, List.nil_append]
  exact congrArg some (List.flatMap_singleton' tasks)

theorem Orderly.newTask (orderly : Orderly s tasks) {task : U32} (proper : task ≠ 0)
    (fresh : task ∉ tasks) (eip sp0 sp3 : U32) :
    ∃ tasks', Orderly (newTask task eip sp0 sp3 s) tasks' := by
  obtain ⟨before, after, rfl⟩ := List.append_of_mem orderly.current
  have apart : task ≠ s.current := fun same => fresh (by simp [same])
  have grown : ∀ v, v ∈ before ++ s.current :: task :: after ↔
      v = task ∨ v ∈ before ++ s.current :: after := by
    intro v
    simp only [List.mem_append, List.mem_cons]
    tauto
  refine ⟨_, newTask_taskList task eip sp0 sp3 proper orderly.list fresh, ?_, ?_, ?_, ?_, ?_⟩
  · exact (grown _).mpr (Or.inr orderly.current)
  · have same : (Sched.newTask task eip sp0 sp3 s).current = s.current := rfl
    rw [same, newTask_state, if_neg apart.symm]
    exact orderly.mine
  · intro v member other
    rw [newTask_state]
    split
    · exact Or.inl rfl
    · next old => exact orderly.others v (((grown v).mp member).resolve_left old) other
  · exact fun q => (orderly.waits q).imp_right fun member => (grown _).mpr (Or.inr member)
  · exact fun v tmp kept => (orderly.saves v tmp kept).imp_right fun member =>
      (grown _).mpr (Or.inr member)

/-- An admitted call that wakes nobody else keeps the list orderly. -/
theorem Orderly.step {call : SchedCall} (orderly : Orderly s tasks)
    (harmless : WakesOnlyCurrent s call) (next : admittedStep s call t) :
    ∃ tasks', Orderly t tasks' := by
  unfold admittedStep admittedExec at next
  split at next
  case isFalse => cases next
  case isTrue admitted =>
  cases call with
  | tick =>
    obtain ⟨u, aged, scheduled⟩ := doTimer_cases next
    exact ⟨tasks, (orderly.aged aged).schedule scheduled⟩
  | schedule => exact ⟨tasks, orderly.schedule next⟩
  | sleepOn q =>
    rcases sleepOn_cases next with rfl | ⟨-, scheduled⟩
    · exact ⟨tasks, orderly⟩
    · exact ⟨tasks, (orderly.fallAsleep q).schedule scheduled⟩
  | sleepOnReturn =>
    rcases sleepOnReturn_cases next with ⟨-, rfl⟩ | ⟨tmp, proper, kept, rfl⟩
    · exact ⟨tasks, orderly.finished⟩
    · have mine : tmp = s.current := by
        rcases harmless with null | self
        · exact absurd (Option.some.inj (kept.symm.trans null)) proper
        · exact Option.some.inj (kept.symm.trans self)
      exact ⟨tasks, mine ▸ orderly.finished.wakeCurrent⟩
  | wakeUp q =>
    cases next
    rcases wakeUp_cases q s with ⟨-, same⟩ | ⟨proper, occupied, same⟩
    · rw [same]
      exact ⟨tasks, orderly⟩
    · have mine : s.waiting q = s.current := (harmless.resolve_left proper).resolve_left occupied
      rw [same, mine]
      exact ⟨tasks, orderly.wakeCurrent.cleared q⟩
  | newTask task eip sp0 sp3 =>
    cases next
    obtain ⟨-, proper, fresh⟩ := admitted
    rw [onList_eq orderly.list] at fresh
    exact orderly.newTask proper (by simpa using fresh) eip sp0 sp3

/-- A call that wakes another task leaves two tasks running. -/
theorem Orderly.broken {call : SchedCall} (orderly : Orderly s tasks)
    (harmful : ¬ WakesOnlyCurrent s call) (next : admittedStep s call t) {tasks' : List U32}
    (list : TaskList t tasks') : ¬ OneRunning t tasks' := by
  unfold admittedStep admittedExec at next
  split at next
  case isFalse => cases next
  case isTrue admitted =>
  intro one
  cases call with
  | tick => exact harmful trivial
  | schedule => exact harmful trivial
  | sleepOn q => exact harmful trivial
  | newTask task eip sp0 sp3 => exact harmful trivial
  | sleepOnReturn =>
    rcases sleepOnReturn_cases next with ⟨null, rfl⟩ | ⟨tmp, proper, kept, rfl⟩
    · exact harmful (Or.inl null)
    · have same : tasks' = tasks := list.unique
        (orderly.list.congr fun x _ => markRunning_next tmp (SchedSteps.finished s) x)
      have listed : tmp ∈ tasks' := same ▸ (orderly.saves _ tmp kept).resolve_left proper
      have mine := one.running tmp listed ((markRunning_state _ _ _).trans (if_pos rfl))
      exact harmful (Or.inr (kept.trans (congrArg some mine)))
  | wakeUp q =>
    cases next
    rcases wakeUp_cases q s with ⟨idle, -⟩ | ⟨proper, occupied, same⟩
    · exact harmful (idle.imp_right Or.inl)
    · rw [same] at list one
      have same : tasks' = tasks := list.unique
        (orderly.list.congr fun x _ => markRunning_next (s.waiting q) s x)
      have listed : s.waiting q ∈ tasks' := same ▸ (orderly.waits q).resolve_left occupied
      have mine := one.running _ listed ((markRunning_state _ _ _).trans (if_pos rfl))
      exact harmful (Or.inr (Or.inr mine))

/-! ## Runs -/

/-- In every run from the initial list whose calls wake nobody but the caller, the
current task is the only running one in every state, and the other tasks that are
not asleep can be scheduled. The next call keeps it so exactly when it, too, wakes
nobody but the caller. -/
theorem one_running_of_wakes_only_current {calls : List SchedCall} (initial : Initial s)
    (run : GuardedRun admittedStep WakesOnlyCurrent s calls t) :
    ∃ tasks, TaskList t tasks ∧ t.current ∈ tasks ∧ OneRunning t tasks ∧
      ∀ call u, admittedStep t call u →
        (WakesOnlyCurrent t call ↔ ∃ after, TaskList u after ∧ OneRunning u after) := by
  obtain ⟨tasks, orderly⟩ := run.invariant (fun u => ∃ tasks, Orderly u tasks)
    (fun u call v ⟨tasks, orderly⟩ harmless next => orderly.step harmless next)
    ⟨_, initial.orderly⟩
  refine ⟨tasks, orderly.list, orderly.current, orderly.oneRunning, fun call u next => ?_⟩
  constructor
  · intro harmless
    obtain ⟨after, kept⟩ := orderly.step harmless next
    exact ⟨after, kept.list, kept.oneRunning⟩
  · rintro ⟨after, list, one⟩
    by_contra harmful
    exact orderly.broken harmful next list one

/-- `task0` at an address of its own, before `new_task` has been called. -/
def image : SchedState where
  task0 := 0x1000
  tasks _ :=
    { tss := ⟨0, 0, 0, 0⟩, tssEntry := fun _ => 0, priority := initialPrio, state := .running,
      ldtEntry := fun _ => 0, next := 0 }
  current := 0x1000
  gdt := fun _ _ => 0
  waiting := fun _ => 0
  saved := fun _ => none
  timerTicks := 0

theorem image_initial : Initial image :=
  ⟨by decide, rfl, rfl, rfl, fun _ => rfl, fun _ => rfl⟩

/-- A task falls asleep and is switched away from; nobody is woken. -/
theorem one_running_of_wakes_only_current_image :
    ∃ t tasks, GuardedRun admittedStep WakesOnlyCurrent image
      [.newTask 0x2000 0 0 0, .tick, .sleepOn 0x500] t ∧ t.current = 0x1000 ∧
      TaskList t tasks ∧ OneRunning t tasks := by
  have ran : ([.newTask 0x2000 0 0 0, .tick, .sleepOn 0x500].foldlM (fun s call =>
      if WakesOnlyCurrent s call then admittedExec s call else none) image).map (·.current) =
      some 0x1000 := by decide +kernel
  obtain ⟨t, ran, current⟩ := Option.map_eq_some_iff.mp ran
  have run : GuardedRun admittedStep WakesOnlyCurrent image
      [.newTask 0x2000 0 0 0, .tick, .sleepOn 0x500] t := by
    refine GuardedRun.of_foldlM (fun s a u next => ?_) _ ran
    split at next
    · next harmless => exact ⟨harmless, next⟩
    · cases next
  obtain ⟨tasks, list, -, one, -⟩ := one_running_of_wakes_only_current image_initial run
  exact ⟨t, tasks, run, current, list, one⟩

/-- `wake_up` by one task of a sleeper it was switched to from leaves both running. -/
theorem wakeUp_two_running : ∃ s calls t tasks, Initial s ∧ GuardedRun admittedStep always s calls t ∧
    TaskList t tasks ∧ ∃ v ∈ tasks, (t.tasks v).state = .running ∧ v ≠ t.current := by
  have ran : ([.newTask 0x2000 0 0 0, .newTask 0x3000 0 0 0, .tick, .sleepOn 0x500,
      .wakeUp 0x500].foldlM admittedExec image).map (fun t =>
        decide (TaskList t [0x1000, 0x3000, 0x2000] ∧ (t.tasks 0x3000).state = .running ∧
          0x3000 ≠ t.current)) = some true := by decide +kernel
  obtain ⟨t, ran, broken⟩ := Option.map_eq_some_iff.mp ran
  obtain ⟨list, running, other⟩ := of_decide_eq_true broken
  exact ⟨image, _, t, _, image_initial,
    GuardedRun.of_foldlM (fun _ _ _ next => ⟨trivial, next⟩) _ ran, list, 0x3000, by simp, running,
    other⟩

end BlessOS.Guarantees.SingleRunning
