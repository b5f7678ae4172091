import BlessOS.Guarantees.SingleRunning

/-!
# The task list of a run

`new_task` is the only call that changes a link: it copies `task0`, link included, and
then splices the copy in behind the current task. So the list of any run is a chain of
`task0` and the tasks created so far, each once, and the current task is on it; the loops
of `schedule` and `do_timer` end and consider all of them.
-/

set_option autoImplicit false

namespace BlessOS.Guarantees.TaskListIntegrity
open BlessOS.Lib.LinkedChain BlessOS.Lib.Transition
open BlessOS.Source BlessOS.Source.Sched BlessOS.Guarantees.SchedSteps
open BlessOS.Guarantees.SingleRunning

variable {s t : SchedState} {tasks : List U32}

/-- `new_task` is given a structure that is not on the list. -/
def Fresh (s : SchedState) : SchedCall → Prop
  | .newTask task _ _ _ => task ≠ 0 ∧ ∀ tasks, TaskList s tasks → task ∉ tasks
  | .tick | .schedule | .sleepOn _ | .sleepOnReturn | .wakeUp _ => True

/-- The structures given to `new_task`. -/
def created (calls : List SchedCall) : List U32 :=
  calls.filterMap fun
    | .newTask task _ _ _ => some task
    | .tick | .schedule | .sleepOn _ | .sleepOnReturn | .wakeUp _ => none

/-- The list holds exactly these tasks, and the current one is among them. -/
structure Holds (s : SchedState) (members : List U32) : Prop where
  list : ∃ tasks, TaskList s tasks ∧ tasks.Perm members
  current : s.current ∈ members

/-! ## One step -/

/-- A call that changes no link keeps the list, if it stays on it. -/
theorem Holds.relinked {members : List U32} (held : Holds s members) (first : t.task0 = s.task0)
    (next : ∀ x, (t.tasks x).next = (s.tasks x).next) (current : t.current ∈ members) :
    Holds t members := by
  obtain ⟨tasks, list, perm⟩ := held.list
  refine ⟨⟨tasks, ?_, perm⟩, current⟩
  unfold TaskList
  rw [first]
  exact list.congr fun x _ => next x

theorem Holds.schedule {members : List U32} (held : Holds s members) (ran : schedule s = some t) :
    Holds t members := by
  obtain ⟨tasks, list, perm⟩ := held.list
  obtain ⟨list', member⟩ := list.schedule (perm.mem_iff.mpr held.current) ran
  exact ⟨⟨tasks, list', perm⟩, perm.mem_iff.mp member⟩

/-- A fresh task comes behind the current one. -/
theorem Holds.newTask {members : List U32} (held : Holds s members) {task : U32} (proper : task ≠ 0)
    (fresh : ∀ tasks, TaskList s tasks → task ∉ tasks) (eip sp0 sp3 : U32) :
    Holds (newTask task eip sp0 sp3 s) (members ++ [task]) := by
  obtain ⟨tasks, list, perm⟩ := held.list
  obtain ⟨before, after, rfl⟩ := List.append_of_mem (perm.mem_iff.mpr held.current)
  refine ⟨⟨_, newTask_taskList task eip sp0 sp3 proper list (fresh _ list), ?_⟩, ?_⟩
  · have spliced : (before ++ [s.current] ++ task :: after).Perm
        (task :: (before ++ [s.current] ++ after)) := List.perm_middle
    rw [List.append_assoc, List.append_assoc, List.singleton_append, List.singleton_append] at spliced
    exact (spliced.trans (perm.cons task)).trans (List.perm_append_singleton task members).symm
  · exact List.mem_append_left _ held.current

theorem Holds.step {members : List U32} {call : SchedCall} (held : Holds s members)
    (fresh : Fresh s call) (next : step s call t) : Holds t (members ++ created [call]) := by
  cases call with
  | tick =>
    obtain ⟨u, aged, ran⟩ := doTimer_cases next
    have kept := held.relinked aged.task0 aged.next (aged.current ▸ held.current)
    exact (List.append_nil members).symm ▸ kept.schedule ran
  | schedule => exact (List.append_nil members).symm ▸ held.schedule next
  | sleepOn q =>
    refine (List.append_nil members).symm ▸ ?_
    rcases sleepOn_cases next with rfl | ⟨-, ran⟩
    · exact held
    · have kept : Holds (fallAsleep q s) members :=
        held.relinked rfl (fallAsleep_next q s) held.current
      exact kept.schedule ran
  | sleepOnReturn =>
    refine (List.append_nil members).symm ▸ ?_
    rcases sleepOnReturn_cases next with ⟨-, rfl⟩ | ⟨tmp, -, -, rfl⟩
    · exact held.relinked rfl (fun _ => rfl) held.current
    · exact held.relinked rfl (markRunning_next tmp (finished s)) held.current
  | wakeUp q =>
    refine (List.append_nil members).symm ▸ ?_
    cases next
    rcases wakeUp_cases q s with ⟨-, same⟩ | ⟨-, -, same⟩
    · rw [same]
      exact held
    · rw [same]
      exact held.relinked rfl (markRunning_next _ s) held.current
  | newTask task eip sp0 sp3 =>
    cases next
    exact held.newTask fresh.1 fresh.2 eip sp0 sp3

/-! ## Runs -/

theorem created_snoc (calls : List SchedCall) (call : SchedCall) :
    created (calls ++ [call]) = created calls ++ created [call] :=
  List.filterMap_append

theorem step_task0 {call : SchedCall} (next : step s call t) : t.task0 = s.task0 := by
  have scheduled : ∀ {r u : SchedState}, Sched.schedule r = some u → u.task0 = r.task0 := by
    intro r u ran
    rcases schedule_cases ran with rfl | ⟨best, -, -, -, rfl⟩
    · rfl
    · rfl
  cases call with
  | tick =>
    obtain ⟨u, aged, ran⟩ := doTimer_cases next
    exact (scheduled ran).trans aged.task0
  | schedule => exact scheduled next
  | sleepOn q =>
    rcases sleepOn_cases next with rfl | ⟨-, ran⟩
    · rfl
    · exact (scheduled ran).trans rfl
  | sleepOnReturn =>
    rcases sleepOnReturn_cases next with ⟨-, rfl⟩ | ⟨tmp, -, -, rfl⟩ <;> rfl
  | wakeUp q =>
    cases next
    rcases wakeUp_cases q s with ⟨-, same⟩ | ⟨-, -, same⟩
    · rw [same]
    · rw [same]
      rfl
  | newTask task eip sp0 sp3 =>
    cases next
    rfl

theorem Holds.after {calls : List SchedCall} (held : Holds s [s.task0])
    (run : GuardedRun SchedSteps.step Fresh s calls t) :
    t.task0 = s.task0 ∧ Holds t (s.task0 :: created calls) := by
  induction run with
  | nil => exact ⟨rfl, held⟩
  | snoc before fresh next ih =>
    obtain ⟨same, kept⟩ := ih
    refine ⟨(step_task0 next).trans same, ?_⟩
    rw [created_snoc]
    exact kept.step fresh next

/-- In every run from the list of `task0` alone, the list ends, meets `task0` and each
created task once, and has the current task on it. The loops over it end and consider
every task. -/
theorem taskList_integrity {calls : List SchedCall} (alone : TaskList s [s.task0])
    (current : s.current = s.task0) (run : GuardedRun step Fresh s calls t) :
    ∃ tasks, TaskList t tasks ∧ tasks.Nodup ∧ tasks.Perm (t.task0 :: created calls) ∧
      t.current ∈ tasks ∧
      select t = some (tasks.foldl (pick t.tasks) (0, (t.tasks t.current).priority.toNat)) ∧
      traverse 0 (fun (r : SchedState) v => (r.tasks v).next) age listBound t.task0 (ticked t) =
        some (tasks.foldl age (ticked t)) ∧
      (∃ u, schedule t = some u) ∧ ∃ u, doTimer t = some u := by
  have held : Holds s [s.task0] := ⟨⟨_, alone, List.Perm.refl _⟩, List.mem_singleton.mpr current⟩
  obtain ⟨same, list, member⟩ := held.after run
  obtain ⟨tasks, list, perm⟩ := list
  exact ⟨tasks, list, list.nodup, same ▸ perm, perm.mem_iff.mpr member, select_eq list,
    ageing_eq list, schedule_returns list, doTimer_returns list⟩

/-- Two tasks are created, the second when the first has the processor. -/
theorem taskList_integrity_image : ∃ t tasks,
    GuardedRun step Fresh image [.newTask 0x2000 0 0 0, .tick, .newTask 0x3000 0 0 0] t ∧
    TaskList t tasks ∧ tasks.Perm [t.task0, 0x2000, 0x3000] := by
  have fresh : ∀ {s : SchedState} {listed : List U32} {task : U32}, TaskList s listed → task ≠ 0 →
      task ∉ listed → Fresh s (.newTask task 0 0 0) := by
    intro s listed task list proper absent
    exact ⟨proper, fun tasks list' => list'.unique list ▸ absent⟩
  have ran : (execAll [.newTask 0x2000 0 0 0, .tick] image).map (fun s =>
      decide (TaskList s [0x1000, 0x2000])) = some true := by decide +kernel
  obtain ⟨s, reached, facts⟩ := Option.map_eq_some_iff.mp ran
  have list : TaskList s [0x1000, 0x2000] := of_decide_eq_true facts
  have run : GuardedRun step Fresh image [.newTask 0x2000 0 0 0, .tick] s := by
    rw [execAll, List.foldlM_cons] at reached
    obtain ⟨u, first, second⟩ := Option.bind_eq_some_iff.mp reached
    have one : GuardedRun step Fresh image [.newTask 0x2000 0 0 0] u :=
      .snoc (.nil image) (fresh (by decide : TaskList image [0x1000]) (by decide) (by decide)) first
    obtain ⟨v, ticks, last⟩ := Option.bind_eq_some_iff.mp second
    cases last
    exact .snoc one trivial ticks
  have run' : GuardedRun step Fresh image [.newTask 0x2000 0 0 0, .tick, .newTask 0x3000 0 0 0]
      (newTask 0x3000 0 0 0 s) :=
    .snoc run (fresh list (by decide) (by decide)) rfl
  obtain ⟨tasks, list', -, perm, -⟩ := taskList_integrity (by decide) rfl run'
  exact ⟨_, tasks, run', list', perm⟩

end BlessOS.Guarantees.TaskListIntegrity
