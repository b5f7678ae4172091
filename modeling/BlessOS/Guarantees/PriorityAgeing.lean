import BlessOS.Guarantees.SingleRunning

/-!
# What a tick does to the priorities

`do_timer` takes 30 from a running task's priority and adds 10 to the others'. Both
are done in eight bits before the result is looked at, so a running task below 30 and
a waiting one above 245 are thrown to the other end of the scale. Elsewhere a tick
lowers the one and raises the others, and so does every run of such ticks.
-/

set_option autoImplicit false

namespace BlessOS.Guarantees.PriorityAgeing
open BlessOS.Lib.Transition
open BlessOS.Source BlessOS.Source.Sched BlessOS.Guarantees.SchedSteps
open BlessOS.Guarantees.SingleRunning

variable {s t u : SchedState} {tasks : List U32} {v r : U32}

/-! ## One tick -/

/-- The ageing loop changes the priority of each task once. -/
theorem foldl_age (nodup : tasks.Nodup) (s : SchedState) (v : U32) :
    ((tasks.foldl age s).tasks v).priority =
      if v ∈ tasks then agedPriority (s.tasks v) else (s.tasks v).priority := by
  induction tasks generalizing s with
  | nil => rfl
  | cons x rest ih =>
    obtain ⟨absent, nodup⟩ := List.nodup_cons.mp nodup
    rw [List.foldl_cons, ih nodup (age s x)]
    have aged : (age s x).tasks v =
        if v = x then { s.tasks x with priority := agedPriority (s.tasks x) } else s.tasks v :=
      modify_apply s x v _
    by_cases here : v = x
    · subst here
      rw [if_neg absent, aged, if_pos rfl, if_pos List.mem_cons_self]
    · rw [aged, if_neg here]
      simp only [List.mem_cons, here, false_or]

/-- A tick leaves every task of the list with its aged priority. -/
theorem tick_priority (list : TaskList s tasks) (ran : doTimer s = some t) (member : v ∈ tasks) :
    (t.tasks v).priority = agedPriority (s.tasks v) := by
  have aged : ((tasks.foldl age (ticked s)).tasks v).priority = agedPriority (s.tasks v) :=
    (foldl_age list.nodup (ticked s) v).trans (if_pos member)
  rw [doTimer_eq list] at ran
  rcases schedule_cases ran with rfl | ⟨best, -, -, -, rfl⟩
  · exact aged
  · rw [switchTo_priority]
    exact aged

/-- The running task sinks to zero at most, the others rise to 255 at most. -/
structure AgesMonotonically (s t : SchedState) (tasks : List U32) : Prop where
  running : ∀ v ∈ tasks, (s.tasks v).state = .running → prio t v = max (prio s v - 30) 0
  waiting : ∀ v ∈ tasks, (s.tasks v).state ≠ .running → prio t v = min (prio s v + 10) 255

/-- Eight bits are enough for the priorities of the next tick. -/
structure NoWrap (s : SchedState) (tasks : List U32) : Prop where
  running : ∀ v ∈ tasks, (s.tasks v).state = .running → 30 ≤ prio s v
  waiting : ∀ v ∈ tasks, (s.tasks v).state ≠ .running → prio s v ≤ 245

theorem agedPriority_running {task : Task} (running : task.state = .running) :
    (agedPriority task).toNat = max (task.priority.toNat - 30) 0 ↔ 30 ≤ task.priority.toNat := by
  unfold agedPriority
  rw [if_pos running]
  dsimp only
  split <;> bv_omega

theorem agedPriority_waiting {task : Task} (waiting : task.state ≠ .running) :
    (agedPriority task).toNat = min (task.priority.toNat + 10) 255 ↔
      task.priority.toNat ≤ 245 := by
  unfold agedPriority
  rw [if_neg waiting]
  bv_omega

theorem tick_monotone_iff (list : TaskList s tasks) (ran : doTimer s = some t) :
    AgesMonotonically s t tasks ↔ NoWrap s tasks := by
  have aged : ∀ v ∈ tasks, prio t v = (agedPriority (s.tasks v)).toNat := fun v member =>
    congrArg BitVec.toNat (tick_priority list ran member)
  constructor
  · rintro ⟨running, waiting⟩
    refine ⟨fun v member state => ?_, fun v member state => ?_⟩
    · exact (agedPriority_running state).mp ((aged v member).symm.trans (running v member state))
    · exact (agedPriority_waiting state).mp ((aged v member).symm.trans (waiting v member state))
  · rintro ⟨running, waiting⟩
    refine ⟨fun v member state => ?_, fun v member state => ?_⟩
    · exact (aged v member).trans ((agedPriority_running state).mpr (running v member state))
    · exact (aged v member).trans ((agedPriority_waiting state).mpr (waiting v member state))

/-! ## Runs of ticks -/

def tickStep (s : SchedState) (_ : Unit) (t : SchedState) : Prop := doTimer s = some t

/-- The next tick finds `v` waiting and `r` running, and does not wrap. -/
def Waits (tasks : List U32) (v r : U32) (s : SchedState) (_ : Unit) : Prop :=
  NoWrap s tasks ∧ (s.tasks v).state ≠ .running ∧ (s.tasks r).state = .running

/-- A tick changes priorities as it should exactly when none wraps; and in every run of
such ticks a task that waits keeps its place in front of one that runs. -/
theorem ageing_monotone_iff (list : TaskList s tasks) :
    (∃ t, doTimer s = some t ∧ (AgesMonotonically s t tasks ↔ NoWrap s tasks)) ∧
    ∀ v ∈ tasks, ∀ r ∈ tasks, ∀ ticks u, GuardedRun tickStep (Waits tasks v r) s ticks u →
      prio s v ≤ prio u v ∧ prio u r ≤ prio s r ∧
      (prio s r ≤ prio s v → prio u r ≤ prio u v) ∧ (prio s r < prio s v → prio u r < prio u v) := by
  obtain ⟨t, ran⟩ := doTimer_returns list
  refine ⟨⟨t, ran, tick_monotone_iff list ran⟩, fun v waits r runs ticks u run => ?_⟩
  obtain ⟨-, rises, sinks⟩ := run.invariant
    (fun u => TaskList u tasks ∧ prio s v ≤ prio u v ∧ prio u r ≤ prio s r)
    (fun a _ b ⟨kept, rises, sinks⟩ ⟨noWrap, waiting, running⟩ next => by
      have step := (tick_monotone_iff kept next).mpr noWrap
      have up := step.waiting v waits waiting
      have down := step.running r runs running
      have high := noWrap.waiting v waits waiting
      exact ⟨kept.tick next, by omega, by omega⟩)
    ⟨list, Nat.le_refl _, Nat.le_refl _⟩
  exact ⟨rises, sinks, fun behind => by omega, fun behind => by omega⟩

/-- The first tick takes `task0` from 200 to 170. -/
theorem ageing_monotone_image :
    ∃ t, doTimer image = some t ∧ AgesMonotonically image t [0x1000] := by
  have list : TaskList image [0x1000] := by decide
  obtain ⟨⟨t, ran, monotone⟩, -⟩ := ageing_monotone_iff list
  refine ⟨t, ran, monotone.mpr ⟨fun v member state => ?_, fun v member state => ?_⟩⟩
  · exact (by decide : 30 ≤ initialPrio.toNat)
  · exact absurd rfl state

/-- A task that has run down to 20 is at 246 after the next tick, far in front of the one
that waits for it. -/
theorem tick_raises_running : ∃ calls s tasks t, GuardedRun step always image calls s ∧
    TaskList s tasks ∧ doTimer s = some t ∧
    ∃ v ∈ tasks, (s.tasks v).state = .running ∧ prio s v < prio t v := by
  let calls : List SchedCall := .newTask 0x2000 0 0 0 :: List.replicate 18 .tick
  have ran : (execAll calls image).map (fun s => decide (TaskList s [0x1000, 0x2000] ∧
      (s.tasks 0x2000).state = .running ∧ prio s 0x2000 = 20 ∧
      (doTimer s).map (fun t => prio t 0x2000) = some 246)) = some true := by decide +kernel
  obtain ⟨s, reached, facts⟩ := Option.map_eq_some_iff.mp ran
  obtain ⟨list, state, before, after⟩ := of_decide_eq_true facts
  obtain ⟨t, ticks, raised⟩ := Option.map_eq_some_iff.mp after
  refine ⟨calls, s, _, t, run_of_execAll reached, list, ticks, 0x2000, by simp, state, ?_⟩
  rw [before, raised]
  decide

end BlessOS.Guarantees.PriorityAgeing
