import BlessOS.Lib.RunningMax
import BlessOS.Guarantees.SingleRunning

/-!
# Which task `schedule` selects

The selection loop is the scan for a running maximum that begins with the priority of
the current task. So a runnable task is selected when its priority is greater, also
over a current task that sleeps: `sleep_on` lowers the caller's priority to zero, and
loses the processor only if another task's is not zero as well.
-/

set_option autoImplicit false

namespace BlessOS.Guarantees.TaskSelection
open BlessOS.Lib.RunningMax BlessOS.Lib.Transition
open BlessOS.Source BlessOS.Source.Sched BlessOS.Guarantees.SchedSteps
open BlessOS.Guarantees.SingleRunning

variable {s t : SchedState} {tasks : List U32} {v : U32}

def Runable (s : SchedState) (v : U32) : Prop := (s.tasks v).state = .runable

instance (s : SchedState) : DecidablePred (Runable s) := fun v =>
  inferInstanceAs (Decidable ((s.tasks v).state = .runable))

/-- A runnable task of the list has a priority above the current one's. -/
def Contended (s : SchedState) (tasks : List U32) : Prop :=
  ∃ v ∈ tasks, Runable s v ∧ prio s s.current < prio s v

/-! ## `schedule` -/

/-- The selection loop is the scan for the runnable task of the greatest priority. -/
theorem select_scan (list : TaskList s tasks) :
    select s = some (tasks.foldl (keepMax (Runable s) (prio s) id) (0, prio s s.current)) :=
  select_eq list

/-- `schedule` does nothing, or switches to the first of the best tasks. -/
theorem schedule_spec (list : TaskList s tasks) :
    (¬ Contended s tasks ∧ schedule s = some s) ∨
    ∃ v, FirstMax (Runable s) (prio s) tasks v ∧ prio s s.current < prio s v ∧ v ≠ s.current ∧
      schedule s = some (switchTo v s) := by
  have chosen := select_scan list
  rcases foldl_keepMax (Runable s) (prio s) id tasks 0 (prio s s.current) with
    ⟨low, best⟩ | ⟨v, first, above, best⟩ <;> rw [best] at chosen
  · refine Or.inl ⟨?_, ?_⟩
    · rintro ⟨v, member, runable, above⟩
      exact absurd (low v member runable) (Nat.not_le.mpr above)
    · unfold schedule
      rw [chosen]
      rfl
  · have other : v ≠ s.current := by
      rintro rfl
      exact absurd above (Nat.lt_irrefl _)
    have proper : v ≠ 0 := list.ne_null v first.mem
    refine Or.inr ⟨v, first, above, other, ?_⟩
    unfold schedule
    rw [chosen]
    exact if_pos ⟨proper, other⟩

/-- `schedule` switches exactly when a runnable task has a greater priority, then to the
first of those of maximal priority, and changes the states of the two tasks only. -/
theorem schedule_selects (list : TaskList s tasks) :
    ∃ t, schedule s = some t ∧
      (t.current ≠ s.current ↔ ∃ v ∈ tasks, Runable s v ∧ prio s s.current < prio s v) ∧
      (t.current ≠ s.current → FirstMax (Runable s) (prio s) tasks t.current ∧
        (t.tasks t.current).state = .running ∧
        (t.tasks s.current).state =
          if (s.tasks s.current).state = .running then .runable else (s.tasks s.current).state) ∧
      (t.current = s.current → t = s) ∧
      (∀ x, x ≠ s.current → x ≠ t.current → (t.tasks x).state = (s.tasks x).state) ∧
      ∀ x, (t.tasks x).priority = (s.tasks x).priority ∧ (t.tasks x).next = (s.tasks x).next := by
  rcases schedule_spec list with ⟨calm, ran⟩ | ⟨v, first, above, other, ran⟩
  · refine ⟨s, ran, ⟨fun moved => absurd rfl moved, fun some => absurd some calm⟩,
      fun moved => absurd rfl moved, fun _ => rfl, fun _ _ _ => rfl, fun _ => ⟨rfl, rfl⟩⟩
  · refine ⟨switchTo v s, ran, ⟨fun _ => ⟨v, first.mem, first.qualifies, above⟩, fun _ => other⟩,
      fun _ => ⟨first, ?_, ?_⟩, fun same => absurd same other, fun x old new => ?_, fun x => ?_⟩
    · rw [switchTo_current, switchTo_state, if_pos rfl]
    · rw [switchTo_state, if_neg other.symm]
      simp only [true_and]
    · rw [switchTo_current] at new
      rw [switchTo_state, if_neg new, if_neg fun both => old both.1]
    · exact ⟨switchTo_priority v s x, switchTo_next v s x⟩

/-- Three tasks, of which the last two are ahead with equal priorities. -/
def threeTasks : SchedState where
  task0 := 0x1000
  tasks v :=
    { tss := ⟨0, 0, 0, 0⟩, tssEntry := fun _ => 0, priority := if v = 0x1000 then 20 else 210,
      state := if v = 0x1000 then .running else .runable, ldtEntry := fun _ => 0,
      next := if v = 0x1000 then 0x2000 else if v = 0x2000 then 0x3000 else 0 }
  current := 0x1000
  gdt := fun _ _ => 0
  waiting := fun _ => 0
  saved := fun _ => none
  timerTicks := 0

theorem schedule_selects_threeTasks : ∃ t, schedule threeTasks = some t ∧
    FirstMax (Runable threeTasks) (prio threeTasks) [0x1000, 0x2000, 0x3000] t.current ∧
    (t.tasks 0x1000).state = .runable := by
  have list : TaskList threeTasks [0x1000, 0x2000, 0x3000] := by decide
  obtain ⟨t, ran, moves, moved, -⟩ := schedule_selects list
  have other : t.current ≠ threeTasks.current :=
    moves.mpr ⟨0x2000, by simp, by decide, by decide⟩
  obtain ⟨first, -, old⟩ := moved other
  exact ⟨t, ran, first, old⟩

/-! ## `sleep_on` -/

/-- The processor is only given to runnable tasks. -/
theorem schedule_current (ran : schedule s = some t) :
    t.current = s.current ∨ (s.tasks t.current).state = .runable := by
  rcases schedule_cases ran with rfl | ⟨best, found, proper, -, rfl⟩
  · exact Or.inl rfl
  · exact Or.inr (select_runable found proper)

/-- No call gives the processor to a task that is asleep. -/
theorem step_passes {call : SchedCall} (asleep : (s.tasks v).state = .uninterruptible)
    (away : s.current ≠ v) (next : step s call t) : t.current ≠ v := by
  have passes : ∀ {r u : SchedState}, (∀ x, (r.tasks x).state = .runable → (s.tasks x).state = .runable ∨
      x ≠ v) → r.current = s.current → schedule r = some u → u.current ≠ v := by
    intro r u states same ran here
    rcases schedule_current ran with stays | runable
    · exact away (same.symm.trans (stays.symm.trans here))
    · rcases states _ runable with awake | other
      · rw [here, asleep] at awake
        cases awake
      · exact other here
  cases call with
  | tick =>
    obtain ⟨u, aged, ran⟩ := doTimer_cases next
    exact passes (fun x runable => Or.inl (aged.state x ▸ runable)) aged.current ran
  | schedule => exact passes (fun x runable => Or.inl runable) rfl next
  | sleepOn q =>
    rcases sleepOn_cases next with rfl | ⟨-, ran⟩
    · exact away
    · refine passes (fun x runable => ?_) (fallAsleep_current q s) ran
      rw [fallAsleep_state] at runable
      split at runable
      · cases runable
      · exact Or.inl runable
  | sleepOnReturn =>
    rcases sleepOnReturn_cases next with ⟨-, rfl⟩ | ⟨tmp, -, -, rfl⟩ <;> exact away
  | wakeUp q =>
    cases next
    rcases wakeUp_cases q s with ⟨-, same⟩ | ⟨-, -, same⟩ <;> rw [same] <;> exact away
  | newTask task eip sp0 sp3 =>
    cases next
    exact away

/-- `sleep_on` gives the processor to a runnable task, and its caller does not get it
back as long as it is asleep. -/
def Yields (q : U32) (s : SchedState) : Prop :=
  ∃ t, sleepOn q s = some t ∧ t.current ≠ s.current ∧ (s.tasks t.current).state = .runable ∧
    ∀ calls u, GuardedRun step (fun r _ => (r.tasks s.current).state = .uninterruptible) t calls u →
      u.current ≠ s.current

/-- A sleeper loses the processor exactly when another runnable task has a priority
other than zero; if none has, it runs on asleep. -/
theorem sleepOn_yields_iff {q : U32} (list : TaskList s tasks) (proper : q ≠ 0)
    (notInit : s.current ≠ s.task0) :
    (Yields q s ↔ ∃ v ∈ tasks, v ≠ s.current ∧ Runable s v ∧ (s.tasks v).priority ≠ 0) ∧
      (¬ Yields q s → ∃ t, sleepOn q s = some t ∧ t.current = s.current ∧
        (t.tasks s.current).state = .uninterruptible) := by
  have ran : sleepOn q s = schedule (fallAsleep q s) := by
    unfold sleepOn
    rw [if_neg proper, if_neg notInit]
    rfl
  have kept : TaskList (fallAsleep q s) tasks := list.congr fun x _ => fallAsleep_next q s x
  have low : prio (fallAsleep q s) (fallAsleep q s).current = 0 := by
    unfold prio
    rw [fallAsleep_current, fallAsleep_priority, if_pos rfl]
    rfl
  have others : ∀ v, v ≠ s.current → (Runable (fallAsleep q s) v ↔ Runable s v) ∧
      prio (fallAsleep q s) v = prio s v := by
    intro v other
    unfold Runable prio
    rw [fallAsleep_state, fallAsleep_priority, if_neg other, if_neg other]
    exact ⟨Iff.rfl, rfl⟩
  rcases schedule_spec kept with ⟨calm, same⟩ | ⟨v, first, above, other, switched⟩
  · have stays : ¬ Yields q s := by
      rintro ⟨t, ran', moved, -⟩
      rw [ran, same] at ran'
      cases ran'
      exact moved rfl
    refine ⟨iff_of_false stays ?_, fun _ => ⟨_, ran.trans same, rfl, ?_⟩⟩
    · rintro ⟨v, member, other, runable, positive⟩
      obtain ⟨status, priority⟩ := others v other
      refine calm ⟨v, member, status.mpr runable, ?_⟩
      rw [low, priority]
      unfold prio
      bv_omega
    · rw [fallAsleep_state, if_pos rfl]
  · obtain ⟨status, priority⟩ := others v other
    have away : Yields q s := by
      refine ⟨_, ran.trans switched, other, status.mp first.qualifies, fun calls u run => ?_⟩
      exact run.invariant (fun r => r.current ≠ s.current)
        (fun _ _ _ held asleep next => step_passes asleep held next) other
    refine ⟨iff_of_true away ⟨v, first.mem, other, status.mp first.qualifies, ?_⟩,
      fun no => absurd away no⟩
    intro zero
    rw [low, priority] at above
    unfold prio at above
    rw [zero] at above
    exact absurd above (Nat.lt_irrefl _)

theorem sleepOn_yields_threeTasks : Yields 0x500 { threeTasks with current := 0x3000 } := by
  have list : TaskList { threeTasks with current := 0x3000 } [0x1000, 0x2000, 0x3000] := by decide
  exact (sleepOn_yields_iff list (by decide) (by decide)).1.mpr
    ⟨0x2000, by simp, by decide, by decide, by decide⟩

/-- The second task falls asleep when the ticks have brought the first one to zero. -/
theorem sleeper_keeps_processor : ∃ calls s tasks, GuardedRun step always image calls s ∧
    TaskList s tasks ∧ s.current ≠ s.task0 ∧ (∃ v ∈ tasks, v ≠ s.current ∧ Runable s v) ∧
    ¬ Yields 0x500 s := by
  let calls : List SchedCall := .newTask 0x2000 0 0 0 :: List.replicate 32 .tick
  have ran : (execAll calls image).map (fun s => decide (TaskList s [0x1000, 0x2000] ∧
      s.current = 0x2000 ∧ s.task0 = 0x1000 ∧ Runable s 0x1000 ∧
      (sleepOn 0x500 s).map (·.current) = some 0x2000)) = some true := by decide +kernel
  obtain ⟨s, reached, facts⟩ := Option.map_eq_some_iff.mp ran
  obtain ⟨list, current, init, runable, slept⟩ := of_decide_eq_true facts
  obtain ⟨t, here, stays⟩ := Option.map_eq_some_iff.mp slept
  refine ⟨calls, s, _, run_of_execAll reached, list, ?_, ⟨0x1000, by simp, ?_, runable⟩, ?_⟩
  · rw [current, init]
    decide
  · rw [current]
    decide
  · rintro ⟨u, ran', moved, -⟩
    rw [here] at ran'
    cases ran'
    exact moved (stays.trans current.symm)

end BlessOS.Guarantees.TaskSelection
