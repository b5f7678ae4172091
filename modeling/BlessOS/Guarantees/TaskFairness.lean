import BlessOS.Lib.AgeingArbiter
import BlessOS.Guarantees.PriorityAgeing
import BlessOS.Guarantees.TaskSelection
import Mathlib.Data.List.GetD
import Mathlib.Dynamics.PeriodicPts.Defs

/-!
# Who gets the processor

A tick and the switch behind it are a turn of an ageing arbiter among the tasks that are awake.
Up to four of them share the processor, whatever their priorities are; of five tasks that start
with the same priority one is left behind for good.
-/

set_option autoImplicit false

namespace BlessOS.Guarantees.TaskFairness
open BlessOS.Lib BlessOS.Lib.AgeingArbiter BlessOS.Lib.RunningMax
open BlessOS.Source BlessOS.Source.Sched BlessOS.Guarantees.SchedSteps
open BlessOS.Guarantees.SingleRunning BlessOS.Guarantees.PriorityAgeing
open BlessOS.Guarantees.TaskSelection

variable {s t u : SchedState} {tasks : List U32} {v : U32}

/-- The tasks that can be given the processor. -/
def awake (s : SchedState) (tasks : List U32) : Finset U32 :=
  tasks.toFinset.filter fun v => (s.tasks v).state ≠ .uninterruptible

theorem mem_awake : v ∈ awake s tasks ↔ v ∈ tasks ∧ (s.tasks v).state ≠ .uninterruptible := by
  rw [awake, Finset.mem_filter, List.mem_toFinset]

/-- The current task is not about to fall asleep, and of the others none is marked running. -/
structure Serving (s : SchedState) (tasks : List U32) : Prop where
  orderly : Orderly s tasks
  running : (s.tasks s.current).state = .running

/-! ## One tick -/

def arbiter (s : SchedState) : AgeingArbiter.State U32 where
  current := s.current
  key := prio s

theorem agedPriority_current {task : Task} (running : task.state = .running) :
    (agedPriority task).toNat = (task.priority.toNat + 256 - 30) % 256 := by
  unfold agedPriority
  rw [if_pos running]
  dsimp only
  split <;> bv_omega

theorem agedPriority_other {task : Task} (waiting : task.state ≠ .running) :
    (agedPriority task).toNat = (task.priority.toNat + 10) % 256 := by
  unfold agedPriority
  rw [if_neg waiting]
  bv_omega

/-- What a tick does, seen by the tasks of the list. -/
structure Ticked (s t : SchedState) (tasks : List U32) : Prop where
  serving : Serving t tasks
  awake : awake t tasks = awake s tasks
  turn : Tick 10 30 256 (TaskFairness.awake s tasks) (arbiter s) (arbiter t)

theorem waiting_of_orderly (orderly : Orderly s tasks) {x : U32} (member : x ∈ tasks)
    (other : x ≠ s.current) : (s.tasks x).state ≠ .running := by
  rcases orderly.others x member other with state | state <;> rw [state] <;> decide

theorem doTimer_prio (orderly : Orderly s tasks) (ran : doTimer s = some t) {x : U32}
    (member : x ∈ tasks) : prio t x = (agedPriority (s.tasks x)).toNat :=
  congrArg BitVec.toNat (tick_priority orderly.list ran member)

/-- The switch wakes and puts to sleep no task. -/
theorem switchTo_asleep {u : SchedState} {best : U32} (runable : (u.tasks best).state = .runable)
    (x : U32) : ((switchTo best u).tasks x).state = .uninterruptible ↔
      (u.tasks x).state = .uninterruptible := by
  rw [switchTo_state]
  by_cases here : x = best
  · rw [if_pos here, here, runable]
    decide
  · rw [if_neg here]
    split
    · next old =>
      rw [old.2]
      decide
    · exact Iff.rfl

/-- The keys of a tick, whichever task is chosen. -/
theorem ticked_of_greatest (serving : Serving s tasks) (ran : doTimer s = some t)
    (serving_t : Serving t tasks)
    (asleep : ∀ x, (t.tasks x).state = .uninterruptible ↔ (s.tasks x).state = .uninterruptible)
    (greatest : ∀ x ∈ awake s tasks, prio t x ≤ prio t t.current) : Ticked s t tasks := by
  obtain ⟨orderly, running⟩ := serving
  have awake_eq : awake t tasks = awake s tasks := by
    ext x
    rw [mem_awake, mem_awake]
    exact and_congr_right fun _ => not_congr (asleep x)
  refine ⟨serving_t, awake_eq, ?_, fun x member other => ?_, ?_, greatest⟩
  · change prio t s.current = (prio s s.current + 256 - 30) % 256
    rw [doTimer_prio orderly ran orderly.current]
    exact agedPriority_current running
  · have listed := (mem_awake.mp member).1
    change prio t x = (prio s x + 10) % 256
    rw [doTimer_prio orderly ran listed]
    exact agedPriority_other (waiting_of_orderly orderly listed other)
  · change t.current ∈ awake s tasks
    rw [← awake_eq, mem_awake, serving_t.running]
    exact ⟨serving_t.orderly.current, by decide⟩

theorem doTimer_ticked (serving : Serving s tasks) (ran : doTimer s = some t) :
    Ticked s t tasks := by
  obtain ⟨orderly, running⟩ := serving
  obtain ⟨u, aged, scheduled⟩ := doTimer_cases ran
  have orderly_u := orderly.aged aged
  have orderly_t := orderly_u.schedule scheduled
  rcases schedule_spec (aged.taskList orderly.list) with
    ⟨calm, same⟩ | ⟨best, first, above, other, switched⟩
  · rw [scheduled] at same
    obtain rfl := Option.some.inj same
    have running_t : (t.tasks t.current).state = .running := by
      rw [aged.state, aged.current]
      exact running
    refine ticked_of_greatest ⟨orderly, running⟩ ran ⟨orderly_t, running_t⟩
      (fun x => by rw [aged.state]) fun x member => ?_
    obtain ⟨listed, state⟩ := mem_awake.mp member
    by_cases here : x = t.current
    · rw [here]
    · have runable : Runable t x :=
        (orderly_t.others x listed here).resolve_right (aged.state x ▸ state)
      by_contra behind
      exact calm ⟨x, listed, runable, Nat.lt_of_not_le behind⟩
  · rw [scheduled] at switched
    obtain rfl := Option.some.inj switched
    have running_t : ((switchTo best u).tasks best).state = .running := by
      rw [switchTo_state, if_pos rfl]
    have priority_same : ∀ x, prio (switchTo best u) x = prio u x :=
      fun x => congrArg BitVec.toNat (switchTo_priority best u x)
    refine ticked_of_greatest ⟨orderly, running⟩ ran ⟨orderly_t, running_t⟩
      (fun x => aged.state x ▸ switchTo_asleep first.qualifies x) fun x member => ?_
    obtain ⟨listed, state⟩ := mem_awake.mp member
    change prio (switchTo best u) x ≤ prio (switchTo best u) best
    rw [priority_same, priority_same]
    by_cases here : x = u.current
    · rw [here]
      exact Nat.le_of_lt above
    · have runable_x : Runable u x :=
        (orderly_u.others x listed here).resolve_right (aged.state x ▸ state)
      exact first.le listed runable_x

/-! ## Up to four tasks -/

/-- A number of ticks. -/
def ticks : Nat → SchedState → Option SchedState
  | 0, s => some s
  | n + 1, s => (ticks n s).bind doTimer

/-- The states of a run of ticks. -/
theorem exists_states (serving : Serving s tasks) :
    ∃ states : Nat → SchedState, ∀ k, ticks k s = some (states k) ∧
      Serving (states k) tasks ∧ awake (states k) tasks = awake s tasks := by
  have run : ∀ k, ∃ t, ticks k s = some t ∧ Serving t tasks ∧ awake t tasks = awake s tasks := by
    intro k
    induction k with
    | zero => exact ⟨s, rfl, serving, rfl⟩
    | succ k ih =>
      obtain ⟨t, ran, serving_t, awake_t⟩ := ih
      obtain ⟨u, tick⟩ := doTimer_returns serving_t.orderly.list
      have ticked := doTimer_ticked serving_t tick
      exact ⟨u, by rw [ticks, ran, Option.bind_some, tick], ticked.serving,
        ticked.awake.trans awake_t⟩
  exact ⟨fun k => (run k).choose, fun k => (run k).choose_spec⟩

/-- **No starvation.** From a state in which the current task is marked running and every other
one runnable or asleep, and as long as only the timer interrupts, up to four tasks that are awake
each get the processor within 44 ticks, whatever their priorities are. -/
theorem every_task_served (serving : Serving s tasks) (few : (awake s tasks).card ≤ 4)
    (member : v ∈ awake s tasks) : ∃ n ≤ 44, ∃ u, ticks n s = some u ∧ u.current = v := by
  obtain ⟨states, run⟩ := exists_states serving
  have turns : ∀ k, Tick 10 30 256 (awake s tasks) (arbiter (states k)) (arbiter (states (k + 1))) := by
    intro k
    obtain ⟨ran, serving_k, awake_k⟩ := run k
    have next : doTimer (states k) = some (states (k + 1)) := by
      have after := (run (k + 1)).1
      rw [ticks, ran, Option.bind_some] at after
      exact after
    have turn := (doTimer_ticked serving_k next).turn
    rw [awake_k] at turn
    exact turn
  have small : ∀ x ∈ awake s tasks, (arbiter (states 0)).key x < 256 :=
    fun x _ => ((states 0).tasks x).priority.isLt
  have turns_ahead : longest 10 30 256 (awake s tasks) = ((awake s tasks).card - 1) * 6 := rfl
  obtain ⟨n, bound, here⟩ := served_within turns small member (by decide) (by omega)
  exact ⟨n, by omega, states n, (run n).1, here⟩

theorem threeTasks_serving : Serving threeTasks [0x1000, 0x2000, 0x3000] where
  orderly :=
    { list := by decide
      current := List.mem_cons_self
      mine := .inl rfl
      others := by
        intro v member other
        rcases List.mem_cons.mp member with rfl | later
        · exact absurd rfl other
        · rcases List.mem_cons.mp later with rfl | last
          · exact .inl rfl
          · rw [List.mem_singleton.mp last]
            exact .inl rfl
      waits := fun _ => .inl rfl
      saves := fun _ _ kept => by cases kept }
  running := rfl

theorem every_task_served_threeTasks :
    ∃ n ≤ 44, ∃ u, ticks n threeTasks = some u ∧ u.current = 0x3000 := by
  have few : (awake threeTasks [0x1000, 0x2000, 0x3000]).card ≤ 4 :=
    (Finset.card_filter_le _ _).trans ((List.toFinset_card_le _).trans (by decide))
  have waits : (0x3000 : U32) ∈ awake threeTasks [0x1000, 0x2000, 0x3000] :=
    mem_awake.mpr ⟨by simp, by decide⟩
  exact every_task_served threeTasks_serving few waits

/-! ## Five tasks -/

/-- The place of the current task on the list, and the priorities in its order. -/
structure Board where
  current : Nat
  keys : List Nat
deriving DecidableEq

/-- The selection loop over the places; the current one is not considered. -/
def Board.best (b : Board) : Nat × Nat :=
  (List.range b.keys.length).foldl
    (fun best i => if i ≠ b.current ∧ best.2 < b.keys.getD i 0 then (i, b.keys.getD i 0) else best)
    (b.current, b.keys.getD b.current 0)

def Board.aged (b : Board) : Board where
  current := b.current
  keys := b.keys.mapIdx fun i key => if i = b.current then (key + 226) % 256 else (key + 10) % 256

def Board.turn (b : Board) : Board := { b.aged with current := b.aged.best.1 }

/-- The board shows the tasks. -/
structure Shows (b : Board) (s : SchedState) (tasks : List U32) : Prop where
  inside : b.current < tasks.length
  current : s.current = tasks.getD b.current 0
  keys : b.keys = tasks.map (prio s)

theorem list_eq_range (tasks : List U32) :
    tasks = (List.range tasks.length).map fun i => tasks.getD i 0 := by
  apply List.ext_getElem
  · simp
  · intro i inside _
    simp [List.getD_eq_getElem?_getD, inside]

theorem getD_mem {i : Nat} (inside : i < tasks.length) : tasks.getD i 0 ∈ tasks := by
  rw [List.getD_eq_getElem _ _ inside]
  exact List.getElem_mem inside

theorem getD_inj (nodup : tasks.Nodup) {i j : Nat} (left : i < tasks.length)
    (right : j < tasks.length) : tasks.getD i 0 = tasks.getD j 0 ↔ i = j := by
  rw [List.getD_eq_getElem _ _ left, List.getD_eq_getElem _ _ right]
  exact nodup.getElem_inj_iff

theorem Shows.key {b : Board} (shows : Shows b s tasks) {i : Nat} (inside : i < tasks.length) :
    b.keys.getD i 0 = prio s (tasks.getD i 0) := by
  rw [shows.keys, List.getD_eq_getElem _ _ inside, List.getD_eq_getElem _ _ (by simpa using inside),
    List.getElem_map]

/-- The two selection loops run alike. -/
theorem Shows.best {b : Board} (shows : Shows b s tasks) (nodup : tasks.Nodup)
    (others : ∀ x ∈ tasks, (s.tasks x).state = .runable ↔ x ≠ s.current) :
    tasks.foldl (pick s.tasks) (0, prio s s.current) =
        (if b.best.1 = b.current then 0 else tasks.getD b.best.1 0, b.best.2) ∧
      b.best.1 < tasks.length := by
  have places : tasks.foldl (pick s.tasks) (0, prio s s.current) =
      (List.range tasks.length).foldl (fun best i => pick s.tasks best (tasks.getD i 0))
        (0, prio s s.current) := by
    conv_lhs => rw [list_eq_range tasks]
    rw [List.foldl_map]
  have length : b.keys.length = tasks.length := by rw [shows.keys, List.length_map]
  rw [places, Board.best, length]
  refine List.foldl_rel (r := fun (c : U32 × Nat) (a : Nat × Nat) =>
    c = (if a.1 = b.current then 0 else tasks.getD a.1 0, a.2) ∧ a.1 < tasks.length) ?_ ?_
  · rw [if_pos rfl, shows.key shows.inside, shows.current]
    exact ⟨rfl, shows.inside⟩
  · rintro i member c ⟨a, key⟩ ⟨rfl, bound⟩
    have inside : i < tasks.length := List.mem_range.mp member
    have eligible : (s.tasks (tasks.getD i 0)).state = .runable ↔ i ≠ b.current := by
      rw [others _ (getD_mem inside), shows.current, ne_eq, getD_inj nodup inside shows.inside]
    have key_i := shows.key inside
    have picked (y : U32) : pick s.tasks (y, key) (tasks.getD i 0) =
        if (s.tasks (tasks.getD i 0)).state = .runable ∧ key < prio s (tasks.getD i 0) then
          (tasks.getD i 0, prio s (tasks.getD i 0))
        else (y, key) := rfl
    dsimp only
    rw [picked, key_i]
    by_cases better : i ≠ b.current ∧ key < prio s (tasks.getD i 0)
    · rw [if_pos ⟨eligible.mpr better.1, better.2⟩, if_pos better]
      dsimp only
      rw [if_neg better.1]
      exact ⟨rfl, inside⟩
    · rw [if_neg (mt (And.imp_left eligible.mp) better), if_neg better]
      exact ⟨rfl, bound⟩

/-- The keys of the board age as the priorities do. -/
theorem Shows.aged_keys {b : Board} (shows : Shows b s tasks) (serving : Serving s tasks)
    (ran : doTimer s = some t) : b.aged.keys = tasks.map (prio t) := by
  obtain ⟨orderly, running⟩ := serving
  rw [Board.aged, shows.keys]
  apply List.ext_getElem
  · simp
  · intro i inside _
    have listed : i < tasks.length := by simpa using inside
    have member := List.getElem_mem listed
    simp only [List.getElem_mapIdx, List.getElem_map]
    rw [doTimer_prio orderly ran member]
    have here : tasks[i] = s.current ↔ i = b.current := by
      rw [shows.current, ← getD_inj orderly.list.nodup listed shows.inside,
        List.getD_eq_getElem _ _ listed]
    by_cases current : i = b.current
    · rw [if_pos current, here.mpr current, agedPriority_current running]
      rfl
    · have other : tasks[i] ≠ s.current := mt here.mp current
      rw [if_neg current, agedPriority_other (waiting_of_orderly orderly member other)]
      rfl

/-- `schedule` makes the task current that the board chooses. -/
theorem Shows.schedule {b : Board} {u : SchedState} (shows : Shows b u tasks)
    (list : TaskList u tasks)
    (others : ∀ x ∈ tasks, (u.tasks x).state = .runable ↔ x ≠ u.current)
    (scheduled : Sched.schedule u = some t) :
    b.best.1 < tasks.length ∧ t.current = tasks.getD b.best.1 0 := by
  have nodup := list.nodup
  obtain ⟨found, bound⟩ := shows.best nodup others
  have chosen := select_eq list
  change select u = some (tasks.foldl (pick u.tasks) (0, prio u u.current)) at chosen
  rw [found] at chosen
  refine ⟨bound, ?_⟩
  unfold Sched.schedule at scheduled
  rw [chosen] at scheduled
  simp only [Option.bind_eq_bind, Option.bind_some] at scheduled
  by_cases stays : b.best.1 = b.current
  · rw [if_pos stays, if_neg (fun both => both.1 rfl)] at scheduled
    rw [← Option.some.inj scheduled, stays]
    exact shows.current
  · have proper : tasks.getD b.best.1 0 ≠ 0 := list.ne_null _ (getD_mem bound)
    have other : tasks.getD b.best.1 0 ≠ u.current := by
      rw [shows.current, ne_eq, getD_inj nodup bound shows.inside]
      exact stays
    rw [if_neg stays, if_pos ⟨proper, other⟩] at scheduled
    rw [← Option.some.inj scheduled]
    rfl

theorem Shows.tick {b : Board} (shows : Shows b s tasks) (serving : Serving s tasks)
    (all_awake : ∀ x ∈ tasks, (s.tasks x).state ≠ .uninterruptible) (ran : doTimer s = some t) :
    Shows b.turn t tasks := by
  have keys := shows.aged_keys serving ran
  obtain ⟨orderly, running⟩ := serving
  obtain ⟨u, aged, scheduled⟩ := doTimer_cases ran
  have same : ∀ x, prio t x = prio u x := by
    intro x
    rcases schedule_cases scheduled with rfl | ⟨best, -, -, -, rfl⟩
    · rfl
    · exact congrArg BitVec.toNat (switchTo_priority best.1 u x)
  have board_u : Shows b.aged u tasks := by
    refine ⟨shows.inside, ?_, ?_⟩
    · rw [aged.current]
      exact shows.current
    · rw [keys]
      exact List.map_congr_left fun x _ => same x
  have others : ∀ x ∈ tasks, (u.tasks x).state = .runable ↔ x ≠ u.current := by
    intro x member
    rw [aged.state, aged.current]
    constructor
    · rintro state rfl
      rw [running] at state
      cases state
    · intro other
      exact (orderly.others x member other).resolve_right (all_awake x member)
  obtain ⟨bound, current⟩ := board_u.schedule (aged.taskList orderly.list) others scheduled
  exact ⟨bound, current, keys⟩

/-- A run of ticks takes as many turns. -/
theorem Shows.ticks {b : Board} (shows : Shows b s tasks) (serving : Serving s tasks)
    (all_awake : ∀ x ∈ tasks, (s.tasks x).state ≠ .uninterruptible) {n : Nat}
    (ran : ticks n s = some u) : Shows (Board.turn^[n] b) u tasks := by
  obtain ⟨states, run⟩ := exists_states serving
  have each : ∀ k, Shows (Board.turn^[k] b) (states k) tasks := by
    intro k
    induction k with
    | zero =>
      have start : s = states 0 := Option.some.inj (run 0).1
      rw [← start]
      exact shows
    | succ k ih =>
      obtain ⟨ran_k, serving_k, awake_k⟩ := run k
      have next : doTimer (states k) = some (states (k + 1)) := by
        have after := (run (k + 1)).1
        rw [TaskFairness.ticks, ran_k, Option.bind_some] at after
        exact after
      have awake_all : ∀ x ∈ tasks, ((states k).tasks x).state ≠ .uninterruptible := by
        intro x member
        have listed : x ∈ awake (states k) tasks :=
          awake_k ▸ mem_awake.mpr ⟨member, all_awake x member⟩
        exact (mem_awake.mp listed).2
      rw [Function.iterate_succ_apply']
      exact ih.tick serving_k awake_all next
  have same : u = states n := Option.some.inj (ran.symm.trans (run n).1)
  rw [same]
  exact each n

/-- Five tasks with the same priority, and the board after 247 turns, which comes back after
128 more. -/
def five : Board := ⟨0, [200, 200, 200, 200, 200]⟩
def late : Board := ⟨1, [230, 254, 238, 222, 222]⟩

theorem turns_late : Board.turn^[247] five = late := by decide +kernel

theorem turns_back : Function.IsPeriodicPt Board.turn 128 late := by
  unfold Function.IsPeriodicPt Function.IsFixedPt
  decide +kernel

theorem late_current : ∀ k < 128, (Board.turn^[k] late).current < 4 := by decide +kernel

theorem five_current {n : Nat} (after : 247 ≤ n) : (Board.turn^[n] five).current < 4 := by
  obtain ⟨k, rfl⟩ := Nat.exists_eq_add_of_le' after
  rw [Function.iterate_add_apply, turns_late, ← turns_back.iterate_mod_apply k]
  exact late_current _ (Nat.mod_lt k (by decide))

/-- **The fifth task starves.** Of five tasks that start with the same priority the last one on
the list does not run any more after 246 ticks. -/
theorem fifth_task_starves {first second third fourth fifth : U32}
    (serving : Serving s [first, second, third, fourth, fifth]) (current : s.current = first)
    (fresh : ∀ x ∈ [first, second, third, fourth, fifth],
      (s.tasks x).state ≠ .uninterruptible ∧ (s.tasks x).priority = initialPrio)
    {n : Nat} (after : 246 < n) (ran : ticks n s = some u) : u.current ≠ fifth := by
  have shows : Shows five s [first, second, third, fourth, fifth] := by
    refine ⟨Nat.succ_pos 4, current, ?_⟩
    have priority : ∀ x ∈ [first, second, third, fourth, fifth], prio s x = 200 :=
      fun x member => congrArg BitVec.toNat (fresh x member).2
    rw [List.map_congr_left priority]
    rfl
  have shows_u := shows.ticks serving (fun x member => (fresh x member).1) ran
  have early := five_current after
  intro here
  have place : (Board.turn^[n] five).current = 4 := by
    rw [← getD_inj serving.orderly.list.nodup shows_u.inside (Nat.lt_succ_self 4), ← shows_u.current]
    exact here
  omega

/-- The five tasks as they are before the first tick. -/
def fiveTasks : SchedState where
  task0 := 0x1000
  tasks v :=
    { tss := ⟨0, 0, 0, 0⟩, tssEntry := fun _ => 0, priority := initialPrio,
      state := if v = 0x1000 then .running else .runable, ldtEntry := fun _ => 0,
      next := if v = 0x5000 then 0 else v + 0x1000 }
  current := 0x1000
  gdt := fun _ _ => 0
  waiting := fun _ => 0
  saved := fun _ => none
  timerTicks := 0

theorem fiveTasks_serving : Serving fiveTasks [0x1000, 0x2000, 0x3000, 0x4000, 0x5000] where
  orderly :=
    { list := by decide
      current := List.mem_cons_self
      mine := .inl rfl
      others := fun _ _ other => .inl (if_neg other)
      waits := fun _ => .inl rfl
      saves := fun _ _ kept => by cases kept }
  running := rfl

theorem fifth_task_starves_fiveTasks :
    ∃ u, ticks 247 fiveTasks = some u ∧ u.current ≠ 0x5000 := by
  obtain ⟨states, run⟩ := exists_states fiveTasks_serving
  have fresh : ∀ x ∈ [0x1000, 0x2000, 0x3000, 0x4000, 0x5000],
      (fiveTasks.tasks x).state ≠ .uninterruptible ∧ (fiveTasks.tasks x).priority = initialPrio := by
    intro x _
    refine ⟨?_, rfl⟩
    change (if x = 0x1000 then TaskState.running else TaskState.runable) ≠ .uninterruptible
    split <;> decide
  exact ⟨states 247, (run 247).1,
    fifth_task_starves fiveTasks_serving rfl fresh (by decide) (run 247).1⟩

end BlessOS.Guarantees.TaskFairness
