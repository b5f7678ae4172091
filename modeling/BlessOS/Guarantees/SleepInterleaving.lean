import BlessOS.Guarantees.SchedSteps

/-!
# Sleepers on one wait pointer, statement by statement

`sleep_on` keeps interrupts on, so a tick can switch tasks between any two of its
statements. The sleepers on a wait pointer form a chain through the `tmp`s of
their calls; a task that stores itself in the pointer must hold what it
overwrites in such a `tmp`. The chain is kept by every statement but this store.
-/

set_option autoImplicit false

namespace BlessOS.Guarantees.SleepInterleaving
open BlessOS.Lib.Transition
open BlessOS.Source BlessOS.Source.Sched BlessOS.Guarantees.SchedSteps

/-- The next statement of a task's `sleep_on`; `idle` outside of the call. -/
inductive Pc where
  | idle | atWrite | atState | atPriority | atSchedule | atTail
  deriving DecidableEq, Repr

structure Machine where
  sched : SchedState
  pc : U32 → Pc

/-- A tick, or something the current task does: it calls `sleep_on(q)` and reads
`*q`, runs the next statement of that call, or calls `wake_up(q)`. -/
inductive Action where
  | tick | sleep | next | wake
  deriving DecidableEq, Repr

def Machine.goto (m : Machine) (pc : Pc) (s : SchedState) : Machine :=
  { sched := s, pc := Function.update m.pc m.sched.current pc }

/-- The statement of `sleep_on(q)` at a point, and the point after it. -/
def statement (q : U32) (s : SchedState) : Pc → Option (Pc × SchedState)
  | .idle => none
  | .atWrite => some (.atState, writeTask q s)
  | .atState => some (.atPriority, markAsleep s)
  | .atPriority => some (.atSchedule, dropPriority s)
  | .atSchedule => (schedule s).map fun s => (.atTail, s)
  | .atTail => (sleepOnReturn s).map fun s => (.idle, s)

/-- `task0` calls neither function. -/
def exec (q : U32) (m : Machine) : Action → Option Machine
  | .tick => (doTimer m.sched).map fun s => { m with sched := s }
  | .next => (statement q m.sched (m.pc m.sched.current)).map fun after => m.goto after.1 after.2
  | .sleep =>
    if m.pc m.sched.current = .idle ∧ m.sched.current ≠ m.sched.task0 then
      some (m.goto .atWrite (readTmp q m.sched))
    else none
  | .wake =>
    if m.pc m.sched.current = .idle ∧ m.sched.current ≠ m.sched.task0 then
      some { m with sched := wakeUp q m.sched }
    else none

def step (q : U32) (m : Machine) (a : Action) (m' : Machine) : Prop :=
  exec q m a = some m'

theorem goto_pc (m : Machine) (pc : Pc) (s : SchedState) (u : U32) :
    (m.goto pc s).pc u = if u = m.sched.current then pc else m.pc u := by
  simp only [Machine.goto, Function.update_apply]

theorem goto_goto (m : Machine) (pc pc' : Pc) {s : SchedState} (s' : SchedState)
    (same : s.current = m.sched.current) : (m.goto pc s).goto pc' s' = m.goto pc' s' := by
  simp only [Machine.goto, same, Function.update_idem]

/-- Two statements of one call in a row. -/
theorem exec_next_goto (q : U32) (m : Machine) (pc : Pc) {s : SchedState}
    (same : s.current = m.sched.current) :
    exec q (m.goto pc s) .next = (statement q s pc).map fun after => m.goto after.1 after.2 := by
  have here : (m.goto pc s).pc (m.goto pc s).sched.current = pc := by
    simp only [Machine.goto, same, Function.update_self]
  unfold exec
  dsimp only
  rw [here]
  exact congrArg (fun f => (statement q s pc).map f)
    (funext fun after => goto_goto m pc after.1 after.2 same)

/-- Without a switch in between, the statements are the call of `sleep_on`. -/
theorem statements_eq_sleepOn (q : U32) (m : Machine) (idle : m.pc m.sched.current = .idle)
    (proper : q ≠ 0) (caller : m.sched.current ≠ m.sched.task0) :
    [Action.sleep, .next, .next, .next, .next].foldlM (exec q) m =
      (sleepOn q m.sched).map (m.goto .atTail) := by
  have read : exec q m .sleep = some (m.goto .atWrite (readTmp q m.sched)) :=
    if_pos ⟨idle, caller⟩
  have write := exec_next_goto q m .atWrite (s := readTmp q m.sched) rfl
  have asleep := exec_next_goto q m .atState (s := writeTask q (readTmp q m.sched)) rfl
  have lowered := exec_next_goto q m .atPriority
    (s := markAsleep (writeTask q (readTmp q m.sched))) rfl
  have scheduled := exec_next_goto q m .atSchedule
    (s := dropPriority (markAsleep (writeTask q (readTmp q m.sched)))) rfl
  unfold sleepOn
  rw [if_neg proper, if_neg caller]
  simp only [List.foldlM_cons, List.foldlM_nil, Option.bind_eq_bind, Option.bind_some, read, write,
    asleep, lowered, scheduled, statement, Option.map_some, Option.map_map]
  exact Option.bind_fun_some _

/-- What an action does: a tick, a call, or the statement that comes next. -/
inductive Effect (q : U32) (m : Machine) : Action → Machine → Prop where
  | tick {u s : SchedState} : AgedFrom m.sched u → schedule u = some s →
      Effect q m .tick { m with sched := s }
  | sleep : m.pc m.sched.current = .idle → Effect q m .sleep (m.goto .atWrite (readTmp q m.sched))
  | wake : m.pc m.sched.current = .idle → Effect q m .wake { m with sched := wakeUp q m.sched }
  | write : m.pc m.sched.current = .atWrite → Effect q m .next (m.goto .atState (writeTask q m.sched))
  | mark : m.pc m.sched.current = .atState →
      Effect q m .next (m.goto .atPriority (markAsleep m.sched))
  | drop : m.pc m.sched.current = .atPriority →
      Effect q m .next (m.goto .atSchedule (dropPriority m.sched))
  | schedule {s : SchedState} : m.pc m.sched.current = .atSchedule → schedule m.sched = some s →
      Effect q m .next (m.goto .atTail s)
  | leave {s : SchedState} : m.pc m.sched.current = .atTail → sleepOnReturn m.sched = some s →
      Effect q m .next (m.goto .idle s)

theorem effect_of_step {q : U32} {m m' : Machine} {a : Action} (next : step q m a m') :
    Effect q m a m' := by
  unfold step exec at next
  cases a with
  | tick =>
    obtain ⟨s, ticked, rfl⟩ := Option.map_eq_some_iff.mp next
    obtain ⟨u, aged, scheduled⟩ := doTimer_cases ticked
    exact .tick aged scheduled
  | sleep =>
    dsimp only at next
    split at next
    · next admitted =>
      cases next
      exact .sleep admitted.1
    · cases next
  | wake =>
    dsimp only at next
    split at next
    · next admitted =>
      cases next
      exact .wake admitted.1
    · cases next
  | next =>
    obtain ⟨⟨pc, s⟩, ran, rfl⟩ := Option.map_eq_some_iff.mp next
    cases here : m.pc m.sched.current with
    | idle =>
      rw [here] at ran
      cases ran
    | atWrite =>
      rw [here] at ran
      cases ran
      exact .write here
    | atState =>
      rw [here] at ran
      cases ran
      exact .mark here
    | atPriority =>
      rw [here] at ran
      cases ran
      exact .drop here
    | atSchedule =>
      rw [here] at ran
      obtain ⟨t, scheduled, same⟩ := Option.map_eq_some_iff.mp ran
      cases same
      exact .schedule here scheduled
    | atTail =>
      rw [here] at ran
      obtain ⟨t, returned, same⟩ := Option.map_eq_some_iff.mp ran
      cases same
      exact .leave here returned

/-! ## The chain of sleepers -/

/-- Inside `sleep_on`, past the store to the wait pointer. -/
def Pc.Stored (pc : Pc) : Prop := pc ≠ .idle ∧ pc ≠ .atWrite

instance : DecidablePred Pc.Stored := fun pc =>
  inferInstanceAs (Decidable (pc ≠ .idle ∧ pc ≠ .atWrite))

/-- The task is asleep inside `sleep_on`, or will be when it runs on: it has stored
itself and can still be selected. -/
def Sleeper (m : Machine) (t : U32) : Prop :=
  (m.pc t ≠ .idle ∧ (m.sched.tasks t).state = .uninterruptible) ∨
    ((m.pc t).Stored ∧ (t = m.sched.current ∨ (m.sched.tasks t).state ≠ .running))

/-- The task is the `tmp` of another task that has not finished `sleep_on`. -/
def Held (m : Machine) (t : U32) : Prop :=
  ∃ u, u ≠ t ∧ m.pc u ≠ .idle ∧ m.sched.saved u = some t

/-- A wake-up can reach the task, through the pointer itself or through a `tmp`. -/
def Linked (q : U32) (m : Machine) (t : U32) : Prop :=
  m.sched.waiting q = t ∨ Held m t

/-- The store to the wait pointer does not overwrite the only link to another sleeper. -/
def KeepsLink (q : U32) (m : Machine) : Action → Prop
  | .next => m.pc m.sched.current = .atWrite → ∀ t, m.sched.waiting q = t →
      t ≠ m.sched.current → Sleeper m t → Held m t
  | .tick | .sleep | .wake => True

/-- A pointer that holds what the caller read keeps its link: the caller's own `tmp`. -/
theorem keepsLink_of_unchanged {q : U32} {m : Machine}
    (unchanged : m.sched.saved m.sched.current = some (m.sched.waiting q)) :
    KeepsLink q m .next := by
  intro here t pointed other _
  refine ⟨m.sched.current, other.symm, ?_, pointed ▸ unchanged⟩
  rw [here]
  decide

/-- Every sleeper is linked, and so is the current task when it runs marked asleep.
`NULL` is no task. -/
structure Chained (q : U32) (m : Machine) : Prop where
  sleepers : ∀ t, Sleeper m t → Linked q m t
  mine : (m.sched.tasks m.sched.current).state = .uninterruptible → Linked q m m.sched.current
  proper : m.sched.current ≠ 0
  null : m.pc 0 = .idle

variable {q : U32} {m m' : Machine} {t : U32}

theorem Sleeper.inside (sleeper : Sleeper m t) : m.pc t ≠ .idle := by
  rcases sleeper with ⟨inside, -⟩ | ⟨stored, -⟩
  · exact inside
  · exact stored.1

theorem Held.transfer (held : Held m t)
    (kept : ∀ u, u ≠ t → m.pc u ≠ .idle → m.sched.saved u = some t →
      m'.pc u ≠ .idle ∧ m'.sched.saved u = some t) : Held m' t := by
  obtain ⟨u, other, inside, saved⟩ := held
  exact ⟨u, other, kept u other inside saved⟩

/-! ## One step -/

theorem Chained.schedule {s : SchedState} (chained : Chained q m)
    (ran : schedule m.sched = some s) : Chained q { m with sched := s } := by
  rcases schedule_cases ran with rfl | ⟨⟨v, cp⟩, found, proper, other, rfl⟩
  · exact chained
  have runable : (m.sched.tasks v).state = .runable := select_runable found proper
  refine ⟨fun t sleeper => ?_, fun asleep => ?_, proper, chained.null⟩
  · -- the switch makes nobody a sleeper: the selected task was runnable before
    refine chained.sleepers t ?_
    unfold Sleeper at sleeper ⊢
    dsimp only at sleeper
    rw [switchTo_state, switchTo_current] at sleeper
    by_cases new : t = v
    · subst new
      rw [if_pos rfl] at sleeper
      rcases sleeper with ⟨-, asleep⟩ | ⟨stored, -⟩
      · cases asleep
      · exact Or.inr ⟨stored, Or.inr (by rw [runable]; decide)⟩
    · rw [if_neg new] at sleeper
      by_cases old : t = m.sched.current
      · rcases sleeper with ⟨inside, asleep⟩ | ⟨stored, -⟩
        · refine Or.inl ⟨inside, ?_⟩
          split at asleep
          · cases asleep
          · exact asleep
        · exact Or.inr ⟨stored, Or.inl old⟩
      · rw [if_neg (by simp [old])] at sleeper
        rcases sleeper with asleep | ⟨stored, new' | awake⟩
        · exact Or.inl asleep
        · exact absurd new' new
        · exact Or.inr ⟨stored, Or.inr awake⟩
  · dsimp only at asleep
    rw [switchTo_current, switchTo_state, if_pos rfl] at asleep
    cases asleep

theorem Chained.aged {s : SchedState} (chained : Chained q m) (aged : AgedFrom m.sched s) :
    Chained q { m with sched := s } := by
  have links : ∀ t, Linked q { m with sched := s } t ↔ Linked q m t := by
    intro t
    unfold Linked Held
    dsimp only
    rw [aged.waiting, aged.saved]
  refine ⟨fun t sleeper => ?_, fun asleep => ?_, aged.current ▸ chained.proper, chained.null⟩
  · unfold Sleeper at sleeper
    dsimp only at sleeper
    rw [aged.state, aged.current] at sleeper
    exact (links t).mpr (chained.sleepers t sleeper)
  · rw [links]
    dsimp only at asleep ⊢
    rw [aged.state, aged.current] at asleep
    rw [aged.current]
    exact chained.mine asleep

/-- A statement past the store that leaves links and the states of others alone. -/
theorem Chained.advance {s : SchedState} {pc : Pc} (chained : Chained q m)
    (stored : (m.pc m.sched.current).Stored) (after : pc.Stored)
    (current : s.current = m.sched.current) (waiting : s.waiting = m.sched.waiting)
    (saved : s.saved = m.sched.saved)
    (others : ∀ x, x ≠ m.sched.current → (s.tasks x).state = (m.sched.tasks x).state) :
    Chained q (m.goto pc s) := by
  have links : ∀ t, Linked q m t → Linked q (m.goto pc s) t := by
    intro t linked
    refine linked.imp (fun pointed => ?_) fun held => held.transfer fun u _ inside kept => ⟨?_, ?_⟩
    · exact (congrFun waiting q).trans pointed
    · rw [goto_pc]
      split
      · exact after.1
      · exact inside
    · exact (congrFun saved u).trans kept
  have mine : Linked q m m.sched.current := chained.sleepers _ (Or.inr ⟨stored, Or.inl rfl⟩)
  refine ⟨fun t sleeper => links t ?_, fun _ => ?_, ?_, ?_⟩
  · by_cases here : t = m.sched.current
    · exact here ▸ mine
    · refine chained.sleepers t ?_
      unfold Sleeper at sleeper ⊢
      rw [goto_pc, if_neg here] at sleeper
      change _ ∧ (s.tasks t).state = _ ∨ _ ∧ (t = s.current ∨ (s.tasks t).state ≠ _) at sleeper
      rw [others t here, current] at sleeper
      exact sleeper
  · exact links _ (show Linked q m s.current from current ▸ mine)
  · exact (show s.current ≠ 0 from current ▸ chained.proper)
  · rw [goto_pc, if_neg chained.proper.symm, chained.null]

/-- The store to the wait pointer, when it keeps the link it overwrites. -/
theorem Chained.write (chained : Chained q m) (here : m.pc m.sched.current = .atWrite)
    (keeps : KeepsLink q m .next) : Chained q (m.goto .atState (writeTask q m.sched)) := by
  have pointed : (m.goto .atState (writeTask q m.sched)).sched.waiting q = m.sched.current :=
    Function.update_self _ _ _
  refine ⟨fun t sleeper => ?_, fun _ => Or.inl pointed, chained.proper, ?_⟩
  · by_cases mine : t = m.sched.current
    · exact Or.inl (mine ▸ pointed)
    · have before : Sleeper m t := by
        unfold Sleeper at sleeper ⊢
        rw [goto_pc, if_neg mine] at sleeper
        exact sleeper
      have held : Held m t :=
        (chained.sleepers t before).elim (fun old => keeps here t old mine before) id
      refine Or.inr (held.transfer fun u _ inside kept => ⟨?_, kept⟩)
      rw [goto_pc]
      split
      · decide
      · exact inside
  · rw [goto_pc, if_neg chained.proper.symm, chained.null]

/-- A task starts `sleep_on`: its `tmp` only adds a link. -/
theorem Chained.sleep (chained : Chained q m) (idle : m.pc m.sched.current = .idle) :
    Chained q (m.goto .atWrite (readTmp q m.sched)) := by
  have links : ∀ t, Linked q m t → Linked q (m.goto .atWrite (readTmp q m.sched)) t := by
    intro t linked
    refine linked.imp_right fun held => held.transfer fun u _ inside kept => ?_
    have other : u ≠ m.sched.current := fun same => inside (same ▸ idle)
    refine ⟨?_, (Function.update_of_ne other _ _).trans kept⟩
    rw [goto_pc, if_neg other]
    exact inside
  refine ⟨fun t sleeper => links t ?_, fun asleep => links _ (chained.mine asleep),
    chained.proper, ?_⟩
  · unfold Sleeper at sleeper
    rw [goto_pc] at sleeper
    by_cases mine : t = m.sched.current
    · rw [if_pos mine] at sleeper
      rcases sleeper with ⟨-, asleep⟩ | ⟨stored, -⟩
      · subst mine
        exact chained.mine asleep
      · exact absurd rfl stored.2
    · rw [if_neg mine] at sleeper
      exact chained.sleepers t sleeper
  · rw [goto_pc, if_neg chained.proper.symm, chained.null]

/-- Waking `v`, or nobody when `v` is `NULL`, by a caller that is outside of
`sleep_on` afterwards: the links to `v` may be lost. -/
theorem Chained.woken {s : SchedState} (v : U32) (chained : Chained q m)
    (current : s.current = m.sched.current)
    (states : ∀ x, x ≠ 0 →
      (s.tasks x).state = if x = v then .running else (m.sched.tasks x).state)
    (links : ∀ t, t ≠ v → t ≠ 0 → Linked q m t → Linked q (m.goto .idle s) t) :
    Chained q (m.goto .idle s) := by
  refine ⟨fun t sleeper => ?_, fun asleep => ?_, current ▸ chained.proper, ?_⟩
  · have other : t ≠ m.sched.current := by
      intro mine
      refine sleeper.inside ?_
      rw [goto_pc, if_pos mine]
    have task : t ≠ 0 := by
      rintro rfl
      refine sleeper.inside ?_
      rw [goto_pc, if_neg other, chained.null]
    unfold Sleeper at sleeper
    rw [goto_pc, if_neg other] at sleeper
    change _ ∧ (s.tasks t).state = _ ∨ _ ∧ (t = s.current ∨ (s.tasks t).state ≠ _) at sleeper
    rw [states t task, current] at sleeper
    by_cases woken : t = v
    · rw [if_pos woken] at sleeper
      rcases sleeper with ⟨-, asleep⟩ | ⟨-, mine | awake⟩
      · cases asleep
      · exact absurd mine other
      · exact absurd rfl awake
    · rw [if_neg woken] at sleeper
      exact links t woken task (chained.sleepers t sleeper)
  · change (s.tasks s.current).state = _ at asleep
    change Linked q (m.goto .idle s) s.current
    rw [current] at asleep ⊢
    rw [states _ chained.proper] at asleep
    split at asleep
    · cases asleep
    · next woken => exact links _ woken chained.proper (chained.mine asleep)
  · rw [goto_pc, if_neg chained.proper.symm, chained.null]

/-- The end of `sleep_on` drops a `tmp` and wakes the task it names. -/
theorem Chained.return {s : SchedState} (chained : Chained q m)
    (ran : sleepOnReturn m.sched = some s) : Chained q (m.goto .idle s) := by
  have dropped : ∀ tmp, m.sched.saved m.sched.current = some tmp → s.waiting = m.sched.waiting →
      s.saved = (finished m.sched).saved → ∀ t, t ≠ tmp → Linked q m t →
      Linked q (m.goto .idle s) t := by
    intro tmp kept waiting saved t other linked
    refine linked.imp (fun pointed => (congrFun waiting q).trans pointed) fun held =>
      held.transfer fun u _ inside named => ?_
    have apart : u ≠ m.sched.current := by
      rintro rfl
      exact other (Option.some.inj (named.symm.trans kept))
    constructor
    · rw [goto_pc, if_neg apart]
      exact inside
    · exact (congrFun saved u).trans ((Function.update_of_ne apart _ _).trans named)
  rcases sleepOnReturn_cases ran with ⟨null, rfl⟩ | ⟨tmp, proper, kept, rfl⟩
  · refine chained.woken 0 rfl (fun x task => (if_neg task).symm) fun t _ task => ?_
    exact dropped 0 null rfl rfl t task
  · refine chained.woken tmp rfl (fun x _ => markRunning_state tmp _ x) fun t other _ => ?_
    exact dropped tmp kept rfl rfl t other

/-- `wake_up` empties the pointer and wakes the task it held. -/
theorem Chained.wake (chained : Chained q m) (idle : m.pc m.sched.current = .idle) :
    Chained q { m with sched := wakeUp q m.sched } := by
  have stays : ∀ s, m.goto .idle s = { m with sched := s } := by
    intro s
    unfold Machine.goto
    rw [← idle, Function.update_eq_self]
  rw [← stays]
  rcases wakeUp_cases q m.sched with ⟨-, same⟩ | ⟨-, occupied, same⟩
  · rw [same, stays]
    exact chained
  · rw [same]
    refine chained.woken (m.sched.waiting q) rfl (fun x _ => markRunning_state _ _ x) ?_
    intro t other _ linked
    rw [stays]
    exact Or.inr (linked.resolve_left fun pointed => other pointed.symm)

theorem Chained.step {a : Action} (chained : Chained q m) (keeps : KeepsLink q m a)
    (next : step q m a m') : Chained q m' := by
  have stored : ∀ here, m.pc m.sched.current = here → here ≠ .idle → here ≠ .atWrite →
      (m.pc m.sched.current).Stored := fun here same idle write => same ▸ ⟨idle, write⟩
  cases effect_of_step next with
  | tick aged scheduled => exact (chained.aged aged).schedule scheduled
  | sleep idle => exact chained.sleep idle
  | wake idle => exact chained.wake idle
  | write here => exact chained.write here keeps
  | mark here =>
    refine chained.advance (stored _ here (by decide) (by decide)) (by decide) rfl rfl rfl ?_
    exact fun x other => congrArg Task.state (by rw [markAsleep, modify_apply, if_neg other])
  | drop here =>
    refine chained.advance (stored _ here (by decide) (by decide)) (by decide) rfl rfl rfl ?_
    exact fun x other => congrArg Task.state (by rw [dropPriority, modify_apply, if_neg other])
  | schedule here scheduled =>
    refine Chained.schedule (m := m.goto .atTail m.sched) ?_ scheduled
    exact chained.advance (stored _ here (by decide) (by decide)) (by decide) rfl rfl rfl
      fun _ _ => rfl
  | leave here returned => exact chained.return returned

/-- A store that overwrites the only link leaves a sleeper, or a task that will be
one when it runs on, without any. -/
theorem overwrite_unlinks {a : Action} (harmful : ¬ KeepsLink q m a) (next : step q m a m') :
    ∃ t, Sleeper m' t ∧ ¬ Linked q m' t := by
  cases a with
  | tick => exact absurd trivial harmful
  | sleep => exact absurd trivial harmful
  | wake => exact absurd trivial harmful
  | next =>
    unfold KeepsLink at harmful
    push Not at harmful
    obtain ⟨here, t, pointed, other, sleeper, unheld⟩ := harmful
    unfold SleepInterleaving.step exec at next
    dsimp only at next
    rw [here] at next
    cases next
    refine ⟨t, ?_, ?_⟩
    · unfold Sleeper
      rw [goto_pc, if_neg other]
      exact sleeper
    · rintro (pointed' | held)
      · exact other (pointed'.symm.trans (Function.update_self _ _ _))
      · refine unheld (held.transfer fun u _ inside kept => ⟨?_, kept⟩)
        rw [goto_pc] at inside
        split at inside
        · next mine =>
          rw [mine, here]
          decide
        · exact inside

/-! ## Only listed tasks are inside `sleep_on` -/

structure Listed (m : Machine) (tasks : List U32) : Prop where
  list : TaskList m.sched tasks
  current : m.sched.current ∈ tasks
  inside : ∀ u, m.pc u ≠ .idle → u ∈ tasks

variable {tasks : List U32}

theorem Listed.schedule {s : SchedState} (listed : Listed m tasks)
    (ran : schedule m.sched = some s) : Listed { m with sched := s } tasks :=
  ⟨(listed.list.schedule listed.current ran).1, (listed.list.schedule listed.current ran).2,
    listed.inside⟩

theorem Listed.goto {s : SchedState} (listed : Listed m tasks) (pc : Pc)
    (task0 : s.task0 = m.sched.task0) (current : s.current = m.sched.current)
    (links : ∀ x, (s.tasks x).next = (m.sched.tasks x).next) : Listed (m.goto pc s) tasks where
  list := by
    change TaskList s tasks
    unfold TaskList
    rw [task0]
    exact listed.list.congr fun x _ => links x
  current := show s.current ∈ tasks from current ▸ listed.current
  inside u inside := by
    rw [goto_pc] at inside
    split at inside
    · next mine => exact mine ▸ listed.current
    · exact listed.inside u inside

theorem Listed.step {a : Action} (listed : Listed m tasks) (next : step q m a m') :
    Listed m' tasks := by
  cases effect_of_step next with
  | @tick u _ aged scheduled =>
    refine Listed.schedule (m := { m with sched := u }) ⟨?_, ?_, listed.inside⟩ scheduled
    · exact aged.taskList listed.list
    · exact (show u.current ∈ tasks from aged.current ▸ listed.current)
  | sleep _ => exact listed.goto _ rfl rfl fun _ => rfl
  | wake _ =>
    rcases wakeUp_cases q m.sched with ⟨-, same⟩ | ⟨-, -, same⟩
    · rw [same]
      exact listed
    · rw [same]
      exact ⟨listed.list.congr fun x _ => markRunning_next _ _ x, listed.current, listed.inside⟩
  | write _ => exact listed.goto _ rfl rfl fun _ => rfl
  | mark _ => exact listed.goto _ rfl rfl fun x => markAsleep_next _ x
  | drop _ => exact listed.goto _ rfl rfl fun x => dropPriority_next _ x
  | schedule _ scheduled =>
    exact Listed.schedule (m := m.goto .atTail m.sched) (listed.goto _ rfl rfl fun _ => rfl) scheduled
  | leave _ returned =>
    rcases sleepOnReturn_cases returned with ⟨-, rfl⟩ | ⟨tmp, -, -, rfl⟩
    · exact listed.goto _ rfl rfl fun _ => rfl
    · exact listed.goto _ rfl rfl fun x => markRunning_next tmp (finished m.sched) x

/-! ## Runs -/

/-- Nobody on the list is inside `sleep_on` or asleep. -/
structure Quiet (m : Machine) (tasks : List U32) : Prop where
  list : TaskList m.sched tasks
  current : m.sched.current ∈ tasks
  idle : ∀ t, m.pc t = .idle
  awake : ∀ t ∈ tasks, (m.sched.tasks t).state ≠ .uninterruptible

theorem Quiet.listed (quiet : Quiet m tasks) : Listed m tasks :=
  ⟨quiet.list, quiet.current, fun t inside => absurd (quiet.idle t) inside⟩

theorem Quiet.chained (quiet : Quiet m tasks) (q : U32) : Chained q m where
  sleepers t sleeper := absurd (quiet.idle t) sleeper.inside
  mine asleep := absurd asleep (quiet.awake _ quiet.current)
  proper := quiet.list.ne_null _ quiet.current
  null := quiet.idle 0

/-- Every task asleep inside `sleep_on` is in the pointer or is the `tmp` of another
task that has not finished `sleep_on`. -/
def NoLostSleeper (q : U32) (m : Machine) (tasks : List U32) : Prop :=
  ∀ t ∈ tasks, m.pc t ≠ .idle → (m.sched.tasks t).state = .uninterruptible →
    m.sched.waiting q = t ∨ ∃ u ∈ tasks, u ≠ t ∧ m.pc u ≠ .idle ∧ m.sched.saved u = some t

/-- By going through the list, not through all addresses. -/
instance : Decidable (NoLostSleeper q m tasks) :=
  have : ∀ t, Decidable (∃ u ∈ tasks, u ≠ t ∧ m.pc u ≠ .idle ∧ m.sched.saved u = some t) :=
    fun _ => List.decidableBEx _ tasks
  List.decidableBAll _ tasks

/-- In every interleaving in which no store to the wait pointer overwrites the only
link to another sleeper, no sleeper is lost. -/
theorem no_lost_sleeper_of_keepsLink {actions : List Action} (quiet : Quiet m tasks)
    (run : GuardedRun (step q) (KeepsLink q) m actions m') : NoLostSleeper q m' tasks := by
  obtain ⟨chained, listed⟩ := run.invariant (fun r => Chained q r ∧ Listed r tasks)
    (fun _ _ _ before keeps next => ⟨before.1.step keeps next, before.2.step next⟩)
    ⟨quiet.chained q, quiet.listed⟩
  intro t _ inside asleep
  refine (chained.sleepers t (Or.inl ⟨inside, asleep⟩)).imp_right fun held => ?_
  obtain ⟨u, other, within, saved⟩ := held
  exact ⟨u, listed.inside u within, other, within, saved⟩

/-- `task0` and two more tasks, all with the initial priority. -/
def threeTasks : Machine where
  sched :=
    { task0 := 0x1000
      tasks := fun v =>
        { tss := ⟨0, 0, 0, 0⟩, tssEntry := fun _ => 0, priority := initialPrio,
          state := if v = 0x1000 then .running else .runable, ldtEntry := fun _ => 0,
          next := if v = 0x1000 then 0x2000 else if v = 0x2000 then 0x3000 else 0 }
      current := 0x1000
      gdt := fun _ _ => 0
      waiting := fun _ => 0
      saved := fun _ => none
      timerTicks := 0 }
  pc := fun _ => .idle

theorem threeTasks_quiet : Quiet threeTasks [0x1000, 0x2000, 0x3000] := by
  refine ⟨by decide +kernel, by decide, fun _ => rfl, fun t _ => ?_⟩
  change (if t = 0x1000 then TaskState.running else .runable) ≠ .uninterruptible
  split <;> decide

/-- One task goes to sleep, then the task it is switched to. -/
def bothSleep : List Action :=
  [.tick, .sleep, .next, .next, .next, .next, .sleep, .next, .next, .next, .next]

theorem no_lost_sleeper_of_keepsLink_threeTasks : ∃ m,
    GuardedRun (step 0x500) (KeepsLink 0x500) threeTasks bothSleep m ∧
      (m.sched.tasks 0x2000).state = .uninterruptible ∧
      (m.sched.tasks 0x3000).state = .uninterruptible ∧
      NoLostSleeper 0x500 m [0x1000, 0x2000, 0x3000] := by
  have ran : (bothSleep.foldlM (fun m a =>
      if a = .next ∧ m.pc m.sched.current = .atWrite ∧
          m.sched.saved m.sched.current ≠ some (m.sched.waiting 0x500)
      then none else exec 0x500 m a) threeTasks).map (fun m =>
        decide ((m.sched.tasks 0x2000).state = .uninterruptible ∧
          (m.sched.tasks 0x3000).state = .uninterruptible)) = some true := by decide +kernel
  obtain ⟨m, ran, asleep⟩ := Option.map_eq_some_iff.mp ran
  have run : GuardedRun (step 0x500) (KeepsLink 0x500) threeTasks bothSleep m := by
    refine GuardedRun.of_foldlM (fun r a r' next => ?_) _ ran
    split at next
    · cases next
    · next unchanged =>
      refine ⟨?_, next⟩
      cases a with
      | tick => trivial
      | sleep => trivial
      | wake => trivial
      | next =>
        intro here
        refine keepsLink_of_unchanged ?_ here
        by_contra changed
        exact unchanged ⟨rfl, here, changed⟩
  obtain ⟨first, second⟩ := of_decide_eq_true asleep
  exact ⟨m, run, first, second, no_lost_sleeper_of_keepsLink threeTasks_quiet run⟩

/-- A task is switched away from between its read and its write of the pointer; the
task that slept in between is lost. -/
theorem sleepOn_loses_sleeper : ∃ m tasks q actions m', Quiet m tasks ∧
    GuardedRun (step q) always m actions m' ∧ ¬ NoLostSleeper q m' tasks := by
  have ran : ([.tick, .sleep, .tick, .sleep, .next, .next, .next, .next, .tick, .next].foldlM
      (exec 0x500) threeTasks).map (fun m =>
        decide (NoLostSleeper 0x500 m [0x1000, 0x2000, 0x3000])) = some false := by decide +kernel
  obtain ⟨m, ran, lost⟩ := Option.map_eq_some_iff.mp ran
  exact ⟨threeTasks, _, 0x500, _, m, threeTasks_quiet,
    GuardedRun.of_foldlM (fun _ _ _ next => ⟨trivial, next⟩) _ ran, of_decide_eq_false lost⟩

end BlessOS.Guarantees.SleepInterleaving
