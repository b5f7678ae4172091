import BlessOS.Guarantees.InterruptDelivery

/-!
# A tick before the gates are set

The interrupts are on while `pic_install` programs the controllers, and from the last word of
the initialisation to the mask behind it every line is open. A tick taken there runs `ignore_int`,
which ends no interrupt.
-/

set_option autoImplicit false

namespace BlessOS.Guarantees.EarlyTick
open BlessOS.Lib.InterruptController BlessOS.Lib.InterruptNesting BlessOS.Lib.Transition
open BlessOS.Source BlessOS.Source.Interrupts
open BlessOS.Guarantees.InterruptNesting BlessOS.Guarantees.InterruptDelivery

attribute [local instance] lineNeZero

/-! ## The words of the initialisation -/

/-- Some line is open only after the seventh word. -/
theorem programmed_open : ∀ k : Fin 11,
    (programmed (picInstall.take k)).master.stage = .ready →
    (programmed (picInstall.take k)).master.mask ≠ 0xff →
      7 ≤ k ∧ (programmed (picInstall.take k)).master.base = 0x20 ∧
        (programmed (picInstall.take k)).master.lowest = 7 ∧
        (programmed (picInstall.take k)).slave.base = 0x28 := by
  decide +kernel

/-- While the gates are not set, a line is open only when three words are left. -/
theorem open_words {done left : List Op} {c : Cascade} {l : Line} (split : done ++ left = picInstall)
    (same : calm c = calm (programmed done)) (ready : c.master.stage = .ready)
    (unmasked : c.master.mask.getLsbD l = false) :
    (∀ op ∈ left, op ∈ picInstall.drop 7) ∧ c.master.base = 0x20 ∧ c.master.lowest = 7 ∧
      c.slave.base = 0x28 := by
  have stage := calm_field (fun c => c.master.stage) (fun _ => rfl) same
  have mask := calm_field (fun c => c.master.mask) (fun _ => rfl) same
  have base := calm_field (fun c => c.master.base) (fun _ => rfl) same
  have lowest := calm_field (fun c => c.master.lowest) (fun _ => rfl) same
  have farBase := calm_field (fun c => c.slave.base) (fun _ => rfl) same
  have closed : ∀ l : Line, (0xff : BitVec 8).getLsbD l ≠ false := by decide
  have some_open : (programmed done).master.mask ≠ 0xff := by
    intro all
    rw [mask, all] at unmasked
    exact closed l unmasked
  have done_eq : done = picInstall.take done.length := by
    rw [← split, List.take_left']
    rfl
  have left_eq : left = picInstall.drop done.length := by
    rw [← split, List.drop_left']
    rfl
  have count : done.length < 11 := by
    have total := congrArg List.length split
    rw [List.length_append] at total
    have ten : picInstall.length = 10 := rfl
    omega
  have words := programmed_open ⟨done.length, count⟩
  dsimp only at words
  rw [← done_eq, ← stage] at words
  obtain ⟨behind, base_eq, lowest_eq, farBase_eq⟩ := words ready some_open
  refine ⟨?_, base.trans base_eq, lowest.trans lowest_eq, farBase.trans farBase_eq⟩
  intro op member
  rw [left_eq] at member
  exact List.drop_subset_drop_left _ (Fin.le_def.mp behind) member

/-! ## Frames that end no interrupt -/

/-- An operation that takes nothing out of service and leaves the order of the lines. -/
def Harmless (op : Op) : Prop :=
  ∀ c : Cascade, c.master.stage = .ready → (opPics op c).master.stage = .ready ∧
    (opPics op c).master.inService = c.master.inService ∧
    (opPics op c).master.lowest = c.master.lowest

section Frames
variable {disk : Bool} {op : Op}

theorem harmless_of_pics (same : ∀ c, (opPics op c).master = c.master) : Harmless op := by
  intro c ready
  rw [same]
  exact ⟨ready, rfl, rfl⟩

theorem harmless_near (value : BitVec 8) : Harmless (.out value 0x21) := by
  intro c ready
  change (c.master.data value).stage = .ready ∧ (c.master.data value).inService = _ ∧
    (c.master.data value).lowest = _
  rw [data_ready ready]
  exact ⟨ready, rfl, rfl⟩

theorem harmless_install (listed : InstallOp disk op) : Harmless op := by
  cases listed with
  | timer value port other => rcases other with rfl | rfl <;> exact harmless_of_pics fun _ => rfl
  | near keep opens =>
    intro c ready
    exact harmless_near (c.master.mask &&& keep) c ready
  | far keep opens => exact harmless_of_pics fun _ => rfl

/-- What is left of `main` from the seventh word on. -/
theorem harmless_rest {left : List Op} (late : ∀ op ∈ left, op ∈ picInstall.drop 7) :
    ∀ op ∈ left ++ .setGates :: opening disk, Harmless op := by
  intro op member
  rcases List.mem_append.mp member with word | rest
  · have listed := late op word
    simp only [picInstall, List.drop, List.mem_cons, List.not_mem_nil, or_false] at listed
    rcases listed with rfl | rfl | rfl
    · exact harmless_of_pics fun _ => rfl
    · exact harmless_near _
    · exact harmless_of_pics fun _ => rfl
  · rcases List.mem_cons.mp rest with rfl | install
    · exact harmless_of_pics fun _ => rfl
    · exact harmless_install (opening_installs op install)

end Frames

/-! ## Runs -/

/-- The line of the timer is in service for good. -/
structure Blocked (s : Machine) : Prop where
  ready : s.pics.master.stage = .ready
  served : 0 ∈ s.pics.master.inService
  lowest : s.pics.master.lowest = 7
  left : ∀ op, s.Left op → Harmless op

/-- The gates are set, and there was no tick before. -/
structure Past (s : Machine) : Prop where
  gates : s.gates = true
  none_taken : (false, 0x20) ∉ s.taken

section Runs
variable {disk : Bool} {s t : Machine} {event : Event}

theorem Past.step (past : Past s) (step : Step entry s event t) : Past t := by
  have taken : (false, 0x20) ∉ s.taken := past.none_taken
  cases step with
  | raise slave line => exact ⟨past.gates, taken⟩
  | accept interrupts requested =>
    refine ⟨past.gates, fun member => ?_⟩
    rcases List.mem_append.mp member with old | new
    · exact taken old
    · rw [past.gates] at new
      simp at new
  | exec running =>
    refine ⟨?_, taken⟩
    change (s.gates || _) = true
    rw [past.gates, Bool.true_or]
  | idle found running => exact ⟨past.gates, taken⟩
  | switch found running => exact ⟨past.gates, taken⟩

theorem Blocked.accept_eq_none (blocked : Blocked s) : s.pics.accept = none := by
  have none_asked : s.pics.wired.request = none := by
    apply Controller.request_eq_none
    intro l pending
    refine ⟨0, blocked.served, ?_⟩
    change s.pics.master.rank 0 ≤ s.pics.master.rank l
    rw [Controller.rank, Controller.rank, blocked.lowest]
    exact Nat.zero_le _
  rw [Cascade.accept, none_asked]
  rfl

theorem Blocked.step (blocked : Blocked s) (step : Step entry s event t) :
    Blocked t ∧ t.taken = s.taken := by
  have nothing := blocked.accept_eq_none
  have left : ∀ op, t.Left op → Harmless op := by
    intro op after
    rcases step.left after with before | ⟨vector, pics, taken, -⟩
    · exact blocked.left op before
    · rw [nothing] at taken
      cases taken
  obtain ⟨ready, served, lowest, before⟩ := blocked
  cases step with
  | raise slave line =>
    cases slave with
    | false => exact ⟨⟨ready, served, lowest, left⟩, rfl⟩
    | true => exact ⟨⟨ready, served, lowest, left⟩, rfl⟩
  | accept interrupts requested =>
    rw [nothing] at requested
    cases requested
  | @exec op rest enabled below frames =>
    have first : s.Left op :=
      ⟨s.running, .inl rfl, _, frames ▸ List.mem_cons_self, List.mem_cons_self⟩
    obtain ⟨ready', served', lowest'⟩ := before op first s.pics ready
    exact ⟨⟨ready', served'.symm ▸ served, lowest'.trans lowest, left⟩, rfl⟩
  | idle found frames => exact ⟨⟨ready, served, lowest, left⟩, rfl⟩
  | switch found frames => exact ⟨⟨ready, served, lowest, left⟩, rfl⟩

/-- The timer's interrupt, taken while the gates are not set. -/
theorem blocked_of_tick {pics : Cascade} (early : Early disk s) (interrupts : s.interruptible = true)
    (requested : s.pics.accept = some (0x20, pics)) :
    Blocked { s with
      pics := pics
      running := ⟨entry s.gates 0x20, false⟩ :: s.running
      taken := s.taken ++ [(s.gates, 0x20)] } := by
  obtain ⟨done, left, split, same, main⟩ := early.interruptible interrupts
  obtain ⟨l, found, rest⟩ := Option.bind_eq_some_iff.mp requested
  obtain ⟨ready, ⟨first, -⟩, -⟩ := Controller.request_eq_some.mp found
  have unmasked : s.pics.master.mask.getLsbD l = false := (Controller.mem_pending.mp first).2
  obtain ⟨late, base, lowest, farBase⟩ := open_words split same ready unmasked
  -- Only the line of the timer has the vector of the tick.
  have far : l ≠ 2 := by
    rintro rfl
    rw [if_pos rfl] at rest
    obtain ⟨k, -, equal⟩ := Option.map_eq_some_iff.mp rest
    have vector := (Prod.mk.inj equal).1
    have other : ∀ k : Line, (0x28 : BitVec 8) + BitVec.ofNat 8 k ≠ 0x20 := by decide
    rw [Cascade.vector, farBase] at vector
    exact other k vector
  rw [if_neg far] at rest
  obtain ⟨vector, rfl⟩ := Prod.mk.inj (Option.some.inj rest)
  have timer : l = 0 := by
    have only : ∀ l : Line, (0x20 : BitVec 8) + BitVec.ofNat 8 l = 0x20 → l = 0 := by decide
    rw [Cascade.vector, base] at vector
    exact only l vector
  refine ⟨ready, timer ▸ Finset.mem_insert_self _ _, lowest, ?_⟩
  rw [early.gates, main]
  rintro op ⟨stack, rfl | suspended, frame, member, inside⟩
  · rcases List.mem_cons.mp member with rfl | member
    · rw [List.mem_singleton.mp inside]
      exact harmless_of_pics fun _ => rfl
    · rw [List.mem_singleton.mp member] at inside
      exact harmless_rest late op inside
  · rw [early.suspended stack suspended] at member
    exact absurd member List.not_mem_nil

/-- The first tick while the gates are not set blocks all lines; without it they get set. -/
theorem early_tick (early : Early disk s) (none_taken : (false, 0x20) ∉ s.taken)
    (step : Step entry s event t) :
    (Early disk t ∧ (false, 0x20) ∉ t.taken) ∨ Blocked t ∨ Past t := by
  by_cases tick : (false, 0x20) ∈ t.taken
  · refine .inr (.inl ?_)
    cases step with
    | accept interrupts requested =>
      rcases List.mem_append.mp tick with old | new
      · exact absurd old none_taken
      · obtain ⟨-, rfl⟩ := Prod.mk.inj (List.mem_singleton.mp new)
        exact blocked_of_tick early interrupts requested
    | raise slave line => exact absurd tick none_taken
    | exec running => exact absurd tick none_taken
    | idle found running => exact absurd tick none_taken
    | switch found running => exact absurd tick none_taken
  · rcases early.step step with still | opened
    · exact .inl ⟨still, tick⟩
    · exact .inr (.inr ⟨opened.gates, tick⟩)

theorem reaches_window {masterRequests slaveRequests : Finset Line} {tasks : Nat}
    {events : List Event} (run : Reaches disk masterRequests slaveRequests tasks events s) :
    (Early disk s ∧ (false, 0x20) ∉ s.taken) ∨ Blocked s ∨ Past s := by
  refine run.invariant (fun s => (Early disk s ∧ (false, 0x20) ∉ s.taken) ∨ Blocked s ∨ Past s) ?_
    (.inl ⟨early_start masterRequests slaveRequests tasks, List.not_mem_nil⟩)
  intro s event t before _ stepped
  have step := step_iff.mp stepped
  rcases before with ⟨early, none_taken⟩ | blocked | past
  · exact early_tick early none_taken step
  · exact .inr (.inl (blocked.step step).1)
  · exact .inr (.inr (past.step step))

/-- **The early tick.** When the timer's interrupt is taken before the gates are set, no
interrupt is taken after it. -/
theorem early_tick_last {masterRequests slaveRequests : Finset Line} {tasks : Nat}
    {events more : List Event} (run : Reaches disk masterRequests slaveRequests tasks events s)
    (tick : (false, 0x20) ∈ s.taken) (later : Continues s more t) : t.taken = s.taken := by
  rcases reaches_window run with ⟨-, none_taken⟩ | blocked | past
  · exact absurd tick none_taken
  · refine (later.invariant (fun t => Blocked t ∧ t.taken = s.taken) ?_ ⟨blocked, rfl⟩).2
    rintro t event u ⟨blocked_t, same⟩ - stepped
    obtain ⟨blocked_u, kept⟩ := blocked_t.step (step_iff.mp stepped)
    exact ⟨blocked_u, kept.trans same⟩
  · exact absurd tick past.none_taken

/-- A tick after the seventh word, and the keyboard's request behind it. -/
theorem early_tick_last_key :
    ∃ s t, Reaches false ∅ ∅ 0 (List.replicate 7 .exec ++ [.raise false 0, .accept]) s ∧
      s.taken = [(false, 0x20)] ∧
      Continues s (List.replicate 10 .exec ++ [.raise false 1]) t ∧ t.taken = s.taken := by
  obtain ⟨s, run, held⟩ := exists_run (List.replicate 7 .exec ++ [.raise false 0, .accept])
    (start (installs false) ∅ ∅ 0)
    (fun s => decide (s.taken = [(false, 0x20)] ∧
      (List.foldlM (step entry) s (List.replicate 10 .exec ++ [.raise false 1])).isSome))
    (by decide +kernel)
  obtain ⟨taken, more⟩ := of_decide_eq_true held
  obtain ⟨t, continues, -⟩ := exists_run (List.replicate 10 .exec ++ [.raise false 1]) s
    (fun _ => true) (by
      rw [Option.any_true]
      exact more)
  exact ⟨s, t, run, taken, continues, early_tick_last run (by rw [taken]; decide) continues⟩

end Runs

end BlessOS.Guarantees.EarlyTick
