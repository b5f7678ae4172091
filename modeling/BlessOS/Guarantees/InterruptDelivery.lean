import BlessOS.Guarantees.InterruptNesting

/-!
# What becomes of a request

With the timer and the keyboard, and as long as no interrupt came before the gates were set, each
handler ends its own line and every request is taken after a few steps.
-/

set_option autoImplicit false

namespace BlessOS.Guarantees.InterruptDelivery
open BlessOS.Lib.InterruptController BlessOS.Lib.InterruptNesting BlessOS.Lib.Transition
open BlessOS.Source BlessOS.Source.Interrupts BlessOS.Guarantees.InterruptNesting

attribute [local instance] lineNeZero

/-- Some more events of a run. -/
def Continues (s : Machine) (events : List Event) (t : Machine) : Prop :=
  GuardedRun (fun s event t => step entry s event = some t) always s events t

section Runs
variable {disk : Bool} {masterRequests slaveRequests : Finset Line} {tasks : Nat}
  {events more : List Event} {s t u : Machine}

theorem Continues.trans (first : Continues s events t) (second : Continues t more u) :
    Continues s (events ++ more) u := by
  induction second with
  | nil => rwa [List.append_nil]
  | snoc run guard next ih =>
    rw [← List.append_assoc]
    exact .snoc ih guard next

theorem Continues.one {event : Event} (step : Step entry s event t) : Continues s [event] t :=
  .snoc (.nil s) trivial (step_iff.mpr step)

/-- A run that was evaluated, with what holds at its end. -/
theorem exists_run (events : List Event) (s : Machine) (p : Machine → Bool)
    (evaluated : (events.foldlM (step entry) s).any p = true) :
    ∃ t, Continues s events t ∧ p t = true := by
  obtain ⟨t, ran, held⟩ := (Option.any_eq_true _ _).mp evaluated
  exact ⟨t, GuardedRun.of_foldlM (fun _ _ _ stepped => ⟨trivial, stepped⟩) events ran, held⟩

/-- The interrupts of a run are those before it and some more. -/
theorem Continues.taken_grows (run : Continues s events t) : ∃ later, t.taken = s.taken ++ later := by
  refine run.invariant (fun t => ∃ later, t.taken = s.taken ++ later) ?_
    ⟨[], (List.append_nil _).symm⟩
  rintro t event u ⟨later, grown⟩ - stepped
  obtain ⟨last, taken⟩ := (step_iff.mp stepped).taken_grows
  exact ⟨later ++ last, by rw [taken, grown, List.append_assoc]⟩

/-! ## The ends of the interrupts -/

theorem settled_ends_nothing {frame : Frame} (settled : Settled disk frame) (value : BitVec 8) :
    .out value 0x20 ∉ frame.rest := by
  intro member
  cases settled with
  | main rest installs =>
    cases installs _ member with
    | timer value port other => rcases other with other | other <;> cases other
  | switches => simp at member
  | returns => simp at member

/-- The lines in service, when none of them is stale. -/
theorem innermost {c : Controller} {running : List Frame} (phase : Phase disk ∅ c running) :
    (∀ l ∈ c.inService, ∃ frame below, running = frame :: below ∧
        frame.rest <:+ entry true (0x20 + BitVec.ofNat 8 l) ∧ .out 0x20 0x20 ∈ frame.rest) ∧
      ∀ frame ∈ running.tail, Settled disk frame := by
  cases phase with
  | work low stack first served =>
    rw [served, Finset.union_empty]
    cases stack with
    | idle => exact ⟨by simp, by simp⟩
    | top first settled =>
      refine ⟨fun l member => ⟨_, _, rfl, ?_⟩, settled⟩
      cases first with
      | settled done => exact absurd member (Finset.notMem_empty l)
      | timer =>
        rw [Finset.mem_singleton.mp member]
        exact ⟨List.suffix_refl _, by decide⟩
      | masked =>
        rw [Finset.mem_singleton.mp member]
        exact ⟨⟨[.cli], rfl⟩, by decide⟩
      | opened =>
        rw [Finset.mem_singleton.mp member]
        exact ⟨⟨[.cli, .sti], rfl⟩, by decide⟩
      | leaving => exact absurd member (Finset.notMem_empty l)
  | key first served settled =>
    refine ⟨fun l member => ⟨_, _, rfl, ?_⟩, settled⟩
    rcases Finset.mem_insert.mp (served ▸ member) with rfl | stale
    · exact ⟨List.suffix_refl _, by decide⟩
    · exact absurd stale (Finset.notMem_empty l)
  | rotated low served settled =>
    rw [served]
    exact ⟨by simp, settled⟩

/-- Behind the gates with the timer and the keyboard, and with nothing stale. -/
structure Quiet (s : Machine) : Prop where
  behind : Behind false s
  late : Late false ∅ s
  slave : s.pics.slave.inService = ∅

/-- Without the disk the second controller hands nothing over. -/
theorem slave_step {event : Event} (behind : Behind false s) (step : Step entry s event t) :
    t.pics.slave.inService = s.pics.slave.inService := by
  cases step with
  | raise slave line => cases slave <;> rfl
  | accept interrupts taken =>
    cases accept_cases behind.configured taken with
    | near l first free => rfl
    | far opened once free => cases opened
  | exec running =>
    have first : s.Left _ :=
      ⟨s.running, .inl rfl, _, running ▸ List.mem_cons_self, List.mem_cons_self⟩
    exact ((behind.left _ first).configured behind.configured).2
  | idle found running => rfl
  | switch found running => rfl

theorem Quiet.step {event : Event} (quiet : Quiet s) (step : Step entry s event t) : Quiet t := by
  have behind := quiet.behind.step step
  have none_disk : (true, 0x2e) ∉ t.taken := fun member => Bool.noConfusion (behind.dead member).1
  obtain ⟨left, fewer, late⟩ := quiet.late.step quiet.behind step none_disk
  rw [Finset.subset_empty.mp fewer] at late
  exact ⟨behind, late, (slave_step quiet.behind step).trans quiet.slave⟩

theorem reaches_quiet (run : Reaches false masterRequests slaveRequests tasks events s)
    (none_early : NoneEarly s) : Early false s ∨ Quiet s := by
  refine run.invariant (fun s => NoneEarly s → Early false s ∨ Quiet s) ?_
    (fun _ => .inl (early_start masterRequests slaveRequests tasks)) none_early
  intro s event t before _ stepped none_early
  have step := step_iff.mp stepped
  obtain ⟨more, taken⟩ := step.taken_grows
  have none_before : NoneEarly s := fun first member =>
    none_early first (taken ▸ List.mem_append_left more member)
  rcases before none_before with early | quiet
  · rcases early.step step with still | opened
    · exact .inl still
    · -- All that was taken is early, and nothing is.
      have none_taken : t.taken = [] := List.eq_nil_iff_forall_not_mem.mpr fun first member =>
        Bool.noConfusion ((opened.early first member).symm.trans (none_early first member))
      obtain ⟨master, slave⟩ := opened.unserved none_taken
      exact .inr ⟨opened.behind, master ▸ opened.late, slave⟩
  · exact .inr (quiet.step step)

/-- **Ends of interrupts.** With the timer and the keyboard, once the gates are set and when no
interrupt was taken before, a line in service belongs to the innermost handler, which has the end
of the interrupt still before it; no other handler sends one, and the second controller has
nothing in service. -/
theorem inService_innermost (run : Reaches false masterRequests slaveRequests tasks events s)
    (none_early : NoneEarly s) (gates : s.gates = true) :
    s.pics.slave.inService = ∅ ∧
      (∀ l ∈ s.pics.master.inService, ∃ frame below, s.running = frame :: below ∧
        frame.rest <:+ entry true (0x20 + BitVec.ofNat 8 l) ∧ .out 0x20 0x20 ∈ frame.rest) ∧
      (∀ frame ∈ s.running.tail, ∀ value, .out value 0x20 ∉ frame.rest) ∧
      ∀ stack ∈ s.suspended, ∀ frame ∈ stack, ∀ value, .out value 0x20 ∉ frame.rest := by
  rcases reaches_quiet run none_early with early | ⟨-, late, slave⟩
  · rw [early.gates] at gates
    cases gates
  · obtain ⟨first, settled⟩ := innermost late.phase
    refine ⟨slave, first, ?_, ?_⟩
    · exact fun frame member => settled_ends_nothing (settled frame member)
    · exact fun stack member frame inside =>
        settled_ends_nothing (late.suspended stack member frame inside)

/-! ## The requests -/

/-- The operations that are left before the stack owes nothing. -/
inductive Due (disk : Bool) : Nat → List Frame → Prop where
  | done {running : List Frame} (settled : ∀ frame ∈ running, Settled disk frame) :
      Due disk 0 running
  | leaving {below : List Frame} (settled : ∀ frame ∈ below, Settled disk frame) :
      Due disk 1 (⟨[.iret], false⟩ :: below)
  | opened {below : List Frame} (settled : ∀ frame ∈ below, Settled disk frame) :
      Due disk 1 (⟨[.out 0x20 0x20, .switchTask, .iret], true⟩ :: below)
  | masked {below : List Frame} (settled : ∀ frame ∈ below, Settled disk frame) :
      Due disk 2 (⟨[.sti, .out 0x20 0x20, .switchTask, .iret], false⟩ :: below)
  | rotated {below : List Frame} (settled : ∀ frame ∈ below, Settled disk frame) :
      Due disk 2 (⟨[.out 0x20 0x20, .iret], false⟩ :: below)
  | timer {below : List Frame} (settled : ∀ frame ∈ below, Settled disk frame) :
      Due disk 3 (⟨doTimer, false⟩ :: below)
  | key {below : List Frame} (settled : ∀ frame ∈ below, Settled disk frame) :
      Due disk 3 (⟨doKb, false⟩ :: below)

theorem exists_due {c : Controller} {running : List Frame} (phase : Phase disk ∅ c running) :
    ∃ n ≤ 3, Due disk n running := by
  cases phase with
  | work low stack first served =>
    cases stack with
    | idle => exact ⟨0, by decide, .done fun _ member => absurd member List.not_mem_nil⟩
    | top first settled =>
      cases first with
      | settled done => exact ⟨0, by decide, .done (List.forall_mem_cons.mpr ⟨done, settled⟩)⟩
      | timer => exact ⟨3, by decide, .timer settled⟩
      | masked => exact ⟨2, by decide, .masked settled⟩
      | opened => exact ⟨1, by decide, .opened settled⟩
      | leaving => exact ⟨1, by decide, .leaving settled⟩
  | key first served settled => exact ⟨3, by decide, .key settled⟩
  | rotated low served settled => exact ⟨2, by decide, .rotated settled⟩

/-- What the ends of interrupts leave alone. -/
def SameRequests (c d : Cascade) : Prop :=
  d.master.requests = c.master.requests ∧ d.master.mask = c.master.mask

theorem endOfInterrupt_sameRequests (c : Cascade) :
    SameRequests c { c with master := c.master.endOfInterrupt } := by
  unfold Controller.endOfInterrupt
  cases c.master.highest c.master.inService <;> exact ⟨rfl, rfl⟩

theorem rotateOnEnd_sameRequests (c : Cascade) :
    SameRequests c { c with master := c.master.rotateOnEnd } := by
  unfold Controller.rotateOnEnd
  cases c.master.highest c.master.inService <;> exact ⟨rfl, rfl⟩

theorem Due.exec {n : Nat} (due : Due disk (n + 1) s.running) :
    ∃ t, Step entry s .exec t ∧ Due disk n t.running ∧ SameRequests s.pics t.pics ∧
      t.taken = s.taken := by
  generalize frames : s.running = running at due
  generalize count : n + 1 = m at due
  cases due with
  | done settled => cases count
  | leaving settled =>
    cases count
    exact ⟨_, .exec frames, .done settled, ⟨rfl, rfl⟩, rfl⟩
  | opened settled =>
    cases count
    exact ⟨_, .exec frames, .done (List.forall_mem_cons.mpr ⟨.switches, settled⟩),
      endOfInterrupt_sameRequests _, rfl⟩
  | masked settled =>
    cases count
    exact ⟨_, .exec frames, .opened settled, ⟨rfl, rfl⟩, rfl⟩
  | rotated settled =>
    cases count
    exact ⟨_, .exec frames, .leaving settled, endOfInterrupt_sameRequests _, rfl⟩
  | timer settled =>
    cases count
    exact ⟨_, .exec frames, .masked settled, ⟨rfl, rfl⟩, rfl⟩
  | key settled =>
    cases count
    exact ⟨_, .exec frames, .rotated settled, rotateOnEnd_sameRequests _, rfl⟩

/-- The kernel's own steps; no device asks for anything. -/
def Own (events : List Event) : Prop := ∀ event ∈ events, event = .exec ∨ event = .accept

/-- The handlers in progress come to their ends. -/
theorem settles {n : Nat} (quiet : Quiet s) (due : Due false n s.running) :
    ∃ events t, Own events ∧ events.length = n ∧ Continues s events t ∧ Quiet t ∧
      (∀ frame ∈ t.running, Settled false frame) ∧ SameRequests s.pics t.pics ∧
      t.taken = s.taken := by
  induction n generalizing s with
  | zero =>
    have settled : ∀ frame ∈ s.running, Settled false frame := by
      generalize s.running = running at due
      cases due with
      | done settled => exact settled
    exact ⟨[], s, by simp [Own], rfl, .nil s, quiet, settled, ⟨rfl, rfl⟩, rfl⟩
  | succ n ih =>
    obtain ⟨u, step, due_u, same_u, taken_u⟩ := due.exec
    obtain ⟨events, t, own, length, run, quiet_t, settled, same_t, taken_t⟩ :=
      ih (quiet.step step) due_u
    refine ⟨.exec :: events, t, ?_, ?_, (Continues.one step).trans run, quiet_t, settled, ?_, ?_⟩
    · exact List.forall_mem_cons.mpr ⟨.inl rfl, own⟩
    · rw [List.length_cons, length]
    · exact ⟨same_t.1.trans same_u.1, same_t.2.trans same_u.2⟩
    · exact taken_t.trans taken_u

/-- When nothing is owed, nothing is in service. -/
theorem settled_serves_nothing {c : Controller} {running : List Frame}
    (phase : Phase disk ∅ c running) (settled : ∀ frame ∈ running, Settled disk frame) :
    c.inService = ∅ ∧ ∀ frame below, running = frame :: below → frame.enabled = true := by
  have enabled : ∀ frame, Settled disk frame → frame.enabled = true := by
    intro frame done
    cases done <;> rfl
  refine ⟨Finset.eq_empty_of_forall_notMem fun l member => ?_, ?_⟩
  · obtain ⟨frame, below, rfl, -, ends⟩ := (innermost phase).1 l member
    exact settled_ends_nothing (settled frame List.mem_cons_self) 0x20 ends
  · rintro frame below rfl
    exact enabled frame (settled frame List.mem_cons_self)

/-- A request is taken, of the line that was asked for or of the other one. -/
theorem takes {l : Line} (quiet : Quiet s)
    (settled : ∀ frame ∈ s.running, Settled false frame) (line : l = 0 ∨ l = 1)
    (requested : l ∈ s.pics.master.requests) (unmasked : s.pics.master.mask.getLsbD l = false) :
    ∃ k t, (k = 0 ∨ k = 1) ∧ k ∈ s.pics.master.requests ∧ Step entry s .accept t ∧
      t.taken = s.taken ++ [(true, 0x20 + BitVec.ofNat 8 k)] ∧
      t.pics.master.requests = s.pics.master.requests.erase k ∧
      t.pics.master.mask = s.pics.master.mask := by
  obtain ⟨served, enabled⟩ := settled_serves_nothing quiet.late.phase settled
  have interrupts : s.interruptible = true := by
    unfold Machine.interruptible
    cases frames : s.running with
    | nil => rfl
    | cons frame below => exact enabled frame below frames
  have near : l ≠ 2 := by rcases line with rfl | rfl <;> decide
  have wired_requests : ∀ k : Line, k ≠ 2 →
      (k ∈ s.pics.wired.requests ↔ k ∈ s.pics.master.requests) := by
    intro k other
    unfold Cascade.wired
    dsimp only
    split
    · exact Finset.mem_insert.trans (or_iff_right other)
    · exact Finset.mem_erase.trans (and_iff_right other)
  have pending : l ∈ s.pics.wired.pending :=
    Controller.mem_pending.mpr ⟨(wired_requests l near).mpr requested, unmasked⟩
  have free : ∀ k ∈ s.pics.wired.inService, s.pics.wired.rank l < s.pics.wired.rank k := by
    intro k member
    change k ∈ s.pics.master.inService at member
    rw [served] at member
    exact absurd member (Finset.notMem_empty k)
  have some_request : s.pics.wired.request.isSome :=
    Controller.request_isSome quiet.behind.configured.masterReady pending free
  obtain ⟨k, found⟩ := Option.isSome_iff_exists.mp some_request
  obtain ⟨-, ⟨first, -⟩, -⟩ := Controller.request_eq_some.mp found
  obtain ⟨asked, open_line⟩ := Controller.mem_pending.mp first
  have among : k = 0 ∨ k = 1 := by
    rcases quiet.behind.configured.masterMask k open_line with timer | key | ⟨absurd_disk, -⟩
    · exact .inl timer
    · exact .inr key
    · cases absurd_disk
  have other : k ≠ 2 := by rcases among with rfl | rfl <;> decide
  have taken : s.pics.accept = some (0x20 + BitVec.ofNat 8 k,
      { s.pics with master := s.pics.master.acknowledge k }) := by
    have vector : Cascade.vector s.pics.master k = 0x20 + BitVec.ofNat 8 k := by
      rw [Cascade.vector, quiet.behind.configured.masterBase]
    rw [Cascade.accept, found, Option.bind_some, if_neg other, vector]
  refine ⟨k, _, among, (wired_requests k other).mp asked, .accept interrupts taken, ?_, rfl, rfl⟩
  rw [quiet.behind.gates]

/-- **Requests are served.** With the timer and the keyboard, once the gates are set and when no
interrupt was taken before, whatever is in progress, a request of an unmasked line is taken by at
most eight steps of the kernel alone. -/
theorem requests_served (run : Reaches false masterRequests slaveRequests tasks events s)
    (none_early : NoneEarly s) (gates : s.gates = true) {l : Line} (line : l = 0 ∨ l = 1)
    (requested : l ∈ s.pics.master.requests) (unmasked : s.pics.master.mask.getLsbD l = false) :
    ∃ more t later, Own more ∧ more.length ≤ 8 ∧ Continues s more t ∧
      t.taken = s.taken ++ later ∧ (true, 0x20 + BitVec.ofNat 8 l) ∈ later := by
  rcases reaches_quiet run none_early with early | quiet
  · rw [early.gates] at gates
    cases gates
  · obtain ⟨n, bound, due⟩ := exists_due quiet.late.phase
    obtain ⟨first, t, own, length, run_t, quiet_t, settled, same, taken⟩ := settles quiet due
    obtain ⟨k, u, other, asked, step, taken_u, requests_u, mask_u⟩ := takes quiet_t settled line
      (same.1 ▸ requested) (same.2 ▸ unmasked)
    have run_u : Continues s (first ++ [.accept]) u := run_t.trans (.one step)
    have own_u : Own (first ++ [.accept]) :=
      List.forall_mem_append.mpr ⟨own, List.forall_mem_singleton.mpr (.inr rfl)⟩
    rw [taken] at taken_u
    by_cases found : l = k
    · refine ⟨_, u, _, own_u, ?_, run_u, taken_u, ?_⟩
      · simp only [List.length_append, List.length_singleton]
        omega
      · rw [found]
        exact List.mem_singleton_self _
    · have quiet_u := quiet_t.step step
      obtain ⟨m, bound_m, due_u⟩ := exists_due quiet_u.late.phase
      obtain ⟨second, v, own_v, length_v, run_v, quiet_v, settled_v, same_v, taken_v⟩ :=
        settles quiet_u due_u
      have still : l ∈ v.pics.master.requests := by
        rw [same_v.1, requests_u, same.1]
        exact Finset.mem_erase.mpr ⟨found, requested⟩
      have still_unmasked : v.pics.master.mask.getLsbD l = false := by
        rw [same_v.2, mask_u, same.2]
        exact unmasked
      obtain ⟨k', w, other', asked', step', taken_w, -, -⟩ :=
        takes quiet_v settled_v line still still_unmasked
      have notFirst : k' ≠ k := by
        rw [same_v.1, requests_u] at asked'
        exact (Finset.mem_erase.mp asked').1
      have same_line : l = k' := by
        rcases line with rfl | rfl <;> rcases other with rfl | rfl <;>
          rcases other' with rfl | rfl <;> simp_all
      rw [taken_v, taken_u, List.append_assoc] at taken_w
      refine ⟨(first ++ [.accept]) ++ (second ++ [.accept]), w, _, ?_, ?_,
        run_u.trans (run_v.trans (.one step')), taken_w, ?_⟩
      · exact List.forall_mem_append.mpr ⟨own_u,
          List.forall_mem_append.mpr ⟨own_v, List.forall_mem_singleton.mpr (.inr rfl)⟩⟩
      · simp only [List.length_append, List.length_singleton]
        omega
      · rw [same_line]
        exact List.mem_append_right _ (List.mem_singleton_self _)

end Runs

/-! ## Runs that were evaluated -/

/-- `main` up to the last line that it unmasks. -/
def installed : List Event := List.replicate 16 .exec

/-- A tick while `main` goes on. -/
theorem inService_innermost_tick :
    ∃ s, Reaches false ∅ ∅ 1 (installed ++ [.raise false 0, .accept]) s ∧
      ∃ frame below, s.running = frame :: below ∧ .out 0x20 0x20 ∈ frame.rest := by
  obtain ⟨s, run, held⟩ := exists_run (installed ++ [.raise false 0, .accept])
    (start (installs false) ∅ ∅ 1)
    (fun s => decide ((0 : Line) ∈ s.pics.master.inService ∧ s.gates = true ∧ NoneEarly s))
    (by decide +kernel)
  obtain ⟨served, gates, none_early⟩ := of_decide_eq_true held
  obtain ⟨frame, below, frames, -, ends⟩ :=
    (inService_innermost run none_early gates).2.1 0 served
  exact ⟨s, run, frame, below, frames, ends⟩

/-- A key while the tick is in service. -/
theorem requests_served_key :
    ∃ s t more later, Reaches false ∅ ∅ 0
        (installed ++ [.raise false 0, .accept, .exec, .exec, .raise false 1]) s ∧
      Continues s more t ∧ t.taken = s.taken ++ later ∧ (true, 0x21) ∈ later := by
  obtain ⟨s, run, held⟩ := exists_run
    (installed ++ [.raise false 0, .accept, .exec, .exec, .raise false 1])
    (start (installs false) ∅ ∅ 0)
    (fun s => decide ((1 : Line) ∈ s.pics.master.requests ∧
      s.pics.master.mask.getLsbD 1 = false ∧ s.gates = true ∧ NoneEarly s)) (by decide +kernel)
  obtain ⟨requested, unmasked, gates, none_early⟩ := of_decide_eq_true held
  obtain ⟨more, t, later, -, -, continues, taken, served⟩ :=
    requests_served run none_early gates (.inr rfl) requested unmasked
  exact ⟨s, t, more, later, run, continues, taken, served⟩

end BlessOS.Guarantees.InterruptDelivery
