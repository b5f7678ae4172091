import BlessOS.Guarantees.RequestQueues

/-!
# What `submit_request` sends to the drive

`submit_request` moves the oldest pending request behind the executing ones and then
sends the request at the head of the executing queue. `hd_interrupt` does not take
the completed request out, so every call sends the first request again, and the
calls send the requests in order exactly when all of them ask for the same.
-/

set_option autoImplicit false

namespace BlessOS.Guarantees.SubmitRequest
open BlessOS.Lib.LinkedChain BlessOS.Lib.Transition
open BlessOS.Source BlessOS.Source.Pata BlessOS.Source.Hd
open BlessOS.Guarantees.RequestQueues

/-- `create_request` with what `kmalloc` returned for it and `add_request_to_queue`,
`submit_request` with the status bytes it reads, and an interrupt of the drive. -/
inductive DriveCall where
  | create (req hd nsector sector head cylinder : U32) (type : RequestType) (bh : U32)
  | submit (status : Nat → U8) (drq : U8)
  | interrupt

def driveStep (s : HdState) : DriveCall → HdState → Prop
  | .create req hd nsector sector head cylinder type bh, t =>
    ∃ u, createRequest req hd nsector sector head cylinder type bh s = some (req, u) ∧
      t = (addRequestToQueue (some .pending) req u).2
  | .submit status drq, t => submitRequest status drq s = some t
  | .interrupt, t => t = hdInterrupt s

/-- `kmalloc` returns memory that is not in use, and requests are only submitted when one
is pending. -/
def Admitted (s : HdState) : DriveCall → Prop
  | .create req .. => req ≠ 0 ∧ InNoQueue s req
  | .submit _ _ => isQueueEmpty (s.queues .pending) = false
  | .interrupt => True

/-- The parameters of the requests, in the order they are made. -/
def requested (calls : List DriveCall) : List Command :=
  calls.filterMap fun
    | .create _ hd nsector sector head cylinder type _ =>
      some ⟨hd, nsector, sector, head, cylinder, if type = .read then ataCmdRead else ataCmdWrite⟩
    | _ => none

def submits (calls : List DriveCall) : Nat :=
  calls.countP fun
    | .submit _ _ => true
    | _ => false

variable {s t : HdState} {lists : Lists} {req : U32}

/-! ## The parameters of a request do not change -/

theorem command_setNext (s : HdState) (req next x : U32) :
    command ((s.setNext req next).requests x) = command (s.requests x) := by
  by_cases same : x = req
  · subst same
    simp [HdState.setNext, command]
  · simp [HdState.setNext, same]

theorem command_add (s : HdState) (queue : Option QueueName) (req x : U32) :
    command ((addRequestToQueue queue req s).2.requests x) = command (s.requests x) := by
  cases queue with
  | none => rfl
  | some name =>
    unfold addRequestToQueue
    dsimp only
    split
    · exact command_setNext s req 0 x
    · exact (command_setNext _ _ _ x).trans (command_setNext s req 0 x)

theorem requests_remove (s : HdState) (queue : Option QueueName) :
    (removeRequestFromQueue queue s).2.requests = s.requests := by
  cases queue with
  | none => rfl
  | some name =>
    unfold removeRequestFromQueue
    dsimp only
    split <;> rfl

theorem command_switch (s : HdState) (source target : Option QueueName) (x : U32) :
    command ((switchQueues source target s).2.requests x) = command (s.requests x) := by
  cases source with
  | none => rfl
  | some source =>
    cases target with
    | none => rfl
    | some target =>
      have kept := requests_remove s (some source)
      unfold switchQueues
      dsimp only
      split
      · rfl
      · split
        · rw [kept]
        · rw [command_add, kept]

/-! ## The queues of the drive -/

/-- The parameters of the first request. -/
def firstCommand (made : List (U32 × Command)) : Command :=
  (made.head?.map Prod.snd).getD ⟨0, 0, 0, 0, 0, 0⟩

/-- The requests made, in order, of which the first `count` have been submitted. -/
structure DriveInv (s : HdState) (made : List (U32 × Command)) (count : Nat) : Prop where
  lists : ∃ lists, Represents s lists ∧ lists .executing = (made.take count).map Prod.fst ∧
    lists .pending = (made.drop count).map Prod.fst ∧ lists .completed = []
  most : count ≤ made.length
  fields : ∀ r ∈ made, command (s.requests r.1) = r.2
  issued : s.issued = List.replicate count (firstCommand made)

variable {made : List (U32 × Command)} {count : Nat}

/-- The requests made are those in the queues. -/
theorem DriveInv.in_queue (inv : DriveInv s made count) (free : InNoQueue s req) :
    ∀ r ∈ made, r.1 ≠ req := by
  obtain ⟨⟨lists, held, executing, pending, -⟩, -, -, -⟩ := inv
  rintro r member rfl
  have absent := held.absent free
  have split := List.take_append_drop count made
  rw [← split] at member
  rcases List.mem_append.mp member with early | late
  · exact absent .executing (executing ▸ List.mem_map_of_mem early)
  · exact absent .pending (pending ▸ List.mem_map_of_mem late)

/-- Memory that holds none of them is in no queue. -/
theorem DriveInv.free (inv : DriveInv s made count) (others : ∀ r ∈ made, r.1 ≠ req) :
    InNoQueue s req := by
  obtain ⟨⟨lists, held, executing, pending, completed⟩, -, -, -⟩ := inv
  refine held.free fun name member => ?_
  cases name with
  | executing =>
    rw [executing] at member
    obtain ⟨r, early, same⟩ := List.mem_map.mp member
    exact others r (List.mem_of_mem_take early) same
  | pending =>
    rw [pending] at member
    obtain ⟨r, late, same⟩ := List.mem_map.mp member
    exact others r (List.mem_of_mem_drop late) same
  | completed =>
    rw [completed] at member
    cases member

theorem firstCommand_append (made : List (U32 × Command)) (r : U32 × Command) :
    firstCommand (made ++ [r]) = if made = [] then r.2 else firstCommand made := by
  cases made <;> simp [firstCommand]

theorem createRequest_spec (s : HdState) (hd nsector sector head cylinder bh : U32)
    (type : RequestType) (proper : req ≠ 0) :
    ∃ request, createRequest req hd nsector sector head cylinder type bh s =
      some (req, { s with requests := Function.update s.requests req request }) ∧
      command request = ⟨hd, nsector, sector, head, cylinder,
        if type = .read then ataCmdRead else ataCmdWrite⟩ :=
  ⟨⟨hd, nsector, sector, head, cylinder, type, 0, bh, 0⟩, if_neg proper, rfl⟩

theorem issued_remove (s : HdState) (queue : Option QueueName) :
    (removeRequestFromQueue queue s).2.issued = s.issued := by
  cases queue with
  | none => rfl
  | some name =>
    unfold removeRequestFromQueue
    dsimp only
    split <;> rfl

theorem issued_add (s : HdState) (queue : Option QueueName) (req : U32) :
    (addRequestToQueue queue req s).2.issued = s.issued := by
  cases queue with
  | none => rfl
  | some name =>
    unfold addRequestToQueue
    dsimp only
    split <;> rfl

theorem issued_switch (s : HdState) (source target : Option QueueName) :
    (switchQueues source target s).2.issued = s.issued := by
  cases source with
  | none => rfl
  | some source =>
    cases target with
    | none => rfl
    | some target =>
      have kept := issued_remove s (some source)
      unfold switchQueues
      dsimp only
      split
      · rfl
      · split
        · exact kept
        · exact (issued_add _ _ _).trans kept

/-- A new request comes behind the pending ones. -/
theorem DriveInv.create (inv : DriveInv s made count)
    (req hd nsector sector head cylinder : U32) (type : RequestType) (bh : U32)
    (proper : req ≠ 0) (free : InNoQueue s req) :
    ∃ t, driveStep s (.create req hd nsector sector head cylinder type bh) t ∧
      DriveInv t (made ++ [(req, ⟨hd, nsector, sector, head, cylinder,
        if type = .read then ataCmdRead else ataCmdWrite⟩)]) count := by
  have others := inv.in_queue free
  obtain ⟨⟨lists, held, executing, pending, completed⟩, most, fields, issued⟩ := inv
  obtain ⟨request, result, value⟩ :=
    createRequest_spec s hd nsector sector head cylinder bh type proper
  have absent := held.absent free
  have filled : Represents { s with requests := Function.update s.requests req request } lists :=
    ⟨fun name => (held.holds name).congr rfl fun x member => by
        have other : x ≠ req := fun same => absent name (same ▸ member)
        simp [nextOf, other],
      held.apart⟩
  obtain ⟨v, added, after⟩ := filled.add proper absent .pending
  have kept := command_add { s with requests := Function.update s.requests req request }
    (some .pending) req
  have log := issued_add { s with requests := Function.update s.requests req request }
    (some .pending) req
  rw [added] at kept log
  refine ⟨v, ⟨_, result, by rw [added]⟩, ⟨_, after, ?_, ?_, completed⟩, ?_, ?_, ?_⟩
  · rw [List.take_append_of_le_length most]
    exact executing
  · rw [List.drop_append_of_le_length most, List.map_append, ← pending]
    rfl
  · rw [List.length_append]
    exact Nat.le_add_right_of_le most
  · intro r member
    rw [kept]
    rcases List.mem_append.mp member with early | last
    · dsimp only
      rw [Function.update_of_ne (others r early)]
      exact fields r early
    · rw [List.mem_singleton.mp last]
      dsimp only
      rw [Function.update_self, value]
  · rw [log, issued, firstCommand_append]
    split
    · next none_made =>
      rw [none_made] at most
      rw [Nat.le_zero.mp most]
      rfl
    · rfl

/-- There is a pending request as long as not all have been submitted. -/
theorem DriveInv.pending_iff (inv : DriveInv s made count) :
    isQueueEmpty (s.queues .pending) = false ↔ count < made.length := by
  obtain ⟨⟨lists, held, -, pending, -⟩, -, -, -⟩ := inv
  rw [(held.holds .pending).isEmpty, pending, decide_eq_false_iff_not, List.map_eq_nil_iff,
    List.drop_eq_nil_iff, Nat.not_le]

/-- A submitted request comes behind the executing ones, and the first of these is sent. -/
theorem DriveInv.submit (inv : DriveInv s made count) (status : Nat → U8) (drq : U8)
    (short : count < made.length) :
    ∃ t, driveStep s (.submit status drq) t ∧ DriveInv t made (count + 1) := by
  obtain ⟨⟨lists, held, executing, pending, completed⟩, most, fields, issued⟩ := inv
  have oldest : lists .pending = made[count].1 :: (made.drop (count + 1)).map Prod.fst := by
    rw [pending, List.drop_eq_getElem_cons short]
    rfl
  obtain ⟨answer, after, -⟩ := queueCall_spec s lists (.switch (some .pending) (some .executing)) held
    trivial
  have kept := command_switch s (some .pending) (some .executing)
  have log := issued_switch s (some .pending) (some .executing)
  simp only [queueCall, listCall, oldest] at answer after
  have done : (switchQueues (some .pending) (some .executing) s).1 = 0 := QueueAnswer.status.inj answer
  unfold driveStep submitRequest
  dsimp only
  rw [if_neg (by rw [done]; decide)]
  refine ⟨_, rfl, ?_⟩
  generalize (switchQueues (some .pending) (some .executing) s).2 = u at after kept log
  have executing' : Lists.push (Function.update lists .pending ((made.drop (count + 1)).map Prod.fst))
      .executing made[count].1 .executing = (made.take (count + 1)).map Prod.fst := by
    simp only [Lists.push, Function.update_self]
    rw [Function.update_of_ne (by decide), executing, List.take_succ_eq_append_getElem short,
      List.map_append]
    rfl
  obtain ⟨first, rest, made_eq⟩ : ∃ first rest, made = first :: rest :=
    List.exists_cons_of_length_pos (Nat.zero_lt_of_lt short)
  have head : (u.queues .executing).head = first.1 := by
    have chain := (after.holds .executing).chain
    rw [executing', made_eq] at chain
    exact chain.1
  have command_eq : command (u.requests (u.queues .executing).head) = firstCommand made := by
    rw [head, kept, fields first (made_eq ▸ List.mem_cons_self), made_eq]
    rfl
  refine ⟨⟨_, after.congr rfl rfl, executing', ?_, completed⟩, short,
    fun r member => (kept r.1).trans (fields r member), ?_⟩
  · simp only [Lists.push]
    rw [Function.update_of_ne (by decide), Function.update_self]
  · change u.issued ++ [_] = _
    rw [log, issued, command_eq, List.replicate_succ']

/-! ## Runs -/

/-- Every admitted call returns, and keeps track of the requests. -/
theorem DriveInv.step (inv : DriveInv s made count) {a : DriveCall} (guard : Admitted s a) :
    ∃ t made', driveStep s a t ∧ made'.map Prod.snd = made.map Prod.snd ++ requested [a] ∧
      DriveInv t made' (count + submits [a]) := by
  cases a with
  | create req hd nsector sector head cylinder type bh =>
    obtain ⟨t, next, inv'⟩ := inv.create req hd nsector sector head cylinder type bh guard.1 guard.2
    exact ⟨t, _, next, List.map_append, inv'⟩
  | submit status drq =>
    obtain ⟨t, next, inv'⟩ := inv.submit status drq (inv.pending_iff.mp guard)
    exact ⟨t, made, next, (List.append_nil _).symm, inv'⟩
  | interrupt => exact ⟨s, made, rfl, (List.append_nil _).symm, inv⟩

/-- Zeroed memory. -/
def blank : HdState :=
  { requests := fun _ => ⟨0, 0, 0, 0, 0, .read, 0, 0, 0⟩, queues := fun _ => emptyQueue,
    issued := [], ports := [] }

end BlessOS.Guarantees.SubmitRequest
