import BlessOS.Lib.LinkedChain
import BlessOS.Lib.Transition
import BlessOS.Source.Hd

/-!
# The request queues are FIFO queues

Each queue is a chain of requests through their `next` fields from its head to its
tail, and no request is in two of them. The calls move requests as they would
between three lists, and a call that fails changes nothing.
-/

set_option autoImplicit false

namespace BlessOS.Guarantees.RequestQueues
open BlessOS.Lib.LinkedChain BlessOS.Lib.Transition
open BlessOS.Source BlessOS.Source.Hd

inductive QueueCall where
  | add (queue : Option QueueName) (req : U32)
  | remove (queue : Option QueueName)
  | switch (source target : Option QueueName)
  deriving DecidableEq, Repr

/-- What a call returns; `NULL` is no request. -/
inductive QueueAnswer where
  | status (code : Int)
  | request (req : Option U32)
  deriving DecidableEq, Repr

def orNull (req : U32) : Option U32 := if req = 0 then none else some req

def queueCall (s : HdState) : QueueCall → HdState × QueueAnswer
  | .add queue req =>
    let result := addRequestToQueue queue req s
    (result.2, .status result.1)
  | .remove queue =>
    let result := removeRequestFromQueue queue s
    (result.2, .request (orNull result.1))
  | .switch source target =>
    let result := switchQueues source target s
    (result.2, .status result.1)

/-- The requests of each queue, oldest first. -/
abbrev Lists := QueueName → List U32

def Lists.push (lists : Lists) (name : QueueName) (req : U32) : Lists :=
  Function.update lists name (lists name ++ [req])

/-- The same calls on three lists. -/
def listCall (lists : Lists) : QueueCall → Lists × QueueAnswer
  | .add (some name) req => (lists.push name req, .status 0)
  | .add none _ => (lists, .status (-1))
  | .remove (some name) =>
    match lists name with
    | [] => (lists, .request none)
    | oldest :: rest => (Function.update lists name rest, .request (some oldest))
  | .remove none => (lists, .request none)
  | .switch (some source) (some target) =>
    match lists source with
    | [] => (lists, .status (-1))
    | oldest :: rest => (Lists.push (Function.update lists source rest) target oldest, .status 0)
  | .switch _ _ => (lists, .status (-1))

def nextOf (s : HdState) (req : U32) : U32 := (s.requests req).next

/-- The queue's chain holds exactly the requests of the list and ends at the tail. -/
structure Holds (s : HdState) (name : QueueName) (l : List U32) : Prop where
  chain : Chain (nextOf s) 0 (s.queues name).head l
  tail : (s.queues name).tail = l.getLast?.getD 0

structure Represents (s : HdState) (lists : Lists) : Prop where
  holds : ∀ name, Holds s name (lists name)
  apart : ∀ a b, a ≠ b → List.Disjoint (lists a) (lists b)

/-- No chain of a queue comes by the request. -/
def InNoQueue (s : HdState) (req : U32) : Prop :=
  ∀ name l, Chain (nextOf s) 0 (s.queues name).head l → req ∉ l

/-- Only requests that are in no queue are added. -/
def Fresh (s : HdState) : QueueCall → Prop
  | .add (some _) req => req ≠ 0 ∧ InNoQueue s req
  | _ => True

variable {s : HdState} {lists : Lists} {name : QueueName} {l rest : List U32} {req : U32}

/-! ## One queue -/

theorem Holds.isEmpty (held : Holds s name l) : isQueueEmpty (s.queues name) = decide (l = []) := by
  unfold isQueueEmpty
  congr 1
  apply propext
  constructor
  · rintro ⟨head, -⟩
    cases l with
    | nil => rfl
    | cons x rest => exact absurd (held.chain.1.symm.trans head) held.chain.2.1
  · rintro rfl
    exact ⟨held.chain, held.tail⟩

/-- A queue only depends on its own record and the links of its requests. -/
theorem Holds.congr {t : HdState} (held : Holds s name l) (queue : t.queues name = s.queues name)
    (links : ∀ x ∈ l, nextOf t x = nextOf s x) : Holds t name l where
  chain := by
    rw [queue]
    exact held.chain.congr links
  tail := by
    rw [queue]
    exact held.tail

@[simp] theorem nextOf_setNext (s : HdState) (req next : U32) :
    nextOf (s.setNext req next) = Function.update (nextOf s) req next := by
  funext x
  by_cases same : x = req
  · subst same
    simp [nextOf, HdState.setNext]
  · simp [nextOf, HdState.setNext, same]

@[simp] theorem nextOf_setQueue (s : HdState) (name : QueueName) (queue : RequestQueue) :
    nextOf (s.setQueue name queue) = nextOf s := rfl

@[simp] theorem queues_setNext (s : HdState) (req next : U32) :
    (s.setNext req next).queues = s.queues := rfl

@[simp] theorem queues_setQueue (s : HdState) (name : QueueName) (queue : RequestQueue) :
    (s.setQueue name queue).queues = Function.update s.queues name queue := rfl

/-- The oldest request is at the head; without it the rest remains. -/
theorem Holds.remove {oldest : U32} (held : Holds s name (oldest :: rest)) :
    ∃ t, removeRequestFromQueue (some name) s = (oldest, t) ∧ nextOf t = nextOf s ∧
      (∀ other, other ≠ name → t.queues other = s.queues other) ∧ Holds t name rest := by
  obtain ⟨head, proper, after⟩ := held.chain
  have tail := held.tail
  have present : ¬ ((s.queues name).head = 0 ∧ (s.queues name).tail = 0) := fun both =>
    proper (head.symm.trans both.1)
  have result : removeRequestFromQueue (some name) s = (oldest, s.setQueue name
      { (s.queues name) with
        head := nextOf s oldest
        tail := if nextOf s oldest = 0 then nextOf s oldest else (s.queues name).tail }) := by
    unfold removeRequestFromQueue
    dsimp only
    rw [if_neg present, head]
    rfl
  refine ⟨_, result, rfl, fun other ne => ?_, ?_, ?_⟩
  · rw [queues_setQueue, Function.update_of_ne ne]
  · rw [queues_setQueue, Function.update_self]
    exact after
  · rw [queues_setQueue, Function.update_self]
    dsimp only
    cases rest with
    | nil =>
      have last : nextOf s oldest = 0 := after
      rw [if_pos last, last]
      rfl
    | cons x rest =>
      have more : nextOf s oldest ≠ 0 := fun zero => after.2.1 (after.1.symm.trans zero)
      rw [if_neg more, tail, List.getLast?_cons_cons]

theorem Holds.remove_empty (held : Holds s name []) :
    removeRequestFromQueue (some name) s = (0, s) := by
  have empty : (s.queues name).head = 0 ∧ (s.queues name).tail = 0 := ⟨held.chain, held.tail⟩
  unfold removeRequestFromQueue
  dsimp only
  rw [if_pos empty]

/-- A request that is not in the queue is added behind its last one. -/
theorem Holds.add (held : Holds s name l) (proper : req ≠ 0) (absent : req ∉ l) :
    ∃ t, addRequestToQueue (some name) req s = (0, t) ∧
      (∀ x, x ≠ req → x ∉ l → nextOf t x = nextOf s x) ∧
      (∀ other, other ≠ name → t.queues other = s.queues other) ∧ Holds t name (l ++ [req]) := by
  unfold addRequestToQueue
  dsimp only
  rw [queues_setNext, held.isEmpty]
  split
  · next empty =>
    have none_held : l = [] := of_decide_eq_true empty
    subst none_held
    refine ⟨_, rfl, fun x other _ => ?_, fun other ne => ?_, ?_, ?_⟩
    · rw [nextOf_setQueue, nextOf_setNext, Function.update_of_ne other]
    · rw [queues_setQueue, Function.update_of_ne ne, queues_setNext]
    · rw [queues_setQueue, Function.update_self, nextOf_setQueue, nextOf_setNext]
      exact ⟨rfl, proper, Function.update_self _ _ _⟩
    · rw [queues_setQueue, Function.update_self]
      rfl
  · next more =>
    have some_held : l ≠ [] := fun empty => more (decide_eq_true empty)
    obtain ⟨before, last, rfl⟩ : ∃ before last, l = before ++ [last] :=
      ⟨_, _, (List.dropLast_append_getLast some_held).symm⟩
    have tail : (s.queues name).tail = last := by
      rw [held.tail, List.getLast?_concat]
      rfl
    have ends : nextOf s last = 0 := held.chain.suffix.2.2
    have spliced := held.chain.insert absent proper
    rw [ends] at spliced
    refine ⟨_, rfl, fun x other outside => ?_, fun other ne => ?_, ?_, ?_⟩
    · have not_last : x ≠ last := fun same =>
        outside (same ▸ List.mem_append_right _ List.mem_cons_self)
      rw [nextOf_setQueue, nextOf_setNext, nextOf_setNext, tail, Function.update_of_ne not_last,
        Function.update_of_ne other]
    · rw [queues_setQueue, Function.update_of_ne ne]
      rfl
    · rw [queues_setQueue, Function.update_self, nextOf_setQueue, nextOf_setNext, nextOf_setNext, tail,
        List.append_assoc]
      exact spliced
    · rw [queues_setQueue, Function.update_self, List.getLast?_concat]
      rfl

/-! ## The three queues -/

theorem Represents.absent (held : Represents s lists) (free : InNoQueue s req) :
    ∀ name, req ∉ lists name :=
  fun name => free name (lists name) (held.holds name).chain

theorem Represents.free (held : Represents s lists) (absent : ∀ name, req ∉ lists name) :
    InNoQueue s req := by
  intro name l chain
  rw [chain.unique (held.holds name).chain]
  exact absent name

/-- The representation only depends on the queues and the links. -/
theorem Represents.congr {t : HdState} (held : Represents s lists) (queues : t.queues = s.queues)
    (links : nextOf t = nextOf s) : Represents t lists where
  holds name := (held.holds name).congr (by rw [queues]) fun x _ => by rw [links]
  apart := held.apart

theorem Represents.remove {oldest : U32} (held : Represents s lists)
    (first : lists name = oldest :: rest) :
    ∃ t, removeRequestFromQueue (some name) s = (oldest, t) ∧
      Represents t (Function.update lists name rest) ∧ oldest ≠ 0 ∧
      ∀ other, oldest ∉ Function.update lists name rest other := by
  have queue := held.holds name
  rw [first] at queue
  obtain ⟨t, removed, links, others, after⟩ := queue.remove
  have nodup := queue.chain.nodup
  have alone : ∀ other, other ≠ name → oldest ∉ lists other := fun other ne member =>
    held.apart name other (Ne.symm ne) (first ▸ List.mem_cons_self) member
  refine ⟨t, removed, ⟨fun other => ?_, fun a b ne => ?_⟩, queue.chain.2.1, fun other => ?_⟩
  · by_cases same : other = name
    · subst same
      rw [Function.update_self]
      exact after
    · rw [Function.update_of_ne same]
      exact (held.holds other).congr (others other same) fun x _ => by rw [links]
  · have less : ∀ c, Function.update lists name rest c ⊆ lists c := by
      intro c x member
      by_cases same : c = name
      · subst same
        rw [Function.update_self] at member
        rw [first]
        exact List.mem_cons_of_mem _ member
      · rwa [Function.update_of_ne same] at member
    exact fun x left right => held.apart a b ne (less a left) (less b right)
  · by_cases same : other = name
    · subst same
      rw [Function.update_self]
      exact (List.nodup_cons.mp nodup).1
    · rw [Function.update_of_ne same]
      exact alone other same

theorem Represents.add (held : Represents s lists) (proper : req ≠ 0)
    (absent : ∀ name, req ∉ lists name) (name : QueueName) :
    ∃ t, addRequestToQueue (some name) req s = (0, t) ∧ Represents t (lists.push name req) := by
  obtain ⟨t, added, links, others, after⟩ := (held.holds name).add proper (absent name)
  refine ⟨t, added, fun other => ?_, fun a b ne => ?_⟩
  · unfold Lists.push
    by_cases same : other = name
    · subst same
      rw [Function.update_self]
      exact after
    · rw [Function.update_of_ne same]
      refine (held.holds other).congr (others other same) fun x member => links x ?_ ?_
      · exact fun eq => absent other (eq ▸ member)
      · exact held.apart other name same member
  · have more : ∀ c x, x ∈ lists.push name req c → x ∈ lists c ∨ c = name ∧ x = req := by
      intro c x member
      unfold Lists.push at member
      by_cases same : c = name
      · subst same
        rw [Function.update_self, List.mem_append, List.mem_singleton] at member
        exact member.imp_right fun eq => ⟨rfl, eq⟩
      · rw [Function.update_of_ne same] at member
        exact Or.inl member
    intro x left right
    rcases more a x left with inA | ⟨isA, eq⟩
    · rcases more b x right with inB | ⟨-, eq⟩
      · exact held.apart a b ne inA inB
      · exact absent a (eq ▸ inA)
    · rcases more b x right with inB | ⟨isB, -⟩
      · exact absent b (eq ▸ inB)
      · exact ne (isA.trans isB.symm)

/-- A call that returns `-1` or `NULL`. -/
def Failed (answer : QueueAnswer) : Prop := answer = .status (-1) ∨ answer = .request none

theorem not_failed_ok : ¬ Failed (.status 0) := by
  rintro (status | request)
  · exact absurd (QueueAnswer.status.inj status) (by decide)
  · cases request

theorem not_failed_request (req : U32) : ¬ Failed (.request (some req)) := by
  rintro (status | request)
  · cases status
  · cases request

/-- Each admitted call answers as on the lists, keeps the representation and, when it
fails, the state. -/
theorem queueCall_spec (s : HdState) (lists : Lists) (a : QueueCall) (held : Represents s lists)
    (fresh : Fresh s a) :
    (queueCall s a).2 = (listCall lists a).2 ∧ Represents (queueCall s a).1 (listCall lists a).1 ∧
      (Failed (queueCall s a).2 → (queueCall s a).1 = s) := by
  cases a with
  | add queue req =>
    cases queue with
    | none => exact ⟨rfl, held, fun _ => rfl⟩
    | some name =>
      obtain ⟨t, added, after⟩ := held.add fresh.1 (held.absent fresh.2) name
      simp only [queueCall, listCall, added]
      exact ⟨trivial, after, fun failed => absurd failed not_failed_ok⟩
  | remove queue =>
    cases queue with
    | none => exact ⟨rfl, held, fun _ => rfl⟩
    | some name =>
      cases first : lists name with
      | nil =>
        have queue := held.holds name
        rw [first] at queue
        simp only [queueCall, listCall, first, queue.remove_empty]
        exact ⟨rfl, held, fun _ => trivial⟩
      | cons oldest rest =>
        obtain ⟨t, removed, after, proper, -⟩ := held.remove first
        simp only [queueCall, listCall, first, removed, orNull, if_neg proper]
        exact ⟨trivial, after, fun failed => absurd failed (not_failed_request oldest)⟩
  | switch source target =>
    cases source with
    | none => exact ⟨rfl, held, fun _ => rfl⟩
    | some source =>
      cases target with
      | none => exact ⟨rfl, held, fun _ => rfl⟩
      | some target =>
        have empty := (held.holds source).isEmpty
        cases first : lists source with
        | nil =>
          rw [first] at empty
          simp only [queueCall, listCall, first, switchQueues, empty, decide_true, if_true]
          exact ⟨trivial, held, fun _ => trivial⟩
        | cons oldest rest =>
          rw [first] at empty
          obtain ⟨t, removed, after, proper, absent⟩ := held.remove first
          obtain ⟨u, added, final⟩ := after.add proper absent target
          simp only [queueCall, listCall, first, switchQueues, empty, removed, added, if_neg proper]
          exact ⟨rfl, final, fun failed => absurd failed not_failed_ok⟩

/-! ## No request is lost -/

/-- The requests of all queues. -/
def Lists.all (lists : Lists) : List U32 :=
  lists .executing ++ lists .pending ++ lists .completed

/-- The requests that calls put into a queue. -/
def added (calls : List QueueCall) : List U32 :=
  calls.filterMap fun
    | .add (some _) req => some req
    | _ => none

/-- The requests that calls returned. -/
def returned (answers : List QueueAnswer) : List U32 :=
  answers.filterMap fun
    | .request req => req
    | _ => none

theorem all_push (lists : Lists) (name : QueueName) (req : U32) :
    (lists.push name req).all.Perm (req :: lists.all) := by
  cases name <;> simp [Lists.all, Lists.push, Function.update, List.perm_iff_count] <;> grind

theorem all_pop {oldest : U32} (first : lists name = oldest :: rest) :
    lists.all.Perm (oldest :: Lists.all (Function.update lists name rest)) := by
  cases name <;> simp [Lists.all, Function.update, first, List.perm_iff_count] <;> grind

/-- What a call returns leaves the queues, what it adds comes into one. -/
theorem listCall_conserves (lists : Lists) (a : QueueCall) :
    ((listCall lists a).1.all ++ returned [(listCall lists a).2]).Perm (lists.all ++ added [a]) := by
  cases a with
  | add queue req =>
    cases queue with
    | none => exact List.Perm.refl _
    | some name =>
      have pushed := all_push lists name req
      simp only [listCall, returned, added, List.filterMap_cons, List.filterMap_nil, List.append_nil]
      exact pushed.trans (List.perm_append_singleton req lists.all).symm
  | remove queue =>
    cases queue with
    | none => exact List.Perm.refl _
    | some name =>
      cases first : lists name with
      | nil =>
        simp only [listCall, first]
        exact List.Perm.refl _
      | cons oldest rest =>
        have popped := all_pop first
        simp only [listCall, first, returned, added, List.filterMap_cons, List.filterMap_nil,
          List.append_nil]
        exact (List.perm_append_singleton oldest _).trans popped.symm
  | switch source target =>
    cases source with
    | none => exact List.Perm.refl _
    | some source =>
      cases target with
      | none => exact List.Perm.refl _
      | some target =>
        cases first : lists source with
        | nil =>
          simp only [listCall, first]
          exact List.Perm.refl _
        | cons oldest rest =>
          have pushed := all_push (Function.update lists source rest) target oldest
          simp only [listCall, first, returned, added, List.filterMap_cons, List.filterMap_nil,
            List.append_nil]
          exact pushed.trans (all_pop first).symm

theorem outputs_conserves (calls : List QueueCall) (lists : Lists) :
    ((outputs listCall lists calls).1.all ++ returned (outputs listCall lists calls).2).Perm
      (lists.all ++ added calls) := by
  induction calls generalizing lists with
  | nil => exact List.Perm.refl _
  | cons a rest ih =>
    have one := listCall_conserves lists a
    have later := ih (listCall lists a).1
    have answers : returned ((listCall lists a).2 :: (outputs listCall (listCall lists a).1 rest).2) =
        returned [(listCall lists a).2] ++ returned (outputs listCall (listCall lists a).1 rest).2 :=
      List.filterMap_append (l := [_])
    have calls : added (a :: rest) = added [a] ++ added rest := List.filterMap_append (l := [a])
    simp only [outputs]
    rw [answers, calls]
    calc (outputs listCall (listCall lists a).1 rest).1.all ++
          (returned [(listCall lists a).2] ++ returned (outputs listCall (listCall lists a).1 rest).2)
        _ = ((outputs listCall (listCall lists a).1 rest).1.all ++ returned [(listCall lists a).2]) ++
            returned (outputs listCall (listCall lists a).1 rest).2 := (List.append_assoc _ _ _).symm
        List.Perm _ (((outputs listCall (listCall lists a).1 rest).1.all ++
            returned (outputs listCall (listCall lists a).1 rest).2) ++
            returned [(listCall lists a).2]) := by
          simp only [List.append_assoc]
          exact List.Perm.append_left _ List.perm_append_comm
        List.Perm _ (((listCall lists a).1.all ++ added rest) ++ returned [(listCall lists a).2]) :=
          later.append_right _
        List.Perm _ (((listCall lists a).1.all ++ returned [(listCall lists a).2]) ++ added rest) := by
          simp only [List.append_assoc]
          exact List.Perm.append_left _ List.perm_append_comm
        List.Perm _ ((lists.all ++ added [a]) ++ added rest) := one.append_right _
        _ = lists.all ++ (added [a] ++ added rest) := List.append_assoc _ _ _

theorem Represents.nodup (held : Represents s lists) : lists.all.Nodup := by
  have each : ∀ name, (lists name).Nodup := fun name => (held.holds name).chain.nodup
  unfold Lists.all
  rw [List.nodup_append', List.nodup_append']
  refine ⟨⟨each _, each _, held.apart _ _ (by decide)⟩, each _, ?_⟩
  rw [List.disjoint_append_left]
  exact ⟨held.apart _ _ (by decide), held.apart _ _ (by decide)⟩

/-! ## Runs -/

/-- The driver when no request has been made. -/
def initial (s : HdState) : HdState := { s with queues := fun _ => emptyQueue }

theorem initial_represents (s : HdState) : Represents (initial s) fun _ => [] where
  holds _ := ⟨rfl, rfl⟩
  apart _ _ _ := List.disjoint_nil_left _

theorem initial_free (s : HdState) (req : U32) : InNoQueue (initial s) req := by
  intro name l chain
  have empty : l = [] := chain.unique (rfl : (0 : U32) = 0)
  rw [empty]
  exact List.not_mem_nil

def queueStep (s : HdState) (a : QueueCall) (t : HdState) : Prop := (queueCall s a).1 = t

/-- From empty queues, any calls that only add requests which are in no queue answer as
on three lists, in the state they lead to the chains are those lists, every request that
was added is in one place or was returned, and a call that fails there changes nothing. -/
theorem requestQueues_refine_fifo {calls : List QueueCall} {t : HdState}
    (run : GuardedRun queueStep Fresh (initial s) calls t) :
    ∃ lists answers, outputs listCall (fun _ => []) calls = (lists, answers) ∧
      outputs queueCall (initial s) calls = (t, answers) ∧ Represents t lists ∧
      lists.all.Nodup ∧ (lists.all ++ returned answers).Perm (added calls) ∧
      ∀ a, Fresh t a → Failed (queueCall t a).2 → (queueCall t a).1 = t := by
  obtain ⟨same, held⟩ := run.refines Represents queueCall listCall
    (fun s lists a held fresh =>
      have spec := queueCall_spec s lists a held fresh
      ⟨spec.1, spec.2.1⟩)
    (initial_represents s)
  exact ⟨_, _, rfl, same, held, held.nodup, outputs_conserves calls fun _ => [],
    fun a fresh failed => (queueCall_spec t _ a held fresh).2.2 failed⟩

/-- A request goes from the pending to the executing queue. -/
theorem requestQueues_refine_fifo_switched : ∃ s t lists,
    GuardedRun queueStep Fresh (initial s)
      [.add (some .pending) 0x1000, .switch (some .pending) (some .executing)] t ∧
    Represents t lists ∧ lists .executing = [0x1000] := by
  let s : HdState :=
    { requests := fun _ => ⟨0, 0, 0, 0, 0, .read, 0, 0, 0⟩, queues := fun _ => emptyQueue,
      issued := [], ports := [] }
  have run : GuardedRun queueStep Fresh (initial s)
      [.add (some .pending) 0x1000, .switch (some .pending) (some .executing)] _ :=
    .snoc (.snoc (.nil _) ⟨by decide, initial_free s 0x1000⟩ rfl) trivial rfl
  obtain ⟨lists, answers, abstract, -, held, -⟩ := requestQueues_refine_fifo run
  cases abstract
  exact ⟨s, _, _, run, held, rfl⟩

end BlessOS.Guarantees.RequestQueues
