import Mathlib.Data.Finset.Card
import Mathlib.Data.Finset.Range
import BlessOS.Guarantees.RequestQueues

/-!
# The sizes of the request queues

`add_request_to_queue` counts the request, and `remove_request_from_queue` does not count it
out again. So the sizes are right as long as no request is taken from a queue, and wrong
right after the first one is.
-/

set_option autoImplicit false

namespace BlessOS.Guarantees.QueueSize
open BlessOS.Lib.LinkedChain BlessOS.Lib.Transition
open BlessOS.Source BlessOS.Source.Hd
open BlessOS.Guarantees.RequestQueues

variable {s t : HdState} {lists : Lists} {name other : QueueName} {req : U32} {l : List U32}

/-- Every queue's size is the number of requests that are reached from its head. -/
def SizesCount (s : HdState) : Prop :=
  ∀ name, ∃ l, Chain (nextOf s) 0 (s.queues name).head l ∧ (s.queues name).size.toNat = l.length

/-- The call finds no request to take out of a queue. -/
def TakesNothing (s : HdState) : QueueCall → Prop
  | .remove (some name) => isQueueEmpty (s.queues name) = true
  | .switch (some source) (some _) => isQueueEmpty (s.queues source) = true
  | _ => True

/-! ## What a call does to the sizes -/

theorem addRequestToQueue_size (name : QueueName) (req : U32) (s : HdState) (other : QueueName) :
    ((addRequestToQueue (some name) req s).2.queues other).size =
      if other = name then (s.queues other).size + 1 else (s.queues other).size := by
  unfold addRequestToQueue
  dsimp only
  split
  all_goals
    rw [queues_setQueue]
    by_cases same : other = name
    · subst same
      rw [Function.update_self, if_pos rfl]
      rfl
    · rw [Function.update_of_ne same, if_neg same]
      rfl

theorem removeRequestFromQueue_size (queue : Option QueueName) (s : HdState) (other : QueueName) :
    ((removeRequestFromQueue queue s).2.queues other).size = (s.queues other).size := by
  unfold removeRequestFromQueue
  cases queue with
  | none => rfl
  | some name =>
    dsimp only
    split
    · rfl
    · rw [queues_setQueue]
      by_cases same : other = name
      · subst same
        rw [Function.update_self]
      · rw [Function.update_of_ne same]

/-- There are fewer requests than addresses. -/
theorem length_lt (nodup : l.Nodup) (proper : ∀ x ∈ l, x ≠ 0) : l.length + 1 ≤ 2 ^ 32 := by
  have apart : (0 :: l).Nodup := List.nodup_cons.mpr ⟨fun member => proper 0 member rfl, nodup⟩
  have values : ((0 :: l).map BitVec.toNat).Nodup :=
    apart.map fun x y same => BitVec.eq_of_toNat_eq same
  have below : ((0 :: l).map BitVec.toNat).toFinset ⊆ Finset.range (2 ^ 32) := by
    intro x member
    obtain ⟨word, -, rfl⟩ := List.mem_map.mp (List.mem_toFinset.mp member)
    exact Finset.mem_range.mpr word.isLt
  have card := Finset.card_le_card below
  rw [Finset.card_range, List.toFinset_card_of_nodup values, List.length_map] at card
  exact card

/-! ## Counted queues -/

/-- The queues hold the lists, and their sizes are the lengths of these. -/
structure Counted (s : HdState) (lists : Lists) : Prop where
  holds : Represents s lists
  sizes : ∀ name, (s.queues name).size.toNat = (lists name).length

theorem sizesCount_iff (held : Represents s lists) : SizesCount s ↔ Counted s lists := by
  constructor
  · intro counts
    refine ⟨held, fun name => ?_⟩
    obtain ⟨l, chain, size⟩ := counts name
    rw [chain.unique (held.holds name).chain] at size
    exact size
  · rintro ⟨-, sizes⟩ name
    exact ⟨lists name, (held.holds name).chain, sizes name⟩

theorem lists_room (held : Represents s lists) (name : QueueName) :
    (lists name).length + 1 ≤ 2 ^ 32 :=
  length_lt (held.holds name).chain.nodup (held.holds name).chain.ne_null

/-- What is in a queue is looked at first. -/
theorem isEmpty_iff (counted : Counted s lists) (name : QueueName) :
    isQueueEmpty (s.queues name) = true ↔ lists name = [] := by
  rw [(counted.holds.holds name).isEmpty, decide_eq_true_iff]

theorem add_counts (counted : Counted s lists) (fresh : Fresh s (.add (some name) req)) :
    SizesCount (queueCall s (.add (some name) req)).1 := by
  have after := (queueCall_spec s lists _ counted.holds fresh).2.1
  refine (sizesCount_iff after).mpr ⟨after, fun other => ?_⟩
  have room := lists_room counted.holds other
  have room' := lists_room after other
  have size := counted.sizes other
  have step := addRequestToQueue_size name req s other
  change ((addRequestToQueue (some name) req s).2.queues other).size.toNat =
    (lists.push name req other).length
  change (lists.push name req other).length + 1 ≤ 2 ^ 32 at room'
  unfold Lists.push at room' ⊢
  rw [step]
  by_cases same : other = name
  · subst same
    rw [Function.update_self, List.length_append] at room' ⊢
    rw [if_pos rfl, BitVec.toNat_add, size]
    change _ + 1 + 1 ≤ _ at room'
    change (_ + 1) % _ = _ + 1
    omega
  · rw [Function.update_of_ne same, if_neg same, size]

/-- A request is taken out, and the size stays. -/
theorem remove_miscounts {oldest : U32} {rest : List U32} (counted : Counted s lists)
    (first : lists name = oldest :: rest) :
    ¬ SizesCount (queueCall s (.remove (some name))).1 := by
  intro counts
  have after := (queueCall_spec s lists (.remove (some name)) counted.holds trivial).2.1
  have wrong := ((sizesCount_iff after).mp counts).sizes name
  have size := counted.sizes name
  have kept := removeRequestFromQueue_size (some name) s name
  have left : (listCall lists (.remove (some name))).1 name = rest := by
    simp only [listCall, first, Function.update_self]
  change ((removeRequestFromQueue (some name) s).2.queues name).size.toNat = _ at wrong
  rw [kept, size, left, first, List.length_cons] at wrong
  omega

theorem switch_miscounts {source target : QueueName} {oldest : U32} {rest : List U32}
    (counted : Counted s lists) (first : lists source = oldest :: rest) :
    ¬ SizesCount (queueCall s (.switch (some source) (some target))).1 := by
  intro counts
  have after := (queueCall_spec s lists (.switch (some source) (some target)) counted.holds
    trivial).2.1
  have wrong := ((sizesCount_iff after).mp counts).sizes source
  have size := counted.sizes source
  have empty := (counted.holds.holds source).isEmpty
  rw [first] at empty size
  obtain ⟨u, removed, -, proper, -⟩ := counted.holds.remove first
  have kept := removeRequestFromQueue_size (some source) s source
  rw [removed] at kept
  have result : (queueCall s (.switch (some source) (some target))).1 =
      (addRequestToQueue (some target) oldest u).2 := by
    simp only [queueCall, switchQueues, empty, removed, if_neg proper]
    rfl
  have left : (listCall lists (.switch (some source) (some target))).1 source =
      Lists.push (Function.update lists source rest) target oldest source := by
    simp only [listCall, first]
  rw [result, addRequestToQueue_size, left] at wrong
  unfold Lists.push at wrong
  by_cases same : source = target
  · subst same
    rw [if_pos rfl, kept, Function.update_self, Function.update_self, List.length_append,
      BitVec.toNat_add, size] at wrong
    change (rest.length + 1 + 1) % 2 ^ 32 = rest.length + 1 at wrong
    have room := (s.queues source).size.isLt
    rw [size, List.length_cons] at room
    omega
  · rw [if_neg same, kept, Function.update_of_ne same, Function.update_self, size,
      List.length_cons] at wrong
    omega

/-- From queues that are counted, a call counts them again exactly if it takes nothing. -/
theorem queueCall_counts_iff (counted : Counted s lists) {a : QueueCall} (fresh : Fresh s a) :
    SizesCount (queueCall s a).1 ↔ TakesNothing s a := by
  have same : SizesCount s := (sizesCount_iff counted.holds).mpr counted
  cases a with
  | add queue req =>
    cases queue with
    | none => exact iff_of_true same trivial
    | some name => exact iff_of_true (add_counts counted fresh) trivial
  | remove queue =>
    cases queue with
    | none => exact iff_of_true same trivial
    | some name =>
      show _ ↔ isQueueEmpty (s.queues name) = true
      rw [isEmpty_iff counted]
      cases first : lists name with
      | nil =>
        have queue := counted.holds.holds name
        rw [first] at queue
        refine iff_of_true ?_ rfl
        simp only [queueCall, queue.remove_empty]
        exact same
      | cons oldest rest =>
        exact iff_of_false (remove_miscounts counted first) (List.cons_ne_nil _ _)
  | switch source target =>
    cases source with
    | none => exact iff_of_true same trivial
    | some source =>
      cases target with
      | none => exact iff_of_true same trivial
      | some target =>
        show _ ↔ isQueueEmpty (s.queues source) = true
        rw [isEmpty_iff counted]
        cases first : lists source with
        | nil =>
          have empty := (isEmpty_iff counted source).mpr first
          refine iff_of_true ?_ rfl
          simp only [queueCall, switchQueues, empty, if_true]
          exact same
        | cons oldest rest =>
          exact iff_of_false (switch_miscounts counted first) (List.cons_ne_nil _ _)

/-! ## Runs -/

/-- Only requests that are in no queue are added, and none is taken. -/
def AddsOnly (s : HdState) (a : QueueCall) : Prop := Fresh s a ∧ TakesNothing s a

theorem initial_counted (s : HdState) : Counted (initial s) fun _ => [] :=
  ⟨initial_represents s, fun _ => rfl⟩

/-- **Queue sizes.** In every run from empty queues in which no call finds a request to take,
the sizes count the queues in every state reached. -/
theorem queueSizes_count {calls : List QueueCall} (run : GuardedRun queueStep AddsOnly (initial s)
    calls t) : SizesCount t := by
  have counted : ∃ lists, Counted t lists := by
    refine run.invariant (fun s => ∃ lists, Counted s lists) ?_ ⟨_, initial_counted s⟩
    rintro s a t ⟨lists, counted⟩ ⟨fresh, nothing⟩ step
    obtain rfl : (queueCall s a).1 = t := step
    have after := (queueCall_spec s lists a counted.holds fresh).2.1
    exact ⟨_, (sizesCount_iff after).mp ((queueCall_counts_iff counted fresh).mpr nothing)⟩
  obtain ⟨lists, counted⟩ := counted
  exact (sizesCount_iff counted.holds).mpr counted

/-- No request was ever filled in. -/
def blank : HdState :=
  { requests := fun _ => ⟨0, 0, 0, 0, 0, .read, 0, 0, 0⟩, queues := fun _ => emptyQueue,
    issued := [], ports := [] }

theorem queueSizes_count_added : ∃ t,
    GuardedRun queueStep AddsOnly (initial blank) [.remove (some .executing),
      .add (some .pending) 0x1000] t ∧ SizesCount t := by
  have run : GuardedRun queueStep AddsOnly (initial blank) [.remove (some .executing),
      .add (some .pending) 0x1000] _ :=
    .snoc (.snoc (.nil _) ⟨trivial, rfl⟩ rfl) ⟨⟨by decide, initial_free blank 0x1000⟩, trivial⟩ rfl
  exact ⟨_, run, queueSizes_count run⟩

/-- A request is added and taken out again: the size of the empty queue is 1. -/
theorem queueSizes_miscount : ∃ t,
    GuardedRun queueStep Fresh (initial blank) [.add (some .pending) 0x1000,
      .remove (some .pending)] t ∧
    (t.queues .pending).head = 0 ∧ (t.queues .pending).size = 1 ∧ ¬ SizesCount t := by
  have run : GuardedRun queueStep Fresh (initial blank) [.add (some .pending) 0x1000,
      .remove (some .pending)] _ :=
    .snoc (.snoc (.nil _) ⟨by decide, initial_free blank 0x1000⟩ rfl) trivial rfl
  refine ⟨_, run, rfl, rfl, fun counts => ?_⟩
  obtain ⟨l, chain, size⟩ := counts .pending
  have empty : l = [] := chain.unique (rfl : (0 : U32) = 0)
  rw [empty] at size
  exact absurd size (by decide)

end BlessOS.Guarantees.QueueSize
