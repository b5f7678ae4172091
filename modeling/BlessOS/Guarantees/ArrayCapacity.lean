import BlessOS.Guarantees.OrderedArrayItems
import BlessOS.Lib.Transition

/-!
# The capacity of an ordered array

`max_size` is stored and never read. An array stays inside its slots as long as nothing is
inserted while it is full and nothing is removed at an index it does not have.
-/

set_option autoImplicit false

namespace BlessOS.Guarantees.ArrayCapacity
open BlessOS.Guarantees.OrderedArrayItems BlessOS.Lib.ByteMemory BlessOS.Lib.Transition
  BlessOS.Source BlessOS.Source.OrderedArray

abbrev State := OrderedArray × Mem

inductive Call where
  | insert (item : U32)
  | remove (i : U32)

/-- A call that halts leaves no state. -/
def Call.run : Call → State → Option State
  | .insert item, s => insertOrderedArray item s.1 s.2
  | .remove i, s => some (removeOrderedArray i.toNat s.1 s.2)

def step (s : State) (call : Call) (t : State) : Prop := call.run s = some t

/-- The indices a call writes to, in order. -/
def written (s : State) : Call → List Nat
  | .insert item =>
    match s.1.lessThan with
    | none => []
    | some lessThan =>
      let iterator := insertPosition lessThan item s.1 s.2
      List.range' iterator (s.1.size.toNat - iterator + 1)
  | .remove i => List.range' i.toNat (s.1.size.toNat - i.toNat)

/-- A call respects the capacity. -/
structure StepOk (s : State) (call : Call) : Prop where
  inside : ∀ i ∈ written s call, i < s.1.maxSize.toNat
  bounded : ∀ t, step s call t → t.1.size.toNat ≤ s.1.maxSize.toNat
  noWrap : ∀ i t, call = .remove i → step s call t → t.1.size.toNat ≤ s.1.size.toNat
  idle : ∀ i t, call = .remove i → s.1.size.toNat ≤ i.toNat → step s call t → t = s

/-- An insertion needs a free slot, unless it halts, and a removal an item. -/
def Admitted (s : State) : Call → Prop
  | .insert _ => s.1.lessThan = none ∨ s.1.size.toNat < s.1.maxSize.toNat
  | .remove i => i.toNat < s.1.size.toNat

/-- The array that `place_ordered_array` returned, with items that fit into it. -/
structure Inv (addr maxSize : U32) (lessThan : Option (Mem → U32 → U32 → Bool)) (s : State) :
    Prop where
  array : s.1.array = addr
  capacity : s.1.maxSize = maxSize
  order : s.1.lessThan = lessThan
  size : s.1.size.toNat ≤ maxSize.toNat

/-- A byte of none of the slots. -/
def Outside (addr maxSize x : U32) : Prop := ∀ i < maxSize.toNat, 4 ≤ x - slot addr i

variable {addr maxSize : U32} {lessThan : Option (Mem → U32 → U32 → Bool)} {m : Mem} {s t : State}
  {call : Call}

/-! ## The writes of a call -/

theorem shiftUp_stores (array : U32) (left iterator : Nat) (tmp : U32) (m : Mem) :
    Stores m ((List.range' (iterator + 1) left).map (slot array))
      (shiftUp array left iterator tmp m) := by
  induction left generalizing iterator tmp m with
  | zero => exact .nil m
  | succ left ih =>
    rw [List.range'_succ, List.map_cons]
    exact .cons tmp (ih (iterator + 1) _ _)

theorem shiftDown_stores (array : U32) (left i : Nat) (m : Mem) :
    Stores m ((List.range' i left).map (slot array)) (shiftDown array left i m) := by
  induction left generalizing i m with
  | zero => exact .nil m
  | succ left ih =>
    rw [List.range'_succ, List.map_cons]
    exact .cons _ (ih (i + 1) _)

/-- An insertion that does not halt counts the item and writes from its position to the end. -/
theorem insert_effect {item : U32} (next : step s (.insert item) t) :
    s.1.lessThan.isSome ∧ t.1 = { s.1 with size := s.1.size + 1 } ∧
      Stores s.2 ((written s (.insert item)).map (slot s.1.array)) t.2 := by
  obtain ⟨a, m⟩ := s
  unfold step Call.run insertOrderedArray at next
  unfold written
  dsimp only at next ⊢
  cases order : a.lessThan with
  | none =>
    rw [order] at next
    cases next
  | some lessThan =>
    rw [order] at next
    dsimp only at next ⊢
    rw [List.range'_succ, List.map_cons]
    change (if insertPosition lessThan item a m = _ then _ else _) = _ at next
    split at next
    · next atEnd =>
      cases next
      refine ⟨rfl, rfl, .cons item ?_⟩
      have none : List.range' (insertPosition lessThan item a m + 1)
          (a.size.toNat - insertPosition lessThan item a m) = [] := by
        rw [atEnd, Nat.sub_self]
        rfl
      rw [none]
      exact .nil _
    · cases next
      exact ⟨rfl, rfl, .cons item (shiftUp_stores _ _ _ _ _)⟩

theorem remove_effect {i : U32} (next : step s (.remove i) t) :
    t.1 = { s.1 with size := s.1.size - 1 } ∧
      Stores s.2 ((written s (.remove i)).map (slot s.1.array)) t.2 := by
  cases next
  exact ⟨rfl, shiftDown_stores _ _ _ _⟩

/-- `written` is what a call writes. -/
theorem step_stores (next : step s call t) :
    Stores s.2 ((written s call).map (slot s.1.array)) t.2 := by
  cases call with
  | insert item => exact (insert_effect next).2.2
  | remove i => exact (remove_effect next).2

/-- A call only changes the size of the array. -/
theorem step_keeps (next : step s call t) :
    t.1.array = s.1.array ∧ t.1.maxSize = s.1.maxSize ∧ t.1.lessThan = s.1.lessThan := by
  cases call with
  | insert item =>
    rw [(insert_effect next).2.1]
    exact ⟨rfl, rfl, rfl⟩
  | remove i =>
    rw [(remove_effect next).1]
    exact ⟨rfl, rfl, rfl⟩

/-- An insertion writes up to the place behind the items. -/
theorem mem_written_insert {item : U32} {i : Nat} (member : i ∈ written s (.insert item)) :
    s.1.lessThan ≠ none ∧ i ≤ s.1.size.toNat := by
  unfold written at member
  dsimp only at member
  cases order : s.1.lessThan with
  | none =>
    rw [order] at member
    cases member
  | some lessThan =>
    have position := insertPosition_le (a := s.1) (m := s.2) lessThan item
    rw [order, List.mem_range'_1] at member
    exact ⟨Option.some_ne_none _, by omega⟩

/-- And always to that place. -/
theorem size_mem_written {item : U32} (order : s.1.lessThan.isSome) :
    s.1.size.toNat ∈ written s (.insert item) := by
  obtain ⟨lessThan, order⟩ := Option.isSome_iff_exists.mp order
  have position := insertPosition_le (a := s.1) (m := s.2) lessThan item
  unfold written
  dsimp only
  rw [order, List.mem_range'_1]
  omega

/-! ## One step -/

theorem insert_ok {item : U32} (admitted : Admitted s (.insert item)) :
    StepOk s (.insert item) := by
  refine ⟨fun i member => ?_, fun t next => ?_, fun i t isRemove => ?_, fun i t isRemove => ?_⟩
  · obtain ⟨order, behind⟩ := mem_written_insert member
    exact Nat.lt_of_le_of_lt behind (admitted.resolve_left order)
  · obtain ⟨order, array, -⟩ := insert_effect next
    have free := admitted.resolve_left (Option.isSome_iff_ne_none.mp order)
    have bound := s.1.maxSize.isLt
    rw [array]
    change (s.1.size + 1).toNat ≤ s.1.maxSize.toNat
    bv_omega
  · cases isRemove
  · cases isRemove

theorem remove_ok {i : U32} (size : s.1.size.toNat ≤ s.1.maxSize.toNat)
    (admitted : Admitted s (.remove i)) : StepOk s (.remove i) := by
  have item : i.toNat < s.1.size.toNat := admitted
  have shrunk : (s.1.size - 1).toNat = s.1.size.toNat - 1 := by bv_omega
  refine ⟨fun j member => ?_, fun t next => ?_, fun j t isRemove next => ?_,
    fun j t isRemove behind => ?_⟩
  · unfold written at member
    rw [List.mem_range'_1] at member
    omega
  · rw [(remove_effect next).1]
    dsimp only
    omega
  · rw [(remove_effect next).1]
    dsimp only
    omega
  · cases isRemove
    omega

theorem ok_of_admitted (inv : Inv addr maxSize lessThan s) (admitted : Admitted s call) :
    StepOk s call := by
  have size := inv.size
  rw [← inv.capacity] at size
  cases call with
  | insert item => exact insert_ok admitted
  | remove i => exact remove_ok size admitted

/-- An insertion into a full array writes behind it, and a removal at no item counts one down. -/
theorem admitted_of_ok (ok : StepOk s call) : Admitted s call := by
  cases call with
  | insert item =>
    cases order : s.1.lessThan with
    | none => exact .inl order
    | some lessThan =>
      refine .inr (ok.inside _ (size_mem_written ?_))
      rw [order]
      rfl
  | remove i =>
    by_contra behind
    have behind : s.1.size.toNat ≤ i.toNat := Nat.le_of_not_lt behind
    have same := ok.idle i _ rfl behind rfl
    have count : s.1.size - 1 = s.1.size := congrArg (fun t : State => t.1.size) same
    bv_omega

theorem admitted_inv (inv : Inv addr maxSize lessThan s) (admitted : Admitted s call)
    (next : step s call t) : Inv addr maxSize lessThan t := by
  obtain ⟨array, capacity, order⟩ := step_keeps next
  refine ⟨array.trans inv.array, capacity.trans inv.capacity, order.trans inv.order, ?_⟩
  rw [← inv.capacity]
  exact (ok_of_admitted inv admitted).bounded t next

/-- An admitted call leaves the bytes outside the slots alone. -/
theorem admitted_outside (inv : Inv addr maxSize lessThan s) (admitted : Admitted s call)
    (next : step s call t) {x : U32} (outside : Outside addr maxSize x) : t.2 x = s.2 x := by
  apply (step_stores next).apply_of_outside
  intro a member
  obtain ⟨i, index, rfl⟩ := List.mem_map.mp member
  have inside := (ok_of_admitted inv admitted).inside i index
  rw [inv.array]
  rw [inv.capacity] at inside
  exact outside i inside

/-! ## Runs -/

/-- The `memset` of `place_ordered_array` stays inside the slots. -/
theorem place_outside (addr maxSize : U32) (lessThan : Option (Mem → U32 → U32 → Bool)) (m : Mem)
    {x : U32} (outside : Outside addr maxSize x) :
    (placeOrderedArray addr maxSize lessThan m).2 x = m x := by
  have apart : ¬ x - addr < maxSize * 4 := by
    intro cleared
    have small : (x - addr).toNat / 4 < maxSize.toNat := by bv_omega
    have byte := outside _ small
    unfold slot at byte
    bv_omega
  simp only [placeOrderedArray, overlay, if_neg apart]

theorem inv_place (addr maxSize : U32) (lessThan : Option (Mem → U32 → U32 → Bool)) (m : Mem) :
    Inv addr maxSize lessThan (placeOrderedArray addr maxSize lessThan m) :=
  ⟨rfl, rfl, rfl, Nat.zero_le _⟩

/-- **Capacity.** In every run of admitted calls the array has at most `max_size` items and
nothing outside its slots was written; and the next call respects the capacity if and only if it
is admitted. -/
theorem arrayCapacity_admitted {calls : List Call}
    (run : GuardedRun step Admitted (placeOrderedArray addr maxSize lessThan m) calls s) :
    Inv addr maxSize lessThan s ∧ (∀ x, Outside addr maxSize x → s.2 x = m x) ∧
      (∀ call t, step s call t → Stores s.2 ((written s call).map (slot s.1.array)) t.2) ∧
      ∀ call, StepOk s call ↔ Admitted s call := by
  have held : Inv addr maxSize lessThan s ∧ ∀ x, Outside addr maxSize x → s.2 x = m x := by
    apply run.invariant fun s => Inv addr maxSize lessThan s ∧
      ∀ x, Outside addr maxSize x → s.2 x = m x
    · intro s call t ⟨inv, unchanged⟩ admitted next
      refine ⟨admitted_inv inv admitted next, fun x outside => ?_⟩
      rw [admitted_outside inv admitted next outside]
      exact unchanged x outside
    · exact ⟨inv_place _ _ _ _, fun x outside => place_outside _ _ _ _ outside⟩
  obtain ⟨inv, unchanged⟩ := held
  exact ⟨inv, unchanged, fun call t next => step_stores next,
    fun call => ⟨admitted_of_ok, ok_of_admitted inv⟩⟩

/-- An array of one slot at 0x1000, in a memory of zeros. -/
def oneSlot : State := placeOrderedArray 0x1000 1 (some standardLessthan) fun _ => 0

theorem arrayCapacity_admitted_full :
    ∃ s, GuardedRun step Admitted oneSlot [.insert 7] s ∧ s.1.size.toNat ≤ 1 ∧
      ¬ StepOk s (.insert 8) ∧ StepOk s (.remove 0) := by
  have room : Admitted oneSlot (.insert 7) := Or.inr (by decide)
  have run : GuardedRun step Admitted oneSlot [.insert 7] _ := .snoc (.nil oneSlot) room rfl
  obtain ⟨inv, -, -, steps⟩ := arrayCapacity_admitted run
  refine ⟨_, run, inv.size, fun ok => ?_, (steps (.remove 0)).mpr (by show 0 < 1; decide)⟩
  have room : (1 : Nat) < 1 := ((steps (.insert 8)).mp ok).resolve_left (Option.some_ne_none _)
  exact absurd room (by decide)

/-- Nothing is in the array, and a removal leaves 0xffffffff items. -/
theorem arrayCapacity_wraps :
    ∃ s, GuardedRun step always oneSlot [.remove 0] s ∧ s.1.size = 0xffffffff ∧
      ¬ StepOk oneSlot (.remove 0) := by
  refine ⟨removeOrderedArray 0 oneSlot.1 oneSlot.2, .snoc (.nil oneSlot) trivial rfl, rfl, ?_⟩
  intro ok
  exact absurd (ok.bounded _ rfl) (by decide)

end BlessOS.Guarantees.ArrayCapacity
