import BlessOS.Guarantees.OrderedArrayItems
import BlessOS.Lib.SortedInsert
import BlessOS.Lib.Transition
import BlessOS.Source.Kheap

/-!
# The ordered array as a sorted multiset

The order reads the memory behind the items, so a run interleaves the calls with other
changes of the memory. The session records what was inserted and what was removed; the
items are the one without the other, sorted by the order as it is now.
-/

set_option autoImplicit false

namespace BlessOS.Guarantees.OrderedArrayMultiset
open BlessOS.Lib.ByteMemory BlessOS.Lib.SortedInsert BlessOS.Lib.Transition
open BlessOS.Source BlessOS.Source.OrderedArray BlessOS.Source.Kheap
open BlessOS.Guarantees.OrderedArrayItems

structure Session where
  array : OrderedArray
  mem : Mem
  inserted : List U32
  removed : List U32

def Session.entries (s : Session) : List U32 := items s.array s.mem

inductive Call where
  | insert (item : U32)
  | remove (i : U32)
  /-- The memory outside the array is somebody else's. -/
  | elsewhere (mem : Mem)

def Call.run (s : Session) : Call → Option Session
  | .insert item => do
    let (array, mem) ← insertOrderedArray item s.array s.mem
    some { s with array := array, mem := mem, inserted := item :: s.inserted }
  | .remove i =>
    let after := removeOrderedArray i.toNat s.array s.mem
    some { s with
      array := after.1
      mem := after.2
      removed := s.array.item s.mem i.toNat :: s.removed }
  | .elsewhere mem => some { s with mem := mem }

def Step (s : Session) (call : Call) (t : Session) : Prop := call.run s = some t

/-- The order of the stored items is what it was. -/
def KeysKept (lessThan : Mem → U32 → U32 → Bool) (s t : Session) : Prop :=
  ∀ x ∈ t.entries, ∀ y ∈ t.entries, lessThan t.mem x y = lessThan s.mem x y

/-- The calls are made in bounds: there is a slot for the item, in the array and in the
address space; the index is one of an item; and nobody else writes the items. -/
def InBounds (s : Session) : Call → Prop
  | .insert _ => s.array.size < s.array.maxSize ∧ Fits s.array.array (s.array.size.toNat + 1)
  | .remove i => i < s.array.size
  | .elsewhere mem =>
    AgreeOn s.array.array.toNat (s.array.array.toNat + 4 * s.array.size.toNat) s.mem mem

/-- A call in bounds that leaves the keys of the stored items alone. -/
def Admissible (lessThan : Mem → U32 → U32 → Bool) (s : Session) (call : Call) : Prop :=
  InBounds s call ∧ ∀ t, Step s call t → KeysKept lessThan s t

/-- A new array, at a given place or in memory from `kmalloc`. -/
def Created (maxSize : U32) (lessThan : Mem → U32 → U32 → Bool) (s : Session) : Prop :=
  s.inserted = [] ∧ s.removed = [] ∧
    ((∃ addr m, placeOrderedArray addr maxSize (some lessThan) m = (s.array, s.mem)) ∨
      ∃ (ε : Type) (pager : Pager ε) (k after : Kernel ε),
        createOrderedArray pager maxSize (some lessThan) k = some (s.array, after) ∧
          s.mem = after.mem)

/-- The abstract state of the array. -/
structure SortedMultiset (lessThan : Mem → U32 → U32 → Bool) (s : Session) : Prop where
  order : s.array.lessThan = some lessThan
  fits : Fits s.array.array s.array.size.toNat
  sorted : s.entries.Pairwise fun x y => ¬ lessThan s.mem y x = true
  bounded : s.array.size ≤ s.array.maxSize
  multiset : s.inserted.Perm (s.entries ++ s.removed)

section Steps

variable {lessThan : Mem → U32 → U32 → Bool} {s t : Session}

theorem created_sortedMultiset {maxSize : U32} (created : Created maxSize lessThan s) :
    SortedMultiset lessThan s := by
  obtain ⟨inserted, removed, made⟩ := created
  have empty : s.array.size = 0 ∧ s.array.lessThan = some lessThan := by
    rcases made with ⟨addr, m, placed⟩ | ⟨ε, pager, k, after, ran, -⟩
    · have array := (Prod.ext_iff.mp placed).1
      dsimp only at array
      rw [← array]
      exact ⟨rfl, rfl⟩
    · obtain ⟨got, -, stored⟩ := Option.bind_eq_some_iff.mp ran
      have array := (Prod.ext_iff.mp (Option.some.inj stored)).1
      dsimp only at array
      rw [← array]
      exact ⟨rfl, rfl⟩
  obtain ⟨size, order⟩ := empty
  have entries : s.entries = [] := by
    rw [Session.entries, items, size]
    rfl
  refine ⟨order, ?_, ?_, ?_, ?_⟩
  · rw [size, Fits]
    have bound := s.array.array.isLt
    exact Nat.le_of_lt bound
  · rw [entries]
    exact List.Pairwise.nil
  · rw [size]
    exact Nat.zero_le _
  · rw [inserted, removed, entries]
    exact List.Perm.nil

/-- Sortedness goes over to a memory with the same keys. -/
theorem sorted_of_kept {l : List U32} {m m' : Mem}
    (sorted : l.Pairwise fun x y => ¬ lessThan m y x = true)
    (kept : ∀ x ∈ l, ∀ y ∈ l, lessThan m' x y = lessThan m x y) :
    l.Pairwise fun x y => ¬ lessThan m' y x = true :=
  sorted.imp_of_mem fun {x y} memberX memberY notLess => by
    rw [kept y memberY x memberX]
    exact notLess

/-- The item goes behind the items less than it and in front of all others. -/
def InsertedAt (lessThan : Mem → U32 → U32 → Bool) (s : Session) (item : U32) (t : Session) : Prop :=
  ∃ front back, s.entries = front ++ back ∧ t.entries = front ++ item :: back ∧
    (∀ x ∈ front, lessThan s.mem x item = true) ∧ ∀ x ∈ back, lessThan s.mem x item = false

variable (weak : ∀ m, IsStrictWeakOrder U32 fun x y => lessThan m x y = true)

include weak in
/-- What is behind the first item that is not less than `item` is not less either. -/
theorem not_less_behind (held : SortedMultiset lessThan s) (item : U32) {k : Nat}
    (first : ∀ inside : k < s.entries.length, ¬ lessThan s.mem s.entries[k] item = true) :
    ∀ x ∈ s.entries.drop k, lessThan s.mem x item = false := by
  intro x member
  obtain ⟨j, inside, rfl⟩ := List.mem_iff_getElem.mp member
  rw [List.length_drop] at inside
  rw [List.getElem_drop, ← Bool.not_eq_true]
  rcases Nat.eq_zero_or_pos j with rfl | later
  · exact first (by omega)
  · have order := List.pairwise_iff_getElem.mp held.sorted k (k + j) (by omega) (by omega) (by omega)
    have _ := weak s.mem
    exact fun less => not_lt_trans (r := fun x y => lessThan s.mem x y = true) (first (by omega))
      order less

include weak in
theorem insert_step (held : SortedMultiset lessThan s) (item : U32)
    (admitted : Admissible lessThan s (.insert item)) :
    ∃ t, Step s (.insert item) t ∧ InsertedAt lessThan s item t ∧ SortedMultiset lessThan t := by
  obtain ⟨⟨room, fits⟩, keys⟩ := admitted
  have fewer : s.array.size.toNat < s.array.maxSize.toNat := room
  have wide := s.array.maxSize.isLt
  obtain ⟨after, ran, listed, -⟩ :=
    insertOrderedArray_spec (m := s.mem) item held.order ⟨fits, by omega⟩
  have size : (s.array.size + 1).toNat = s.array.size.toNat + 1 := grown_size ⟨fits, by omega⟩
  generalize position : insertPosition lessThan item s.array s.mem = k at listed
  have bound : k ≤ s.entries.length := by
    rw [← position]
    exact (insertPosition_le lessThan item).trans_eq length_items.symm
  obtain ⟨before, first⟩ := insertPosition_spec (a := s.array) (m := s.mem) lessThan item
  rw [position] at before
  simp only [position] at first
  have front : ∀ x ∈ s.entries.take k, lessThan s.mem x item = true := by
    intro x member
    obtain ⟨j, inside, rfl⟩ := List.mem_iff_getElem.mp member
    rw [List.length_take] at inside
    rw [List.getElem_take]
    exact before j (by simp only [Session.entries] at inside; omega) (by omega)
  have here : ∀ inside : k < s.entries.length, ¬ lessThan s.mem s.entries[k] item = true := by
    intro inside
    rw [Bool.not_eq_true]
    exact first inside
  obtain ⟨t, made⟩ : ∃ t : Session, t = { s with
    array := { s.array with size := s.array.size + 1 }
    mem := after
    inserted := item :: s.inserted } := ⟨_, rfl⟩
  have step : Step s (.insert item) t := by
    rw [made]
    exact Option.bind_eq_some_iff.mpr ⟨_, ran, rfl⟩
  have entries : t.entries = s.entries.insertIdx k item := by
    rw [made]
    exact listed
  refine ⟨t, step, ⟨_, _, (List.take_append_drop k s.entries).symm, ?_, front,
    not_less_behind weak held item here⟩, ?_⟩
  · rw [entries]
    exact insertIdx_eq_append bound
  have _ := weak s.mem
  have sorted : t.entries.Pairwise fun x y => ¬ lessThan s.mem y x = true := by
    rw [entries]
    exact pairwise_insertIdx_of_weak (r := fun x y => lessThan s.mem x y = true) held.sorted bound
      before here
  constructor
  case sorted => exact sorted_of_kept sorted (keys t step)
  case multiset =>
    have added : (item :: s.inserted).Perm (item :: (s.entries ++ s.removed)) :=
      held.multiset.cons item
    rw [entries, made]
    exact added.trans ((List.perm_insertIdx item s.entries bound).symm.append_right s.removed)
  all_goals rw [made]
  case order => exact held.order
  case fits => exact fits.mono (Nat.le_of_eq size)
  case bounded => exact Nat.le_trans (Nat.le_of_eq size) fewer

theorem remove_step (held : SortedMultiset lessThan s) (i : U32)
    (admitted : Admissible lessThan s (.remove i)) :
    ∃ t, Step s (.remove i) t ∧ t.entries = s.entries.eraseIdx i.toNat ∧
      SortedMultiset lessThan t := by
  obtain ⟨within, keys⟩ := admitted
  have inside : i.toNat < s.array.size.toNat := within
  obtain ⟨listed, -⟩ := removeOrderedArray_spec (m := s.mem) inside held.fits
  obtain ⟨t, made⟩ : ∃ t : Session, t = { s with
    array := (removeOrderedArray i.toNat s.array s.mem).1
    mem := (removeOrderedArray i.toNat s.array s.mem).2
    removed := s.array.item s.mem i.toNat :: s.removed } := ⟨_, rfl⟩
  have step : Step s (.remove i) t := by
    rw [made]
    rfl
  have entries : t.entries = s.entries.eraseIdx i.toNat := by
    rw [made]
    exact listed
  have array : t.array = { s.array with size := s.array.size - 1 } := by
    rw [made]
    rfl
  have size : (s.array.size - 1).toNat = s.array.size.toNat - 1 := by bv_omega
  refine ⟨t, step, entries, ?_⟩
  constructor
  case sorted =>
    have sorted : t.entries.Pairwise fun x y => ¬ lessThan s.mem y x = true := by
      rw [entries]
      exact held.sorted.sublist (List.eraseIdx_sublist _ _)
    exact sorted_of_kept sorted (keys t step)
  case multiset =>
    have bound : i.toNat < s.entries.length := by
      rw [Session.entries, length_items]
      exact inside
    have taken := List.getElem_cons_eraseIdx_perm bound
    have item : s.entries[i.toNat] = s.array.item s.mem i.toNat := getElem_items bound
    rw [entries, made]
    refine held.multiset.trans ((taken.symm.append_right s.removed).trans ?_)
    rw [item]
    exact List.perm_middle.symm
  all_goals rw [array]
  case order => exact held.order
  case fits => exact held.fits.mono (by dsimp only; omega)
  case bounded =>
    have bounded : s.array.size.toNat ≤ s.array.maxSize.toNat := held.bounded
    exact Nat.le_trans (by dsimp only; omega) bounded

theorem elsewhere_step (held : SortedMultiset lessThan s) (m : Mem)
    (admitted : Admissible lessThan s (.elsewhere m)) :
    ∃ t, Step s (.elsewhere m) t ∧ SortedMultiset lessThan t := by
  obtain ⟨agree, keys⟩ := admitted
  have entries : Session.entries { s with mem := m } = s.entries := items_congr held.fits agree
  refine ⟨{ s with mem := m }, rfl, ⟨held.order, held.fits, ?_, held.bounded, ?_⟩⟩
  · refine sorted_of_kept ?_ (keys _ rfl)
    rw [entries]
    exact held.sorted
  · rw [entries]
    exact held.multiset

include weak in
theorem step_sortedMultiset (call : Call) (held : SortedMultiset lessThan s)
    (admitted : Admissible lessThan s call) (step : Step s call t) : SortedMultiset lessThan t := by
  have unique : ∀ u, Step s call u → u = t := fun u other => Option.some.inj (other.symm.trans step)
  cases call with
  | insert item =>
    obtain ⟨u, ran, -, after⟩ := insert_step weak held item admitted
    exact unique u ran ▸ after
  | remove i =>
    obtain ⟨u, ran, -, after⟩ := remove_step held i admitted
    exact unique u ran ▸ after
  | elsewhere m =>
    obtain ⟨u, ran, after⟩ := elsewhere_step held m admitted
    exact unique u ran ▸ after

end Steps

/-- **The sorted multiset.** After any calls in bounds that leave the keys alone: no entry is
less than the one before it, the entries are the inserted items without the removed ones, and
each is found by its index. The next insertion, if it is one of these, goes behind what is less
and in front of all else, and the next removal takes out one entry and moves no other. -/
theorem orderedArray_refines_multiset {lessThan : Mem → U32 → U32 → Bool} {maxSize : U32}
    {s t : Session} {calls : List Call}
    (weak : ∀ m, IsStrictWeakOrder U32 fun x y => lessThan m x y = true)
    (created : Created maxSize lessThan s)
    (run : GuardedRun Step (Admissible lessThan) s calls t) :
    (∀ i (inside : i + 1 < t.entries.length),
        lessThan t.mem t.entries[i + 1] t.entries[i] = false) ∧
      t.inserted.Perm (t.entries ++ t.removed) ∧
      (∀ i (inside : i < t.entries.length),
        lookupOrderedArray i t.array t.mem = some t.entries[i]) ∧
      (∀ item, Admissible lessThan t (.insert item) →
        ∃ u, Step t (.insert item) u ∧ InsertedAt lessThan t item u) ∧
      ∀ i, Admissible lessThan t (.remove i) →
        ∃ u, Step t (.remove i) u ∧ u.entries = t.entries.eraseIdx i.toNat := by
  have held : SortedMultiset lessThan t := run.invariant (SortedMultiset lessThan)
    (fun s call t held admitted step => step_sortedMultiset weak call held admitted step)
    (created_sortedMultiset created)
  refine ⟨fun i inside => ?_, held.multiset, fun i inside => ?_, fun item admitted => ?_,
    fun i admitted => ?_⟩
  · rw [← Bool.not_eq_true]
    exact List.pairwise_iff_getElem.mp held.sorted i (i + 1) (by omega) inside (Nat.lt_succ_self i)
  · have bound : ¬ t.array.size.toNat ≤ i := by
      rw [Session.entries, length_items] at inside
      omega
    rw [lookupOrderedArray, if_neg bound]
    exact congrArg some (getElem_items inside).symm
  · obtain ⟨u, ran, placed, -⟩ := insert_step weak held item admitted
    exact ⟨u, ran, placed⟩
  · obtain ⟨u, ran, taken, -⟩ := remove_step held i admitted
    exact ⟨u, ran, taken⟩

theorem standardLessthan_weak (m : Mem) :
    IsStrictWeakOrder U32 fun x y => standardLessthan m x y = true where
  irrefl x := by simp [standardLessthan]
  trans x y z := by
    simp only [standardLessthan, decide_eq_true_eq]
    bv_omega
  incomp_trans x y z := by
    simp only [standardLessthan, decide_eq_true_eq]
    bv_omega

/-- Two items in an array for two. -/
theorem orderedArray_refines_multiset_two : ∃ s t, Created 2 standardLessthan s ∧
    GuardedRun Step (Admissible standardLessthan) s [.insert 5, .insert 3] t ∧
    t.inserted.Perm (t.entries ++ t.removed) ∧
    ∀ i (inside : i + 1 < t.entries.length),
      standardLessthan t.mem t.entries[i + 1] t.entries[i] = false := by
  have kept : ∀ s t, KeysKept standardLessthan s t := fun _ _ _ _ _ _ => rfl
  let s : Session :=
    { array := (placeOrderedArray 0x1000 2 (some standardLessthan) fun _ => 0).1
      mem := (placeOrderedArray 0x1000 2 (some standardLessthan) fun _ => 0).2
      inserted := []
      removed := [] }
  have created : Created 2 standardLessthan s := ⟨rfl, rfl, Or.inl ⟨0x1000, _, rfl⟩⟩
  let t : Session :=
    { s with
      array := { s.array with size := 1 }
      mem := store32 s.mem (slot 0x1000 0) 5
      inserted := [5] }
  have first : Step s (.insert 5) t := rfl
  have fits : ∀ count ≤ 2, Fits 0x1000 count := by
    intro count few
    change 0x1000 + 4 * count ≤ 2 ^ 32
    omega
  have one : GuardedRun Step (Admissible standardLessthan) s ([] ++ [.insert 5]) t :=
    .snoc (.nil s) ⟨⟨by decide, fits 1 (by decide)⟩, fun u _ => kept s u⟩ first
  have room : Admissible standardLessthan t (.insert 3) :=
    ⟨⟨(by decide : (1 : U32) < 2), fits 2 (by decide)⟩, fun u _ => kept t u⟩
  have after := orderedArray_refines_multiset standardLessthan_weak created one
  obtain ⟨u, second, -⟩ := after.2.2.2.1 3 room
  have two : GuardedRun Step (Admissible standardLessthan) s ([.insert 5] ++ [.insert 3]) u :=
    .snoc one room second
  have final := orderedArray_refines_multiset standardLessthan_weak created two
  exact ⟨s, u, created, two, final.2.1, final.1⟩

end BlessOS.Guarantees.OrderedArrayMultiset
