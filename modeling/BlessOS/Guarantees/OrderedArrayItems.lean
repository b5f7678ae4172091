import BlessOS.Source.OrderedArray

/-!
# The items of an ordered array as a list

`items` reads the array off the memory. An insertion puts one item in front of
the first item that is not less than it, a removal takes one out, and neither
writes outside the slots it moves.
-/

set_option autoImplicit false

namespace BlessOS.Guarantees.OrderedArrayItems
open BlessOS.Lib.ByteMemory
open BlessOS.Source BlessOS.Source.OrderedArray

variable {a : OrderedArray} {m m' : Mem}

def items (a : OrderedArray) (m : Mem) : List U32 :=
  (List.range a.size.toNat).map (a.item m)

@[simp] theorem length_items : (items a m).length = a.size.toNat := by
  simp [items]

theorem getElem_items {i : Nat} (bound : i < (items a m).length) :
    (items a m)[i] = a.item m i := by
  simp [items]

/-- The slots up to `count` do not wrap around the address space. -/
def Fits (array : U32) (count : Nat) : Prop := array.toNat + 4 * count ≤ 2 ^ 32

theorem Fits.mono {array : U32} {few count : Nat} (fits : Fits array count) (fewer : few ≤ count) :
    Fits array few := by
  unfold Fits at fits ⊢
  omega

theorem slot_toNat {array : U32} {count i : Nat} (fits : Fits array count) (inside : i < count) :
    (slot array i).toNat = array.toNat + 4 * i := by
  unfold Fits at fits
  simp only [slot, BitVec.toNat_add, BitVec.toNat_ofNat]
  omega

theorem load_store_slot {array : U32} {count i j : Nat} (fits : Fits array count) (hi : i < count)
    (hj : j < count) (value : U32) :
    load32 (store32 m (slot array i) value) (slot array j) =
      if j = i then value else load32 m (slot array j) := by
  have ni := slot_toNat fits hi
  have nj := slot_toNat fits hj
  unfold Fits at fits
  split
  · next same => rw [same, load32_store32_self]
  · next other =>
    apply load32_store32_of_disjoint
    · omega
    · omega
    · omega

theorem store_slot_agreeOff {array : U32} {count i : Nat} (fits : Fits array count) (hi : i < count)
    (value : U32) :
    AgreeOff array.toNat (array.toNat + 4 * count) m (store32 m (slot array i) value) := by
  have ni := slot_toNat fits hi
  unfold Fits at fits
  apply store32_agreeOff <;> omega

/-- Items only depend on the slots in use. -/
theorem items_congr (fits : Fits a.array a.size.toNat)
    (agree : AgreeOn a.array.toNat (a.array.toNat + 4 * a.size.toNat) m m') :
    items a m' = items a m := by
  unfold items
  apply List.map_congr_left
  intro i member
  have inside := List.mem_range.mp member
  have address := slot_toNat fits inside
  unfold Fits at fits
  unfold OrderedArray.item
  apply agree.load32 <;> omega

theorem item_eq_of_items (same : items a m' = items a m) {i : Nat} (inside : i < a.size.toNat) :
    a.item m' i = a.item m i := by
  rw [← getElem_items (m := m') (by rwa [length_items]),
    ← getElem_items (m := m) (by rwa [length_items])]
  simp only [same]

/-- Memories with the same items hold the same bytes in the slots in use. -/
theorem agreeOn_of_items (fits : Fits a.array a.size.toNat) (same : items a m' = items a m) :
    AgreeOn a.array.toNat (a.array.toNat + 4 * a.size.toNat) m m' := by
  intro x low high
  have inside : (x.toNat - a.array.toNat) / 4 < a.size.toNat := by omega
  have address := slot_toNat fits inside
  unfold Fits at fits
  exact agreeOn_of_load32 (item_eq_of_items same inside) (by omega) x (by omega) (by omega)

/-! ## The loops -/

/-- `scan` stops at the first iterator that fails the test, or at the end. -/
theorem scan_spec (more : Nat → Bool) (left start : Nat) :
    start ≤ scan more left start ∧ scan more left start ≤ start + left ∧
      (∀ i, start ≤ i → i < scan more left start → more i = true) ∧
      (scan more left start < start + left → more (scan more left start) = false) := by
  induction left generalizing start with
  | zero =>
    refine ⟨Nat.le_refl _, Nat.le_refl _, fun i low high => ?_, fun short => ?_⟩
    · exact absurd high (Nat.not_lt.mpr low)
    · exact absurd short (Nat.lt_irrefl _)
  | succ left ih =>
    unfold scan
    split
    · next passes =>
      obtain ⟨low, high, before, stops⟩ := ih (start + 1)
      refine ⟨by omega, by omega, fun i hl hh => ?_, fun short => stops (by omega)⟩
      rcases Nat.eq_or_lt_of_le hl with rfl | later
      · exact passes
      · exact before i later hh
    · next fails =>
      refine ⟨Nat.le_refl _, by omega, fun i low high => ?_, fun _ => by simpa using fails⟩
      exact absurd high (Nat.not_lt.mpr low)

/-- `scan` depends on the tests up to the one it stops at. -/
theorem scan_congr {more more' : Nat → Bool} (left start : Nat)
    (same : ∀ i, i < start + left → i ≤ scan more left start → more' i = more i) :
    scan more' left start = scan more left start := by
  induction left generalizing start with
  | zero => rfl
  | succ left ih =>
    have first := same start (by omega) (scan_spec more (left + 1) start).1
    unfold scan at same ⊢
    rw [first]
    split
    · next passes =>
      rw [if_pos passes] at same
      exact ih (start + 1) fun i small before => same i (by omega) before
    · rfl

/-- The shifting loop moves each item one slot up, the first one being `tmp`. -/
theorem shiftUp_item {array : U32} {count : Nat} (fits : Fits array count) (left iterator : Nat)
    (tmp : U32) (m : Mem) (room : iterator + left < count) {j : Nat} (inside : j < count) :
    load32 (shiftUp array left iterator tmp m) (slot array j) =
      if iterator < j ∧ j ≤ iterator + left then
        if j = iterator + 1 then tmp else load32 m (slot array (j - 1))
      else load32 m (slot array j) := by
  induction left generalizing iterator tmp m with
  | zero =>
    unfold shiftUp
    rw [if_neg (by omega)]
  | succ left ih =>
    unfold shiftUp
    rw [ih (iterator + 1) _ _ (by omega)]
    have stored : ∀ i, i < count → load32 (store32 m (slot array (iterator + 1)) tmp) (slot array i) =
        if i = iterator + 1 then tmp else load32 m (slot array i) :=
      fun i hi => load_store_slot fits (by omega) hi tmp
    rw [stored j inside]
    by_cases moved : iterator + 1 < j ∧ j ≤ iterator + 1 + left
    · have wide : iterator < j ∧ j ≤ iterator + (left + 1) := by omega
      have later : ¬ j = iterator + 1 := by omega
      rw [if_pos moved, if_pos wide, if_neg later]
      by_cases first : j = iterator + 1 + 1
      · rw [if_pos first, first]
        rfl
      · rw [if_neg first, stored (j - 1) (by omega), if_neg (by omega)]
    · rw [if_neg moved]
      by_cases here : j = iterator + 1
      · rw [if_pos here, if_pos (by omega), if_pos here]
      · rw [if_neg here, if_neg (by omega)]

theorem shiftUp_agreeOff {array : U32} {count : Nat} (fits : Fits array count) (left iterator : Nat)
    (tmp : U32) (m : Mem) (room : iterator + left < count) :
    AgreeOff array.toNat (array.toNat + 4 * count) m (shiftUp array left iterator tmp m) := by
  induction left generalizing iterator tmp m with
  | zero => exact AgreeOff.refl _ _ m
  | succ left ih =>
    exact (store_slot_agreeOff fits (by omega) tmp).trans (ih (iterator + 1) _ _ (by omega))

/-- The removing loop moves each item behind `i` one slot down. What it reads behind the last
item goes to a slot that is no longer in use. -/
theorem shiftDown_item {array : U32} {count : Nat} (fits : Fits array count) (left i : Nat)
    (m : Mem) (room : i + left = count) {j : Nat} (inside : j + 1 < count) :
    load32 (shiftDown array left i m) (slot array j) =
      if i ≤ j then load32 m (slot array (j + 1)) else load32 m (slot array j) := by
  induction left generalizing i m with
  | zero =>
    unfold shiftDown
    rw [if_neg (by omega)]
  | succ left ih =>
    unfold shiftDown
    have stored : ∀ k, k < count → load32 (store32 m (slot array i)
        (load32 m (slot array (i + 1)))) (slot array k) =
        if k = i then load32 m (slot array (i + 1)) else load32 m (slot array k) :=
      fun k hk => load_store_slot fits (by omega) hk _
    rw [ih (i + 1) _ (by omega), stored (j + 1) inside, stored j (by omega)]
    by_cases moved : i + 1 ≤ j
    · rw [if_pos moved, if_neg (by omega), if_pos (by omega)]
    · rw [if_neg moved]
      by_cases here : j = i
      · rw [if_pos here, if_pos (by omega), here]
      · rw [if_neg here, if_neg (by omega)]

theorem shiftDown_agreeOff {array : U32} {count : Nat} (fits : Fits array count)
    (left i : Nat) (m : Mem) (room : i + left = count) :
    AgreeOff array.toNat (array.toNat + 4 * count) m (shiftDown array left i m) := by
  induction left generalizing i m with
  | zero => exact AgreeOff.refl _ _ m
  | succ left ih =>
    exact (store_slot_agreeOff fits (by omega) _).trans (ih (i + 1) _ (by omega))

/-! ## The operations -/

/-- Where `insert_ordered_array` puts an item. -/
def insertPosition (lessThan : Mem → U32 → U32 → Bool) (item : U32) (a : OrderedArray) (m : Mem) :
    Nat :=
  scan (fun i => lessThan m (a.item m i) item) a.size.toNat 0

theorem insertPosition_le (lessThan : Mem → U32 → U32 → Bool) (item : U32) :
    insertPosition lessThan item a m ≤ a.size.toNat := by
  have bounds := (scan_spec (fun i => lessThan m (a.item m i) item) a.size.toNat 0).2.1
  unfold insertPosition
  omega

/-- The items in front of the position are less than the item, the one there is not. -/
theorem insertPosition_spec (lessThan : Mem → U32 → U32 → Bool) (item : U32) :
    (∀ j (inside : j < (items a m).length), j < insertPosition lessThan item a m →
      lessThan m (items a m)[j] item = true) ∧
      ∀ inside : insertPosition lessThan item a m < (items a m).length,
        lessThan m (items a m)[insertPosition lessThan item a m] item = false := by
  have scanned := scan_spec (fun i => lessThan m (a.item m i) item) a.size.toNat 0
  refine ⟨fun j inside before => ?_, fun inside => ?_⟩
  · rw [getElem_items]
    exact scanned.2.2.1 j (Nat.zero_le j) before
  · rw [getElem_items]
    rw [length_items] at inside
    exact scanned.2.2.2 (by rwa [Nat.zero_add])

/-- An array with one more slot that is not used yet. -/
def Room (a : OrderedArray) : Prop := Fits a.array (a.size.toNat + 1) ∧ a.size.toNat + 1 < 2 ^ 32

theorem grown_size (room : Room a) : (a.size + 1).toNat = a.size.toNat + 1 := by
  have bound := room.2
  bv_omega

/-- The list read off an array, from its slots. -/
theorem items_eq_of_slots {l : List U32} (length : l.length = a.size.toNat)
    (slots : ∀ j (inside : j < l.length), load32 m (slot a.array j) = l[j]) : items a m = l := by
  apply List.ext_getElem
  · rw [length_items, length]
  · intro j _ inside
    rw [getElem_items]
    exact slots j inside

/-- What `insert_ordered_array` does to the items and to the memory. -/
theorem insertOrderedArray_spec {lessThan : Mem → U32 → U32 → Bool} (item : U32)
    (order : a.lessThan = some lessThan) (room : Room a) :
    ∃ after, insertOrderedArray item a m = some ({ a with size := a.size + 1 }, after) ∧
      items { a with size := a.size + 1 } after =
        (items a m).insertIdx (insertPosition lessThan item a m) item ∧
      AgreeOff a.array.toNat (a.array.toNat + 4 * (a.size.toNat + 1)) m after := by
  have last := insertPosition_le (m := m) (a := a) lessThan item
  have size := grown_size room
  obtain ⟨fits, -⟩ := room
  generalize position : insertPosition lessThan item a m = k at last
  have length : ((items a m).insertIdx k item).length = (a.size + 1).toNat := by
    rw [List.length_insertIdx_of_le_length (by simpa using last), length_items, size]
  -- the slots after the insertion, whichever branch was taken
  have listed : ∀ after, (∀ j, j < a.size.toNat + 1 → load32 after (slot a.array j) =
      if j < k then a.item m j else if j = k then item else a.item m (j - 1)) →
      items { a with size := a.size + 1 } after = (items a m).insertIdx k item := by
    intro after slots
    apply items_eq_of_slots length
    intro j inside
    rw [slots j (by omega), List.getElem_insertIdx]
    split
    · rw [getElem_items]
    · split
      · rfl
      · rw [getElem_items]
  unfold insertOrderedArray
  rw [order]
  dsimp only
  rw [show scan (fun i => lessThan m (a.item m i) item) a.size.toNat 0 = k from position]
  split
  · next atEnd =>
    refine ⟨_, rfl, listed _ fun j inside => ?_, store_slot_agreeOff fits (by omega) item⟩
    rw [load_store_slot fits (by omega) inside]
    by_cases here : j = k
    · rw [if_pos here, if_neg (by omega), if_pos here]
    · rw [if_neg here, if_pos (by omega)]
      rfl
  · next between =>
    have shifted := fun j inside => shiftUp_item fits (a.size.toNat - k) k (a.item m k)
      (store32 m (slot a.array k) item) (by omega) (j := j) inside
    refine ⟨_, rfl, listed _ fun j inside => ?_, ?_⟩
    · rw [shifted j inside]
      by_cases later : k < j
      · have before : ¬ j < k := by omega
        have other : ¬ j = k := by omega
        rw [if_pos ⟨later, by omega⟩, if_neg before, if_neg other]
        by_cases first : j = k + 1
        · rw [if_pos first, first]
          rfl
        · rw [if_neg first, load_store_slot fits (by omega) (by omega), if_neg (by omega)]
          rfl
      · rw [if_neg (by omega), load_store_slot fits (by omega) inside]
        by_cases here : j = k
        · rw [if_pos here, if_neg (by omega), if_pos here]
        · rw [if_neg here, if_pos (by omega)]
          rfl
    · exact (store_slot_agreeOff fits (by omega) item).trans
        (shiftUp_agreeOff fits _ _ _ _ (by omega))

/-- What an insertion puts into the slot behind the items. -/
theorem last_inserted {lessThan : Mem → U32 → U32 → Bool} {item : U32} {count : Nat}
    (full : a.size.toNat = count + 1) (grown : (a.size + 1).toNat = count + 2)
    (listing : items { a with size := a.size + 1 } m' =
      (items a m).insertIdx (insertPosition lessThan item a m) item) :
    load32 m' (slot a.array (count + 1)) =
      if ∀ x ∈ items a m, lessThan m x item = true then item else a.item m count := by
  obtain ⟨less, stops⟩ := insertPosition_spec (m := m) (a := a) lessThan item
  have last := insertPosition_le (m := m) (a := a) lessThan item
  have length : (items a m).length = count + 1 := by rw [length_items, full]
  have bound : count + 1 < (items { a with size := a.size + 1 } m').length := by
    rw [length_items]
    change count + 1 < (a.size + 1).toNat
    omega
  have value : load32 m' (slot a.array (count + 1)) =
      (items { a with size := a.size + 1 } m')[count + 1] := (getElem_items bound).symm
  have before : ¬ count + 1 < insertPosition lessThan item a m := by omega
  rw [value]
  simp only [listing]
  rw [List.getElem_insertIdx, dif_neg before]
  by_cases behind : count + 1 = insertPosition lessThan item a m
  · rw [dif_pos behind, if_pos]
    intro x member
    obtain ⟨j, inside, rfl⟩ := List.mem_iff_getElem.mp member
    exact less j inside (by omega)
  · rw [dif_neg behind, if_neg, getElem_items]
    · rfl
    · intro all
      have inside : insertPosition lessThan item a m < (items a m).length := by omega
      have stop := stops inside
      rw [all _ (List.getElem_mem inside)] at stop
      cases stop

/-- What `remove_ordered_array` does to the items and to the memory. -/
theorem removeOrderedArray_spec {i : Nat} (inside : i < a.size.toNat)
    (fits : Fits a.array a.size.toNat) :
    items (removeOrderedArray i a m).1 (removeOrderedArray i a m).2 = (items a m).eraseIdx i ∧
      AgreeOff a.array.toNat (a.array.toNat + 4 * a.size.toNat) m (removeOrderedArray i a m).2 := by
  have size : (a.size - 1).toNat = a.size.toNat - 1 := by bv_omega
  refine ⟨?_, shiftDown_agreeOff fits _ i m (by omega)⟩
  apply items_eq_of_slots
  · rw [List.length_eraseIdx_of_lt (by simpa using inside), length_items]
    exact size.symm
  · intro j shorter
    rw [List.length_eraseIdx_of_lt (by simpa using inside), length_items] at shorter
    unfold removeOrderedArray
    dsimp only
    rw [shiftDown_item fits _ i m (by omega) (by omega), List.getElem_eraseIdx]
    split
    · next moved =>
      rw [dif_neg (by omega), getElem_items]
      rfl
    · next stays =>
      rw [dif_pos (by omega), getElem_items]
      rfl

end BlessOS.Guarantees.OrderedArrayItems
