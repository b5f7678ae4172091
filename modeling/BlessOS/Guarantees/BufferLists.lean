import BlessOS.Lib.DoublyLinked
import BlessOS.Source.Buffer

/-!
# A buffer is taken out of its two lists

In a well-formed cache each slot of the hash table heads a chain of buffers that hash to it,
linked both ways with null at both ends, and the free list is empty or points into a ring.
`remove_from_lists` takes a buffer out of both wherever it stands, unless it is the only free
buffer: the free list then goes on pointing to it.
-/

set_option autoImplicit false

namespace BlessOS.Guarantees.BufferLists
open BlessOS.Lib.DoublyLinked BlessOS.Source BlessOS.Source.Buffer

/-- The free list is `NULL`, or points to the first of the buffers around a ring. -/
def FreeRing (c : BufferCache) : List U32 → Prop
  | [] => c.freeList = 0
  | y :: rest => Ring c.freeNext c.freePrev c.freeList (y :: rest) ∧
      ∀ z ∈ y :: rest, z ≠ 0

structure WellFormed (c : BufferCache) (chains : U32 → List U32) (free : List U32) : Prop where
  chain : ∀ slot < hashMod,
    DoubleChain c.next c.prev 0 (c.hashTable slot) (chains slot)
  hashed : ∀ slot < hashMod, ∀ y ∈ chains slot, c.slotOf y = slot
  free : FreeRing c free

/-- The buffer is found through a slot of the hash table or through the free list. -/
def Reachable (c : BufferCache) (buf : U32) : Prop :=
  (∃ slot < hashMod, Reaches c.next 0 (c.hashTable slot) buf) ∨
    Reaches c.freeNext 0 c.freeList buf

/-- What has become of a cache when a buffer was taken out: its neighbours are linked to each
other, and a head that pointed to it points to its successor. -/
structure Unlinked (buf : U32) (c c' : BufferCache) : Prop where
  slotOf : c'.slotOf = c.slotOf
  next : c'.next = setLink 0 c.next (c.prev buf) (c.next buf)
  prev : c'.prev = setLink 0 c.prev (c.next buf) (c.prev buf)
  heads : ∀ slot, c'.hashTable slot =
    if slot = c.slotOf buf ∧ c.hashTable slot = buf then c.next buf else c.hashTable slot
  freeNext : c'.freeNext = Function.update c.freeNext (c.freePrev buf) (c.freeNext buf)
  freePrev : c'.freePrev = Function.update c.freePrev (c.freeNext buf) (c.freePrev buf)
  freeList : c'.freeList = if c.freeList = buf then c.freeNext buf else c.freeList

theorem slotOf_lt (c : BufferCache) (buf : U32) : c.slotOf buf < hashMod := by
  unfold BufferCache.slotOf BufferHead.slot BlessOS.Source.Buffer.hash
  have word : ∀ d b : U16, ((d.setWidth 32 : U32) ^^^ b.setWidth 32).msb = false := by
    intro d b
    simp [BitVec.msb_setWidth]
  rw [BitVec.srem_eq, word]
  exact BitVec.umod_lt _ (by decide)

/-! ## What each statement writes -/

section Statements
variable (c : BufferCache) (buf : U32)

theorem relinkPrev_prev :
    (relinkPrev buf c).prev = setLink 0 c.prev (c.next buf) (c.prev buf) := by
  unfold relinkPrev setLink
  split
  · exact (c.setPrev_fields _ _).2.1
  · rfl

/-- All that the hash chains and the free list are made of but the `prev` pointers. -/
theorem relinkPrev_rest : (relinkPrev buf c).next = c.next ∧
    (relinkPrev buf c).freeNext = c.freeNext ∧ (relinkPrev buf c).freePrev = c.freePrev ∧
    (relinkPrev buf c).slotOf = c.slotOf ∧ (relinkPrev buf c).hashTable = c.hashTable ∧
    (relinkPrev buf c).freeList = c.freeList := by
  unfold relinkPrev
  split
  · obtain ⟨next, -, freeNext, freePrev, slot⟩ := c.setPrev_fields (c.next buf) (c.prev buf)
    exact ⟨next, freeNext, freePrev, slot, rfl, rfl⟩
  · exact ⟨rfl, rfl, rfl, rfl, rfl, rfl⟩

theorem relinkNext_next :
    (relinkNext buf c).next = setLink 0 c.next (c.prev buf) (c.next buf) := by
  unfold relinkNext setLink
  split
  · exact (c.setNext_fields _ _).1
  · rfl

theorem relinkNext_rest : (relinkNext buf c).prev = c.prev ∧
    (relinkNext buf c).freeNext = c.freeNext ∧ (relinkNext buf c).freePrev = c.freePrev ∧
    (relinkNext buf c).slotOf = c.slotOf ∧ (relinkNext buf c).hashTable = c.hashTable ∧
    (relinkNext buf c).freeList = c.freeList := by
  unfold relinkNext
  split
  · obtain ⟨-, prev, freeNext, freePrev, slot⟩ := c.setNext_fields (c.prev buf) (c.next buf)
    exact ⟨prev, freeNext, freePrev, slot, rfl, rfl⟩
  · exact ⟨rfl, rfl, rfl, rfl, rfl, rfl⟩

theorem relinkSlot_hashTable (slot : U32) : (relinkSlot buf c).hashTable slot =
    if slot = c.slotOf buf ∧ c.hashTable slot = buf then c.next buf else c.hashTable slot := by
  by_cases own : slot = c.slotOf buf
  · subst own
    by_cases first : c.hashTable (c.slotOf buf) = buf
    · rw [relinkSlot, if_pos first, if_pos ⟨rfl, first⟩]
      exact Function.update_self _ _ _
    · rw [relinkSlot, if_neg first, if_neg (fun both : _ ∧ _ => first both.2)]
  · rw [if_neg (fun both : _ ∧ _ => own both.1)]
    unfold relinkSlot
    split
    · exact Function.update_of_ne own _ _
    · rfl

theorem relinkSlot_rest : (relinkSlot buf c).next = c.next ∧ (relinkSlot buf c).prev = c.prev ∧
    (relinkSlot buf c).freeNext = c.freeNext ∧ (relinkSlot buf c).freePrev = c.freePrev ∧
    (relinkSlot buf c).slotOf = c.slotOf ∧ (relinkSlot buf c).freeList = c.freeList := by
  unfold relinkSlot
  split
  · exact ⟨rfl, rfl, rfl, rfl, rfl, rfl⟩
  · exact ⟨rfl, rfl, rfl, rfl, rfl, rfl⟩

/-- What is read again between the two stores on the free list is what it was. -/
theorem relinkFree_eq : relinkFree buf c =
    { (c.setFreeNext (c.freePrev buf) (c.freeNext buf)).setFreePrev (c.freeNext buf)
        (c.freePrev buf) with
      freeList := if c.freeList = buf then c.freeNext buf else c.freeList } := by
  have next : (c.setFreeNext (c.freePrev buf) (c.freeNext buf)).freeNext buf = c.freeNext buf := by
    rw [(c.setFreeNext_fields _ _).2.2.1]
    exact update_same rfl
  have prev : (c.setFreeNext (c.freePrev buf) (c.freeNext buf)).freePrev buf = c.freePrev buf := by
    rw [(c.setFreeNext_fields _ _).2.2.2.1]
  simp only [relinkFree, next, prev, (BufferCache.setFreePrev_fields _ _ _).2.2.1]
  rfl

theorem relinkFree_free :
    (relinkFree buf c).freeNext = Function.update c.freeNext (c.freePrev buf) (c.freeNext buf) ∧
    (relinkFree buf c).freePrev = Function.update c.freePrev (c.freeNext buf) (c.freePrev buf) ∧
    (relinkFree buf c).freeList = if c.freeList = buf then c.freeNext buf else c.freeList := by
  rw [relinkFree_eq]
  obtain ⟨-, -, next, prev, -⟩ := c.setFreeNext_fields (c.freePrev buf) (c.freeNext buf)
  obtain ⟨-, -, next', prev', -⟩ :=
    (c.setFreeNext (c.freePrev buf) (c.freeNext buf)).setFreePrev_fields (c.freeNext buf)
      (c.freePrev buf)
  exact ⟨next'.trans next, prev'.trans (by rw [prev]), rfl⟩

theorem relinkFree_rest : (relinkFree buf c).next = c.next ∧ (relinkFree buf c).prev = c.prev ∧
    (relinkFree buf c).slotOf = c.slotOf ∧ (relinkFree buf c).hashTable = c.hashTable := by
  rw [relinkFree_eq]
  obtain ⟨next, prev, -, -, slot⟩ := c.setFreeNext_fields (c.freePrev buf) (c.freeNext buf)
  obtain ⟨next', prev', -, -, slot'⟩ :=
    (c.setFreeNext (c.freePrev buf) (c.freeNext buf)).setFreePrev_fields (c.freeNext buf)
      (c.freePrev buf)
  exact ⟨next'.trans next, prev'.trans prev, slot'.trans slot, rfl⟩

end Statements

theorem removeFromLists_unlinked {c : BufferCache} {buf : U32} (before : c.freePrev buf ≠ 0)
    (after : c.freeNext buf ≠ 0) :
    ∃ c', removeFromLists buf c = some c' ∧ Unlinked buf c c' := by
  obtain ⟨next1, freeNext1, freePrev1, slot1, table1, list1⟩ := relinkPrev_rest c buf
  have prev1 := relinkPrev_prev c buf
  obtain ⟨prev2, freeNext2, freePrev2, slot2, table2, list2⟩ :=
    relinkNext_rest (relinkPrev buf c) buf
  have next2 := relinkNext_next (relinkPrev buf c) buf
  -- the pointers of the buffer itself are read after the stores
  have self1 : (relinkPrev buf c).prev buf = c.prev buf := by
    rw [prev1]
    exact setLink_same rfl
  have self2 : (relinkNext buf (relinkPrev buf c)).next buf = c.next buf := by
    rw [next2, next1]
    exact setLink_same rfl
  obtain ⟨next3, prev3, freeNext3, freePrev3, slot3, list3⟩ :=
    relinkSlot_rest (relinkNext buf (relinkPrev buf c)) buf
  have table3 := relinkSlot_hashTable (relinkNext buf (relinkPrev buf c)) buf
  obtain ⟨freeNext4, freePrev4, list4⟩ :=
    relinkFree_free (relinkSlot buf (relinkNext buf (relinkPrev buf c))) buf
  obtain ⟨next4, prev4, slot4, table4⟩ :=
    relinkFree_rest (relinkSlot buf (relinkNext buf (relinkPrev buf c))) buf
  refine ⟨relinkFree buf (relinkSlot buf (relinkNext buf (relinkPrev buf c))), ?_, ?_⟩
  · refine if_neg ?_
    rw [freePrev3, freePrev2, freePrev1, freeNext3, freeNext2, freeNext1]
    exact not_or.mpr ⟨before, after⟩
  · refine ⟨?_, ?_, ?_, ?_, ?_, ?_, ?_⟩
    · rw [slot4, slot3, slot2, slot1]
    · rw [next4, next3, next2, self1, next1]
    · rw [prev4, prev3, prev2, prev1]
    · intro slot
      rw [table4, table3, self2, table2, slot2, table1, slot1]
    · rw [freeNext4, freePrev3, freeNext3, freePrev2, freeNext2, freePrev1, freeNext1]
    · rw [freePrev4, freePrev3, freeNext3, freePrev2, freeNext2, freePrev1, freeNext1]
    · rw [list4, freeNext3, list3, list2, list1, freeNext2, freeNext1]

/-! ## The lists afterwards -/

theorem FreeRing.ring {c : BufferCache} {free : List U32} {buf : U32} (free_ring : FreeRing c free)
    (member : buf ∈ free) :
    Ring c.freeNext c.freePrev c.freeList free ∧ ∀ y ∈ free, y ≠ 0 := by
  cases free with
  | nil => cases member
  | cons y rest => exact free_ring

theorem FreeRing.of_ring {c : BufferCache} {free : List U32}
    (ring : Ring c.freeNext c.freePrev c.freeList free) (proper : ∀ y ∈ free, y ≠ 0) :
    FreeRing c free := by
  cases free with
  | nil => exact absurd rfl ring.some
  | cons y rest => exact ⟨ring, proper⟩

section Removal
variable {c c' : BufferCache} {chains : U32 → List U32} {free : List U32} {buf : U32}

/-- The chains without the buffer. -/
def without (c : BufferCache) (chains : U32 → List U32) (buf : U32) : U32 → List U32 :=
  Function.update chains (c.slotOf buf) ((chains (c.slotOf buf)).erase buf)

theorem without_subset {slot y : U32} (member : y ∈ without c chains buf slot) :
    y ∈ chains slot := by
  by_cases own : slot = c.slotOf buf
  · subst own
    rw [without, Function.update_self] at member
    exact List.mem_of_mem_erase member
  · rw [without, Function.update_of_ne own] at member
    exact member

theorem Unlinked.own_chain (unlinked : Unlinked buf c c')
    (chain : DoubleChain c.next c.prev 0 (c.hashTable (c.slotOf buf)) (chains (c.slotOf buf)))
    (hashed : buf ∈ chains (c.slotOf buf)) :
    DoubleChain c'.next c'.prev 0 (c'.hashTable (c.slotOf buf))
      ((chains (c.slotOf buf)).erase buf) := by
  obtain ⟨l, l', -, split, erased⟩ := List.exists_erase_eq hashed
  rw [split] at chain
  have head := unlinked.heads (c.slotOf buf)
  simp only [true_and] at head
  rw [erased, head, unlinked.next, unlinked.prev]
  exact chain.unlink setLink_at setLink_at (fun _ => setLink_of_ne) fun _ => setLink_of_ne

/-- The neighbours of the buffer are in its own chain. -/
theorem Unlinked.other_chain (unlinked : Unlinked buf c c') (wf : WellFormed c chains free)
    (hashed : buf ∈ chains (c.slotOf buf)) {slot : U32} (bound : slot < hashMod)
    (other : slot ≠ c.slotOf buf) :
    DoubleChain c'.next c'.prev 0 (c'.hashTable slot) (chains slot) := by
  have chain := wf.chain slot bound
  have own := wf.chain _ (slotOf_lt c buf)
  have apart : ∀ y ∈ chains slot, y ∉ chains (c.slotOf buf) := by
    intro y member inside
    have here := wf.hashed slot bound y member
    have there := wf.hashed _ (slotOf_lt c buf) y inside
    exact other (here.symm.trans there)
  rw [unlinked.heads, if_neg (fun both : _ ∧ _ => other both.1), unlinked.next, unlinked.prev]
  refine chain.congr (fun y member => setLink_of_ne ?_) fun y member => setLink_of_ne ?_
  · rintro rfl
    exact (own.prev_mem hashed).elim (chain.proper _ member) (apart _ member)
  · rintro rfl
    exact (own.next_mem hashed).elim (chain.proper _ member) (apart _ member)

theorem Unlinked.free_ring (unlinked : Unlinked buf c c') (free_ring : FreeRing c free)
    (on_free : buf ∈ free) (other : c.freeNext buf ≠ buf) : FreeRing c' (free.erase buf) := by
  obtain ⟨ring, proper⟩ := free_ring.ring on_free
  refine FreeRing.of_ring ?_ fun y member => proper y (List.mem_of_mem_erase member)
  obtain ⟨l, l', -, split, erased⟩ := List.exists_erase_eq on_free
  rw [split] at ring
  rw [erased, unlinked.freeList, unlinked.freeNext, unlinked.freePrev]
  exact ring.unlink other (Function.update_self _ _ _) (Function.update_self _ _ _)
    (fun _ apart => Function.update_of_ne apart _ _) fun _ apart => Function.update_of_ne apart _ _

theorem Unlinked.wellFormed (unlinked : Unlinked buf c c') (wf : WellFormed c chains free)
    (hashed : buf ∈ chains (c.slotOf buf)) (on_free : buf ∈ free) (other : c.freeNext buf ≠ buf) :
    WellFormed c' (without c chains buf) (free.erase buf) := by
  refine ⟨fun slot bound => ?_, fun slot bound y member => ?_,
    unlinked.free_ring wf.free on_free other⟩
  · by_cases own : slot = c.slotOf buf
    · subst own
      rw [without, Function.update_self]
      exact unlinked.own_chain (wf.chain _ bound) hashed
    · rw [without, Function.update_of_ne own]
      exact unlinked.other_chain wf hashed bound own
  · rw [unlinked.slotOf]
    exact wf.hashed slot bound y (without_subset member)

/-- What can be reached is in one of the lists. -/
theorem WellFormed.reachable (wf : WellFormed c chains free) (reachable : Reachable c buf) :
    (∃ slot < hashMod, buf ∈ chains slot) ∨ buf ∈ free := by
  rcases reachable with ⟨slot, bound, reaches⟩ | reaches
  · have chain := wf.chain slot bound
    exact Or.inl ⟨slot, bound, reaches.mem chain.head_mem fun y => chain.next_mem⟩
  · right
    have free_ring := wf.free
    cases free with
    | nil => exact reaches.mem (Or.inl free_ring) fun y member => nomatch member
    | cons y rest =>
      exact reaches.mem (Or.inr free_ring.1.head_mem) fun z member =>
        Or.inr (free_ring.1.neighbours_mem member).1

theorem WellFormed.unreachable (wf : WellFormed c chains free)
    (wf' : WellFormed c' (without c chains buf) (free.erase buf)) (on_free : buf ∈ free) :
    ¬ Reachable c' buf := by
  intro reachable
  rcases wf'.reachable reachable with ⟨slot, bound, member⟩ | member
  · have own := wf.hashed slot bound buf (without_subset member)
    rw [← own, without, Function.update_self] at member
    exact (wf.chain _ (slotOf_lt c buf)).nodup.not_mem_erase member
  · exact (wf.free.ring on_free).1.nodup.not_mem_erase member

/-- `remove_from_lists` has done what it is for: the lists are as they were without the
buffer, and nothing leads to it. -/
def Removed (buf : U32) (c : BufferCache) (chains : U32 → List U32) (free : List U32) : Prop :=
  ∃ c', removeFromLists buf c = some c' ∧
    WellFormed c' (without c chains buf) (free.erase buf) ∧ ¬ Reachable c' buf

/-- A buffer of both lists is removed from them exactly when the free list holds another one:
the head of the free list is never set back to `NULL`. -/
theorem removeFromLists_removes_iff (wf : WellFormed c chains free)
    (hashed : buf ∈ chains (c.slotOf buf)) (on_free : buf ∈ free) :
    Removed buf c chains free ↔ c.freeNext buf ≠ buf := by
  obtain ⟨ring, proper⟩ := wf.free.ring on_free
  have neighbours := ring.neighbours_mem on_free
  obtain ⟨c', removed, unlinked⟩ :=
    removeFromLists_unlinked (proper _ neighbours.2) (proper _ neighbours.1)
  constructor
  · rintro ⟨c'', removed', wf', -⟩ alone
    cases removed.symm.trans removed'
    obtain ⟨l, l', -, split, erased⟩ := List.exists_erase_eq on_free
    rw [split] at ring
    have nothing := ring.next_self_iff.mp alone
    have first : c.freeList = buf := by
      have head := ring.head_mem
      obtain ⟨rfl, rfl⟩ := List.append_eq_nil_iff.mp nothing
      exact List.mem_singleton.mp head
    -- no buffer is left, but the list still points to this one
    have null : c'.freeList = 0 := by
      have empty := wf'.free
      rw [erased, nothing] at empty
      exact empty
    rw [unlinked.freeList, if_pos first] at null
    exact proper _ neighbours.1 null
  · intro other
    have wf' := unlinked.wellFormed wf hashed on_free other
    exact ⟨c', removed, wf', wf.unreachable wf' on_free⟩

end Removal

/-- Block 1 of device 0. -/
def blockOne (next other : U32) : BufferHead :=
  { dev := 0, blockNo := 1, prev := 0, next := next, freePrev := other, freeNext := other }

/-- Blocks 1 and 308 of device 0 hash to one slot; both are free. -/
def twoBuffers : BufferCache where
  buffers buf :=
    if buf = 0x1000 then blockOne 0x2000 0x2000
    else { dev := 0, blockNo := 308, prev := 0x1000, next := 0, freePrev := 0x1000,
           freeNext := 0x1000 }
  hashTable slot := if slot = 1 then 0x1000 else 0
  freeList := 0x1000

/-- Block 1 is the only buffer. -/
def oneBuffer : BufferCache where
  buffers _ := blockOne 0 0x1000
  hashTable slot := if slot = 1 then 0x1000 else 0
  freeList := 0x1000

def inSlotOne (buffers : List U32) (slot : U32) : List U32 := if slot = 1 then buffers else []

/-- Only slot 1 of the hash table is used. -/
theorem wellFormed_slotOne {c : BufferCache} {buffers free : List U32}
    (unused : ∀ slot, slot ≠ 1 → c.hashTable slot = 0)
    (used : DoubleChain c.next c.prev 0 (c.hashTable 1) buffers)
    (hashed : ∀ y ∈ buffers, c.slotOf y = 1) (free_ring : FreeRing c free) :
    WellFormed c (inSlotOne buffers) free := by
  refine ⟨fun slot _ => ?_, fun slot _ y member => ?_, free_ring⟩
  · by_cases one : slot = 1
    · subst one
      exact used
    · rw [inSlotOne, if_neg one]
      exact ⟨fun y member => (nomatch member), 0, rfl, unused slot one⟩
  · by_cases one : slot = 1
    · subst one
      exact hashed y member
    · rw [inSlotOne, if_neg one] at member
      cases member

theorem twoBuffers_wellFormed :
    WellFormed twoBuffers (inSlotOne [0x1000, 0x2000]) [0x1000, 0x2000] := by
  refine wellFormed_slotOne (fun slot other => if_neg other) ⟨by simp, 0x2000, by decide⟩ ?_
    ⟨⟨by simp, by simp, 0x2000, by decide⟩, by simp⟩
  intro y member
  rcases List.mem_cons.mp member with rfl | member
  · decide
  · cases List.mem_singleton.mp member
    decide

theorem removeFromLists_removes_iff_two :
    Removed 0x1000 twoBuffers (inSlotOne [0x1000, 0x2000]) [0x1000, 0x2000] :=
  (removeFromLists_removes_iff twoBuffers_wellFormed (by decide) (by decide)).mpr (by decide)

theorem oneBuffer_wellFormed : WellFormed oneBuffer (inSlotOne [0x1000]) [0x1000] := by
  refine wellFormed_slotOne (fun slot other => if_neg other) ⟨by simp, 0x1000, by decide⟩ ?_
    ⟨⟨by simp, by simp, 0x1000, by decide⟩, by simp⟩
  intro y member
  cases List.mem_singleton.mp member
  decide

/-- After its removal the only free buffer is still the head of the free list. -/
theorem oneBuffer_not_removed :
    WellFormed oneBuffer (inSlotOne [0x1000]) [0x1000] ∧
    0x1000 ∈ inSlotOne [0x1000] (oneBuffer.slotOf 0x1000) ∧
    ¬ Removed 0x1000 oneBuffer (inSlotOne [0x1000]) [0x1000] := by
  refine ⟨oneBuffer_wellFormed, by decide, ?_⟩
  rintro ⟨c', removed, wf', -⟩
  have head : (removeFromLists 0x1000 oneBuffer).map BufferCache.freeList = some 0x1000 := by
    decide
  rw [removed] at head
  have null : c'.freeList = 0 := wf'.free
  cases null.symm.trans (Option.some.inj head)

end BlessOS.Guarantees.BufferLists
