import BlessOS.Lib.RingWindow
import BlessOS.Lib.Transition
import BlessOS.Source.CyclicBuffer

/-!
# The circular buffer is a bounded FIFO

One slot of the array stays free to tell a full buffer from an empty one, so the
queue holds at most `circBuffSize - 1` bytes. `Represents` relates the indices
and the live window of the array to the queue; stale bytes outside the window
are unconstrained.
-/

set_option autoImplicit false

namespace BlessOS.Guarantees.CyclicBufferFifo
open BlessOS.Lib.RingWindow BlessOS.Lib.Transition
open BlessOS.Source BlessOS.Source.CyclicBuffer

/-- The calls a client makes on the buffer. -/
inductive CbCall where
  | push (element : U8)
  | pop
  deriving DecidableEq, Repr

inductive CbAnswer where
  | status (code : Int)
  | byte (value : U8)
  deriving DecidableEq, Repr

/-- One call on the source's buffer. -/
def cbCall (buf : CircularBuf) : CbCall → CircularBuf × CbAnswer
  | .push element =>
    let result := cbPush element buf
    (result.2, .status result.1)
  | .pop =>
    let result := cbPop (some buf)
    (result.2.getD buf, .byte result.1)

/-- The most bytes the queue holds. -/
def capacity : Nat := circBuffSize.toNat - 1

/-- The same call on a bounded FIFO queue of bytes. -/
def fifoCall (q : List U8) : CbCall → List U8 × CbAnswer
  | .push element =>
    if q.length < capacity then (q ++ [element], .status 0) else (q, .status (-1))
  | .pop =>
    match q with
    | [] => ([], .byte (-1))
    | oldest :: rest => (rest, .byte oldest)

/-- The array as the ring of cells the indices walk over. -/
def cells (buf : CircularBuf) (i : Nat) : U8 := buf.data (BitVec.ofNat 32 i)

/-- The buffer holds the queue: both indices in range, their distance the
length, and the bytes from `tail` on. -/
structure Represents (buf : CircularBuf) (q : List U8) : Prop where
  head_lt : buf.head.toNat < circBuffSize.toNat
  tail_lt : buf.tail.toNat < circBuffSize.toNat
  length_le : q.length ≤ capacity
  head_eq : buf.head.toNat = (buf.tail.toNat + q.length) % circBuffSize.toNat
  window : Window circBuffSize.toNat (cells buf) buf.tail.toNat q

/-- Masking with `circBuffSize - 1` is reduction modulo the size. -/
theorem mask_toNat (x : U32) : (x &&& (circBuffSize - 1)).toNat = x.toNat % 1024 := by
  rw [BitVec.toNat_and]
  exact Nat.and_two_pow_sub_one_eq_mod x.toNat 10

theorem ofNat_toNat_index (i : U32) : BitVec.ofNat 32 i.toNat = i := by
  simp

theorem cbInit_represents (start : CircularBuf) : Represents (cbInit start) [] where
  head_lt := Nat.zero_lt_of_lt (by decide : 0 < circBuffSize.toNat)
  tail_lt := Nat.zero_lt_of_lt (by decide : 0 < circBuffSize.toNat)
  length_le := Nat.zero_le _
  head_eq := rfl
  window := window_nil _ _ _

section Observers

variable {buf : CircularBuf} {q : List U8}

theorem Represents.count (held : Represents buf q) : cbGetCount (some buf) = q.length := by
  have bound := held.length_le
  have eq := held.head_eq
  have ht := held.tail_lt
  simp only [cbGetCount, mask_toNat, BitVec.toNat_sub]
  simp only [capacity, circBuffSize, BitVec.reduceToNat] at *
  omega

theorem Represents.isEmpty (held : Represents buf q) :
    cbIsEmpty (some buf) = if q = [] then 1 else 0 := by
  have bound := held.length_le
  have eq := held.head_eq
  have ht := held.tail_lt
  have empty_iff : buf.head = buf.tail ↔ q = [] := by
    rw [← BitVec.toNat_inj, ← List.length_eq_zero_iff]
    simp only [capacity, circBuffSize, BitVec.reduceToNat] at *
    omega
  simp only [cbIsEmpty, empty_iff]

theorem Represents.isFull (held : Represents buf q) :
    cbIsFull (some buf) = if q.length = capacity then 1 else 0 := by
  have bound := held.length_le
  have eq := held.head_eq
  have ht := held.tail_lt
  have full_iff : (buf.tail - buf.head - 1) &&& (circBuffSize - 1) ≠ 0 ↔ ¬ q.length = capacity := by
    rw [ne_eq, ← BitVec.toNat_inj, mask_toNat]
    simp only [BitVec.toNat_sub, capacity, circBuffSize, BitVec.reduceToNat] at *
    omega
  simp only [cbIsFull, full_iff, ite_not]

/-- A push on a buffer with room appends to the queue. -/
theorem Represents.push (held : Represents buf q) (room : q.length < capacity) (x : U8) :
    (cbPush x buf).1 = 0 ∧ Represents (cbPush x buf).2 (q ++ [x]) := by
  have not_full : ¬ cbIsFull (some buf) = 1 := by
    rw [held.isFull, if_neg (Nat.ne_of_lt room)]
    decide
  have eq := held.head_eq
  have hh := held.head_lt
  simp only [cbPush, if_neg not_full, true_and]
  refine ⟨?_, held.tail_lt, ?_, ?_, ?_⟩
  · rw [mask_toNat]
    exact Nat.mod_lt _ (by decide)
  · rw [List.length_append, List.length_singleton]
    exact room
  · rw [mask_toNat, List.length_append, List.length_singleton, BitVec.toNat_add, eq]
    simp only [circBuffSize, BitVec.reduceToNat]
    omega
  · have written : cells { buf with
          data := Function.update buf.data buf.head x
          head := (buf.head + 1) &&& (circBuffSize - 1) } =
        fun i => if i % 2 ^ 32 = buf.head.toNat then x else cells buf i := by
      funext i
      have same : BitVec.ofNat 32 i = buf.head ↔ i % 2 ^ 32 = buf.head.toNat := by
        rw [← BitVec.toNat_inj, BitVec.toNat_ofNat]
      by_cases hit : i % 2 ^ 32 = buf.head.toNat
      · simp only [cells, if_pos hit, same.mpr hit, Function.update_self]
      · simp only [cells, if_neg hit, Function.update_of_ne (mt same.mp hit)]
    have window := held.window.push (by simp only [capacity] at room; omega) x
    intro i inside
    have below : (buf.tail.toNat + i) % circBuffSize.toNat < 1024 := Nat.mod_lt _ (by decide)
    rw [written, ← window i inside, ← eq, Function.update_apply]
    simp only [Nat.mod_eq_of_lt (Nat.lt_trans below (by decide : (1024 : Nat) < 2 ^ 32))]

/-- A push on a full buffer is refused. -/
theorem Represents.push_full (held : Represents buf q) (full : q.length = capacity) (x : U8) :
    cbPush x buf = (-1, buf) := by
  have is_full : cbIsFull (some buf) = 1 := by rw [held.isFull, if_pos full]
  simp only [cbPush, if_pos is_full]

/-- A pop on a non-empty buffer removes the oldest byte. -/
theorem Represents.pop {x : U8} {rest : List U8} (held : Represents buf (x :: rest)) :
    ∃ after, cbPop (some buf) = (x, some after) ∧ Represents after rest := by
  have not_empty : ¬ cbIsEmpty (some buf) ≠ 0 := by
    rw [held.isEmpty, if_neg (List.cons_ne_nil x rest)]
    decide
  have front : buf.data buf.tail = x := by
    have read := held.window.front
    rwa [cells, Nat.mod_eq_of_lt held.tail_lt, ofNat_toNat_index] at read
  have eq := held.head_eq
  have bound := held.length_le
  refine ⟨{ buf with tail := (buf.tail + 1) &&& (circBuffSize - 1) },
    by simp only [cbPop, if_neg not_empty, front], ⟨held.head_lt, ?_, ?_, ?_, ?_⟩⟩
  · rw [mask_toNat]
    exact Nat.mod_lt _ (by decide)
  · rw [List.length_cons] at bound
    omega
  · rw [mask_toNat, eq, List.length_cons, BitVec.toNat_add]
    simp only [circBuffSize, BitVec.reduceToNat]
    omega
  · have ht := held.tail_lt
    have moved : ((buf.tail + 1) &&& (circBuffSize - 1)).toNat =
        (buf.tail.toNat + 1) % circBuffSize.toNat := by
      rw [mask_toNat, BitVec.toNat_add]
      simp only [circBuffSize, BitVec.reduceToNat] at *
      omega
    rw [moved]
    exact held.window.pop

/-- A pop on an empty buffer changes nothing. -/
theorem Represents.pop_empty (held : Represents buf []) : cbPop (some buf) = (-1, some buf) := by
  have is_empty : cbIsEmpty (some buf) ≠ 0 := by
    rw [held.isEmpty]
    decide
  simp only [cbPop, if_pos is_empty]

end Observers

/-- Every call answers as the queue does and keeps the representation. -/
theorem cbCall_simulates (buf : CircularBuf) (q : List U8) (call : CbCall)
    (held : Represents buf q) :
    (cbCall buf call).2 = (fifoCall q call).2 ∧
      Represents (cbCall buf call).1 (fifoCall q call).1 := by
  cases call with
  | push x =>
    by_cases room : q.length < capacity
    · obtain ⟨status, after⟩ := held.push room x
      simp only [cbCall, fifoCall, if_pos room, status]
      exact ⟨trivial, after⟩
    · have full : q.length = capacity := Nat.le_antisymm held.length_le (Nat.le_of_not_lt room)
      simp only [cbCall, fifoCall, if_neg room, held.push_full full]
      exact ⟨trivial, held⟩
  | pop =>
    cases q with
    | nil =>
      simp only [cbCall, fifoCall, held.pop_empty]
      exact ⟨trivial, held⟩
    | cons x rest =>
      obtain ⟨after, popped, represents⟩ := held.pop
      simp only [cbCall, fifoCall, popped]
      exact ⟨trivial, represents⟩

/-- What a client of the buffer observes when it holds the queue `q`. -/
structure ObservedAs (buf : CircularBuf) (q : List U8) : Prop where
  head_lt : buf.head < circBuffSize
  tail_lt : buf.tail < circBuffSize
  length_le : q.length ≤ capacity
  count : cbGetCount (some buf) = q.length
  isEmpty : cbIsEmpty (some buf) = if q.length = 0 then 1 else 0
  isFull : cbIsFull (some buf) = if q.length = capacity then 1 else 0
  push_room : ∀ x, q.length < capacity → (cbPush x buf).1 = 0
  push_full : ∀ x, ¬ q.length < capacity → cbPush x buf = (-1, buf)
  pop_oldest : ∀ x rest, q = x :: rest → (cbPop (some buf)).1 = x
  pop_empty : q = [] → cbPop (some buf) = (-1, some buf)

theorem Represents.observed {buf : CircularBuf} {q : List U8} (held : Represents buf q) :
    ObservedAs buf q where
  head_lt := held.head_lt
  tail_lt := held.tail_lt
  length_le := held.length_le
  count := held.count
  isEmpty := by simp only [held.isEmpty, List.length_eq_zero_iff]
  isFull := held.isFull
  push_room x room := (held.push room x).1
  push_full x no_room :=
    held.push_full (Nat.le_antisymm held.length_le (Nat.le_of_not_lt no_room)) x
  pop_oldest x rest eq := by
    subst eq
    obtain ⟨after, popped, _⟩ := held.pop
    rw [popped]
  pop_empty eq := by
    subst eq
    exact held.pop_empty

/-- From `cb_init`, any sequence of pushes and pops answers as the bounded FIFO
queue does, and in the state it ends in the observers see that queue. -/
theorem cyclicBuffer_refines_fifo (start : CircularBuf) (calls : List CbCall) :
    (outputs cbCall (cbInit start) calls).2 = (outputs fifoCall [] calls).2 ∧
      ObservedAs (outputs cbCall (cbInit start) calls).1 (outputs fifoCall [] calls).1 := by
  obtain ⟨answers, held⟩ := outputs_refines Represents cbCall fifoCall cbCall_simulates calls
    (cbInit start) [] (cbInit_represents start)
  exact ⟨answers, held.observed⟩

end BlessOS.Guarantees.CyclicBufferFifo
