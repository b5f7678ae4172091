import BlessOS.Lib.ByteMemory

/-!
# A table of double words that a loop fills

The loop writes one entry after another, and what it writes may be read from the memory as the
loop has it. When nothing is read from the table itself, each entry is what it would be
without the others, and nothing else changes.
-/

set_option autoImplicit false

namespace BlessOS.Lib.TableFill
open BlessOS.Lib.ByteMemory

/-- The entry `i` of a table. -/
def entry (base : Addr) (i : Nat) : Addr := base + 8 * BitVec.ofNat 32 i

/-- The two words at an address, the lower one first. -/
def words (m : Mem) (a : Addr) : BitVec 32 × BitVec 32 := (load32 m a, load32 m (a + 4))

def storeWords (a : Addr) (low high : BitVec 32) (m : Mem) : Mem :=
  store32 (store32 m a low) (a + 4) high

/-- The loop from the entry `i` on, with a number of turns left. -/
def fill (write : Nat → Mem → Mem) : Nat → Nat → Mem → Mem
  | 0, _, m => m
  | left + 1, i, m => fill write left (i + 1) (write i m)

theorem fill_append (write : Nat → Mem → Mem) (first second i : Nat) (m : Mem) :
    fill write second (i + first) (fill write first i m) = fill write (first + second) i m := by
  induction first generalizing i m with
  | zero => rw [Nat.add_zero, Nat.zero_add, fill]
  | succ first ih =>
    rw [Nat.succ_add, fill, fill, ← ih (i + 1) (write i m)]
    congr 1
    exact Nat.add_right_comm i first 1

theorem entry_succ (base : Addr) (i : Nat) : entry base i + 8 = entry base (i + 1) := by
  unfold entry
  rw [BitVec.ofNat_add, BitVec.add_assoc]
  congr 1
  rw [BitVec.mul_add]
  rfl

section Entries

variable {base a low high : BitVec 32} {m m' : Mem} {size i j : Nat}

theorem entry_toNat (room : base.toNat + 8 * size ≤ 2 ^ 32) (inside : i < size) :
    (entry base i).toNat = base.toNat + 8 * i := by
  have small : (8 * BitVec.ofNat 32 i).toNat = 8 * i := by
    rw [BitVec.toNat_mul, BitVec.toNat_ofNat]
    change 8 * (i % 2 ^ 32) % 2 ^ 32 = 8 * i
    omega
  unfold entry
  rw [BitVec.toNat_add, small]
  omega

theorem second_toNat (room : a.toNat + 8 ≤ 2 ^ 32) : (a + 4).toNat = a.toNat + 4 := by
  rw [BitVec.toNat_add]
  change (a.toNat + 4) % 2 ^ 32 = a.toNat + 4
  omega

theorem words_congr (agree : AgreeOn a.toNat (a.toNat + 8) m m') (room : a.toNat + 8 ≤ 2 ^ 32) :
    words m' a = words m a := by
  have second := second_toNat room
  unfold words
  rw [agree.load32 (Nat.le_refl _) (by omega) (by omega),
    agree.load32 (a := a + 4) (by omega) (by omega) (by omega)]

theorem words_store (room : a.toNat + 8 ≤ 2 ^ 32) :
    words (storeWords a low high m) a = (low, high) := by
  have second := second_toNat room
  have kept : load32 (store32 (store32 m a low) (a + 4) high) a = load32 (store32 m a low) a :=
    load32_store32_of_disjoint _ _ (by omega) (by omega) (by omega)
  unfold words storeWords
  rw [kept, load32_store32_self, load32_store32_self]

theorem storeWords_agreeOff (room : a.toNat + 8 ≤ 2 ^ 32) :
    AgreeOff a.toNat (a.toNat + 8) m (storeWords a low high m) := by
  have second := second_toNat room
  have first : AgreeOff a.toNat (a.toNat + 8) m (store32 m a low) :=
    store32_agreeOff m low (Nat.le_refl _) (by omega) (by omega)
  exact first.trans (store32_agreeOff _ high (by omega) (by omega) (by omega))

end Entries

section Fill

variable {base : Addr} {size : Nat} {m : Mem} {write : Nat → Mem → Mem}
  {value : Nat → BitVec 32 × BitVec 32}

/-- What is written to the entries, in every memory that differs in the table only. -/
def Writes (base : Addr) (size : Nat) (m : Mem) (write : Nat → Mem → Mem)
    (value : Nat → BitVec 32 × BitVec 32) : Prop :=
  ∀ i < size, ∀ m', AgreeOff base.toNat (base.toNat + 8 * size) m m' →
    write i m' = storeWords (entry base i) (value i).1 (value i).2 m'

variable (room : base.toNat + 8 * size ≤ 2 ^ 32) (writes : Writes base size m write value)

include room writes

/-- One turn: the entry is written, and no other. -/
theorem write_spec {i : Nat} (inside : i < size) {m' : Mem}
    (agree : AgreeOff base.toNat (base.toNat + 8 * size) m m') :
    AgreeOff base.toNat (base.toNat + 8 * size) m (write i m') ∧
      words (write i m') (entry base i) = value i ∧
      ∀ j < size, j ≠ i → words (write i m') (entry base j) = words m' (entry base j) := by
  have place := entry_toNat room inside
  have off : AgreeOff (entry base i).toNat ((entry base i).toNat + 8) m'
      (storeWords (entry base i) (value i).1 (value i).2 m') := storeWords_agreeOff (by omega)
  rw [writes i inside m' agree]
  refine ⟨agree.trans (off.mono (by omega) (by omega)), words_store (by omega), ?_⟩
  intro j inside' other
  have place' := entry_toNat room inside'
  exact words_congr (off.on (by omega)) (by omega)

/-- The loop: the entries are written from `i` on, and those before stay. -/
theorem fill_spec (left i : Nat) (inside : i + left ≤ size) {m' : Mem}
    (agree : AgreeOff base.toNat (base.toNat + 8 * size) m m') :
    AgreeOff base.toNat (base.toNat + 8 * size) m (fill write left i m') ∧
      (∀ j < size, j < i → words (fill write left i m') (entry base j) = words m' (entry base j)) ∧
      ∀ j, i ≤ j → j < i + left → words (fill write left i m') (entry base j) = value j := by
  induction left generalizing i m' with
  | zero => exact ⟨agree, fun _ _ _ => rfl, fun j _ _ => absurd ‹j < i + 0› (by omega)⟩
  | succ left ih =>
    obtain ⟨agree', written, others⟩ := write_spec room writes (by omega : i < size) agree
    obtain ⟨off, before, behind⟩ := ih (i + 1) (by omega) agree'
    refine ⟨off, fun j inside' below => ?_, fun j above below => ?_⟩
    · exact (before j inside' (by omega)).trans (others j inside' (by omega))
    · by_cases here : j = i
      · rw [here]
        exact (before i (by omega) (by omega)).trans written
      · exact behind j (by omega) (by omega)

/-- The loop over the whole table. -/
theorem fill_all : AgreeOff base.toNat (base.toNat + 8 * size) m (fill write size 0 m) ∧
    ∀ j < size, words (fill write size 0 m) (entry base j) = value j := by
  obtain ⟨off, -, all⟩ := fill_spec room writes size 0 (by omega) (AgreeOff.refl _ _ m)
  exact ⟨off, fun j inside => all j (Nat.zero_le j) (by omega)⟩

end Fill

end BlessOS.Lib.TableFill
