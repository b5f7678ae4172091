import Mathlib.Data.BitVec

/-!
# A 32-bit byte-addressed little-endian memory

Words are read and written at any address, aligned or not, and addresses wrap.
Frame conditions are stated on ranges of addresses that do not wrap: `AgreeOn lo
hi m m'` says that two memories hold the same bytes at `lo ≤ a < hi`.
-/

set_option autoImplicit false

namespace BlessOS.Lib.ByteMemory

abbrev Byte := BitVec 8
abbrev Addr := BitVec 32

/-- The contents of every byte of the address space. -/
abbrev Mem := Addr → Byte

def load8 (m : Mem) (a : Addr) : Byte := m a

def store8 (m : Mem) (a : Addr) (value : Byte) : Mem :=
  fun x => if x = a then value else m x

def load32 (m : Mem) (a : Addr) : BitVec 32 :=
  m (a + 3) ++ m (a + 2) ++ m (a + 1) ++ m a

/-- Byte `i` of the word goes to address `a + i`. -/
def store32 (m : Mem) (a : Addr) (value : BitVec 32) : Mem :=
  fun x => if x - a < 4 then (value >>> (8 * (x - a).toNat)).setWidth 8 else m x

/-- `m` with the `length` bytes from `a` on taken from `source`. -/
def overlay (m : Mem) (a length : Addr) (source : Mem) : Mem :=
  fun x => if x - a < length then source x else m x

@[simp] theorem load8_store8_self (m : Mem) (a : Addr) (value : Byte) :
    load8 (store8 m a value) a = value := by
  simp [load8, store8]

/-- A word store writes four bytes and no other. -/
theorem store32_apply_of_outside (m : Mem) (a x : Addr) (value : BitVec 32) (outside : 4 ≤ x - a) :
    store32 m a value x = m x := by
  simp only [store32, BitVec.not_lt.mpr outside, if_false]

theorem store32_apply_add (m : Mem) (a : Addr) (value : BitVec 32) (i : Nat) (inside : i < 4) :
    store32 m a value (a + BitVec.ofNat 32 i) = (value >>> (8 * i)).setWidth 8 := by
  have offset : a + BitVec.ofNat 32 i - a = BitVec.ofNat 32 i := by
    rw [BitVec.add_comm, BitVec.add_sub_cancel]
  have small : (BitVec.ofNat 32 i).toNat = i := by
    rw [BitVec.toNat_ofNat]
    omega
  have lt : BitVec.ofNat 32 i < 4 := by
    rw [BitVec.lt_def, small]
    exact inside
  simp only [store32, offset, lt, if_true, small]

/-- The four bytes of a word, put back together. -/
theorem bytes_append (value : BitVec 32) :
    (value >>> (8 * 3)).setWidth 8 ++ (value >>> (8 * 2)).setWidth 8 ++
      (value >>> (8 * 1)).setWidth 8 ++ (value >>> (8 * 0)).setWidth 8 = value := by
  grind

@[simp] theorem load32_store32_self (m : Mem) (a : Addr) (value : BitVec 32) :
    load32 (store32 m a value) a = value := by
  have byte0 : store32 m a value a = (value >>> (8 * 0)).setWidth 8 := by
    simpa using store32_apply_add m a value 0 (by decide)
  have byte1 : store32 m a value (a + 1) = (value >>> (8 * 1)).setWidth 8 :=
    store32_apply_add m a value 1 (by decide)
  have byte2 : store32 m a value (a + 2) = (value >>> (8 * 2)).setWidth 8 :=
    store32_apply_add m a value 2 (by decide)
  have byte3 : store32 m a value (a + 3) = (value >>> (8 * 3)).setWidth 8 :=
    store32_apply_add m a value 3 (by decide)
  simp only [load32, byte0, byte1, byte2, byte3]
  exact bytes_append value

/-- A word is read from four bytes. -/
theorem load32_congr {m m' : Mem} {a : Addr} (same : ∀ k : Addr, k < 4 → m' (a + k) = m (a + k)) :
    load32 m' a = load32 m a := by
  have byte0 : m' a = m a := by simpa using same 0 (by decide)
  simp only [load32, byte0, same 1 (by decide), same 2 (by decide), same 3 (by decide)]

/-- The memory of these words, one after another. -/
def ofWords (words : Nat → BitVec 32) : Mem :=
  fun a => (words (a.toNat / 4) >>> (8 * (a.toNat % 4))).setWidth 8

theorem load32_ofWords (words : Nat → BitVec 32) {a : Addr} (aligned : a.toNat % 4 = 0) :
    load32 (ofWords words) a = words (a.toNat / 4) := by
  have byte : ∀ k : Nat, k < 4 → ofWords words (a + BitVec.ofNat 32 k) =
      (words (a.toNat / 4) >>> (8 * k)).setWidth 8 := by
    intro k small
    have place : (a + BitVec.ofNat 32 k).toNat = a.toNat + k := by
      have bound := a.isLt
      rw [BitVec.toNat_add, BitVec.toNat_ofNat]
      omega
    unfold ofWords
    rw [place, show (a.toNat + k) / 4 = a.toNat / 4 by omega, show (a.toNat + k) % 4 = k by omega]
  have byte0 : ofWords words a = (words (a.toNat / 4) >>> (8 * 0)).setWidth 8 := by
    simpa using byte 0 (by decide)
  have byte1 : ofWords words (a + 1) = _ := byte 1 (by decide)
  have byte2 : ofWords words (a + 2) = _ := byte 2 (by decide)
  have byte3 : ofWords words (a + 3) = _ := byte 3 (by decide)
  simp only [load32, byte0, byte1, byte2, byte3]
  exact bytes_append _

/-- The memories hold the same bytes at the addresses `lo ≤ a < hi`. -/
def AgreeOn (lo hi : Nat) (m m' : Mem) : Prop :=
  ∀ a : Addr, lo ≤ a.toNat → a.toNat < hi → m' a = m a

theorem AgreeOn.refl (lo hi : Nat) (m : Mem) : AgreeOn lo hi m m := fun _ _ _ => rfl

theorem AgreeOn.trans {lo hi : Nat} {m m' m'' : Mem} (first : AgreeOn lo hi m m')
    (second : AgreeOn lo hi m' m'') : AgreeOn lo hi m m'' :=
  fun a low high => (second a low high).trans (first a low high)

theorem AgreeOn.mono {lo hi lo' hi' : Nat} {m m' : Mem} (agree : AgreeOn lo hi m m')
    (low : lo ≤ lo') (high : hi' ≤ hi) : AgreeOn lo' hi' m m' :=
  fun a hl hh => agree a (Nat.le_trans low hl) (Nat.lt_of_lt_of_le hh high)

theorem AgreeOn.load8 {lo hi : Nat} {m m' : Mem} (agree : AgreeOn lo hi m m') {a : Addr}
    (low : lo ≤ a.toNat) (high : a.toNat < hi) :
    ByteMemory.load8 m' a = ByteMemory.load8 m a :=
  agree a low high

theorem AgreeOn.load32 {lo hi : Nat} {m m' : Mem} (agree : AgreeOn lo hi m m') {a : Addr}
    (low : lo ≤ a.toNat) (high : a.toNat + 4 ≤ hi) (bound : a.toNat + 4 ≤ 2 ^ 32) :
    ByteMemory.load32 m' a = ByteMemory.load32 m a :=
  load32_congr fun k small => agree _ (by bv_omega) (by bv_omega)

/-- The memories hold the same bytes at all addresses but `lo ≤ a < hi`. -/
def AgreeOff (lo hi : Nat) (m m' : Mem) : Prop :=
  ∀ a : Addr, a.toNat < lo ∨ hi ≤ a.toNat → m' a = m a

section AgreeOff

variable {lo hi lo' hi' : Nat} {m m' m'' : Mem}

theorem AgreeOff.refl (lo hi : Nat) (m : Mem) : AgreeOff lo hi m m := fun _ _ => rfl

theorem AgreeOff.trans (first : AgreeOff lo hi m m') (second : AgreeOff lo hi m' m'') :
    AgreeOff lo hi m m'' :=
  fun a outside => (second a outside).trans (first a outside)

theorem AgreeOff.mono (agree : AgreeOff lo hi m m') (low : lo' ≤ lo) (high : hi ≤ hi') :
    AgreeOff lo' hi' m m' :=
  fun a outside => agree a (by omega)

/-- What is written in one range does not show in a range apart from it. -/
theorem AgreeOff.on (agree : AgreeOff lo hi m m') (apart : hi' ≤ lo ∨ hi ≤ lo') :
    AgreeOn lo' hi' m m' :=
  fun a low high => agree a (by omega)

/-- A word at any address, all of whose bytes lie outside the range. -/
theorem AgreeOff.load32 (agree : AgreeOff lo hi m m') {a : Addr}
    (outside : ∀ k : Addr, k < 4 → (a + k).toNat < lo ∨ hi ≤ (a + k).toNat) :
    ByteMemory.load32 m' a = ByteMemory.load32 m a :=
  load32_congr fun k small => agree _ (outside k small)

/-- A byte store writes inside every range around it. -/
theorem store8_agreeOff (m : Mem) {a : Addr} (value : Byte) (low : lo ≤ a.toNat)
    (high : a.toNat < hi) : AgreeOff lo hi m (store8 m a value) := by
  intro x outside
  have other : x ≠ a := by
    rintro rfl
    omega
  simp only [store8, if_neg other]

/-- A word store writes inside every range around it. -/
theorem store32_agreeOff (m : Mem) {a : Addr} (value : BitVec 32) (low : lo ≤ a.toNat)
    (high : a.toNat + 4 ≤ hi) (bound : a.toNat + 4 ≤ 2 ^ 32) :
    AgreeOff lo hi m (store32 m a value) := by
  intro x outside
  exact store32_apply_of_outside m a x value (by bv_omega)

theorem overlay_agreeOff (m : Mem) {a length : Addr} (source : Mem) (low : lo ≤ a.toNat)
    (high : a.toNat + length.toNat ≤ hi) (bound : a.toNat + length.toNat ≤ 2 ^ 32) :
    AgreeOff lo hi m (overlay m a length source) := by
  intro x outside
  have apart : ¬ x - a < length := by bv_omega
  simp only [overlay, if_neg apart]

end AgreeOff

/-- A byte store outside a range leaves the range alone. -/
theorem store8_agree {lo hi : Nat} (m : Mem) {a : Addr} (value : Byte)
    (outside : a.toNat < lo ∨ hi ≤ a.toNat) : AgreeOn lo hi m (store8 m a value) := by
  intro x low high
  have other : x ≠ a := by
    rintro rfl
    omega
  simp only [store8, if_neg other]

/-- A word store outside a range leaves the range alone. -/
theorem store32_agree {lo hi : Nat} (m : Mem) {a : Addr} (value : BitVec 32)
    (bound : a.toNat + 4 ≤ 2 ^ 32) (outside : a.toNat + 4 ≤ lo ∨ hi ≤ a.toNat) :
    AgreeOn lo hi m (store32 m a value) := by
  intro x low high
  exact store32_apply_of_outside m a x value (by bv_omega)

/-- A word store leaves the words that share no byte with it alone. -/
theorem load32_store32_of_disjoint (m : Mem) {a b : Addr} (value : BitVec 32)
    (ha : a.toNat + 4 ≤ 2 ^ 32) (hb : b.toNat + 4 ≤ 2 ^ 32)
    (disjoint : a.toNat + 4 ≤ b.toNat ∨ b.toNat + 4 ≤ a.toNat) :
    load32 (store32 m a value) b = load32 m b :=
  have frame : AgreeOn b.toNat (b.toNat + 4) m (store32 m a value) :=
    store32_agree m value ha (by omega)
  frame.load32 (Nat.le_refl _) (Nat.le_refl _) hb

/-- On words at multiples of four a word store changes one word. -/
theorem load32_store32_aligned (m : Mem) {a b : Addr} (value : BitVec 32)
    (ha : a.toNat % 4 = 0) (hb : b.toNat % 4 = 0) :
    load32 (store32 m a value) b = if b = a then value else load32 m b := by
  split
  · next same => rw [same, load32_store32_self]
  · next other =>
    have apart : b.toNat ≠ a.toNat := fun same => other (BitVec.eq_of_toNat_eq same)
    exact load32_store32_of_disjoint m value (by omega) (by omega) (by omega)

/-- The halves of a word determine it, and are determined by it. -/
theorem append_inj {n k : Nat} {x x' : BitVec n} {y y' : BitVec k} (same : x ++ y = x' ++ y') :
    x = x' ∧ y = y' := by
  have low : y = y' := by
    ext i inside
    have bit : (x ++ y)[i] = (x' ++ y')[i] := by simp only [same]
    simpa only [BitVec.getElem_append, inside, dite_true] using bit
  subst low
  exact ⟨(BitVec.append_left_inj y).mp same, rfl⟩

/-- Memories with the same word at an address hold the same four bytes there. -/
theorem agreeOn_of_load32 {m m' : Mem} {a : Addr} (same : load32 m' a = load32 m a)
    (bound : a.toNat + 4 ≤ 2 ^ 32) : AgreeOn a.toNat (a.toNat + 4) m m' := by
  obtain ⟨high, byte0⟩ := append_inj same
  obtain ⟨high, byte1⟩ := append_inj high
  obtain ⟨byte3, byte2⟩ := append_inj high
  intro x low high
  have place : x = a ∨ x = a + 1 ∨ x = a + 2 ∨ x = a + 3 := by
    have cases4 : x.toNat = a.toNat ∨ x.toNat = a.toNat + 1 ∨ x.toNat = a.toNat + 2 ∨
      x.toNat = a.toNat + 3 := by omega
    refine cases4.imp ?_ (Or.imp ?_ (Or.imp ?_ ?_)) <;> intro value <;> bv_omega
  rcases place with rfl | rfl | rfl | rfl
  · exact byte0
  · exact byte1
  · exact byte2
  · exact byte3

/-- A word that another word may reach into, when nothing else there has changed. -/
theorem load32_of_overlap {m m' : Mem} {a b : Addr} {value : BitVec 32}
    (stored : load32 m' b = value) (ha : a.toNat + 4 ≤ 2 ^ 32) (hb : b.toNat + 4 ≤ 2 ^ 32)
    (others : ∀ x : Addr, a.toNat ≤ x.toNat → x.toNat < a.toNat + 4 →
      x.toNat < b.toNat ∨ b.toNat + 4 ≤ x.toNat → m' x = m x) :
    load32 m' a = load32 (store32 m b value) a := by
  have word : AgreeOn b.toNat (b.toNat + 4) (store32 m b value) m' :=
    agreeOn_of_load32 (by rw [load32_store32_self, stored]) hb
  have agree : AgreeOn a.toNat (a.toNat + 4) (store32 m b value) m' := by
    intro x low high
    by_cases inside : b.toNat ≤ x.toNat ∧ x.toNat < b.toNat + 4
    · exact word x inside.1 inside.2
    · rw [store32_apply_of_outside m b x value (by bv_omega)]
      exact others x low high (by omega)
  exact agree.load32 (Nat.le_refl _) (Nat.le_refl _) ha

/-! ## Writes that do not depend on what was there -/

/-- Memories that agree on a range agree on it when both are written to in this way. -/
def Uniform (write : Mem → Mem) : Prop :=
  ∀ lo hi m m', AgreeOn lo hi m m' → AgreeOn lo hi (write m) (write m')

theorem uniform_store8 (a : Addr) (value : Byte) : Uniform (store8 · a value) := by
  intro lo hi m m' agree x low high
  change (if x = a then value else m' x) = if x = a then value else m x
  rw [agree x low high]

theorem uniform_store32 (a : Addr) (value : BitVec 32) : Uniform (store32 · a value) := by
  intro lo hi m m' agree x low high
  change (if _ then _ else m' x) = if _ then _ else m x
  rw [agree x low high]

theorem Uniform.comp {first second : Mem → Mem} (outer : Uniform second) (inner : Uniform first) :
    Uniform (second ∘ first) :=
  fun lo hi m m' agree => outer lo hi _ _ (inner lo hi m m' agree)

/-! ## Word stores in a row -/

/-- Words are stored to these addresses, one after another. -/
inductive Stores : Mem → List Addr → Mem → Prop where
  | nil (m : Mem) : Stores m [] m
  | cons {m m' : Mem} {a : Addr} {rest : List Addr} (value : BitVec 32)
      (others : Stores (store32 m a value) rest m') : Stores m (a :: rest) m'

/-- A byte of none of the words stays as it was. -/
theorem Stores.apply_of_outside {m m' : Mem} {addresses : List Addr} (stores : Stores m addresses m')
    {x : Addr} (outside : ∀ a ∈ addresses, 4 ≤ x - a) : m' x = m x := by
  induction stores with
  | nil => rfl
  | cons value others ih =>
    rw [ih fun a member => outside a (List.mem_cons_of_mem _ member)]
    exact store32_apply_of_outside _ _ _ _ (outside _ List.mem_cons_self)

end BlessOS.Lib.ByteMemory
