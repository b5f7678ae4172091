import BlessOS.Lib.ByteMemory

/-!
# The stack of a 32-bit x86 machine

The registers, and the instructions that move words between them and the stack. The
stack pointer may be anything and wraps, so words are kept apart by their distance and
not by their order.
-/

set_option autoImplicit false

namespace BlessOS.Lib.StackMachine
open BlessOS.Lib.ByteMemory

abbrev Word := BitVec 32
abbrev Selector := BitVec 16

/-- What was sent to the ports is recorded in order. -/
structure Machine where
  eax : Word
  ecx : Word
  edx : Word
  ebx : Word
  esp : Word
  ebp : Word
  esi : Word
  edi : Word
  ds : Selector
  es : Selector
  fs : Selector
  gs : Selector
  ss : Selector
  cr2 : Word
  mem : Mem
  ports : List (BitVec 8 × BitVec 16)

def push (word : Word) (s : Machine) : Machine :=
  { s with esp := s.esp - 4, mem := store32 s.mem (s.esp - 4) word }

/-- A selector is pushed as a word. -/
def pushSelector (selector : Selector) (s : Machine) : Machine :=
  push (selector.setWidth 32) s

def pushDs (s : Machine) : Machine := pushSelector s.ds s
def pushEs (s : Machine) : Machine := pushSelector s.es s
def pushFs (s : Machine) : Machine := pushSelector s.fs s
def pushGs (s : Machine) : Machine := pushSelector s.gs s
def pushSs (s : Machine) : Machine := pushSelector s.ss s

/-- All of them, `ds` first. -/
def pushSelectors (s : Machine) : Machine := pushSs (pushGs (pushFs (pushEs (pushDs s))))

/-- The word at an offset from the stack pointer. -/
def stackWord (offset : Word) (s : Machine) : Word := load32 s.mem (s.esp + offset)

/-- `addl $bytes, %esp` -/
def drop (bytes : Word) (s : Machine) : Machine := { s with esp := s.esp + bytes }

/-- The selector that `popl` into a segment register loads. -/
def topSelector (s : Machine) : Selector := (stackWord 0 s).setWidth 16

def popDs (s : Machine) : Machine := drop 4 { s with ds := topSelector s }
def popEs (s : Machine) : Machine := drop 4 { s with es := topSelector s }
def popFs (s : Machine) : Machine := drop 4 { s with fs := topSelector s }
def popGs (s : Machine) : Machine := drop 4 { s with gs := topSelector s }

/-- The stack pointer that is pushed is the one before the instruction. -/
def pushal (s : Machine) : Machine :=
  push s.edi (push s.esi (push s.ebp (push s.esp (push s.ebx (push s.edx (push s.ecx
    (push s.eax s)))))))

/-- The word of the stack pointer is skipped. -/
def popal (s : Machine) : Machine :=
  { s with
    edi := stackWord 0 s
    esi := stackWord 4 s
    ebp := stackWord 8 s
    ebx := stackWord 16 s
    edx := stackWord 20 s
    ecx := stackWord 24 s
    eax := stackWord 28 s
    esp := s.esp + 32 }

section Registers

variable (word : Word) (s : Machine)

@[simp] theorem push_eax : (push word s).eax = s.eax := rfl
@[simp] theorem push_ecx : (push word s).ecx = s.ecx := rfl
@[simp] theorem push_edx : (push word s).edx = s.edx := rfl
@[simp] theorem push_ebx : (push word s).ebx = s.ebx := rfl
@[simp] theorem push_esp : (push word s).esp = s.esp - 4 := rfl
@[simp] theorem push_ebp : (push word s).ebp = s.ebp := rfl
@[simp] theorem push_esi : (push word s).esi = s.esi := rfl
@[simp] theorem push_edi : (push word s).edi = s.edi := rfl
@[simp] theorem push_ds : (push word s).ds = s.ds := rfl
@[simp] theorem push_es : (push word s).es = s.es := rfl
@[simp] theorem push_fs : (push word s).fs = s.fs := rfl
@[simp] theorem push_gs : (push word s).gs = s.gs := rfl
@[simp] theorem push_ss : (push word s).ss = s.ss := rfl
@[simp] theorem push_cr2 : (push word s).cr2 = s.cr2 := rfl

@[simp] theorem pushal_eax : (pushal s).eax = s.eax := by simp only [pushal, push_eax]
@[simp] theorem pushal_cr2 : (pushal s).cr2 = s.cr2 := by simp only [pushal, push_cr2]
@[simp] theorem pushal_ds : (pushal s).ds = s.ds := by simp only [pushal, push_ds]
@[simp] theorem pushal_es : (pushal s).es = s.es := by simp only [pushal, push_es]
@[simp] theorem pushal_fs : (pushal s).fs = s.fs := by simp only [pushal, push_fs]
@[simp] theorem pushal_gs : (pushal s).gs = s.gs := by simp only [pushal, push_gs]
@[simp] theorem pushal_ss : (pushal s).ss = s.ss := by simp only [pushal, push_ss]

theorem pushal_esp : (pushal s).esp = s.esp - 32 := by
  simp only [pushal, push_esp]
  bv_omega

end Registers

section Selectors

variable (s : Machine)

@[simp] theorem pushSelectors_eax : (pushSelectors s).eax = s.eax := rfl
@[simp] theorem pushSelectors_cr2 : (pushSelectors s).cr2 = s.cr2 := rfl

end Selectors

/-! ## Words in a row -/

/-- The words stand one after the other from the address on. -/
def WordsAt (m : Mem) (a : Word) : List Word → Prop
  | [] => True
  | word :: rest => load32 m a = word ∧ WordsAt m (a + 4) rest

/-- The words on the stack, the top first. -/
def Stacked (s : Machine) (words : List Word) : Prop := WordsAt s.mem s.esp words

/-- A word store leaves a word alone that is four bytes off, either way around. -/
theorem load32_store32_of_apart (m : Mem) {a b : Word} (value : Word) (above : 4 ≤ b - a)
    (below : 4 ≤ a - b) : load32 (store32 m a value) b = load32 m b := by
  have byte : ∀ i : Word, i < 4 → store32 m a value (b + i) = m (b + i) := by
    intro i inside
    exact store32_apply_of_outside m a (b + i) value (by bv_omega)
  have byte0 : store32 m a value b = m b := store32_apply_of_outside m a b value above
  simp only [load32, byte0, byte 1 (by decide), byte 2 (by decide), byte 3 (by decide)]

theorem WordsAt.store (m : Mem) (a b value : Word) (words : List Word) (at_b : WordsAt m b words)
    (above : 4 ≤ b - a) (room : (b - a).toNat + 4 * words.length ≤ 2 ^ 32) :
    WordsAt (store32 m a value) b words := by
  induction words generalizing b with
  | nil => trivial
  | cons word rest ih =>
    obtain ⟨first, others⟩ := at_b
    rw [List.length_cons] at room
    constructor
    · rw [load32_store32_of_apart m value above (by bv_omega)]
      exact first
    · cases rest with
      | nil => trivial
      | cons next rest =>
        rw [List.length_cons] at room ih
        exact ih (b + 4) others (by bv_omega) (by bv_omega)

theorem word_step (a : Word) (i : Nat) :
    a + 4 + BitVec.ofNat 32 (4 * i) = a + BitVec.ofNat 32 (4 * (i + 1)) := by
  rw [Nat.mul_succ, BitVec.ofNat_add, BitVec.add_assoc]
  exact congrArg (a + ·) (BitVec.add_comm _ _)

theorem WordsAt.get {m : Mem} {a : Word} {words : List Word} (at_a : WordsAt m a words) (i : Nat)
    (inside : i < words.length) : load32 m (a + BitVec.ofNat 32 (4 * i)) = words[i] := by
  induction words generalizing a i with
  | nil => exact absurd inside (Nat.not_lt_zero i)
  | cons word rest ih =>
    obtain ⟨first, others⟩ := at_a
    cases i with
    | zero =>
      rw [Nat.mul_zero, BitVec.add_zero]
      exact first
    | succ i =>
      have next := ih others i (Nat.lt_of_succ_lt_succ inside)
      rw [word_step] at next
      rw [next, List.getElem_cons_succ]

/-- The words behind a number of words. -/
theorem WordsAt.behind {m : Mem} {a : Word} (first : List Word) {words : List Word}
    (at_a : WordsAt m a (first ++ words)) :
    WordsAt m (a + BitVec.ofNat 32 (4 * first.length)) words := by
  induction first generalizing a with
  | nil =>
    rw [List.length_nil, Nat.mul_zero, BitVec.add_zero]
    exact at_a
  | cons word rest ih =>
    have next := ih at_a.2
    rwa [word_step] at next

/-- Memories with the same words at the addresses of the list. -/
theorem WordsAt.congr {m m' : Mem} {a : Word} {words : List Word} (at_a : WordsAt m a words)
    (same : ∀ i < words.length,
      load32 m' (a + BitVec.ofNat 32 (4 * i)) = load32 m (a + BitVec.ofNat 32 (4 * i))) :
    WordsAt m' a words := by
  induction words generalizing a with
  | nil => trivial
  | cons word rest ih =>
    obtain ⟨first, others⟩ := at_a
    refine ⟨?_, ih others fun i inside => ?_⟩
    · have top := same 0 (Nat.zero_lt_succ _)
      rw [Nat.mul_zero, BitVec.add_zero] at top
      rw [top]
      exact first
    · have next := same (i + 1) (Nat.succ_lt_succ inside)
      rwa [← word_step] at next

/-! ## The instructions on the stack -/

section Instructions

variable {s : Machine} {words : List Word}

/-- A push on a stack that does not fill the memory. -/
theorem Stacked.push (stack : Stacked s words) (word : Word) (room : words.length < 2 ^ 30) :
    Stacked (push word s) (word :: words) := by
  have distance : s.esp - (s.esp - 4) = 4 := by bv_omega
  refine ⟨load32_store32_self _ _ _, ?_⟩
  have up : s.esp - 4 + 4 = s.esp := by bv_omega
  change WordsAt _ (s.esp - 4 + 4) words
  rw [up]
  refine WordsAt.store _ _ _ _ _ stack ?_ ?_
  · rw [distance]
    exact BitVec.le_refl _
  · rw [distance]
    change 4 + 4 * words.length ≤ 2 ^ 32
    omega

/-- The eight words of `pushal`, the last one pushed first. -/
def generalWords (s : Machine) : List Word :=
  [s.edi, s.esi, s.ebp, s.esp, s.ebx, s.edx, s.ecx, s.eax]

theorem Stacked.pushal (stack : Stacked s words) (room : words.length + 8 < 2 ^ 30) :
    Stacked (pushal s) (generalWords s ++ words) := by
  have eax := stack.push s.eax (by omega)
  have ecx := eax.push s.ecx (by rw [List.length_cons]; omega)
  have edx := ecx.push s.edx (by simp only [List.length_cons]; omega)
  have ebx := edx.push s.ebx (by simp only [List.length_cons]; omega)
  have esp := ebx.push s.esp (by simp only [List.length_cons]; omega)
  have ebp := esp.push s.ebp (by simp only [List.length_cons]; omega)
  have esi := ebp.push s.esi (by simp only [List.length_cons]; omega)
  exact esi.push s.edi (by simp only [List.length_cons]; omega)

theorem Stacked.word (stack : Stacked s words) (i : Nat) (inside : i < words.length) :
    stackWord (BitVec.ofNat 32 (4 * i)) s = words[i] :=
  WordsAt.get stack i inside

/-- The five words of the selectors, the last one pushed first. -/
def selectorWords (s : Machine) : List Word :=
  [s.ss.setWidth 32, s.gs.setWidth 32, s.fs.setWidth 32, s.es.setWidth 32, s.ds.setWidth 32]

theorem Stacked.pushSelectors (stack : Stacked s words) (room : words.length + 5 < 2 ^ 30) :
    Stacked (pushSelectors s) (selectorWords s ++ words) := by
  have ds := stack.push (s.ds.setWidth 32) (by omega)
  have es := ds.push (s.es.setWidth 32) (by rw [List.length_cons]; omega)
  have fs := es.push (s.fs.setWidth 32) (by simp only [List.length_cons]; omega)
  have gs := fs.push (s.gs.setWidth 32) (by simp only [List.length_cons]; omega)
  have ss := gs.push (s.ss.setWidth 32) (by simp only [List.length_cons]; omega)
  simp only [StackMachine.pushSelectors, pushSs, pushGs, pushFs, pushEs, pushDs, pushSelector,
    push_es, push_fs, push_gs, push_ss]
  exact ss

theorem Stacked.drop {word : Word} (stack : Stacked s (word :: words)) :
    Stacked (drop 4 s) words :=
  stack.2

theorem Stacked.topSelector {selector : Selector}
    (stack : Stacked s (selector.setWidth 32 :: words)) : topSelector s = selector := by
  have top := stack.word 0 (Nat.zero_lt_succ _)
  unfold StackMachine.topSelector
  rw [show (0 : Word) = BitVec.ofNat 32 (4 * 0) from rfl, top]
  simp

/-- `popal` undoes `pushal`, but for the stack pointer. -/
theorem Stacked.popal {pushed : Machine} (stack : Stacked s (generalWords pushed ++ words)) :
    popal s = { s with
      edi := pushed.edi
      esi := pushed.esi
      ebp := pushed.ebp
      ebx := pushed.ebx
      edx := pushed.edx
      ecx := pushed.ecx
      eax := pushed.eax
      esp := s.esp + 32 } ∧ Stacked (StackMachine.popal s) words := by
  have long : 8 ≤ (generalWords pushed ++ words).length := by
    rw [List.length_append]
    exact Nat.le_add_right 8 _
  have edi : stackWord 0 s = pushed.edi := stack.word 0 (by omega)
  have esi : stackWord 4 s = pushed.esi := stack.word 1 (by omega)
  have ebp : stackWord 8 s = pushed.ebp := stack.word 2 (by omega)
  have ebx : stackWord 16 s = pushed.ebx := stack.word 4 (by omega)
  have edx : stackWord 20 s = pushed.edx := stack.word 5 (by omega)
  have ecx : stackWord 24 s = pushed.ecx := stack.word 6 (by omega)
  have eax : stackWord 28 s = pushed.eax := stack.word 7 (by omega)
  refine ⟨?_, WordsAt.behind _ stack⟩
  rw [StackMachine.popal, edi, esi, ebp, ebx, edx, ecx, eax]

/-- Four selectors popped in the order `gs`, `fs`, `es`, `ds`. -/
theorem Stacked.popSelectors {gs fs es ds : Selector}
    (stack : Stacked s (gs.setWidth 32 :: fs.setWidth 32 :: es.setWidth 32 :: ds.setWidth 32 ::
      words)) :
    popDs (popEs (popFs (popGs s))) =
        { s with ds := ds, es := es, fs := fs, gs := gs, esp := s.esp + 16 } ∧
      Stacked (popDs (popEs (popFs (popGs s)))) words := by
  have ⟨first, second, third, fourth, _⟩ := stack
  have popped : popDs (popEs (popFs (popGs s))) =
      { s with ds := ds, es := es, fs := fs, gs := gs, esp := s.esp + 16 } := by
    simp only [BitVec.add_assoc, BitVec.ofNat_eq_ofNat, BitVec.reduceAdd] at first second third fourth
    simp [popDs, popEs, popFs, popGs, StackMachine.drop, StackMachine.topSelector, stackWord,
      BitVec.add_assoc, first, second, third, fourth]
  refine ⟨popped, ?_⟩
  rw [popped]
  exact WordsAt.behind [gs.setWidth 32, fs.setWidth 32, es.setWidth 32, ds.setWidth 32] stack

end Instructions

end BlessOS.Lib.StackMachine
