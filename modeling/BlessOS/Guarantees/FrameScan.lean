import BlessOS.Lib.Bitmap
import BlessOS.Source.Frames

/-!
# The frame bitmap as a set of frames

The two nested loops of `find_free_frame` search the bits of all words in order. A frame that
was handed out and set is not found again before its bit is cleared, whatever else is set,
cleared or found in between.
-/

set_option autoImplicit false

namespace BlessOS.Guarantees.FrameScan
open BlessOS.Lib.Bitmap BlessOS.Source BlessOS.Source.Frames

variable {s : FrameBitmap} {addr : U32} {f g : Nat}

/-! ## Setting and clearing -/

/-- The bit of a frame. -/
def taken (s : FrameBitmap) (f : Nat) : Bool := bit s.frames f

/-- The frame of an address, by the index and the place in the word. -/
theorem frame_place (addr : U32) :
    (indexFromBit (addr / 0x1000)).toNat = addr.toNat / 0x1000 / 32 ∧
      (offsetFromBit (addr / 0x1000)).toNat = addr.toNat / 0x1000 % 32 := by
  unfold indexFromBit offsetFromBit
  rw [BitVec.toNat_udiv, BitVec.toNat_umod, BitVec.toNat_udiv]
  exact ⟨rfl, rfl⟩

/-- The mask of a bit. -/
theorem mask_eq (j : Nat) : (0x1 : U32) <<< j = BitVec.twoPow 32 j := (BitVec.twoPow_eq 32 j).symm

theorem setFrame_frames (addr : U32) (s : FrameBitmap) :
    (setFrame addr s).frames = setBit s.frames (addr.toNat / 0x1000) := by
  obtain ⟨index, offset⟩ := frame_place addr
  unfold setFrame setBit
  dsimp only
  rw [index, offset, mask_eq]

theorem clearFrame_frames (addr : U32) (s : FrameBitmap) :
    (clearFrame addr s).frames = clearBit s.frames (addr.toNat / 0x1000) := by
  obtain ⟨index, offset⟩ := frame_place addr
  unfold clearFrame clearBit
  dsimp only
  rw [index, offset, mask_eq]

theorem taken_setFrame (addr : U32) (s : FrameBitmap) (g : Nat) :
    taken (setFrame addr s) g = (decide (g = addr.toNat / 0x1000) || taken s g) := by
  unfold taken
  rw [setFrame_frames]
  exact bit_setBit (by decide) _ _

theorem taken_clearFrame (addr : U32) (s : FrameBitmap) (g : Nat) :
    taken (clearFrame addr s) g = (!decide (g = addr.toNat / 0x1000) && taken s g) := by
  unfold taken
  rw [clearFrame_frames]
  exact bit_clearBit (by decide) _ _

/-- The address of a frame leads back to it. -/
theorem frame_address {f : U32} (inside : f.toNat < 2 ^ 20) : (f * 0x1000).toNat / 0x1000 = f.toNat := by
  bv_omega

/-! ## The search -/

/-- The number of bits that are looked at. -/
def bits (s : FrameBitmap) : Nat := 32 * (s.nframes.toNat / 32)

theorem tested_iff (word : U32) {j : Nat} (place : j < 32) :
    word &&& ((0x1 : U32) <<< j) = 0 ↔ word.getLsbD j = false := by
  rw [mask_eq, BitVec.and_twoPow]
  cases word.getLsbD j with
  | false => exact iff_of_true (if_neg Bool.false_ne_true) rfl
  | true =>
    rw [if_pos rfl]
    refine iff_of_false (fun zero => ?_) Bool.noConfusion
    have bit := congrArg (fun x : U32 => x.getLsbD j) zero
    simp [place] at bit

theorem testBits_searched (word : U32) (left j : Nat) (room : j + left = 32) :
    Searched (fun l => word.getLsbD l = false) j 32 (testBits word left j) := by
  induction left generalizing j with
  | zero => exact searched_empty (by omega)
  | succ left ih =>
    have test := tested_iff word (show j < 32 by omega)
    unfold testBits
    dsimp only
    split
    · next clear => exact searched_here (by omega) (test.mp clear)
    · next set =>
      refine Searched.after ?_ (Nat.le_succ j) (ih (j + 1) (by omega))
      intro l low high
      have here : l = j := by omega
      subst here
      exact fun clear => set (test.mpr clear)

/-- A word with all bits set has no free frame. -/
theorem full_searched {frames : Nat → U32} {i : Nat} (full : frames i = 0xFFFFFFFF) :
    Searched (fun f => bit frames f = false) (32 * i) (32 * i + 32) none := by
  intro l low high
  have here : l = 32 * i + (l - 32 * i) := by omega
  have all : (0xFFFFFFFF : U32) = BitVec.allOnes 32 := by decide
  dsimp only
  rw [here, bit_word i (by omega), full, all, BitVec.getLsbD_allOnes, decide_eq_false_iff_not]
  omega

theorem testWords_searched (frames : Nat → U32) (left i : Nat) :
    Searched (fun f => bit frames f = false) (32 * i) (32 * (i + left))
      (testWords frames left i) := by
  induction left generalizing i with
  | zero => exact searched_empty (Nat.le_refl _)
  | succ left ih =>
    have later := ih (i + 1)
    rw [show i + 1 + left = i + (left + 1) by omega] at later
    have word := testBits_searched (frames i) 32 0 rfl
    have range : Searched (fun f => bit frames f = false) (32 * i) (32 * i + 32)
        ((testBits (frames i) 32 0).map (32 * i + ·)) :=
      word.shift fun j place => by rw [bit_word i place]
    unfold testWords
    split
    · split
      · next j found =>
        rw [found] at range
        have place : i * 4 * 8 + j = 32 * i + j := by omega
        rw [place]
        exact range.stop (by omega)
      · next none =>
        rw [none] at range
        exact range.after (by omega) later
    · next full => exact (full_searched (not_not.mp full)).after (by omega) later

theorem bits_lt (s : FrameBitmap) : bits s < 2 ^ 32 := by
  have small := s.nframes.isLt
  unfold bits
  omega

/-- The search arrives at the least free frame, or finds all taken. -/
theorem findFreeFrame_cases (s : FrameBitmap) :
    ((∀ f < bits s, taken s f = true) ∧ findFreeFrame s = -1) ∨
      IsLeast {f | f < bits s ∧ taken s f = false} (findFreeFrame s).toNat := by
  have words : (indexFromBit s.nframes).toNat = s.nframes.toNat / 32 := BitVec.toNat_udiv
  have searched := testWords_searched s.frames (s.nframes.toNat / 32) 0
  rw [Nat.mul_zero, Nat.zero_add] at searched
  unfold findFreeFrame
  rw [words]
  cases found : testWords s.frames (s.nframes.toNat / 32) 0 with
  | none =>
    rw [found] at searched
    refine Or.inl ⟨fun f inside => ?_, rfl⟩
    exact Bool.not_eq_false _ ▸ searched f (Nat.zero_le f) inside
  | some f =>
    rw [found] at searched
    have bound := bits_lt s
    have inside : f < 2 ^ 32 := Nat.lt_trans searched.2.1 bound
    refine Or.inr ?_
    dsimp only
    rw [BitVec.toNat_ofNat, Nat.mod_eq_of_lt inside]
    exact searched.isLeast

/-! ## Handing out frames -/

/-- What may happen to the bitmap: the frame that is found is set, or an address is set or
cleared. -/
inductive Op where
  | take
  | set (addr : U32)
  | clear (addr : U32)

def Op.run : Op → FrameBitmap → FrameBitmap
  | .take, s => setFrame (findFreeFrame s * 0x1000) s
  | .set addr, s => setFrame addr s
  | .clear addr, s => clearFrame addr s

def afterOps (ops : List Op) (s : FrameBitmap) : FrameBitmap := ops.foldl (fun s op => op.run s) s

theorem run_nframes (op : Op) (s : FrameBitmap) : (op.run s).nframes = s.nframes := by
  cases op with
  | take => rfl
  | set addr => rfl
  | clear addr => rfl

/-- A step keeps a taken frame, unless it clears it. -/
theorem run_keeps (op : Op) (held : taken s f = true)
    (kept : ∀ addr, op = .clear addr → addr.toNat / 0x1000 ≠ f) : taken (op.run s) f = true := by
  cases op with
  | take => rw [Op.run, taken_setFrame, held, Bool.or_true]
  | set addr => rw [Op.run, taken_setFrame, held, Bool.or_true]
  | clear addr =>
    have other : f ≠ addr.toNat / 0x1000 := (kept addr rfl).symm
    rw [Op.run, taken_clearFrame, held, decide_eq_false other]
    rfl

theorem afterOps_keeps (ops : List Op) (held : taken s f = true)
    (kept : ∀ addr, Op.clear addr ∈ ops → addr.toNat / 0x1000 ≠ f) :
    taken (afterOps ops s) f = true ∧ (afterOps ops s).nframes = s.nframes := by
  induction ops generalizing s with
  | nil => exact ⟨held, rfl⟩
  | cons op rest ih =>
    have next := run_keeps op held fun addr same => kept addr (same ▸ List.mem_cons_self)
    obtain ⟨still, size⟩ := ih next fun addr member => kept addr (List.mem_cons_of_mem op member)
    exact ⟨still, size.trans (run_nframes op s)⟩

/-- A frame that was found and set is found again only after it was cleared. -/
theorem found_twice (small : s.nframes.toNat ≤ 2 ^ 20) (between : List Op)
    (found : findFreeFrame s ≠ -1)
    (again : findFreeFrame (afterOps (.take :: between) s) = findFreeFrame s) :
    ∃ addr, Op.clear addr ∈ between ∧ addr.toNat / 0x1000 = (findFreeFrame s).toNat := by
  by_contra never
  obtain ⟨-, all⟩ | least := findFreeFrame_cases s
  · exact found all
  have inside : (findFreeFrame s).toNat < 2 ^ 20 := by
    have low : (findFreeFrame s).toNat < bits s := least.1.1
    unfold bits at low
    omega
  have held : taken (Op.take.run s) (findFreeFrame s).toNat = true := by
    rw [Op.run, taken_setFrame, frame_address inside]
    simp
  obtain ⟨still, size⟩ := afterOps_keeps between held fun addr member same =>
    never ⟨addr, member, same⟩
  obtain ⟨-, all⟩ | free := findFreeFrame_cases (afterOps (.take :: between) s)
  · exact found (again.symm.trans all)
  · have clear := free.1.2
    rw [again] at clear
    exact Bool.noConfusion (clear.symm.trans still)

/-- **Frame bitmap.** Of a bitmap in whole words, the search finds the least clear bit, or none
if and only if all are set; setting and clearing a frame changes its bit alone; and so no frame
is handed out twice before it is cleared. -/
theorem frameBitmap_exact (s : FrameBitmap) (words : Nat) (size : s.nframes.toNat = 32 * words)
    (small : s.nframes.toNat ≤ 2 ^ 20) :
    (findFreeFrame s = -1 ↔ ∀ f < s.nframes.toNat, taken s f = true) ∧
      (findFreeFrame s ≠ -1 →
        IsLeast {f | f < s.nframes.toNat ∧ taken s f = false} (findFreeFrame s).toNat) ∧
      (∀ f : U32, f.toNat < s.nframes.toNat →
        (∀ g, taken (setFrame (f * 0x1000) s) g = (decide (g = f.toNat) || taken s g)) ∧
        ∀ g, taken (clearFrame (f * 0x1000) s) g = (!decide (g = f.toNat) && taken s g)) ∧
      ∀ between : List Op, findFreeFrame s ≠ -1 →
        findFreeFrame (afterOps (.take :: between) s) = findFreeFrame s →
        ∃ addr, Op.clear addr ∈ between ∧ addr.toNat / 0x1000 = (findFreeFrame s).toNat := by
  have all : bits s = s.nframes.toNat := by
    unfold bits
    omega
  have cases := findFreeFrame_cases s
  rw [all] at cases
  refine ⟨⟨fun none => ?_, fun full => ?_⟩, fun found => ?_, fun f inside => ?_,
    fun between => found_twice small between⟩
  · obtain ⟨full, -⟩ | least := cases
    · exact full
    · have low : (findFreeFrame s).toNat < s.nframes.toNat := least.1.1
      rw [none] at low
      exact absurd (Nat.lt_of_lt_of_le low small) (by decide)
  · obtain ⟨-, none⟩ | least := cases
    · exact none
    · exact Bool.noConfusion (least.1.2.symm.trans (full _ least.1.1))
  · exact cases.resolve_left fun full => found full.2
  · have address := frame_address (Nat.lt_of_lt_of_le inside small)
    refine ⟨fun g => ?_, fun g => ?_⟩
    · rw [taken_setFrame, address]
    · rw [taken_clearFrame, address]

/-- The first word is full but for its last bit. -/
def nearlyFull : FrameBitmap := { frames := fun i => if i = 0 then 0x7FFFFFFF else 0, nframes := 64 }

theorem frameBitmap_exact_nearlyFull :
    IsLeast {f | f < 64 ∧ taken nearlyFull f = false} 31 ∧
      taken (setFrame (31 * 0x1000) nearlyFull) 31 = true ∧
      findFreeFrame (afterOps [.take] nearlyFull) ≠ 31 := by
  obtain ⟨-, least, bits, twice⟩ := frameBitmap_exact nearlyFull 2 rfl (by decide)
  have found : findFreeFrame nearlyFull = 31 := by decide
  have proper : findFreeFrame nearlyFull ≠ -1 := by
    rw [found]
    decide
  refine ⟨?_, ?_, fun again => ?_⟩
  · have first := least proper
    rw [found] at first
    exact first
  · exact (bits 31 (by decide)).1 31
  · obtain ⟨addr, member, -⟩ := twice [] proper (again.trans found.symm)
    exact absurd member List.not_mem_nil

end BlessOS.Guarantees.FrameScan
