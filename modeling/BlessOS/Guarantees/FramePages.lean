import BlessOS.Guarantees.FrameScan
import BlessOS.Lib.Ownership
import BlessOS.Lib.Transition

/-!
# Page entries and the frame bitmap

An entry holds a frame from the call that gives it one to the call that frees it. `free_page`
passes the frame number on as an address, and a stored 0 reads as no frame, so the bitmap
follows the entries as long as nothing that holds a frame is freed, no entry that was given
frame 0 is allocated again, and a frame is left.
-/

set_option autoImplicit false

namespace BlessOS.Guarantees.FramePages
open BlessOS.Guarantees.FrameScan BlessOS.Lib.Ownership BlessOS.Lib.Transition BlessOS.Source
  BlessOS.Source.Frames

/-- The state, with a note of the entries that `free_page` was last called for. -/
structure Tracked where
  state : Paging
  freed : U32 → Bool

inductive Call where
  | alloc (page : U32) (isKernel isWriteable : U8)
  | free (page : U32)

/-- A call that gives the entry a frame takes the note back. -/
def Call.run : Call → Tracked → Tracked
  | .alloc page isKernel isWriteable, t =>
    { state := allocNewPage page isKernel isWriteable t.state
      freed :=
        if page ≠ 0 ∧ (t.state.pages page).frame = 0 then Function.update t.freed page false
        else t.freed }
  | .free page, t =>
    { state := freePage page t.state
      freed := if page ≠ 0 then Function.update t.freed page true else t.freed }

/-- The frame of a present entry that was not freed since. -/
def held (t : Tracked) (page : U32) : Option Nat :=
  if (t.state.pages page).present = 1 ∧ t.freed page = false then
    some (t.state.pages page).frame.toNat
  else none

def used (t : Tracked) (f : Nat) : Prop :=
  f < t.state.bitmap.nframes.toNat ∧ taken t.state.bitmap f = true

/-- No frame is left. -/
def Full (s : FrameBitmap) : Prop := ∀ f < bits s, taken s f = true

/-- A call does what is asked of it. -/
structure StepOk (t : Tracked) (call : Call) : Prop where
  owned : Owned (held (call.run t)) (used (call.run t))
  available : ∀ page f, call = .free page → held t page = some f →
    taken (call.run t).state.bitmap f = false
  refused : ∀ page isKernel isWriteable, call = .alloc page isKernel isWriteable →
    Full t.state.bitmap → (call.run t).state.bitmap = t.state.bitmap ∧
      (call.run t).state.pages page = t.state.pages page

/-- Only an entry without a frame is given one, while one is left, and none is freed. -/
def Admitted (t : Tracked) : Call → Prop
  | .alloc page _ _ =>
    page = 0 ∨ (t.state.pages page).frame ≠ 0 ∨ (¬ Full t.state.bitmap ∧ held t page = none)
  | .free page => held t page = none

/-- What holds in the states of a run: nothing is at the null pointer, and an entry that holds
nothing stores no frame number. -/
structure Inv (t : Tracked) : Prop where
  small : t.state.bitmap.nframes.toNat ≤ 2 ^ 20
  owned : Owned (held t) (used t)
  null : held t 0 = none
  idle : ∀ page, held t page = none → (t.state.pages page).frame = 0

variable {t : Tracked} {page : U32} {f : Nat} {isKernel isWriteable : U8}

/-! ## The calls -/

theorem held_some (holds : held t page = some f) :
    (t.state.pages page).present = 1 ∧ t.freed page = false ∧
      (t.state.pages page).frame.toNat = f := by
  unfold held at holds
  split at holds
  · next live => exact ⟨live.1, live.2, Option.some.inj holds⟩
  · cases holds

/-- A stored 0 that is held is frame 0. -/
theorem held_zero (zero : (t.state.pages page).frame = 0) (holds : held t page = some f) : f = 0 := by
  obtain ⟨-, -, frame⟩ := held_some holds
  rw [zero] at frame
  exact frame.symm

/-- An allocation of the null pointer, or of an entry with a frame number, does nothing. -/
theorem alloc_skips (skip : page = 0 ∨ (t.state.pages page).frame ≠ 0) :
    (Call.alloc page isKernel isWriteable).run t = t := by
  have same : ¬ (page ≠ 0 ∧ (t.state.pages page).frame = 0) := by tauto
  unfold Call.run allocNewPage
  dsimp only
  rw [if_neg same]
  obtain null | number := skip
  · rw [if_pos null]
  · rw [if_pos number, ite_self]

/-- Any other allocation stores what the search came back with. -/
theorem alloc_stores (isKernel isWriteable : U8) (proper : page ≠ 0)
    (zero : (t.state.pages page).frame = 0) :
    ((Call.alloc page isKernel isWriteable).run t).state.bitmap =
        setFrame (findFreeFrame t.state.bitmap * 0x1000) t.state.bitmap ∧
      (((Call.alloc page isKernel isWriteable).run t).state.pages page).frame =
        (findFreeFrame t.state.bitmap).setWidth 20 ∧
      held ((Call.alloc page isKernel isWriteable).run t) =
        Function.update (held t) page
          (some ((findFreeFrame t.state.bitmap).setWidth 20).toNat) := by
  have gives : page ≠ 0 ∧ (t.state.pages page).frame = 0 := ⟨proper, zero⟩
  unfold Call.run allocNewPage
  dsimp only
  rw [if_neg proper, if_neg (not_not.mpr zero), if_pos gives]
  refine ⟨rfl, by simp, ?_⟩
  funext other
  by_cases same : other = page
  · simp [held, same]
  · simp [held, same]

/-- Freeing clears the frame whose address is the frame number. -/
theorem free_clears (proper : page ≠ 0) :
    held ((Call.free page).run t) = Function.update (held t) page none ∧
      (((t.state.pages page).frame = 0 ∧ ((Call.free page).run t).state = t.state) ∨
        (((Call.free page).run t).state.bitmap =
          clearFrame ((t.state.pages page).frame.setWidth 32) t.state.bitmap)) := by
  have number : ((t.state.pages page).frame.setWidth 32 : U32) = 0 ↔
      (t.state.pages page).frame = 0 := by
    bv_omega
  unfold Call.run freePage
  dsimp only
  rw [if_neg proper, if_pos proper]
  constructor
  · funext other
    by_cases same : other = page
    · simp [held, same]
    · split
      · simp [held, same]
      · simp [held, same]
  · by_cases zero : (t.state.pages page).frame = 0
    · exact Or.inl ⟨zero, if_pos (number.mpr zero)⟩
    · rw [if_neg (mt number.mp zero)]
      exact Or.inr rfl

/-- Clearing keeps the size and the bits of the frames that are not at the address. -/
theorem used_clearFrame {addr : U32} {s : Tracked} (other : addr.toNat / 0x1000 ≠ f)
    (bitmap : s.state.bitmap = clearFrame addr t.state.bitmap) : used s f ↔ used t f := by
  unfold used
  rw [bitmap, taken_clearFrame, decide_eq_false other.symm]
  rfl

/-! ## One step -/

/-- The found frame is free, and its number survives the 20 bits. -/
theorem found_fits (inv : Inv t) (left : ¬ Full t.state.bitmap) :
    (findFreeFrame t.state.bitmap).toNat < t.state.bitmap.nframes.toNat ∧
      taken t.state.bitmap (findFreeFrame t.state.bitmap).toNat = false ∧
      ((findFreeFrame t.state.bitmap).setWidth 20).toNat =
        (findFreeFrame t.state.bitmap).toNat ∧
      (findFreeFrame t.state.bitmap * 0x1000).toNat / 0x1000 =
        (findFreeFrame t.state.bitmap).toNat := by
  have small := inv.small
  have least := (findFreeFrame_cases t.state.bitmap).resolve_left fun full => left full.1
  obtain ⟨⟨inside, free⟩, -⟩ := least
  have inside : (findFreeFrame t.state.bitmap).toNat < t.state.bitmap.nframes.toNat := by
    unfold bits at inside
    omega
  refine ⟨inside, free, ?_, frame_address (Nat.lt_of_lt_of_le inside small)⟩
  rw [BitVec.toNat_setWidth]
  exact Nat.mod_eq_of_lt (Nat.lt_of_lt_of_le inside small)

/-- The marks after an allocation while a frame is left. -/
theorem used_alloc (inv : Inv t) (left : ¬ Full t.state.bitmap) (proper : page ≠ 0)
    (zero : (t.state.pages page).frame = 0) (g : Nat) :
    used ((Call.alloc page isKernel isWriteable).run t) g ↔
      g = (findFreeFrame t.state.bitmap).toNat ∨ used t g := by
  obtain ⟨inside, -, -, address⟩ := found_fits inv left
  obtain ⟨bitmap, -, -⟩ := alloc_stores isKernel isWriteable proper zero
  unfold used
  rw [bitmap, taken_setFrame, address, Bool.or_eq_true, decide_eq_true_iff]
  constructor
  · rintro ⟨low, here | marked⟩
    · exact .inl here
    · exact .inr ⟨low, marked⟩
  · rintro (rfl | ⟨low, marked⟩)
    · exact ⟨inside, .inl rfl⟩
    · exact ⟨low, .inr marked⟩

/-- An entry that holds nothing is given a frame. -/
theorem alloc_inv (isKernel isWriteable : U8) (inv : Inv t) (proper : page ≠ 0)
    (zero : (t.state.pages page).frame = 0) (left : ¬ Full t.state.bitmap)
    (free : held t page = none) : Inv ((Call.alloc page isKernel isWriteable).run t) := by
  obtain ⟨inside, clear, narrow, address⟩ := found_fits inv left
  obtain ⟨bitmap, -, holds⟩ := alloc_stores isKernel isWriteable proper zero
  rw [narrow] at holds
  refine ⟨?_, ?_, ?_, fun other none => ?_⟩
  · rw [bitmap]
    exact inv.small
  · rw [holds]
    refine inv.owned.assign free (fun marked => ?_) (used_alloc inv left proper zero)
    exact Bool.noConfusion (clear.symm.trans marked.2)
  · rw [holds, Function.update_of_ne (Ne.symm proper)]
    exact inv.null
  · have apart : other ≠ page := fun same => by simp [holds, same] at none
    rw [holds, Function.update_of_ne apart] at none
    have same : ((Call.alloc page isKernel isWriteable).run t).state.pages other =
        t.state.pages other := by
      unfold Call.run allocNewPage
      dsimp only
      rw [if_neg proper, if_neg (not_not.mpr zero)]
      exact Function.update_of_ne apart _ _
    rw [same]
    exact inv.idle other none

/-- An entry that holds nothing stores no frame number, so only the note changes. -/
theorem free_inv (inv : Inv t) (none : held t page = none) : Inv ((Call.free page).run t) := by
  by_cases null : page = 0
  · have same : (Call.free page).run t = t := by simp [Call.run, freePage, null]
    rw [same]
    exact inv
  · have zero := inv.idle page none
    obtain ⟨holds, -⟩ := free_clears null
    rw [← none, Function.update_eq_self] at holds
    have same : ((Call.free page).run t).state = t.state := by
      simp [Call.run, freePage, zero]
    have marks : used ((Call.free page).run t) = used t := by
      unfold used
      rw [same]
    refine ⟨by rw [same]; exact inv.small, ?_, by rw [holds]; exact inv.null, ?_⟩
    · rw [holds, marks]
      exact inv.owned
    · rw [holds, same]
      exact inv.idle

/-- An admitted step keeps the invariant. -/
theorem admitted_inv (inv : Inv t) {call : Call} (admitted : Admitted t call) :
    Inv (call.run t) := by
  cases call with
  | alloc page isKernel isWriteable =>
    by_cases skip : page = 0 ∨ (t.state.pages page).frame ≠ 0
    · rw [alloc_skips skip]
      exact inv
    · obtain ⟨proper, zero⟩ := not_or.mp skip
      obtain ⟨left, free⟩ : ¬ Full t.state.bitmap ∧ held t page = none := by
        unfold Admitted at admitted
        tauto
      exact alloc_inv isKernel isWriteable inv proper (not_not.mp zero) left free
  | free page => exact free_inv inv admitted

/-- After an allocation that had no frame left, the entry stores the number of no frame. -/
theorem full_stores (full : Full t.state.bitmap) (proper : page ≠ 0)
    (zero : (t.state.pages page).frame = 0) :
    ((Call.alloc page isKernel isWriteable).run t).state.pages page ≠ t.state.pages page := by
  intro same
  have none : findFreeFrame t.state.bitmap = -1 := by
    obtain ⟨-, none⟩ | least := findFreeFrame_cases t.state.bitmap
    · exact none
    · exact Bool.noConfusion (least.1.2.symm.trans (full _ least.1.1))
  obtain ⟨-, stored, -⟩ := alloc_stores isKernel isWriteable proper zero
  rw [same, zero, none] at stored
  exact absurd stored (by decide)

/-- A step does what is asked if it is admitted. -/
theorem ok_of_admitted (inv : Inv t) {call : Call} (admitted : Admitted t call) :
    StepOk t call where
  owned := (admitted_inv inv admitted).owned
  available page f same holds := by
    subst same
    have admitted : held t page = none := admitted
    rw [admitted] at holds
    cases holds
  refused page isKernel isWriteable same full := by
    subst same
    have skip : page = 0 ∨ (t.state.pages page).frame ≠ 0 := by
      unfold Admitted at admitted
      tauto
    rw [alloc_skips skip]
    exact ⟨rfl, rfl⟩

/-- An entry that holds frame 0 loses it when it is given another. -/
theorem alloc_loses (inv : Inv t) (left : ¬ Full t.state.bitmap) (proper : page ≠ 0)
    (zero : (t.state.pages page).frame = 0) (holds : held t page = some f) :
    ¬ Owned (held ((Call.alloc page isKernel isWriteable).run t))
      (used ((Call.alloc page isKernel isWriteable).run t)) := by
  intro owned
  have isZero := held_zero zero holds
  subst isZero
  obtain ⟨-, clear, narrow, -⟩ := found_fits inv left
  obtain ⟨-, -, after⟩ := alloc_stores isKernel isWriteable proper zero
  have marked := (inv.owned.marked 0).mpr ⟨page, holds⟩
  have moved : some ((findFreeFrame t.state.bitmap).setWidth 20).toNat ≠ some 0 := by
    intro same
    rw [narrow] at same
    rw [Option.some.inj same] at clear
    exact Bool.noConfusion (clear.symm.trans marked.2)
  rw [after] at owned
  exact inv.owned.lost holds moved owned ((used_alloc inv left proper zero 0).mpr (.inr marked))

/-- A frame that is freed stays marked: what is cleared is at the address of its number. -/
theorem free_loses (inv : Inv t) (holds : held t page = some f) :
    ¬ Owned (held ((Call.free page).run t)) (used ((Call.free page).run t)) := by
  intro owned
  have proper : page ≠ 0 := by
    rintro rfl
    exact Option.some_ne_none f (holds.symm.trans inv.null)
  obtain ⟨-, -, number⟩ := held_some holds
  obtain ⟨after, states⟩ := free_clears proper
  rw [after] at owned
  refine inv.owned.lost holds (Option.some_ne_none f).symm owned ?_
  have marked := (inv.owned.marked f).mpr ⟨page, holds⟩
  obtain ⟨-, same⟩ | cleared := states
  · unfold used
    rw [same]
    exact marked
  · by_cases zero : f = 0
    · have stored : (t.state.pages page).frame = 0 := BitVec.eq_of_toNat_eq (number.trans zero)
      have same : ((Call.free page).run t).state = t.state := by
        simp [Call.run, freePage, stored]
      unfold used
      rw [same]
      exact marked
    · refine (used_clearFrame ?_ cleared).mpr marked
      have small : f < 2 ^ 20 := number ▸ (t.state.pages page).frame.isLt
      rw [BitVec.toNat_setWidth, number, Nat.mod_eq_of_lt (Nat.lt_trans small (by decide))]
      exact (Nat.div_lt_self (Nat.pos_of_ne_zero zero) (by decide)).ne

/-- And only then. -/
theorem admitted_of_ok (inv : Inv t) {call : Call} (ok : StepOk t call) : Admitted t call := by
  cases call with
  | alloc page isKernel isWriteable =>
    by_contra wrong
    unfold Admitted at wrong
    have proper : page ≠ 0 := by tauto
    have zero : (t.state.pages page).frame = 0 := by tauto
    by_cases full : Full t.state.bitmap
    · exact full_stores full proper zero (ok.refused page _ _ rfl full).2
    · obtain ⟨f, holds⟩ : ∃ f, held t page = some f := Option.ne_none_iff_exists'.mp (by tauto)
      exact alloc_loses inv full proper zero holds ok.owned
  | free page =>
    by_contra wrong
    obtain ⟨f, holds⟩ : ∃ f, held t page = some f := Option.ne_none_iff_exists'.mp wrong
    exact free_loses inv holds ok.owned

/-! ## Runs -/

/-- Entries of zeros. -/
def blank (s : FrameBitmap) : Tracked where
  state := { bitmap := s, pages := fun _ => ⟨0, 0, 0, 0⟩ }
  freed := fun _ => false

theorem inv_blank {s : FrameBitmap} (small : s.nframes.toNat ≤ 2 ^ 20)
    (cleared : ∀ f < s.nframes.toNat, taken s f = false) : Inv (blank s) where
  small := small
  owned := owned_empty (fun page => by simp [held, blank])
    fun f marked => Bool.noConfusion ((cleared f marked.1).symm.trans marked.2)
  null := by simp [held, blank]
  idle page _ := rfl

/-- **Page entries.** In every run of admitted calls the marked frames are those that are held,
each by one entry; and the next call does what is asked of it if and only if it is admitted. -/
theorem framePages_admitted {s : FrameBitmap} {calls : List Call} {t : Tracked}
    (small : s.nframes.toNat ≤ 2 ^ 20) (cleared : ∀ f < s.nframes.toNat, taken s f = false)
    (run : GuardedRun (fun t call u => call.run t = u) Admitted (blank s) calls t) :
    Owned (held t) (used t) ∧ ∀ call, StepOk t call ↔ Admitted t call := by
  have inv : Inv t := run.invariant Inv (fun t call u inv admitted next => by
    subst next
    exact admitted_inv inv admitted) (inv_blank small cleared)
  exact ⟨inv.owned, fun call => ⟨admitted_of_ok inv, ok_of_admitted inv⟩⟩

def cleared : FrameBitmap := { frames := fun _ => 0, nframes := 2048 }

theorem framePages_admitted_first :
    held ((Call.alloc 0x5000 1 0).run (blank cleared)) 0x5000 = some 0 ∧
      ¬ StepOk ((Call.alloc 0x5000 1 0).run (blank cleared)) (.free 0x5000) := by
  have first : held ((Call.alloc 0x5000 1 0).run (blank cleared)) 0x5000 = some 0 := by decide
  have free : ¬ Full cleared := fun full => Bool.noConfusion (full 0 (by decide))
  have admitted : Admitted (blank cleared) (.alloc 0x5000 1 0) := Or.inr (Or.inr ⟨free, rfl⟩)
  obtain ⟨-, steps⟩ := framePages_admitted (by decide)
    (fun f _ => by simp [taken, Lib.Bitmap.bit, cleared])
    (.snoc (.nil (blank cleared)) admitted rfl)
  refine ⟨first, fun ok => ?_⟩
  have none : held _ 0x5000 = none := (steps (.free 0x5000)).mp ok
  rw [first] at none
  cases none

/-- Two entries get the frames 0 and 1, and the second is freed: bit 0 is cleared instead of
bit 1. -/
theorem framePages_wrongBit :
    ∃ t, GuardedRun (fun t call u => Call.run call t = u) always (blank cleared)
        [.alloc 0x5000 1 0, .alloc 0x5004 1 0, .free 0x5004] t ∧
      held t 0x5000 = some 0 ∧ taken t.state.bitmap 0 = false ∧
      held t 0x5004 = none ∧ taken t.state.bitmap 1 = true := by
  refine ⟨(Call.free 0x5004).run ((Call.alloc 0x5004 1 0).run
    ((Call.alloc 0x5000 1 0).run (blank cleared))), ?_, by decide, by decide, by decide, by decide⟩
  exact .snoc (.snoc (.snoc (.nil _) trivial rfl) trivial rfl) trivial rfl

end BlessOS.Guarantees.FramePages
