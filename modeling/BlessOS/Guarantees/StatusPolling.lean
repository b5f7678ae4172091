import BlessOS.Source.Pata

/-!
# Polling the status port

Both loops that read the status of the disk give up after a number of reads, and each tells
its caller the wrong thing at one of its ends. `is_hd_ready` returns a counter that is zero
when the last read succeeds and not when none does; `pata_wait` joins the bits it tests with
`&&`, so that a drive that is only busy counts as failed.
-/

set_option autoImplicit false

namespace BlessOS.Guarantees.StatusPolling
open BlessOS.Source BlessOS.Source.Pata

variable {status : Nat → U8} {c : Command} {n i turns turn last : Nat} {value errorBit : U8}

/-! ## The disk is commanded -/

/-- Busy clear and ready set. -/
def Ready (s : U8) : Prop := s &&& 0xc0 = ataRdyBit

instance (s : U8) : Decidable (Ready s) := inferInstanceAs (Decidable (_ = _))

/-- The counter is zero only when the last read allowed is the first that succeeds. -/
theorem readyLoop_eq_zero_iff (status : Nat → U8) (n turn : Nat) :
    readyLoop status (n + 1) turn = 0 ↔
      Ready (status (turn + n)) ∧ ∀ j < n, ¬ Ready (status (turn + j)) := by
  induction n generalizing turn with
  | zero =>
    unfold readyLoop
    split
    · next ready => exact iff_of_true rfl ⟨ready, fun j inside => absurd inside (Nat.not_lt_zero j)⟩
    · next waiting =>
      refine iff_of_false ?_ fun both => waiting both.1
      unfold readyLoop
      decide
  | succ n ih =>
    unfold readyLoop
    split
    · next ready =>
      refine iff_of_false (fun zero => ?_) fun both => both.2 0 (Nat.zero_lt_succ n) ready
      exact absurd (Int.ofNat_eq_zero.mp zero) (Nat.succ_ne_zero n)
    · next waiting =>
      have shift : ∀ j, turn + 1 + j = turn + (j + 1) := fun j => by omega
      rw [ih (turn + 1)]
      simp only [shift]
      refine and_congr_right fun _ => ⟨fun later j inside => ?_, fun all j inside => ?_⟩
      · cases j with
        | zero => exact waiting
        | succ j => exact later j (Nat.lt_of_succ_lt_succ inside)
      · exact all (j + 1) (Nat.succ_lt_succ inside)

/-- Either all command registers are written or none. -/
theorem hdRw_eq_nil_iff : hdRw status c = [] ↔ isHdReady status = 0 := by
  unfold hdRw
  split
  · next zero => exact iff_of_true rfl zero
  · next other => exact iff_of_false (List.cons_ne_nil _ _) other

/-- The command registers are written exactly if one of the reads finds the disk ready. -/
def CommandsWhenReady (status : Nat → U8) (c : Command) : Prop :=
  hdRw status c ≠ [] ↔ ∃ i < 10000, Ready (status i)

theorem commands_iff : hdRw status c ≠ [] ↔
    (Ready (status 9999) → ∃ i < 9999, Ready (status i)) := by
  have last := readyLoop_eq_zero_iff status 9999 0
  simp only [Nat.zero_add] at last
  rw [ne_eq, hdRw_eq_nil_iff]
  unfold isHdReady
  rw [last, not_and, not_forall]
  simp only [not_forall, not_not, exists_prop]

/-- **Ready disk.** For every sequence of status bytes, the disk is commanded exactly when it was
ready, if and only if it is ready at one of the first 9999 reads. -/
theorem hdRw_commands_iff (status : Nat → U8) (c : Command) :
    CommandsWhenReady status c ↔ ∃ i < 9999, Ready (status i) := by
  unfold CommandsWhenReady
  rw [commands_iff]
  constructor
  · intro correct
    by_contra none
    have never : ¬ ∃ i < 10000, Ready (status i) := by
      rintro ⟨i, inside, ready⟩
      by_cases final : i = 9999
      · subst final
        exact none (correct.mpr ⟨9999, by omega, ready⟩ ready)
      · exact none ⟨i, by omega, ready⟩
    refine never (correct.mp fun ready => absurd ?_ never)
    exact ⟨9999, by omega, ready⟩
  · rintro ⟨i, inside, ready⟩
    exact iff_of_true (fun _ => ⟨i, inside, ready⟩) ⟨i, by omega, ready⟩

/-- A disk that stays busy, and one that is ready at the last read. -/
def alwaysBusy (_ : Nat) : U8 := ataBusyBit
def readyAtLast (i : Nat) : U8 := if i = 9999 then ataRdyBit else ataBusyBit

/-- Reading the first sector of the master. -/
def readFirst : Command :=
  { drive := 0, nsect := 1, sectNo := 1, head := 0, cyl := 0, cmd := ataCmdRead }

/-- The first disk is commanded, and the second is not. -/
theorem hdRw_commands_busy :
    hdRw alwaysBusy readFirst ≠ [] ∧ ¬ CommandsWhenReady alwaysBusy readFirst ∧
      hdRw readyAtLast readFirst = [] ∧ ¬ CommandsWhenReady readyAtLast readFirst := by
  have busy : ¬ Ready ataBusyBit := by decide
  have never : ∀ i < 10000, ¬ Ready (alwaysBusy i) := fun _ _ => busy
  have before : ∀ i < 9999, ¬ Ready (readyAtLast i) := by
    intro i inside
    unfold readyAtLast
    rw [if_neg (by omega)]
    exact busy
  have final : Ready (readyAtLast 9999) := by decide
  have commanded : hdRw alwaysBusy readFirst ≠ [] :=
    commands_iff.mpr fun ready => absurd ready (never 9999 (by omega))
  have ignored : hdRw readyAtLast readFirst = [] := by
    by_contra written
    obtain ⟨i, inside, ready⟩ := commands_iff.mp written final
    exact before i inside ready
  refine ⟨commanded, fun correct => ?_, ignored, fun correct => ?_⟩
  · obtain ⟨i, inside, ready⟩ := correct.mp commanded
    exact never i inside ready
  · exact correct.mpr ⟨9999, by omega, final⟩ ignored

/-! ## The drive's condition -/

def Busy (s : U8) : Prop := s &&& ataBusyBit ≠ 0

/-- The bit of the drive's errors, whichever it is, or that of faults. -/
def Failed (errorBit s : U8) : Prop := s &&& errorBit ≠ 0 ∨ s &&& ataFaultBit ≠ 0

instance (s : U8) : Decidable (Busy s) := inferInstanceAs (Decidable (_ ≠ _))
instance (errorBit s : U8) : Decidable (Failed errorBit s) := inferInstanceAs (Decidable (_ ∨ _))

/-- What `pata_wait` returns tells how the last read was, and a drive that is busy for a while
and then free makes it return 0. -/
structure ReportsCondition (errorBit drive : U8) (status : Nat → U8) : Prop where
  free : ∀ turns last, pataWait drive status turns = some (0, last) → ¬ Busy (status last)
  failed : ∀ turns value last, pataWait drive status turns = some (value, last) → value ≠ 0 →
    Failed errorBit (status last)
  waits : ∀ k, (∀ i < k, Busy (status i) ∧ ¬ Failed errorBit (status i)) → ¬ Busy (status k) →
    ∃ turns last, pataWait drive status turns = some (0, last)

theorem ne_zero_of_busy {s : U8} (busy : Busy s) : s ≠ 0 := by
  rintro rfl
  exact busy (by decide)

/-- One turn of the loop. -/
theorem waitLoop_succ (status : Nat → U8) (turns i : Nat) : waitLoop status (turns + 1) i =
    if ¬ Busy (status i) then some (0, i)
    else if 4 < i then some (status i, i)
    else waitLoop status turns (i + 1) := by
  have bits : ataErrBit = 0 ∧ ataFaultBit ≠ 0 := by decide
  rw [waitLoop]
  by_cases busy : Busy (status i)
  · have proper := ne_zero_of_busy busy
    rw [if_neg busy, if_neg (not_not.mpr busy)]
    refine if_congr ⟨fun both => both.1, fun late => ?_⟩ rfl rfl
    exact ⟨late, Or.inr ⟨proper, bits.2⟩⟩
  · rw [if_pos busy]
    exact if_pos (not_not.mp busy)

/-- The drive is free at one of the first six reads, and then 0 is returned; or it is busy at
all of them, and the last of these is returned. -/
theorem waitLoop_some {turns : Nat} (early : i ≤ 5) (before : ∀ j < i, Busy (status j))
    (returned : waitLoop status turns i = some (value, last)) :
    last ≤ 5 ∧ (∀ j < last, Busy (status j)) ∧
      ((value = 0 ∧ ¬ Busy (status last)) ∨ (last = 5 ∧ Busy (status 5) ∧ value = status 5)) := by
  induction turns generalizing i with
  | zero => cases returned
  | succ turns ih =>
    rw [waitLoop_succ] at returned
    split at returned
    · next free =>
      cases returned
      exact ⟨early, before, Or.inl ⟨rfl, free⟩⟩
    · next busy =>
      have busy := not_not.mp busy
      split at returned
      · next late =>
        cases returned
        have sixth : last = 5 := by omega
        subst sixth
        exact ⟨early, before, Or.inr ⟨rfl, busy, rfl⟩⟩
      · next more =>
        refine ih (by omega) (fun j inside => ?_) returned
        rcases Nat.lt_or_eq_of_le (Nat.lt_succ_iff.mp inside) with earlier | rfl
        · exact before j earlier
        · exact busy

/-- Six reads are enough. -/
theorem waitLoop_returns (status : Nat → U8) (early : i ≤ 5) :
    ∃ value last, waitLoop status (6 - i) i = some (value, last) := by
  induction left : 5 - i generalizing i with
  | zero =>
    have sixth : i = 5 := by omega
    subst sixth
    rw [waitLoop_succ, if_pos (by omega : 4 < 5)]
    split
    · exact ⟨_, _, rfl⟩
    · exact ⟨_, _, rfl⟩
  | succ n ih =>
    rw [show 6 - i = (6 - (i + 1)) + 1 by omega, waitLoop_succ]
    split
    · exact ⟨_, _, rfl⟩
    · rw [if_neg (by omega)]
      exact ih (by omega) (by omega)

/-- `pata_wait` returns, whatever the drive does. -/
theorem pataWait_returns (drive : U8) (status : Nat → U8) :
    ∃ value last, pataWait drive status 6 = some (value, last) :=
  waitLoop_returns status (Nat.zero_le 5)

theorem pataWait_some {drive : U8} (returned : pataWait drive status turns = some (value, last)) :
    last ≤ 5 ∧ (∀ j < last, Busy (status j)) ∧
      ((value = 0 ∧ ¬ Busy (status last)) ∨ (last = 5 ∧ Busy (status 5) ∧ value = status 5)) :=
  waitLoop_some (Nat.zero_le 5) (fun j inside => absurd inside (Nat.not_lt_zero j)) returned

/-- **Drive condition.** For every sequence of status bytes, whichever bit stands for errors,
`pata_wait` reports the condition of the drive if and only if the drive is free at one of the
first six reads, or failed at the sixth. -/
theorem pataWait_reports_iff (errorBit drive : U8) (status : Nat → U8) :
    ReportsCondition errorBit drive status ↔
      (∃ i < 6, ¬ Busy (status i)) ∨ Failed errorBit (status 5) := by
  obtain ⟨value, last, returned⟩ := pataWait_returns drive status
  obtain ⟨bound, before, outcome⟩ := pataWait_some returned
  have sixBusy : last = 5 → Busy (status 5) → ∀ i < 6, Busy (status i) := by
    rintro rfl busy i inside
    rcases Nat.lt_or_eq_of_le (Nat.lt_succ_iff.mp inside) with earlier | rfl
    · exact before i earlier
    · exact busy
  constructor
  · intro reports
    rcases outcome with ⟨zero, free⟩ | ⟨rfl, busy, same⟩
    · exact Or.inl ⟨last, by omega, free⟩
    · have proper : value ≠ 0 := same ▸ ne_zero_of_busy busy
      exact Or.inr (reports.failed 6 value 5 returned proper)
  · intro condition
    refine ⟨fun turns last returned => ?_, fun turns value last returned proper => ?_,
      fun k waiting free => ?_⟩
    · obtain ⟨-, -, ⟨-, free⟩ | ⟨-, busy, zero⟩⟩ := pataWait_some returned
      · exact free
      · exact absurd zero.symm (ne_zero_of_busy busy)
    · obtain ⟨-, before, ⟨zero, -⟩ | ⟨rfl, busy, -⟩⟩ := pataWait_some returned
      · exact absurd zero proper
      · refine condition.resolve_left ?_
        rintro ⟨i, inside, free⟩
        rcases Nat.lt_or_eq_of_le (Nat.lt_succ_iff.mp inside) with earlier | rfl
        · exact free (before i earlier)
        · exact free busy
    · rcases outcome with ⟨rfl, -⟩ | ⟨rfl, busy, -⟩
      · exact ⟨6, last, returned⟩
      · have late : 6 ≤ k := by
          by_contra early
          exact free (sixBusy rfl busy k (by omega))
        rcases condition with ⟨i, inside, free'⟩ | failed
        · exact absurd (sixBusy rfl busy i inside) free'
        · exact absurd failed (waiting 5 (by omega)).2

/-- A drive that is busy at six reads and then free. -/
def busySixTimes (i : Nat) : U8 := if i < 6 then ataBusyBit else ataRdyBit

/-- It is reported as failed, though neither bit was ever set. -/
theorem pataWait_reports_busy :
    pataWait 0 busySixTimes 6 = some (ataBusyBit, 5) ∧
      (∀ i, ¬ Failed 0x01 (busySixTimes i)) ∧ ¬ ReportsCondition 0x01 0 busySixTimes := by
  have returned : pataWait 0 busySixTimes 6 = some (ataBusyBit, 5) := by decide
  have sound : ∀ i, ¬ Failed 0x01 (busySixTimes i) := by
    intro i
    unfold busySixTimes
    split <;> decide
  exact ⟨returned, sound, fun reports =>
    sound 5 (reports.failed 6 _ 5 returned (by decide))⟩

end BlessOS.Guarantees.StatusPolling
