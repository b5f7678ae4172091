import BlessOS.Guarantees.SchedSteps
import BlessOS.Lib.ByteMemory

/-!
# The GDT follows the current task

The base of a segment descriptor is scattered over bytes 2, 3, 4 and 7, its
limit over bytes 0 and 1 and half of byte 6, and `set_tss_ldt_desc` never writes
byte 1. The descriptors decode to the current task's `tss` and `ldt` because
byte 1 starts out zero and every switch rewrites both descriptors.
-/

set_option autoImplicit false

namespace BlessOS.Guarantees.GdtFollowsCurrent
open BlessOS.Lib.ByteMemory BlessOS.Lib.Transition
open BlessOS.Source BlessOS.Source.Sched BlessOS.Guarantees.SchedSteps

theorem setWidth_mask (x : U32) : (x &&& 0xff).setWidth 8 = x.setWidth 8 := by
  apply BitVec.eq_of_toNat_eq
  have mask : x.toNat &&& 255 = x.toNat % 256 := Nat.and_two_pow_sub_one_eq_mod x.toNat 8
  simp only [BitVec.toNat_setWidth, BitVec.toNat_and, BitVec.reduceToNat, mask]
  omega

/-- The four bytes `set_tss_ldt_desc` scatters are the address. -/
theorem descBase_setTssLdtDesc (d : Desc) (addr : U32) (type : U8) :
    descBase (setTssLdtDesc d addr type) = addr := by
  unfold descBase
  simp only [setTssLdtDesc, setWidth_mask]
  exact bytes_append addr

theorem descLimit_setTssLdtDesc (d : Desc) (addr : U32) (type : U8) (untouched : d 1 = 0) :
    descLimit (setTssLdtDesc d addr type) = 0x68 := by
  unfold descLimit
  simp only [setTssLdtDesc, untouched]
  decide

/-- The type byte takes no part in decoding, so the processor's busy bit does not either. -/
theorem descBase_markBusy (d : Desc) : descBase (markBusy d) = descBase d := rfl

theorem descLimit_markBusy (d : Desc) : descLimit (markBusy d) = descLimit d := rfl

/-- The entries of the task register and of the local descriptor table decode to
the current task, the others are those of `table`. -/
structure Decodes (table : Nat → Desc) (s : SchedState) : Prop where
  tssBase : descBase (s.gdt firstTssSel) = s.current + tssOffset
  tssLimit : descLimit (s.gdt firstTssSel) = 0x68
  ldtBase : descBase (s.gdt firstLdtSel) = s.current + ldtOffset
  ldtLimit : descLimit (s.gdt firstLdtSel) = 0x68
  others : ∀ n, n ≠ firstTssSel → n ≠ firstLdtSel → s.gdt n = table n

/-- What keeps both entries decodable: the byte that is never written. -/
structure Unwritten (table : Nat → Desc) (gdt : Nat → Desc) : Prop where
  tss : gdt firstTssSel 1 = 0
  ldt : gdt firstLdtSel 1 = 0
  others : ∀ n, n ≠ firstTssSel → n ≠ firstLdtSel → gdt n = table n

section Rewrite

variable {table : Nat → Desc} {s : SchedState} (task : U32)

/-- Both descriptors written for a task, and the task register loaded. -/
def rewritten (s : SchedState) (task : U32) : SchedState :=
  loadTaskRegister (setLdtDesc (setTssDesc s (task + tssOffset)) (task + ldtOffset))

theorem rewritten_tss : (rewritten s task).gdt firstTssSel =
    markBusy (setTssLdtDesc (s.gdt firstTssSel) (task + tssOffset) 0x89) := by
  have apart : firstTssSel ≠ firstLdtSel := by decide
  simp only [rewritten, loadTaskRegister, setLdtDesc, setTssDesc, Function.update_self,
    Function.update_of_ne apart]

theorem rewritten_ldt : (rewritten s task).gdt firstLdtSel =
    setTssLdtDesc (s.gdt firstLdtSel) (task + ldtOffset) 0x82 := by
  have apart : firstLdtSel ≠ firstTssSel := by decide
  simp only [rewritten, loadTaskRegister, setLdtDesc, setTssDesc, Function.update_self,
    Function.update_of_ne apart]

theorem rewritten_others (n : Nat) (tss : n ≠ firstTssSel) (ldt : n ≠ firstLdtSel) :
    (rewritten s task).gdt n = s.gdt n := by
  simp only [rewritten, loadTaskRegister, setLdtDesc, setTssDesc, Function.update_of_ne tss,
    Function.update_of_ne ldt]

theorem Unwritten.rewritten (unwritten : Unwritten table s.gdt) :
    Unwritten table (rewritten s task).gdt where
  tss := by
    rw [rewritten_tss]
    exact unwritten.tss
  ldt := by
    rw [rewritten_ldt]
    exact unwritten.ldt
  others n tss ldt := (rewritten_others task n tss ldt).trans (unwritten.others n tss ldt)

theorem Unwritten.decodes (unwritten : Unwritten table s.gdt) {t : SchedState}
    (gdt : t.gdt = (GdtFollowsCurrent.rewritten s t.current).gdt) : Decodes table t where
  tssBase := by rw [gdt, rewritten_tss, descBase_markBusy, descBase_setTssLdtDesc]
  tssLimit := by
    rw [gdt, rewritten_tss, descLimit_markBusy]
    exact descLimit_setTssLdtDesc _ _ _ unwritten.tss
  ldtBase := by rw [gdt, rewritten_ldt, descBase_setTssLdtDesc]
  ldtLimit := by
    rw [gdt, rewritten_ldt]
    exact descLimit_setTssLdtDesc _ _ _ unwritten.ldt
  others n tss ldt := by
    rw [gdt, rewritten_others _ n tss ldt]
    exact unwritten.others n tss ldt

end Rewrite

/-! ## Every call leaves the table alone or rewrites it for the new current task -/

/-- `t` has the table and the current task of `s`, or a table rewritten for its own. -/
def GdtStep (s t : SchedState) : Prop :=
  (t.current = s.current ∧ t.gdt = s.gdt) ∨ t.gdt = (rewritten s t.current).gdt

theorem schedule_gdt {s t : SchedState} (ran : schedule s = some t) : GdtStep s t := by
  rcases schedule_cases ran with rfl | ⟨best, -, -, -, rfl⟩
  · exact Or.inl ⟨rfl, rfl⟩
  · exact Or.inr (switchTo_gdt best.1 s)

theorem exec_gdt {s t : SchedState} {call : SchedCall} (ran : step s call t) : GdtStep s t := by
  cases call with
  | tick =>
    obtain ⟨u, aged, scheduled⟩ := doTimer_cases ran
    rcases schedule_gdt scheduled with ⟨current, gdt⟩ | gdt
    · exact Or.inl ⟨current.trans aged.current, gdt.trans aged.gdt⟩
    · refine Or.inr (gdt.trans ?_)
      simp only [rewritten, loadTaskRegister, setLdtDesc, setTssDesc, aged.gdt]
  | schedule => exact schedule_gdt ran
  | sleepOn task =>
    rcases sleepOn_cases ran with rfl | ⟨-, scheduled⟩
    · exact Or.inl ⟨rfl, rfl⟩
    · rcases schedule_gdt scheduled with ⟨current, gdt⟩ | gdt
      · exact Or.inl ⟨current, gdt⟩
      · exact Or.inr gdt
  | sleepOnReturn =>
    rcases sleepOnReturn_cases ran with ⟨-, rfl⟩ | ⟨tmp, -, -, rfl⟩
    · exact Or.inl ⟨rfl, rfl⟩
    · exact Or.inl ⟨rfl, rfl⟩
  | wakeUp task =>
    cases ran
    rcases wakeUp_cases task s with ⟨-, same⟩ | ⟨-, -, same⟩
    · rw [same]; exact Or.inl ⟨rfl, rfl⟩
    · rw [same]; exact Or.inl ⟨rfl, rfl⟩
  | newTask task eip sp0 sp3 =>
    cases ran
    exact Or.inl ⟨rfl, rfl⟩

/-- After `sched_init` and any calls on any tasks, the two entries of the table
decode to the current task's `tss` and `ldt`, with limit 0x68, and no other entry
has changed. The 256 entries start out zero from `FIRST_TSS_SEL` on. -/
theorem gdt_follows_current {s t : SchedState} {calls : List SchedCall}
    (zeroTail : ∀ n, firstTssSel ≤ n → n < 256 → s.gdt n = fun _ => 0) (boot : s.current = s.task0)
    (run : GuardedRun step always (schedInit s) calls t) : Decodes s.gdt t := by
  have untouched : Unwritten s.gdt s.gdt :=
    ⟨by rw [zeroTail _ (by decide) (by decide)], by rw [zeroTail _ (by decide) (by decide)],
      fun _ _ _ => rfl⟩
  have initial : Decodes s.gdt (schedInit s) ∧ Unwritten s.gdt (schedInit s).gdt := by
    have gdt : (schedInit s).gdt = (rewritten s (schedInit s).current).gdt := by
      change _ = (rewritten s s.current).gdt
      rw [boot]
      rfl
    refine ⟨untouched.decodes gdt, ?_⟩
    rw [gdt]
    exact untouched.rewritten _
  refine (run.invariant (fun u => Decodes s.gdt u ∧ Unwritten s.gdt u.gdt) ?_ initial).1
  rintro u call v ⟨decodes, unwritten⟩ - ran
  rcases exec_gdt ran with ⟨current, gdt⟩ | gdt
  · refine ⟨⟨?_, ?_, ?_, ?_, ?_⟩, by rw [gdt]; exact unwritten⟩
    · rw [gdt, current]; exact decodes.tssBase
    · rw [gdt]; exact decodes.tssLimit
    · rw [gdt, current]; exact decodes.ldtBase
    · rw [gdt]; exact decodes.ldtLimit
    · rw [gdt]; exact decodes.others
  · refine ⟨unwritten.decodes gdt, ?_⟩
    rw [gdt]
    exact unwritten.rewritten _

/-- Two tasks in a list, the first of them current, and a table of zeros. -/
def twoTasks : SchedState where
  task0 := 0x1000
  tasks v :=
    { tss := ⟨0, 0, 0, 0⟩, tssEntry := fun _ => 0, priority := initialPrio,
      state := if v = 0x1000 then .running else .runable, ldtEntry := fun _ => 0,
      next := if v = 0x1000 then 0x2000 else 0 }
  current := 0x1000
  gdt := fun _ _ => 0
  waiting := fun _ => 0
  saved := fun _ => none
  timerTicks := 0

theorem gdt_follows_current_twoTasks :
    ∃ t, GuardedRun step always (schedInit twoTasks) [.wakeUp 0x500, .tick] t ∧
      t.current = 0x2000 ∧ Decodes twoTasks.gdt t := by
  have switched : (execAll [.wakeUp 0x500, .tick] (schedInit twoTasks)).map (·.current) =
      some 0x2000 := by decide +kernel
  obtain ⟨t, ran, current⟩ := Option.map_eq_some_iff.mp switched
  have run := run_of_execAll ran
  exact ⟨t, run, current, gdt_follows_current (fun _ _ _ => rfl) rfl run⟩

end BlessOS.Guarantees.GdtFollowsCurrent
