import BlessOS.Source.Isr

/-!
# The interrupted context

What the common path saves it restores, around any handler that comes back to it with
the stack as it was. The handlers that are C functions do; the two written in assembly
execute `iret` where `ret` would come back.
-/

set_option autoImplicit false

namespace BlessOS.Guarantees.InterruptReturn
open BlessOS.Lib.ByteMemory BlessOS.Lib.StackMachine
open BlessOS.Source BlessOS.Source.Isr

/-! ## The interrupt -/

/-- The exceptions for which the processor pushes an error code. -/
def errorVectors : List U32 := [0x08, 0x0a, 0x0b, 0x0c, 0x0d, 0x0e, 0x11]

/-- What the processor pushes in the interrupted context. -/
def interrupt (vector eip cs eflags error : U32) (context : Machine) : Machine :=
  let s := push eip (push cs (push eflags context))
  if vector ∈ errorVectors then push error s else s

/-- The machine that executes the last `iret`. -/
structure Restored (context : Machine) (frame : List U32) (s : Machine) : Prop where
  esp : s.esp = context.esp - 12
  frame : Stacked s frame
  eax : s.eax = context.eax
  ecx : s.ecx = context.ecx
  edx : s.edx = context.edx
  ebx : s.ebx = context.ebx
  ebp : s.ebp = context.ebp
  esi : s.esi = context.esi
  edi : s.edi = context.edi
  ds : s.ds = context.ds
  es : s.es = context.es
  fs : s.fs = context.fs
  gs : s.gs = context.gs

def EndsRestored (context : Machine) (frame : List U32) (exit : Exit) : Prop :=
  ∃ s, exit = .iret s ∧ Restored context frame s

/-- The C functions return with the stack balanced, and a handler leaves the words between
its return address and the end of the frame at `eip` alone. -/
structure ReturnsBalanced (link : Link) (eip : U32) : Prop where
  returns : ∀ function ∈ [CFunction.doTimer, .doKb, .hdInterrupt, .noPage], ∀ s,
    ∃ t, link.run function s = some t ∧ t.esp = s.esp + 4 ∧
      (s.esp = eip - 64 → ∀ i < 18,
        load32 t.mem (eip - 60 + BitVec.ofNat 32 (4 * i)) =
          load32 s.mem (eip - 60 + BitVec.ofNat 32 (4 * i)))

/-! ## The common path -/

section Common

variable {s t : Machine} {nr err : U32} {rest frame : List U32}

theorem selectorWords_pushal (s : Machine) : selectorWords (pushal s) = selectorWords s := by
  simp only [selectorWords, pushal_ds, pushal_es, pushal_fs, pushal_gs, pushal_ss]

theorem saveContext_esp (s : Machine) : (saveContext s).esp = s.esp - 52 := by
  have selectors : (pushSelectors (pushal s)).esp = (pushal s).esp - 4 - 4 - 4 - 4 - 4 := rfl
  change (pushSelectors (pushal s)).esp = s.esp - 52
  rw [selectors, pushal_esp]
  bv_omega

theorem context_stacked (stack : Stacked s rest) (room : rest.length ≤ 64) :
    Stacked (pushSelectors (pushal s)) (selectorWords s ++ (generalWords s ++ rest)) := by
  have general := stack.pushal (by omega)
  have length : (generalWords s ++ rest).length ≤ 72 := by
    rw [List.length_append]
    exact Nat.add_le_add_left room 8
  have selectors := general.pushSelectors (by omega)
  rw [selectorWords_pushal] at selectors
  exact selectors

theorem saveContext_stacked (stack : Stacked s rest) (room : rest.length ≤ 64) :
    Stacked (saveContext s) (selectorWords s ++ (generalWords s ++ rest)) := by
  have context := context_stacked stack room
  have mem : (saveContext s).mem = (pushSelectors (pushal s)).mem := rfl
  have esp : (saveContext s).esp = (pushSelectors (pushal s)).esp := rfl
  unfold Stacked
  rw [mem, esp]
  exact context

/-- The vector is read past the thirteen words of the context. -/
theorem saveContext_ecx (stack : Stacked s (nr :: rest)) (room : rest.length < 64) :
    (saveContext s).ecx = nr := by
  have context := context_stacked stack room
  have ecx : (saveContext s).ecx = stackWord 52 (pushSelectors (pushal s)) := by
    simp only [saveContext, pushSelectors, stackWord, setAx]
  rw [ecx]
  generalize pushSelectors (pushal s) = saved at context ⊢
  have inside : 13 < (selectorWords s ++ (generalWords s ++ nr :: rest)).length := by
    simp [selectorWords, generalWords]
  have found := context.word 13 inside
  exact found

/-- From the words that were saved, the code after the call gets the context back. -/
theorem restoreContext_spec
    (stack : Stacked t (selectorWords s ++ (generalWords s ++ nr :: err :: frame))) :
    restoreContext t = { t with
      edi := s.edi
      esi := s.esi
      ebp := s.ebp
      ebx := s.ebx
      edx := s.edx
      ecx := s.ecx
      eax := s.eax
      ds := s.ds
      es := s.es
      fs := s.fs
      gs := s.gs
      esp := t.esp + 60 } ∧ Stacked (restoreContext t) frame := by
  obtain ⟨selectors, atGeneral⟩ := Stacked.popSelectors stack.drop
  obtain ⟨general, atVector⟩ := atGeneral.popal
  have atFrame : Stacked (restoreContext t) frame := by
    have behind := WordsAt.behind [nr, err] atVector
    exact behind
  refine ⟨?_, atFrame⟩
  rw [restoreContext, general, selectors]
  simp only [drop, BitVec.add_assoc, BitVec.reduceAdd]
  rfl

/-- A handler that comes back is followed by the rest of the common path. -/
theorem comm_ret {link : Link} {label : Label} {handler : Handler}
    (stack : Stacked s (nr :: rest)) (room : rest.length < 64)
    (entry : isrTable[(nr * 8).toNat / 8]? = some handler)
    (returned : handler.run link (push (link.after label) (saveContext s)) = .ret t) :
    comm link label s = .iret (restoreContext t) := by
  unfold Isr.comm
  simp only [saveContext_ecx stack room, entry, returned]

/-- A handler that executes `iret` ends there. -/
theorem comm_iret {link : Link} {label : Label} {handler : Handler}
    (stack : Stacked s (nr :: rest)) (room : rest.length < 64)
    (entry : isrTable[(nr * 8).toNat / 8]? = some handler)
    (left : handler.run link (push (link.after label) (saveContext s)) = .iret t) :
    comm link label s = .iret t := by
  unfold Isr.comm
  simp only [saveContext_ecx stack room, entry, left]

end Common

/-! ## The handlers -/

theorem defaultIsr_iret (s : Machine) : ∃ t, defaultIsr s = .iret t ∧ t.esp = s.esp :=
  ⟨_, rfl, rfl⟩

/-- The saved `eax` is still on the stack when the page fault ends. -/
theorem doPageFault_iret {link : Link} {eip : U32} (balanced : ReturnsBalanced link eip)
    (s : Machine) : ∃ t, doPageFault link s = .iret t ∧ t.esp = s.esp - 4 := by
  obtain ⟨t, ran, esp, -⟩ := balanced.returns .noPage (by simp)
    (push (link.after .doPageFault)
      (push (push s.eax s).cr2 { push s.eax s with eax := (push s.eax s).cr2 }))
  dsimp only at ran
  refine ⟨drop 4 { t with eax := stackWord 0 t }, ?_, ?_⟩
  · unfold doPageFault
    simp only [callC, ran]
  · simp only [drop, esp, push_esp]
    bv_omega

/-! ## The vectors -/

/-- The vectors whose handler does not halt. -/
def resumableVectors : List U32 :=
  [0x0e, 0x20, 0x21, 0x22, 0x23, 0x24, 0x25, 0x26, 0x27, 0x28, 0x29, 0x2a, 0x2b, 0x2c, 0x2d, 0x2e]

/-- Those whose handler is a C function. -/
def returningVectors : List U32 := [0x20, 0x21, 0x2e]

/-- A fact about the vectors of a list, checked one by one. -/
theorem forall_of_all {p : U32 → Prop} [DecidablePred p] {vectors : List U32}
    (checked : vectors.all (fun vector => decide (p vector)) = true) :
    ∀ vector ∈ vectors, p vector :=
  fun vector listed => of_decide_eq_true (List.all_eq_true.mp checked vector listed)

theorem entry_returns : ∀ vector ∈ returningVectors,
    ∃ function ∈ [CFunction.doTimer, .doKb, .hdInterrupt],
      isrTable[(vector * 8).toNat / 8]? = some (.c function) :=
  forall_of_all (by decide)

theorem entry_irets : ∀ vector ∈ resumableVectors, vector ∉ returningVectors →
    isrTable[(vector * 8).toNat / 8]? = some .doPageFault ∨
      isrTable[(vector * 8).toNat / 8]? = some .defaultIsr :=
  forall_of_all (by decide)

/-- A vector comes with an error code or belongs to a request. -/
theorem vector_kind : ∀ vector ∈ resumableVectors,
    (vector = 0x0e ∧ vector ∈ errorVectors) ∨ (0x20 ≤ vector ∧ vector ∉ errorVectors) :=
  forall_of_all (by decide)

/-- The stack with which the common path is entered. -/
def entered (vector err eip cs eflags : U32) (context : Machine) : Machine :=
  push vector (push err (push eip (push cs (push eflags context))))

theorem entered_stacked (vector err eip cs eflags : U32) (context : Machine) :
    Stacked (entered vector err eip cs eflags context) [vector, err, eip, cs, eflags] := by
  have empty : Stacked context [] := trivial
  have flags := empty.push eflags (Nat.two_pow_pos 30)
  have frame := (flags.push cs (by simp)).push eip (by simp)
  exact (frame.push err (by simp)).push vector (by simp)

/-- The error code, or the zero in its place, and the vector stand below the frame. -/
theorem stub_enters (link : Link) (vector eip cs eflags error : U32) (context : Machine)
    (listed : vector ∈ resumableVectors) :
    ∃ label err, stub link vector (interrupt vector eip cs eflags error context) =
      comm link label (entered vector err eip cs eflags context) := by
  rcases vector_kind vector listed with ⟨fault, coded⟩ | ⟨request, uncoded⟩
  · refine ⟨.isrComm, error, ?_⟩
    unfold stub interrupt
    rw [if_pos coded, fault, if_neg (by decide), if_pos (by decide)]
    rfl
  · refine ⟨.irqComm, 0, ?_⟩
    unfold stub interrupt
    rw [if_neg uncoded, if_pos request]
    rfl

theorem entered_esp (vector err eip cs eflags : U32) (context : Machine) :
    (entered vector err eip cs eflags context).esp = context.esp - 20 := by
  simp only [entered, push_esp]
  bv_omega

/-- Where the words above the return address are kept, the whole stack is. -/
theorem kept_stacked {s t : Machine} {ret eip : U32} {words : List U32} (stack : Stacked s words)
    (length : words.length = 18) (top : s.esp = eip - 60) (esp : t.esp = s.esp)
    (same : ∀ i < 18, load32 t.mem (eip - 60 + BitVec.ofNat 32 (4 * i)) =
      load32 (push ret s).mem (eip - 60 + BitVec.ofNat 32 (4 * i))) : Stacked t words := by
  have pushed : Stacked (push ret s) (ret :: words) := stack.push ret (by omega)
  have up : (push ret s).esp + 4 = eip - 60 := by
    rw [push_esp, top]
    bv_omega
  have words_kept : WordsAt (push ret s).mem (eip - 60) words := by
    rw [← up]
    exact pushed.2
  unfold Stacked
  rw [esp, top]
  exact words_kept.congr fun i inside => same i (by omega)

/-- The two handlers written in assembly leave by an `iret` far below the frame. -/
theorem not_endsRestored {link : Link} (context : Machine) (vector eip cs eflags error : U32)
    (listed : vector ∈ resumableVectors) (balanced : ReturnsBalanced link (context.esp - 12))
    (other : vector ∉ returningVectors) :
    ¬ EndsRestored context [eip, cs, eflags]
        (stub link vector (interrupt vector eip cs eflags error context)) := by
  obtain ⟨label, err, enters⟩ := stub_enters link vector eip cs eflags error context listed
  have stack := entered_stacked vector err eip cs eflags context
  have top := entered_esp vector err eip cs eflags context
  rw [enters]
  rintro ⟨s, exit, restored⟩
  have esp := restored.esp
  rcases entry_irets vector listed other with entry | entry
  · obtain ⟨t, left, low⟩ := doPageFault_iret balanced
      (push (link.after label) (saveContext (entered vector err eip cs eflags context)))
    rw [comm_iret stack (by simp) entry left] at exit
    cases exit
    rw [low, push_esp, saveContext_esp, top] at esp
    bv_omega
  · obtain ⟨t, left, low⟩ := defaultIsr_iret
      (push (link.after label) (saveContext (entered vector err eip cs eflags context)))
    rw [comm_iret stack (by simp) entry left] at exit
    cases exit
    rw [low, push_esp, saveContext_esp, top] at esp
    bv_omega

/-- A C function comes back to the common path, which restores the context. -/
theorem endsRestored {link : Link} (context : Machine) (vector eip cs eflags error : U32)
    (listed : vector ∈ resumableVectors) (balanced : ReturnsBalanced link (context.esp - 12))
    (returning : vector ∈ returningVectors) :
    EndsRestored context [eip, cs, eflags]
      (stub link vector (interrupt vector eip cs eflags error context)) := by
  obtain ⟨label, err, enters⟩ := stub_enters link vector eip cs eflags error context listed
  have stack := entered_stacked vector err eip cs eflags context
  have top := entered_esp vector err eip cs eflags context
  rw [enters]
  obtain ⟨function, isC, entry⟩ := entry_returns vector returning
  have saved := saveContext_stacked stack (by simp)
  have saved_top := saveContext_esp (entered vector err eip cs eflags context)
  have called : function ∈ [CFunction.doTimer, .doKb, .hdInterrupt, .noPage] :=
    List.mem_append_left [CFunction.noPage] isC
  obtain ⟨t, ran, esp, same⟩ := balanced.returns function called
    (push (link.after label) (saveContext (entered vector err eip cs eflags context)))
  rw [push_esp, saved_top, top] at esp same
  have kept := kept_stacked saved rfl (by rw [saved_top, top]; bv_omega)
    (by rw [saved_top, top, esp]; bv_omega) (same (by bv_omega))
  have returned : Handler.run link (.c function)
      (push (link.after label) (saveContext (entered vector err eip cs eflags context))) =
        .ret t := by
    simp only [Handler.run, callC, ran]
  obtain ⟨registers, frame⟩ := restoreContext_spec kept
  refine ⟨restoreContext t, comm_ret stack (by simp) entry returned, ?_⟩
  constructor
  case frame => exact frame
  all_goals rw [registers]
  case esp =>
    show t.esp + 60 = context.esp - 12
    rw [esp]
    bv_omega
  all_goals simp only [entered, push_eax, push_ecx, push_edx, push_ebx, push_ebp, push_esi, push_edi,
    push_ds, push_es, push_fs, push_gs]

/-- **Interrupt return.** For every context and every vector whose handler does not halt,
the path ends in an `iret` with the context restored exactly if the handler is a C function. -/
theorem context_restored_iff {link : Link} (context : Machine) (vector eip cs eflags error : U32)
    (listed : vector ∈ resumableVectors) (balanced : ReturnsBalanced link (context.esp - 12)) :
    EndsRestored context [eip, cs, eflags]
        (stub link vector (interrupt vector eip cs eflags error context)) ↔
      vector ∈ returningVectors := by
  constructor
  · intro ends
    by_contra other
    exact not_endsRestored context vector eip cs eflags error listed balanced other ends
  · exact endsRestored context vector eip cs eflags error listed balanced

/-- C functions that return at once. -/
def plainLink : Link where
  run _ s := some { s with esp := s.esp + 4 }
  after _ := 0x1000

theorem plainLink_balanced (eip : U32) : ReturnsBalanced plainLink eip where
  returns _ _ _ := ⟨_, rfl, rfl, fun _ _ _ => rfl⟩

/-- A task in the middle of its work. -/
def someContext : Machine where
  eax := 1
  ecx := 2
  edx := 3
  ebx := 4
  esp := 0x9000
  ebp := 5
  esi := 6
  edi := 7
  ds := 0x17
  es := 0x17
  fs := 0x17
  gs := 0x17
  ss := 0x17
  cr2 := 0
  mem := fun _ => 0
  ports := []

/-- The timer's interrupt. -/
theorem context_restored_iff_timer :
    EndsRestored someContext [0x100000, 0x0f, 0x202]
      (stub plainLink 0x20 (interrupt 0x20 0x100000 0x0f 0x202 0 someContext)) :=
  (context_restored_iff someContext 0x20 0x100000 0x0f 0x202 0 (by decide)
    (plainLink_balanced _)).mpr (by decide)

/-- Another device's interrupt never comes back to the task. -/
theorem defaultIsr_loses_context :
    (0x22 : U32) ∈ resumableVectors ∧ ReturnsBalanced plainLink (someContext.esp - 12) ∧
      ¬ EndsRestored someContext [0x100000, 0x0f, 0x202]
        (stub plainLink 0x22 (interrupt 0x22 0x100000 0x0f 0x202 0 someContext)) :=
  ⟨by decide, plainLink_balanced _, not_endsRestored someContext 0x22 0x100000 0x0f 0x202 0
    (by decide) (plainLink_balanced _) (by decide)⟩

end BlessOS.Guarantees.InterruptReturn
