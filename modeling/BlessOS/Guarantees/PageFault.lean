import BlessOS.Guarantees.InterruptReturn
import BlessOS.Guarantees.NewPageTable

/-!
# Page faults

`do_page_fault` pushes `%eax` and then the address of the fault, so that `no_page` finds the
address where it looks for the error code, and takes for the address what `%eax` held: that of
the interrupted code, with its low half replaced by the data selector.
-/

set_option autoImplicit false

namespace BlessOS.Guarantees.PageFault
open BlessOS.Lib.ByteMemory BlessOS.Lib.StackMachine
open BlessOS.Source BlessOS.Source.Memory BlessOS.Source.Isr
open BlessOS.Guarantees.InterruptReturn BlessOS.Guarantees.PageAllocator
open BlessOS.Guarantees.PageTables BlessOS.Guarantees.PageDirectory BlessOS.Guarantees.PageMap
open BlessOS.Guarantees.NewPageTable

variable {m : Mem} {a : U32} {d k : Nat}

/-! ## The call of `no_page` -/

/-- The machine at the first instruction of the handler. -/
def atHandler (link : Link) (s : Machine) : Machine :=
  push (link.after .isrComm) (saveContext (push 0x0e s))

/-- The machine at the first instruction of `no_page`. -/
def atNoPage (link : Link) (s : Machine) : Machine :=
  let s := atHandler link s
  push (link.after .doPageFault) (push s.cr2 { push s.eax s with eax := s.cr2 })

/-- The rest of the handler. -/
def afterNoPage : Option Machine → Exit
  | some s => .iret (drop 4 { s with eax := stackWord 0 s })
  | none => .halted

/-- The arguments of a C function, above its return address, the last one pushed first. -/
def argument (i : Nat) (s : Machine) : U32 := stackWord (BitVec.ofNat 32 (4 * (i + 1))) s

/-- The handler is entered from the stub of vector 0x0e, and calls `no_page` once. -/
theorem pageFault_path (link : Link) (s : Machine) :
    stub link 0x0e s = afterNoPage (link.run .noPage (atNoPage link s)) := by
  have empty : Stacked s [] := trivial
  have stack : Stacked (push 0x0e s) [0x0e] := empty.push 0x0e (by decide)
  have vector := saveContext_ecx stack (by decide)
  have entry : isrTable[((0x0e : U32) * 8).toNat / 8]? = some .doPageFault := by decide
  unfold stub
  rw [if_neg (by decide), if_pos (by decide)]
  unfold isrerror isrComm Isr.comm
  simp only [vector, entry, Handler.run]
  unfold doPageFault callC atNoPage
  rw [show push (link.after .isrComm) (saveContext (push 0x0e s)) = atHandler link s from rfl]
  dsimp only [push_cr2]
  cases link.run .noPage _ <;> rfl

/-- What the handler finds in `%eax`. -/
def faultEax (eax : U32) : U32 := (eax &&& 0xffff0000) ||| 0x10

theorem atHandler_registers (link : Link) (s : Machine) :
    (atHandler link s).eax = faultEax s.eax ∧ (atHandler link s).cr2 = s.cr2 := by
  have eax : (saveContext (push 0x0e s)).eax =
      ((pushSelectors (pushal (push 0x0e s))).eax &&& 0xffff0000) ||| (0x10 : U16).setWidth 32 :=
    rfl
  have cr2 : (saveContext (push 0x0e s)).cr2 = (pushSelectors (pushal (push 0x0e s))).cr2 := rfl
  unfold atHandler
  rw [push_eax, push_cr2, eax, cr2, pushSelectors_eax, pushSelectors_cr2, pushal_eax, pushal_cr2,
    push_eax, push_cr2]
  exact ⟨rfl, rfl⟩

/-- The address of the fault is the first argument of `no_page`, not the second. -/
theorem atNoPage_arguments (link : Link) (s : Machine) :
    argument 0 (atNoPage link s) = s.cr2 ∧ argument 1 (atNoPage link s) = faultEax s.eax := by
  obtain ⟨eax, cr2⟩ := atHandler_registers link s
  have empty : Stacked (atHandler link s) [] := trivial
  have first : Stacked { push (atHandler link s).eax (atHandler link s) with
      eax := (atHandler link s).cr2 } [faultEax s.eax] := by
    rw [← eax]
    exact empty.push _ (by simp)
  have second := first.push (atHandler link s).cr2 (by simp)
  have called : Stacked (atNoPage link s) [link.after .doPageFault, s.cr2, faultEax s.eax] := by
    rw [← cr2]
    exact second.push _ (by simp)
  exact ⟨called.word 1 (by simp), called.word 2 (by simp)⟩

/-! ## What is mapped -/

/-- The directory entry of an address is the entry of its page as well. -/
def SelfMapped (m : Mem) (a : U32) : Prop :=
  HasTable m (region a) ∧ slotOf m a = directorySlot (region a)

theorem dirEntry_store_aligned {s : U32} (value : U32) (aligned : s.toNat % 4 = 0)
    (inside : d < 1024) : dirEntry (store32 m s value) d =
      if directorySlot d = s then value else dirEntry m d := by
  have place := directorySlot_toNat inside
  have aligned' : (directorySlot d).toNat % 4 = 0 := by
    rw [place]
    exact Nat.mul_mod_right 4 d
  exact load32_store32_aligned m value aligned aligned'

/-- A page that is put is mapped, unless the address is self-mapped and the page is not itself
a table that maps it so. -/
theorem putPage_mapped_iff (inside : k < pagingPages) (p : Paging) (a : U32) :
    getPageAddr a (putPage (pageOf k) a p).2 = pageOf k ↔ (SelfMapped p.mem a →
      addrOf (load32 p.mem (pageTableEntry (pageOf k) a)) = pageOf k) := by
  have aligned := pageOf_aligned inside
  by_cases has : HasTable p.mem (region a)
  · have slots := slotOf_aligned p.mem a
    have result : (putPage (pageOf k) a p).2.mem =
        store32 p.mem (slotOf p.mem a) (pageOf k ||| 7) := by
      rw [putPage_present has]
      rfl
    have entry := dirEntry_store_aligned (m := p.mem) (pageOf k ||| 7) slots (region_lt a)
    rw [getPageAddr_slot, result]
    by_cases self : directorySlot (region a) = slotOf p.mem a
    · -- the directory entry is overwritten, and leads to the page as a table
      rw [if_pos self] at entry
      have has' : HasTable (store32 p.mem (slotOf p.mem a) (pageOf k ||| 7)) (region a) := by
        unfold HasTable
        rw [entry]
        exact entry_present _
      have slot : slotOf (store32 p.mem (slotOf p.mem a) (pageOf k ||| 7)) a =
          pageTableEntry (pageOf k) a := by
        unfold slotOf table at entry ⊢
        rw [entry, mask_present inside]
      have other : pageTableEntry (pageOf k) a ≠ slotOf p.mem a := by
        rw [← self]
        exact (directorySlot_ne inside (region_lt a) a).symm
      rw [if_pos has', slot, load32_store32_aligned _ _ slots (frameSlot_aligned inside a),
        if_neg other]
      exact ⟨fun same _ => same, fun same => same ⟨has, self.symm⟩⟩
    · rw [if_neg self] at entry
      obtain ⟨same, has'⟩ := table_congr entry
      have slot : slotOf (store32 p.mem (slotOf p.mem a) (pageOf k ||| 7)) a = slotOf p.mem a :=
        congrArg (pageTableEntry · a) same
      rw [if_pos (has'.mpr has), slot, load32_store32_self, addrOf_entry aligned]
      exact iff_of_true rfl fun selfMapped => absurd selfMapped.2.symm self
  · obtain ⟨j, inside', frame⟩ := nextFrame_page p
    have written := putPage_entered has (pageOf k)
    rw [frame] at written
    exact iff_of_true (entered_mapped inside' written aligned) fun self => absurd self.1 has

/-- The allocator and the memory in which `no_page` is called. -/
def pagingOf (memMap : Nat → U16) (s : Machine) : Paging := ⟨memMap, s.mem⟩

def FrameFree (memMap : Nat → U16) : Prop := ∃ i < pagingPages, memMap i = 0

/-- `no_page`, which passes its second argument to `put_page`, is called with the address of the
fault there, and maps the next frame to it when there is one. -/
structure MapsFault (memMap : Nat → U16) (cr2 : U32) (s : Machine) : Prop where
  address : argument 1 s = cr2
  mapped : FrameFree memMap → getPageAddr cr2
    (noPage (argument 0 s) (argument 1 s) (pagingOf memMap s)) = nextFrame (pagingOf memMap s)

/-- The frame is a table that maps the address to the frame itself. -/
def MapsItself (m : Mem) (frame a : U32) : Prop :=
  addrOf (load32 m (pageTableEntry frame a)) = frame

theorem noPage_mapped_iff (error a : U32) (p : Paging) :
    getPageAddr a (noPage error a p) = nextFrame p ↔
      (SelfMapped p.mem a → MapsItself p.mem (nextFrame p) a) := by
  obtain ⟨j, inside, page⟩ := nextFrame_page p
  have same : (afterFrame p).mem = p.mem := getFreePage_mem p
  have mapped := putPage_mapped_iff inside (afterFrame p) a
  rw [same] at mapped
  rw [noPage_eq, page]
  exact mapped

theorem mapsFault_iff {memMap : Nat → U16} {cr2 found : U32} {s : Machine}
    (address : argument 1 s = found) : MapsFault memMap cr2 s ↔ cr2 = found ∧
      (FrameFree memMap → SelfMapped s.mem cr2 →
        MapsItself s.mem (nextFrame (pagingOf memMap s)) cr2) := by
  have mapped := noPage_mapped_iff (argument 0 s) cr2 (pagingOf memMap s)
  constructor
  · rintro ⟨same, maps⟩
    rw [same] at maps
    exact ⟨same.symm.trans address, fun free => mapped.mp (maps free)⟩
  · rintro ⟨same, reaches⟩
    have right : argument 1 s = cr2 := address.trans same.symm
    refine ⟨right, fun free => ?_⟩
    rw [right]
    exact mapped.mpr (reaches free)

/-- **Page faults.** For every fault and every memory, the path from the stub leads to one call of
`no_page`, which is called with the address of the fault as its address, and maps it, exactly if
the address is the one that is left in `%eax` (and is not mapped by its own directory entry). -/
theorem pageFault_maps_iff (link : Link) (memMap : Nat → U16) (eip cs eflags error : U32)
    (context : Machine) :
    let fault := interrupt 0x0e eip cs eflags error context
    let called := atNoPage link fault
    stub link 0x0e fault = afterNoPage (link.run .noPage called) ∧
      (MapsFault memMap context.cr2 called ↔ context.cr2 = faultEax context.eax ∧
        (FrameFree memMap → SelfMapped called.mem context.cr2 →
          MapsItself called.mem (nextFrame (pagingOf memMap called)) context.cr2)) := by
  intro fault called
  obtain ⟨-, address⟩ := atNoPage_arguments link fault
  exact ⟨pageFault_path link fault, mapsFault_iff address⟩

/-- A fault of a task that has a small number in `%eax`. -/
def faultingContext : Machine := { someContext with cr2 := 0x800000 }

/-- The first fault at an address that is not mapped: another address is. -/
theorem pageFault_maps_other :
    let called := atNoPage plainLink (interrupt 0x0e 0x100000 0x0f 0x202 4 faultingContext)
    argument 1 called = 0x10 ∧ ¬ MapsFault (fun _ => 0) faultingContext.cr2 called := by
  intro called
  obtain ⟨-, address⟩ := atNoPage_arguments plainLink
    (interrupt 0x0e 0x100000 0x0f 0x202 4 faultingContext)
  have small : argument 1 called = 0x10 := address.trans (by decide)
  refine ⟨small, fun maps => ?_⟩
  have same := small.symm.trans maps.address
  exact absurd same (by decide)

end BlessOS.Guarantees.PageFault
