import BlessOS.Guarantees.HeapRuns

/-!
# The heap is whole again

When every block has been freed, one hole is left and it covers the heap, as long
as every call finds the heap sound for it. A merge to the right leaves the footer
that names the absorbed header; a later merge to the left follows it and the memory
is lost.
-/

set_option autoImplicit false

namespace BlessOS.Guarantees.HeapCoalescing
open BlessOS.Lib.ByteMemory BlessOS.Lib.Tiling BlessOS.Lib.Transition
open BlessOS.Source BlessOS.Source.Kheap
open BlessOS.Guarantees.OrderedArrayItems BlessOS.Guarantees.HeapLayout
open BlessOS.Guarantees.HeapInvariant BlessOS.Guarantees.HeapBounds BlessOS.Guarantees.HeapRuns

variable {ε : Type}

/-- The index lists one hole, from the start to the end of the heap. -/
def Whole (s : HeapState ε) : Prop :=
  items s.heap.index s.mem = [s.heap.startAddress] ∧
    blockSize s.mem s.heap.startAddress = s.length

instance (s : HeapState ε) : Decidable (Whole s) := inferInstanceAs (Decidable (_ = _ ∧ _ = _))

/-- Cells without a payload are holes. -/
theorem hole_of_payloads_nil {cells : List Cell} (empty : payloads cells = []) {c : Cell}
    (member : c ∈ cells) : c.used = none := by
  cases used : c.used with
  | none => rfl
  | some n =>
    have listed : (c.base + headerBytes, n) ∈ payloads cells :=
      mem_payloads.mpr ⟨c, member, used, rfl⟩
    rw [empty] at listed
    cases listed

/-- Holes that are no neighbours of each other tile the heap only as one. -/
theorem whole_of_no_payloads {s : HeapState ε} {cells : List Cell}
    (inv : HeapInv s.heap s.mem cells) (empty : payloads cells = []) : Whole s := by
  obtain ⟨layout, indexed, coalesced, pages⟩ := inv
  have length := length_toNat pages
  have proper := pages.proper
  match cells with
  | [] =>
    have bounds : s.heap.startAddress.toNat = s.heap.endAddress.toNat := layout.tiles
    omega
  | a :: b :: rest =>
    have neighbours : a.used ≠ none ∨ b.used ≠ none :=
      (List.isChain_cons_cons.mp coalesced).1
    rcases neighbours with block | block
    · exact absurd (hole_of_payloads_nil empty (by simp)) block
    · exact absurd (hole_of_payloads_nil empty (by simp)) block
  | [c] =>
    have hole := hole_of_payloads_nil empty (c := c) (by simp)
    have ok := layout.ok c (by simp)
    obtain ⟨begins, ends⟩ := layout.tiles
    have base : c.base = s.heap.startAddress := BitVec.eq_of_toNat_eq begins
    have size : c.size = s.length := by
      apply BitVec.eq_of_toNat_eq
      have ends' : s.heap.startAddress.toNat + c.size.toNat = s.heap.endAddress.toNat := ends
      omega
    have entries := indexed.entries
    rw [holes_cons_hole hole] at entries
    constructor
    · rw [List.perm_singleton.mp entries, base]
    · rw [← base, ok.header.size, size]

/-- From `create_heap`, a run of legal calls each of which finds the heap sound for
it, after which no block is live, leaves one hole that is the whole heap. -/
theorem whole_of_all_freed (pager : Pager ε) {start stop max : U32} {m m' : Mem} {heap : Heap}
    {paging : ε} {calls : List Call} {t : Session ε} (ok : CreateOk start stop max)
    (created : createHeap start stop max m = some (m', heap))
    (run : GuardedRun (Step pager) Admitted (newSession heap m' paging) calls t)
    (freed : t.live = []) : Whole t.heap := by
  obtain ⟨cells, held⟩ := session_inv ok created run
  have perm := held.live
  rw [freed] at perm
  exact whole_of_no_payloads held.inv perm.symm.eq_nil

/-- Two blocks freed in the order of their addresses, and the last one. -/
theorem whole_of_all_freed_inOrder : ∃ t, session mappedPager Admitted 0x300000 0x388000 0xCFFFF000
    (fun _ => 0) () [.alloc 8, .alloc 8, .alloc 8, .free 0x38000C, .free 0x380028, .free 0x380044] =
      some t ∧ t.live = [] ∧ Whole t.heap := by
  have ran : (session mappedPager Admitted 0x300000 0x388000 0xCFFFF000 (fun _ => 0) ()
      [.alloc 8, .alloc 8, .alloc 8, .free 0x38000C, .free 0x380028, .free 0x380044]).map
      Session.live = some [] := by decide +kernel
  obtain ⟨t, ran, freed⟩ := Option.map_eq_some_iff.mp ran
  obtain ⟨m', heap, created, run⟩ := session_run ran
  have ok : CreateOk 0x300000 0x388000 0xCFFFF000 := ⟨by decide, by decide, by decide, by decide⟩
  exact ⟨t, ran, freed, whole_of_all_freed mappedPager ok created run freed⟩

/-- Three blocks, the middle one freed first, then the first, then the last: nothing is
live, and the index lists one hole of 56 bytes. -/
theorem free_loses_memory : ∃ m' heap t, CreateOk 0x300000 0x388000 0xCFFFF000 ∧
    createHeap 0x300000 0x388000 0xCFFFF000 (fun _ => 0) = some (m', heap) ∧
    GuardedRun (Step mappedPager) Served (newSession heap m' ())
      [.alloc 8, .alloc 8, .alloc 8, .free 0x380028, .free 0x38000C, .free 0x380044] t ∧
    t.live = [] ∧ items t.heap.heap.index t.heap.mem = [0x380000] ∧
    blockSize t.heap.mem 0x380000 = 56 ∧ ¬ Whole t.heap := by
  have ran : (session mappedPager Served 0x300000 0x388000 0xCFFFF000 (fun _ => 0) ()
      [.alloc 8, .alloc 8, .alloc 8, .free 0x380028, .free 0x38000C, .free 0x380044]).map
      (fun t => decide (t.live = [] ∧ items t.heap.heap.index t.heap.mem = [0x380000] ∧
        blockSize t.heap.mem 0x380000 = 56 ∧ ¬ Whole t.heap)) = some true := by decide +kernel
  obtain ⟨t, ran, lost⟩ := Option.map_eq_some_iff.mp ran
  obtain ⟨m', heap, created, run⟩ := session_run ran
  exact ⟨m', heap, t, ⟨by decide, by decide, by decide, by decide⟩, created, run,
    of_decide_eq_true lost⟩

end BlessOS.Guarantees.HeapCoalescing
