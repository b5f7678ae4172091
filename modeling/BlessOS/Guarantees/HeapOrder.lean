import BlessOS.Guarantees.HeapRuns

/-!
# The index is in order of size

While the heap does not grow, the index stays in non-decreasing order of the sizes
in the headers, and `alloc` takes a smallest hole that fits, as long as a hole that
takes in a block on its right keeps its place. `free` changes the size of such a hole
in its header and leaves its entry where it is.
-/

set_option autoImplicit false

namespace BlessOS.Guarantees.HeapOrder
open BlessOS.Lib.ByteMemory BlessOS.Lib.Transition
open BlessOS.Source BlessOS.Source.Kheap
open BlessOS.Guarantees.OrderedArrayItems BlessOS.Guarantees.HeapLayout
open BlessOS.Guarantees.HeapInvariant BlessOS.Guarantees.HeapAlloc BlessOS.Guarantees.HeapGrow
open BlessOS.Guarantees.HeapFree BlessOS.Guarantees.HeapRuns

variable {ε : Type} {pager : Pager ε}

/-- A hole that is joined to the block on its right keeps its place in the index. -/
def Ordered (s : Session ε) : Call → Prop
  | .alloc _ => True
  | .free p => FreeSorted s.heap p

instance (s : Session ε) : DecidablePred (Ordered s)
  | .alloc _ => inferInstanceAs (Decidable True)
  | .free p => inferInstanceAs (Decidable (FreeSorted s.heap p))

/-- Calls without growth, on a heap that is sound for them and keeps its order. -/
def KeepsOrder (s : Session ε) (a : Call) : Prop := Served s a ∧ Sound s a ∧ Ordered s a

instance (s : Session ε) : DecidablePred (KeepsOrder s) :=
  fun a => inferInstanceAs (Decidable (Served s a ∧ Sound s a ∧ Ordered s a))

/-- The hole at index `i`, for a request, is no larger than another one that fits. -/
def BestFit (s : HeapState ε) : Prop :=
  ∀ n i, findSmallestHole (needed n) 0 s = some i →
    ∀ h ∈ items s.heap.index s.mem, needed n ≤ blockSize s.mem h →
      blockSize s.mem (s.heap.index.item s.mem i) ≤ blockSize s.mem h

/-- In a sorted index the first hole that fits is a smallest one. -/
theorem bestFit_of_sorted {s : HeapState ε} (sorted : SortedBySize s.heap s.mem) : BestFit s := by
  intro n i found h listed large
  obtain ⟨inside, -, early⟩ := findSmallestHole_some found
  obtain ⟨j, bound, rfl⟩ := mem_items.mp listed
  rcases Nat.lt_trichotomy j i with before | rfl | behind
  · exact absurd (early j before) (BitVec.not_lt.mpr large)
  · exact BitVec.le_refl _
  · have order := List.pairwise_iff_getElem.mp sorted i j (by rwa [length_items])
      (by rwa [length_items]) behind
    rw [getElem_items, getElem_items] at order
    exact order

theorem call_sorted {s t : Session ε} {cells : List Cell} {a : Call} (held : SessionInv s cells)
    (sorted : SortedBySize s.heap.heap s.heap.mem) (guard : KeepsOrder s a)
    (next : Step pager s a t) :
    (∃ cells', SessionInv t cells') ∧ SortedBySize t.heap.heap t.heap.mem := by
  obtain ⟨served, sound, ordered⟩ := guard
  cases a with
  | alloc n =>
    obtain ⟨i, found⟩ := Option.ne_none_iff_exists'.mp served.2
    obtain ⟨u, cells', returned, held', -, -, -, sorted'⟩ :=
      call_alloc_served pager held served.1 found
    have same : u = t := Option.some.inj (returned.symm.trans next)
    subst same
    exact ⟨⟨cells', held'⟩, sorted' sorted⟩
  | free p =>
    obtain ⟨u, cells', returned, held', -, sorted', -⟩ :=
      call_free pager held ⟨served.legal, sound⟩
    have same : u = t := Option.some.inj (returned.symm.trans next)
    subst same
    exact ⟨⟨cells', held'⟩, sorted' sorted ordered⟩

/-- A new heap has one entry. -/
theorem newSession_sorted {start stop max : U32} {m m' : Mem} {heap : Heap}
    (ok : CreateOk start stop max) (created : createHeap start stop max m = some (m', heap)) :
    SortedBySize heap m' := by
  have entries := (newSession_inv ok created ()).inv.indexed.entries
  rw [holes_cons_hole rfl] at entries
  have single : items heap.index m' = _ := List.perm_singleton.mp entries
  unfold SortedBySize
  rw [single]
  exact List.pairwise_singleton _ _

/-- From `create_heap`, in every run without growth whose frees find the heap sound
and keep the enlarged hole in its place, the index is in order of size, and the hole
that `alloc` takes is a smallest one that fits. -/
theorem index_sorted {start stop max : U32} {m m' : Mem} {heap : Heap} {paging : ε}
    {calls : List Call} {t : Session ε} (ok : CreateOk start stop max)
    (created : createHeap start stop max m = some (m', heap))
    (run : GuardedRun (Step pager) KeepsOrder (newSession heap m' paging) calls t) :
    SortedBySize t.heap.heap t.heap.mem ∧ BestFit t.heap := by
  obtain ⟨-, sorted⟩ := run.invariant
    (fun s => (∃ cells, SessionInv s cells) ∧ SortedBySize s.heap.heap s.heap.mem)
    (fun s a t ⟨⟨cells, held⟩, sorted⟩ guard next => call_sorted held sorted guard next)
    ⟨⟨_, newSession_inv ok created paging⟩, newSession_sorted ok created⟩
  exact ⟨sorted, bestFit_of_sorted sorted⟩

/-- The second block is freed into the hole that the first one left. -/
theorem index_sorted_joined : ∃ t, session mappedPager KeepsOrder 0x300000 0x388000 0xCFFFF000
    (fun _ => 0) () [.alloc 8, .alloc 8, .alloc 8, .free 0x38000C, .free 0x380028] = some t ∧
    items t.heap.heap.index t.heap.mem = [0x380000, 0x380054] ∧
    SortedBySize t.heap.heap t.heap.mem ∧ BestFit t.heap := by
  have ran : (session mappedPager KeepsOrder 0x300000 0x388000 0xCFFFF000 (fun _ => 0) ()
      [.alloc 8, .alloc 8, .alloc 8, .free 0x38000C, .free 0x380028]).map
      (fun t => items t.heap.heap.index t.heap.mem) = some [0x380000, 0x380054] := by
    decide +kernel
  obtain ⟨t, ran, entries⟩ := Option.map_eq_some_iff.mp ran
  obtain ⟨m', heap, created, run⟩ := session_run ran
  have ok : CreateOk 0x300000 0x388000 0xCFFFF000 := ⟨by decide, by decide, by decide, by decide⟩
  obtain ⟨sorted, best⟩ := index_sorted ok created run
  exact ⟨t, ran, entries, sorted, best⟩

/-- Blocks of 28, 220, 28, 120 and 28 bytes; the first is freed, then the fourth, then
the second, which grows the hole of the first past the hole of the fourth. A request
for 80 bytes then takes the larger one. -/
theorem free_breaks_order : ∃ m' heap t, CreateOk 0x300000 0x388000 0xCFFFF000 ∧
    createHeap 0x300000 0x388000 0xCFFFF000 (fun _ => 0) = some (m', heap) ∧
    GuardedRun (Step mappedPager) Served (newSession heap m' ())
      [.alloc 8, .alloc 200, .alloc 8, .alloc 100, .alloc 8, .free 0x38000C, .free 0x380120,
        .free 0x380028] t ∧
    ¬ SortedBySize t.heap.heap t.heap.mem ∧ ¬ BestFit t.heap := by
  have ran : (session mappedPager Served 0x300000 0x388000 0xCFFFF000 (fun _ => 0) ()
      [.alloc 8, .alloc 200, .alloc 8, .alloc 100, .alloc 8, .free 0x38000C, .free 0x380120,
        .free 0x380028]).map
      (fun t => decide (findSmallestHole (needed 80) 0 t.heap = some 0 ∧
        t.heap.heap.index.item t.heap.mem 0 = 0x380000 ∧ blockSize t.heap.mem 0x380000 = 248 ∧
        (0x380114 : U32) ∈ items t.heap.heap.index t.heap.mem ∧
        blockSize t.heap.mem 0x380114 = 120)) = some true := by decide +kernel
  obtain ⟨t, ran, facts⟩ := Option.map_eq_some_iff.mp ran
  obtain ⟨found, first, size, listed, smaller⟩ := of_decide_eq_true facts
  obtain ⟨m', heap, created, run⟩ := session_run ran
  have worse : ¬ BestFit t.heap := by
    intro best
    have order := best 80 0 found 0x380114 listed (by rw [smaller]; decide)
    rw [first, size, smaller] at order
    exact absurd order (by decide)
  exact ⟨m', heap, t, ⟨by decide, by decide, by decide, by decide⟩, created, run,
    fun sorted => worse (bestFit_of_sorted sorted), worse⟩

end BlessOS.Guarantees.HeapOrder
