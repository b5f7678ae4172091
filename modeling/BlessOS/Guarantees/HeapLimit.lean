import BlessOS.Guarantees.HeapRuns

/-!
# The heap and its limit

`expand` asserts that the heap stays below `max_address`, and the assertion only
prints. So the end of the heap stays below the limit exactly as long as no request
asks for more.
-/

set_option autoImplicit false

namespace BlessOS.Guarantees.HeapLimit
open BlessOS.Lib.ByteMemory BlessOS.Lib.Transition
open BlessOS.Source BlessOS.Source.Kheap
open BlessOS.Guarantees.HeapLayout BlessOS.Guarantees.HeapInvariant BlessOS.Guarantees.HeapAlloc
open BlessOS.Guarantees.HeapGrow BlessOS.Guarantees.HeapRuns

variable {ε : Type} {pager : Pager ε}

def WithinLimit (heap : Heap) : Prop := heap.endAddress ≤ heap.maxAddress

instance (heap : Heap) : Decidable (WithinLimit heap) := inferInstanceAs (Decidable (_ ≤ _))

/-- Requests whose sizes do not wrap, whatever the limit, and frees of live pointers. -/
def NoWrap (s : Session ε) : Call → Prop
  | .alloc n => n.toNat + 20 < 2 ^ 32 ∧ (findSmallestHole (needed n) 0 s.heap = none →
      s.heap.heap.startAddress.toNat + grownLength s.heap n < 2 ^ 32)
  | .free p => p ∈ s.live.map Prod.fst

instance (s : Session ε) : DecidablePred (NoWrap s)
  | .alloc n => inferInstanceAs (Decidable (n.toNat + 20 < 2 ^ 32 ∧ (_ → _)))
  | .free p => inferInstanceAs (Decidable (p ∈ s.live.map Prod.fst))

/-- On a sound heap, a request leaves the heap within its limit exactly when it is
legal. -/
theorem alloc_within_iff {s : Session ε} {cells : List Cell} (held : SessionInv s cells) {n : U32}
    (noWrap : NoWrap s (.alloc n)) (sound : Sound s (.alloc n)) :
    ∃ t, Step pager s (.alloc n) t ∧ (WithinLimit t.heap.heap ↔ Legal s (.alloc n)) := by
  obtain ⟨small, space⟩ := noWrap
  cases found : findSmallestHole (needed n) 0 s.heap with
  | some i =>
    obtain ⟨t, cells', returned, held', -⟩ := call_alloc_served pager held small found
    refine ⟨t, returned, iff_of_true held'.limit ⟨small, fun misses => ?_⟩⟩
    rw [found] at misses
    cases misses
  | none =>
    obtain ⟨t, v, cells', returned, expanded, -, -, range, stop, -⟩ :=
      call_alloc_grown pager held small found (space found) (sound found)
    refine ⟨t, returned, ?_⟩
    unfold WithinLimit
    rw [BitVec.le_def, stop, range.2, expanded.stop]
    exact ⟨fun within => ⟨small, fun _ => within⟩, fun legal => legal.2 found⟩

/-- From `create_heap`, in every run of legal calls each of which finds the heap sound
for it, the heap ends within its limit; the next request keeps it there exactly when
it is legal too. -/
theorem end_within_limit {start stop max : U32} {m m' : Mem} {heap : Heap} {paging : ε}
    {calls : List Call} {t : Session ε} (ok : CreateOk start stop max)
    (created : createHeap start stop max m = some (m', heap))
    (run : GuardedRun (Step pager) Admitted (newSession heap m' paging) calls t) :
    WithinLimit t.heap.heap ∧ ∀ n, NoWrap t (.alloc n) → Sound t (.alloc n) →
      ∃ u, Step pager t (.alloc n) u ∧ (WithinLimit u.heap.heap ↔ Legal t (.alloc n)) := by
  obtain ⟨cells, held⟩ := session_inv ok created run
  exact ⟨held.limit, fun n noWrap sound => alloc_within_iff held noWrap sound⟩

/-- A heap that grows by one page, below its limit. -/
theorem end_within_limit_grown : ∃ t, session mappedPager Admitted 0x300000 0x388000 0x389000
    (fun _ => 0) () [.alloc 32748, .alloc 8] = some t ∧ t.heap.heap.endAddress = 0x389000 ∧
    WithinLimit t.heap.heap := by
  have ran : (session mappedPager Admitted 0x300000 0x388000 0x389000 (fun _ => 0) ()
      [.alloc 32748, .alloc 8]).map (fun t => t.heap.heap.endAddress) = some 0x389000 := by
    decide +kernel
  obtain ⟨t, ran, stop⟩ := Option.map_eq_some_iff.mp ran
  obtain ⟨m', heap, created, run⟩ := session_run ran
  have ok : CreateOk 0x300000 0x388000 0x389000 := ⟨by decide, by decide, by decide, by decide⟩
  exact ⟨t, ran, stop, (end_within_limit ok created run).1⟩

/-- The same heap with no room to grow ends above its limit after the second request. -/
theorem alloc_passes_limit : ∃ m' heap t, CreateOk 0x300000 0x388000 0x388000 ∧
    createHeap 0x300000 0x388000 0x388000 (fun _ => 0) = some (m', heap) ∧
    GuardedRun (Step mappedPager) NoWrap (newSession heap m' ()) [.alloc 32748, .alloc 8] t ∧
    t.heap.heap.maxAddress = 0x388000 ∧ t.heap.heap.endAddress = 0x389000 ∧
    ¬ WithinLimit t.heap.heap := by
  have ran : (session mappedPager NoWrap 0x300000 0x388000 0x388000 (fun _ => 0) ()
      [.alloc 32748, .alloc 8]).map (fun t => decide (t.heap.heap.maxAddress = 0x388000 ∧
        t.heap.heap.endAddress = 0x389000 ∧ ¬ WithinLimit t.heap.heap)) = some true := by
    decide +kernel
  obtain ⟨t, ran, passed⟩ := Option.map_eq_some_iff.mp ran
  obtain ⟨m', heap, created, run⟩ := session_run ran
  exact ⟨m', heap, t, ⟨by decide, by decide, by decide, by decide⟩, created, run,
    of_decide_eq_true passed⟩

end BlessOS.Guarantees.HeapLimit
