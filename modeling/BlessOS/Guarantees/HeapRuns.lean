import BlessOS.Guarantees.HeapFree
import BlessOS.Lib.Transition

/-!
# Runs of the heap

A session is a heap and the requests it has served and not taken back. `Admitted`
is the condition on a call, in the state before it, under which the heap stays
sound; `session_inv` is what holds in every state such calls lead to from
`create_heap`.
-/

set_option autoImplicit false

namespace BlessOS.Guarantees.HeapRuns
open BlessOS.Lib.ByteMemory BlessOS.Lib.Tiling BlessOS.Lib.Transition
open BlessOS.Source BlessOS.Source.OrderedArray BlessOS.Source.Kheap
open BlessOS.Guarantees.OrderedArrayItems BlessOS.Guarantees.HeapLayout
open BlessOS.Guarantees.HeapInvariant BlessOS.Guarantees.HeapBounds BlessOS.Guarantees.HeapAlloc
open BlessOS.Guarantees.HeapGrow BlessOS.Guarantees.HeapUnify BlessOS.Guarantees.HeapFree

variable {ε : Type}

/-! ## `create_heap` -/

/-- The arguments that `create_heap` asserts or needs to place an index and a hole. -/
structure CreateOk (start stop max : U32) : Prop where
  startPage : start.toNat % 0x1000 = 0
  stopPage : stop.toNat % 0x1000 = 0
  room : start.toNat + 0x80000 < stop.toNat
  limit : stop ≤ max

theorem and_lowMask (x : U32) : (x &&& ~~~(0xfffff000 : U32)).toNat = x.toNat % 0x1000 := by
  have mask : ~~~(0xfffff000 : U32) = 0xfff := by decide
  rw [mask, BitVec.toNat_and]
  exact Nat.and_two_pow_sub_one_eq_mod x.toNat 12

theorem insertHole_map (s : HeapState ε) (h : U32) :
    (s.insertHole h).map (fun t => (t.mem, t.heap)) =
      (insertOrderedArray h s.heap.index s.mem).bind fun inserted =>
        some (inserted.2, { s.heap with index := inserted.1 }) := by
  unfold HeapState.insertHole
  cases insertOrderedArray h s.heap.index s.mem <;> rfl

/-- The hole that makes up a new heap. -/
def wholeHeap (start stop : U32) : Cell :=
  { base := start + 4 * heapIndexSize, size := stop - (start + 4 * heapIndexSize), used := none }

section Create

variable {start stop max : U32}

theorem wholeHeap_bounds (room : start.toNat + 0x80000 + 20 ≤ stop.toNat) :
    (wholeHeap start stop).lo = start.toNat + 0x80000 ∧ (wholeHeap start stop).hi = stop.toNat ∧
      20 ≤ (wholeHeap start stop).len := by
  have base : (start + 4 * heapIndexSize).toNat = start.toNat + 0x80000 := by
    unfold heapIndexSize
    bv_omega
  have size : (stop - (start + 4 * heapIndexSize)).toNat = stop.toNat - (start.toNat + 0x80000) := by
    bv_omega
  unfold Cell.hi Cell.lo Cell.len wholeHeap
  dsimp only
  omega

/-- A new heap is one hole, which the index lists. -/
theorem createHeap_layout (startPage : start.toNat % 0x1000 = 0)
    (room : start.toNat + 0x80000 + 20 ≤ stop.toNat) (max : U32) (m : Mem) :
    ∃ m' heap, createHeap start stop max m = some (m', heap) ∧
      Layout heap m' [wholeHeap start stop] ∧ Indexed heap m' (holes [wholeHeap start stop]) ∧
      heap.endAddress = stop ∧ heap.maxAddress = max ∧
      heap.startAddress = start + 4 * heapIndexSize := by
  obtain ⟨lo, hi, len⟩ := wholeHeap_bounds room
  have small := stop.isLt
  generalize cell : wholeHeap start stop = c at lo hi len ⊢
  have used : c.used = none := by rw [← cell]; rfl
  have base : start + 4 * heapIndexSize = c.base := by rw [← cell]; rfl
  have flag : c.flag = 1 := by unfold Cell.flag; rw [if_pos used]
  have bound : c.base.toNat + 12 ≤ 2 ^ 32 := by
    unfold Cell.hi Cell.lo at hi
    omega
  let placed := placeOrderedArray start heapIndexSize (some headerLessThan) m
  let heap : Heap := { index := placed.1, startAddress := c.base, endAddress := stop, maxAddress := max }
  let m₁ := writeHeader placed.2 c.base 1 c.size
  have laid : Layout heap m₁ [c] := by
    refine ⟨⟨rfl, hi⟩, fun d member => ?_⟩
    rw [List.mem_singleton.mp member]
    have header : HeaderOk m₁ c := by
      have written := writeHeader_ok (m := placed.2) (c := c) bound
      rw [flag] at written
      exact written
    refine ⟨by omega, fun k block => ?_, header, fun applies => ?_⟩
    · rw [used] at block
      cases block
    · exact absurd hi (applies.resolve_left fun block => block used)
  have listed : Indexed heap m₁ [] := by
    refine ⟨rfl, ?_, ?_, Nat.zero_le _, List.Perm.refl _⟩
    · change start.toNat + 4 * 0x20000 ≤ c.base.toNat
      unfold Cell.lo at lo
      omega
    · change c.base.toNat + 4 ≤ 2 ^ 32
      omega
  obtain ⟨m₂, inserted, listed', -, agree⟩ := insertHole_spec
    (s := { mem := m₁, paging := (), heap := heap }) listed (Nat.zero_lt_succ _) c.base
  have final : Layout heap m₂ [c] := laid.frame (agree.on (Or.inr listed.area))
  have entry : holes [c] = [c.base] := holes_cons_hole used
  refine ⟨m₂, resize heap 1, ?_, ⟨final.tiles, final.ok⟩, entry ▸ listed', rfl, rfl, base.symm⟩
  have aligned : ¬ (start + 4 * heapIndexSize) &&& ~~~(0xfffff000 : U32) ≠ 0 := by
    have low := and_lowMask (start + 4 * heapIndexSize)
    rw [base] at low ⊢
    unfold Cell.lo at lo
    bv_omega
  have size : stop - c.base = c.size := by rw [← base, ← cell]; rfl
  unfold createHeap
  dsimp only
  rw [if_neg aligned, base, size]
  refine (insertHole_map { mem := m₁, paging := (), heap := heap } c.base).symm.trans ?_
  rw [inserted]
  rfl

theorem createHeap_spec (ok : CreateOk start stop max) (m : Mem) :
    ∃ m' heap, createHeap start stop max m = some (m', heap) ∧
      HeapInv heap m' [wholeHeap start stop] ∧ heap.endAddress = stop ∧ heap.maxAddress = max ∧
      heap.startAddress = start + 4 * heapIndexSize := by
  obtain ⟨startPage, stopPage, room, -⟩ := ok
  have space : start.toNat + 0x80000 + 20 ≤ stop.toNat := by omega
  obtain ⟨lo, -, -⟩ := wholeHeap_bounds space
  obtain ⟨m', heap, created, layout, indexed, ends, limit, begins⟩ :=
    createHeap_layout startPage space max m
  have base : heap.startAddress.toNat = start.toNat + 0x80000 := by
    rw [begins]
    exact lo
  refine ⟨m', heap, created, ⟨layout, indexed, List.isChain_singleton _, ?_, ?_, ?_⟩, ends, limit,
    begins⟩
  · omega
  · rw [ends]
    exact stopPage
  · rw [ends]
    omega

end Create

/-! ## Sessions -/

inductive Call where
  | alloc (size : U32)
  | free (p : U32)
  deriving DecidableEq, Repr

/-- A heap, and the pointers that are live with the sizes that were requested. -/
structure Session (ε : Type) where
  heap : HeapState ε
  live : List (U32 × U32)

/-- A call and its effect; `none` when it does not return. -/
def call (pager : Pager ε) (s : Session ε) : Call → Option (Session ε)
  | .alloc n =>
    (alloc pager n 0 s.heap).map fun result =>
      { heap := result.2, live := (result.1, n) :: s.live }
  | .free p =>
    (free pager p s.heap).map fun heap =>
      { heap := heap, live := s.live.filter fun block => block.1 ≠ p }

def Step (pager : Pager ε) (s : Session ε) (a : Call) (t : Session ε) : Prop :=
  call pager s a = some t

/-- The calls a caller may make: sizes do not wrap, the heap need not grow above its
limit, and only live pointers are freed. -/
def Legal (s : Session ε) : Call → Prop
  | .alloc n => n.toNat + 20 < 2 ^ 32 ∧ (findSmallestHole (needed n) 0 s.heap = none →
      s.heap.heap.startAddress.toNat + grownLength s.heap n ≤ s.heap.heap.maxAddress.toNat)
  | .free p => p ∈ s.live.map Prod.fst

/-- Legal calls for which the heap need not grow at all. -/
def Served (s : Session ε) : Call → Prop
  | .alloc n => n.toNat + 20 < 2 ^ 32 ∧ findSmallestHole (needed n) 0 s.heap ≠ none
  | .free p => p ∈ s.live.map Prod.fst

theorem Served.legal {s : Session ε} {a : Call} (served : Served s a) : Legal s a := by
  cases a with
  | alloc n => exact ⟨served.1, fun misses => absurd misses served.2⟩
  | free p => exact served

/-- The state of the heap is such that the call keeps it sound. -/
def Sound (s : Session ε) : Call → Prop
  | .alloc n => findSmallestHole (needed n) 0 s.heap = none → LastHoleAtEnd s.heap
  | .free p => FreeOk s.heap p

def Admitted (s : Session ε) (a : Call) : Prop := Legal s a ∧ Sound s a

instance (s : Session ε) : DecidablePred (Legal s)
  | .alloc n => inferInstanceAs (Decidable (n.toNat + 20 < 2 ^ 32 ∧ (_ → _)))
  | .free p => inferInstanceAs (Decidable (p ∈ s.live.map Prod.fst))

instance (s : Session ε) : DecidablePred (Served s)
  | .alloc n => inferInstanceAs (Decidable (n.toNat + 20 < 2 ^ 32 ∧ _ ≠ none))
  | .free p => inferInstanceAs (Decidable (p ∈ s.live.map Prod.fst))

instance (s : Session ε) : DecidablePred (Sound s)
  | .alloc n => inferInstanceAs (Decidable (findSmallestHole (needed n) 0 s.heap = none → _))
  | .free p => inferInstanceAs (Decidable (FreeOk s.heap p))

instance (s : Session ε) : DecidablePred (Admitted s) :=
  fun a => inferInstanceAs (Decidable (Legal s a ∧ Sound s a))

structure SessionInv (s : Session ε) (cells : List Cell) : Prop where
  inv : HeapInv s.heap.heap s.heap.mem cells
  live : s.live.Perm (payloads cells)
  limit : s.heap.heap.endAddress.toNat ≤ s.heap.heap.maxAddress.toNat

/-- Where a heap may lie. -/
def SameRange (s t : Session ε) : Prop :=
  t.heap.heap.startAddress = s.heap.heap.startAddress ∧
    t.heap.heap.maxAddress = s.heap.heap.maxAddress

variable {pager : Pager ε} {s t : Session ε} {cells before after : List Cell} {c : Cell} {n p : U32}

theorem mem_payloads {block : U32 × U32} : block ∈ payloads cells ↔
    ∃ c ∈ cells, c.used = some block.2 ∧ block.1 = c.base + headerBytes := by
  simp only [payloads, List.mem_filterMap, Cell.payload, Option.map_eq_some_iff]
  constructor
  · rintro ⟨c, member, n, used, rfl⟩
    exact ⟨c, member, used, rfl⟩
  · rintro ⟨c, member, used, pointer⟩
    exact ⟨c, member, block.2, used, by rw [← pointer]⟩

/-- Taking a pointer out of the live ones takes out its block and no other. -/
theorem payloads_filter {heap : Heap} {m : Mem} (layout : Layout heap m (before ++ c :: after))
    (used : c.used = some n) :
    ((payloads (before ++ c :: after)).filter fun block => block.1 ≠ c.base + headerBytes) =
      payloads before ++ payloads after := by
  obtain ⟨-, behind, across⟩ := List.pairwise_append.mp layout.bases_ne
  have front : ∀ x ∈ before, x.base ≠ c.base := fun x early => across x early c List.mem_cons_self
  have back : ∀ x ∈ after, x.base ≠ c.base := fun x late =>
    ((List.pairwise_cons.mp behind).1 x late).symm
  have others : ∀ row : List Cell, (∀ x ∈ row, x.base ≠ c.base) →
      (payloads row).filter (fun block => block.1 ≠ c.base + headerBytes) = payloads row := by
    intro row apart
    rw [List.filter_eq_self]
    intro block member
    obtain ⟨x, present, -, pointer⟩ := mem_payloads.mp member
    rw [decide_eq_true_eq, pointer]
    exact fun same => apart x present ((BitVec.add_left_inj _).mp same)
  rw [payloads_append, payloads_cons_block used, List.filter_append, List.filter_cons_of_neg (by simp),
    others before front, others after back]

/-- `alloc` on a request that a hole serves. -/
theorem call_alloc_served (pager : Pager ε) (held : SessionInv s cells) {i : Nat}
    (noWrap : n.toNat + 20 < 2 ^ 32) (found : findSmallestHole (needed n) 0 s.heap = some i) :
    ∃ t cells', call pager s (.alloc n) = some t ∧ SessionInv t cells' ∧ SameRange s t ∧
      t.heap.heap.endAddress = s.heap.heap.endAddress ∧ t.heap.paging = s.heap.paging ∧
      (SortedBySize s.heap.heap s.heap.mem → SortedBySize t.heap.heap t.heap.mem) := by
  obtain ⟨inv, live, limit⟩ := held
  obtain ⟨p, m, size, cells', served, inv', perm, sorted⟩ := alloc_served pager inv noWrap found
  let u : HeapState ε := { s.heap with mem := m, heap := resize s.heap.heap size }
  refine ⟨{ heap := u, live := (p, n) :: s.live }, cells', ?_,
    ⟨inv', (live.cons _).trans perm.symm, limit⟩, ⟨rfl, rfl⟩, rfl, rfl, sorted⟩
  rw [call, served]
  rfl

/-- `alloc` on a request for which the heap grows. -/
theorem call_alloc_grown (pager : Pager ε) (held : SessionInv s cells)
    (noWrap : n.toNat + 20 < 2 ^ 32) (misses : findSmallestHole (needed n) 0 s.heap = none)
    (space : s.heap.heap.startAddress.toNat + grownLength s.heap n < 2 ^ 32)
    (last : LastHoleAtEnd s.heap) :
    ∃ t v cells', call pager s (.alloc n) = some t ∧ Expanded pager s.heap n v ∧
      HeapInv t.heap.heap t.heap.mem cells' ∧ t.live.Perm (payloads cells') ∧ SameRange s t ∧
      t.heap.heap.endAddress = v.heap.endAddress ∧ t.heap.paging = v.paging := by
  obtain ⟨inv, live, limit⟩ := held
  obtain ⟨p, v, u, cells', expanded, served, inv', perm, paging, size, heap⟩ :=
    alloc_grown pager inv noWrap misses space last
  refine ⟨{ heap := u, live := (p, n) :: s.live }, v, cells', ?_, expanded, inv',
    (live.cons _).trans perm.symm, ⟨?_, ?_⟩, ?_, paging⟩
  · rw [call, served]
    rfl
  · rw [heap]
    exact expanded.start
  · rw [heap]
    change v.heap.maxAddress = _
    rw [expanded.heap]
  · rw [heap]
    rfl

/-- `alloc` on an admitted request. -/
theorem call_alloc (pager : Pager ε) (held : SessionInv s cells)
    (admitted : Admitted s (.alloc n)) :
    ∃ t cells', call pager s (.alloc n) = some t ∧ SessionInv t cells' ∧ SameRange s t := by
  obtain ⟨⟨noWrap, within⟩, last⟩ := admitted
  cases found : findSmallestHole (needed n) 0 s.heap with
  | some i =>
    obtain ⟨t, cells', served, held', range, -⟩ := call_alloc_served pager held noWrap found
    exact ⟨t, cells', served, held', range⟩
  | none =>
    have room := within found
    have small := s.heap.heap.maxAddress.isLt
    obtain ⟨t, v, cells', served, expanded, inv', live, range, stop, -⟩ :=
      call_alloc_grown pager held noWrap found (by omega) (last found)
    refine ⟨t, cells', served, ⟨inv', live, ?_⟩, range⟩
    rw [stop, range.2, expanded.stop]
    exact room

/-- Freeing never moves the end of the heap above the limit. -/
theorem end_le_of_moved {s u : HeapState ε} (pages : PageBounds s.heap)
    (limit : s.heap.endAddress.toNat ≤ s.heap.maxAddress.toNat) (ok : FreeOk s p)
    (moved : EndMoved pager s p u) : u.heap.endAddress.toNat ≤ s.heap.maxAddress.toNat := by
  unfold EndMoved at moved
  split at moved
  · next ends =>
    obtain ⟨stop, inside, -⟩ := moved
    have least := ok.least ends
    have small := s.heap.maxAddress.isLt
    have length := length_toNat pages
    have proper := pages.proper
    obtain ⟨size, -, -, -, bound⟩ := contractedSize_spec inside (length_mod pages)
    rw [stop, BitVec.toNat_add, size]
    omega
  · rw [moved.1]
    exact limit

/-- `free` on an admitted pointer. -/
theorem call_free (pager : Pager ε) (held : SessionInv s cells)
    (admitted : Admitted s (.free p)) :
    ∃ t cells', call pager s (.free p) = some t ∧ SessionInv t cells' ∧ SameRange s t ∧
      (SortedBySize s.heap.heap s.heap.mem → FreeSorted s.heap p →
        SortedBySize t.heap.heap t.heap.mem) ∧ EndMoved pager s.heap p t.heap := by
  obtain ⟨inv, live, limit⟩ := held
  obtain ⟨listed, ok⟩ := admitted
  obtain ⟨⟨q, n⟩, member, rfl⟩ := List.mem_map.mp listed
  obtain ⟨c, present, used, pointer⟩ := mem_payloads.mp (live.subset member)
  dsimp only at used pointer ok
  obtain ⟨before, after, rfl⟩ := List.append_of_mem present
  obtain ⟨u, cells', freed, inv', pay, start, most, moved, sorted⟩ :=
    free_spec pager inv (by rw [used]; simp) pointer ok
  refine ⟨{ heap := u, live := s.live.filter fun block => block.1 ≠ q }, cells',
    by rw [call, freed]; rfl, ⟨inv', ?_, ?_⟩, ⟨start, most⟩, sorted, moved⟩
  · rw [pay, ← payloads_filter inv.layout used, ← pointer]
    exact live.filter _
  · change u.heap.endAddress.toNat ≤ u.heap.maxAddress.toNat
    rw [most]
    exact end_le_of_moved inv.pages limit ok moved

/-- Every admitted call returns, and keeps the heap sound. -/
theorem call_spec (pager : Pager ε) (held : SessionInv s cells) {a : Call} (ok : Admitted s a) :
    ∃ t cells', call pager s a = some t ∧ SessionInv t cells' ∧ SameRange s t := by
  cases a with
  | alloc n => exact call_alloc pager held ok
  | free p =>
    obtain ⟨t, cells', returned, held', range, -⟩ := call_free pager held ok
    exact ⟨t, cells', returned, held', range⟩

/-! ## Runs -/

/-- A new session, on the heap that `create_heap` made. -/
def newSession (heap : Heap) (m : Mem) (paging : ε) : Session ε :=
  { heap := { mem := m, paging := paging, heap := heap }, live := [] }

theorem newSession_inv {start stop max : U32} {m m' : Mem} {heap : Heap}
    (ok : CreateOk start stop max) (created : createHeap start stop max m = some (m', heap))
    (paging : ε) : SessionInv (newSession heap m' paging) [wholeHeap start stop] := by
  obtain ⟨m₁, heap₁, created₁, inv, stop₁, max₁, -⟩ := createHeap_spec ok m
  rw [created₁] at created
  cases created
  refine ⟨inv, ?_, ?_⟩
  · change List.Perm [] _
    rw [payloads_cons_hole rfl]
    exact List.Perm.refl _
  · change heap.endAddress.toNat ≤ heap.maxAddress.toNat
    rw [stop₁, max₁]
    exact ok.limit

/-- What holds of every session that admitted calls lead to. -/
theorem session_inv {start stop max : U32} {m m' : Mem} {heap : Heap} {paging : ε}
    (ok : CreateOk start stop max) (created : createHeap start stop max m = some (m', heap))
    {calls : List Call}
    (run : GuardedRun (Step pager) Admitted (newSession heap m' paging) calls t) :
    ∃ cells, SessionInv t cells := by
  refine run.invariant (fun s => ∃ cells, SessionInv s cells) ?_ ⟨_, newSession_inv ok created paging⟩
  rintro s a t ⟨cells, held⟩ guard next
  obtain ⟨u, cells', returned, held', -⟩ := call_spec pager held guard
  have same : u = t := Option.some.inj (returned.symm.trans next)
  exact ⟨cells', same ▸ held'⟩

/-- Calls on a new heap, one after the other, while the guard admits them. -/
def session (pager : Pager ε) (ok : Session ε → Call → Prop) [∀ s, DecidablePred (ok s)]
    (start stop max : U32) (m : Mem) (paging : ε) (calls : List Call) : Option (Session ε) :=
  (createHeap start stop max m).bind fun created =>
    calls.foldlM (fun s a => if ok s a then call pager s a else none)
      (newSession created.2 created.1 paging)

theorem session_run {ok : Session ε → Call → Prop} [∀ s, DecidablePred (ok s)]
    {start stop max : U32} {m : Mem} {paging : ε} {calls : List Call}
    (ran : session pager ok start stop max m paging calls = some t) :
    ∃ m' heap, createHeap start stop max m = some (m', heap) ∧
      GuardedRun (Step pager) ok (newSession heap m' paging) calls t := by
  obtain ⟨⟨m', heap⟩, created, ran⟩ := Option.bind_eq_some_iff.mp ran
  refine ⟨m', heap, created, GuardedRun.of_foldlM (fun s a u next => ?_) calls ran⟩
  split at next
  · next guard => exact ⟨guard, next⟩
  · cases next

/-- A pager for which every page is mapped. -/
def mappedPager : Pager Unit where
  getPageAddr _ _ := 0x1000
  getFreePage _ := (0, ())
  putPage page _ _ := (page, ())
  removePage _ _ := ()
  behind _ _ := 0

end BlessOS.Guarantees.HeapRuns
