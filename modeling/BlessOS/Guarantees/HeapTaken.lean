import BlessOS.Guarantees.HeapAligned
import BlessOS.Guarantees.HeapOversize

/-!
# The hole a block is made in

Which hole `alloc` takes is known before the call, with and without alignment: the first that
fits, or else the highest one, which grows until it fits. Where the block begins in its hole
depends on the hole's address alone.
-/

set_option autoImplicit false

namespace BlessOS.Guarantees.HeapTaken
open BlessOS.Lib.ByteMemory
open BlessOS.Source BlessOS.Source.OrderedArray BlessOS.Source.Kheap
open BlessOS.Guarantees.OrderedArrayItems BlessOS.Guarantees.HeapLayout
open BlessOS.Guarantees.HeapInvariant BlessOS.Guarantees.HeapBounds BlessOS.Guarantees.HeapAlloc
open BlessOS.Guarantees.HeapGrow BlessOS.Guarantees.HeapWellFormed
open BlessOS.Guarantees.HeapAligned BlessOS.Guarantees.HeapOversize

/-! ## Where a block begins in its hole -/

section Pointer
variable {ε : Type} {s u : HeapState ε} {n a : U32} {align : U8} {i : Nat}

/-- The body of the block that is made in the hole at `pos`. -/
def bodyIn (align : U8) (pos : U32) : U32 :=
  (if align ≠ 0 ∧ pos &&& ~~~0xfffff000 ≠ 0 then pos + 0x1000 - (pos &&& 0xfff) - headerBytes
    else pos) + headerBytes

theorem carve_pointer (ran : carve n align i s = some (a, u)) :
    a = bodyIn align (s.heap.index.item s.mem i) := by
  unfold carve at ran
  simp only [Option.bind_eq_bind, Option.bind_eq_some_iff, Option.some.injEq, Prod.mk.injEq] at ran
  obtain ⟨t, -, pointer, -⟩ := ran
  rw [← pointer, bodyIn, splitAligned]
  split
  · rfl
  · rfl

end Pointer

/-! ## The hole a block is made in -/

section Growth
variable {ε : Type} {pager : Pager ε} {s t u : HeapState ε} {n a : U32} {align : U8} {i : Nat}
  {cells : List Cell} {c d : Cell}

/-- While the heap grows for a request, its highest hole is the only one that may come to
be large enough. -/
structure Growing (align : U8) (n : U32) (s : HeapState ε) (c : Cell) : Prop where
  bounds : PageBounds s.heap
  listed : c.base ∈ items s.heap.index s.mem
  size : blockSize s.mem c.base = c.size
  wide : 20 ≤ c.len
  low : s.heap.startAddress.toNat ≤ c.lo
  high : c.hi ≤ s.heap.endAddress.toNat
  area : s.heap.index.array.toNat + 4 * s.heap.index.size.toNat ≤ c.lo
  others : ∀ x ∈ items s.heap.index s.mem, x ≠ c.base →
    x.toNat + 12 ≤ c.lo ∧ fits s.mem (needed n) align x = false

theorem Growing.found (growing : Growing align n s c)
    (found : findSmallestHole (needed n) align s = some i) :
    s.heap.index.item s.mem i = c.base := by
  obtain ⟨inside, fitting, -⟩ := findSmallestHole_first found
  by_contra other
  have small := (growing.others _ (mem_items.mpr ⟨i, inside, rfl⟩) other).2
  rw [fitting] at small
  cases small

theorem Growing.highest (growing : Growing align n s c) {m : Mem}
    (same : items s.heap.index m = items s.heap.index s.mem) :
    ∃ i, highestHole s.heap.index m = some i ∧ s.heap.index.item m i = c.base := by
  have listed := growing.listed
  have area := growing.area
  obtain ⟨j, used, -⟩ := mem_items.mp listed
  rw [← same] at listed
  cases found : highestHole s.heap.index m with
  | none =>
    have zero := highestHole_none found c.base listed
    have lo : c.lo = 0 := congrArg BitVec.toNat zero
    omega
  | some i =>
    obtain ⟨inside, most⟩ := highestHole_some found
    refine ⟨i, rfl, ?_⟩
    by_contra other
    have entry : s.heap.index.item m i ∈ items s.heap.index s.mem :=
      same ▸ mem_items.mpr ⟨i, inside, rfl⟩
    have below := (growing.others _ entry other).1
    have above := BitVec.le_def.mp (most c.base listed)
    unfold Cell.lo at below
    omega

/-- The test of a hole reads its size alone. -/
theorem fits_congr {m m' : Mem} {h size : U32} (same : blockSize m' h = blockSize m h) :
    fits m' size align h = fits m size align h := by
  unfold fits
  rw [same]

section Turn

variable (noWrap : n.toNat + 20 < 2 ^ 32)
  (space : s.heap.startAddress.toNat + grownLength s n < 2 ^ 32)

include noWrap space in
/-- One growth gives all new pages to the hole. -/
theorem Growing.grow (pager : Pager ε) (growing : Growing align n s c) :
    ∃ u d, growHeap pager (needed n) s = some u ∧ Growing align n u d ∧ d.base = c.base ∧
      u.heap.startAddress = s.heap.startAddress ∧
      u.heap.endAddress.toNat = s.heap.startAddress.toNat + grownLength s n ∧
      s.heap.endAddress.toNat + d.len = u.heap.endAddress.toNat + c.len := by
  obtain ⟨bounds, listed, size, wide, low, high, area, others⟩ := growing
  have proper := Nat.le_of_lt bounds.proper
  obtain ⟨t, expanded⟩ := expanded_spec pager proper (Or.inl bounds.endPage) noWrap space
  have index := expanded.index
  have small := t.heap.endAddress.isLt
  have added := expanded.added proper
  have inner : c.lo + 20 ≤ s.heap.endAddress.toNat := by
    unfold Cell.hi at high
    omega
  have fits : Fits s.heap.index.array s.heap.index.size.toNat := by
    unfold Fits
    omega
  have same : items s.heap.index t.mem = items s.heap.index s.mem :=
    items_congr fits (expanded.agree.on (Or.inl (by omega)))
  obtain ⟨i, found, header⟩ := highest ⟨bounds, listed, size, wide, low, high, area, others⟩ same
  rw [← index] at found header
  have length : blockSize t.mem c.base = c.size := by
    unfold Cell.lo at inner
    rw [blockSize_congr (expanded.agree.on (Or.inl (by omega))) (by omega), size]
  have grew := growHeap_some expanded.expanded found header length
  have len := grownHole_len high added
  have base : (grownHole s t c).base = c.base := rfl
  obtain ⟨top, written, resized⟩ := grownHole_resized high added wide
  generalize grownHole s t c = d at grew len base top written resized
  have lo : d.lo = c.lo := congrArg BitVec.toNat base
  have kept : items t.heap.index (resizeCell d t.mem) = items s.heap.index s.mem := by
    rw [index, ← same]
    exact items_congr fits (written.on (Or.inl (by omega)))
  refine ⟨_, d, grew, ⟨expanded.pages_grown bounds, ?_, ?_, by omega, ?_, top, ?_, ?_⟩, base,
    expanded.start, expanded.stop, ?_⟩
  · rw [base]
    exact kept.symm ▸ listed
  · rw [base]
    exact resized
  · change t.heap.startAddress.toNat ≤ d.lo
    rw [expanded.start, lo]
    exact low
  · change t.heap.index.array.toNat + 4 * t.heap.index.size.toNat ≤ d.lo
    rw [index, lo]
    exact area
  · intro x entry other
    have old : x ∈ items s.heap.index s.mem := kept ▸ entry
    obtain ⟨below, small⟩ := others x old (base ▸ other)
    refine ⟨lo ▸ below, ?_⟩
    have bytes : blockSize (resizeCell d t.mem) x = blockSize s.mem x := by
      rw [blockSize_congr (written.on (Or.inl (by omega))) (by omega),
        blockSize_congr (expanded.agree.on (Or.inl (by omega))) (by omega)]
    exact (fits_congr bytes).trans small
  · change s.heap.endAddress.toNat + d.len = t.heap.endAddress.toNat + c.len
    omega

end Turn

/-- A hole that is large enough wherever in its page it begins. -/
def Enough (align : U8) (n : U32) (c : Cell) : Prop :=
  n.toNat + 20 ≤ c.len ∧ (align ≠ 0 → n.toNat + 20 + 0x1000 ≤ c.len ∧ c.len < 2 ^ 31)

theorem fits_of_enough {m : Mem} {h : U32} (noWrap : n.toNat + 20 < 2 ^ 32)
    (size : blockSize m h = c.size) (enough : Enough align n c) :
    fits m (needed n) align h = true := by
  have need := needed_toNat noWrap
  obtain ⟨plain, roomy⟩ := enough
  unfold Cell.len at plain roomy
  unfold fits
  rw [size]
  by_cases aligned : align ≠ 0
  · obtain ⟨large, small⟩ := roomy aligned
    rw [if_pos aligned]
    dsimp only
    have less : (if (h + headerBytes) &&& ~~~(0xfffff000 : U32) ≠ 0 then
        0x1000 - (h + headerBytes) % 0x1000 else 0 : U32).toNat ≤ 0x1000 := by
      split
      · have rest : ((h + headerBytes) % 0x1000).toNat < 0x1000 := by
          rw [BitVec.toNat_umod]
          exact Nat.mod_lt _ (by decide)
        bv_omega
      · exact Nat.zero_le _
    generalize (if (h + headerBytes) &&& ~~~(0xfffff000 : U32) ≠ 0 then
      0x1000 - (h + headerBytes) % 0x1000 else 0 : U32) = skip at less ⊢
    rw [BitVec.sle_iff_toInt_le, BitVec.toInt_eq_toNat_of_lt (by omega),
      BitVec.toInt_eq_toNat_of_lt (by bv_omega)]
    bv_omega
  · rw [if_neg aligned, decide_eq_true_eq, BitVec.le_def]
    omega

/-- A call of `alloc` makes a block in the hole that is found, or grows the heap and calls
itself. -/
theorem allocFrom_cases {depth : Nat} (ran : allocFrom pager n align depth s = some (a, u)) :
    (∃ i, findSmallestHole (needed n) align s = some i ∧ carve n align i s = some (a, u)) ∨
      findSmallestHole (needed n) align s = none ∧ ∃ t left,
        growHeap pager (needed n) s = some t ∧ allocFrom pager n align left t = some (a, u) := by
  cases depth with
  | zero => cases ran
  | succ left =>
    unfold allocFrom at ran
    unfold needed
    split at ran
    · next misses =>
      obtain ⟨t, grew, later⟩ := Option.bind_eq_some_iff.mp ran
      exact Or.inr ⟨misses, t, left, grew, later⟩
    · next i found => exact Or.inl ⟨i, found, ran⟩

theorem Growing.pointer_of_enough {depth : Nat} (growing : Growing align n s c)
    (noWrap : n.toNat + 20 < 2 ^ 32) (enough : Enough align n c)
    (ran : allocFrom pager n align depth s = some (a, u)) : a = bodyIn align c.base := by
  rcases allocFrom_cases ran with ⟨i, found, carved⟩ | ⟨misses, -⟩
  · rw [← growing.found found]
    exact carve_pointer carved
  · have small := findSmallestHole_misses misses c.base growing.listed
    rw [fits_of_enough noWrap growing.size enough] at small
    cases small

/-- The address space has room for the growth. A page-aligned block may need a second one,
and its hole is measured in a signed word. -/
def GrowthRoom (align : U8) (n : U32) (s : HeapState ε) : Prop :=
  if align = 0 then s.heap.startAddress.toNat + grownLength s n < 2 ^ 32
  else s.length.toNat + 2 * (n.toNat + 20 + 0x1000) < 2 ^ 31 ∧
    s.heap.startAddress.toNat + (s.length.toNat + 2 * (n.toNat + 20 + 0x1000)) < 2 ^ 32

/-- After the first growth there is room for a block, and after the second for a
page-aligned one. -/
theorem Growing.pointer {depth : Nat} (growing : Growing align n t c)
    (start : t.heap.startAddress = s.heap.startAddress)
    (stop : t.heap.endAddress.toNat = s.heap.startAddress.toNat + grownLength s n)
    (plain : n.toNat + 20 ≤ c.len) (noWrap : n.toNat + 20 < 2 ^ 32) (room : GrowthRoom align n s)
    (ran : allocFrom pager n align depth t = some (a, u)) : a = bodyIn align c.base := by
  by_cases plainly : align = 0
  · exact growing.pointer_of_enough noWrap ⟨plain, fun aligned => absurd plainly aligned⟩ ran
  rw [GrowthRoom, if_neg plainly] at room
  rcases allocFrom_cases ran with ⟨i, found, carved⟩ | ⟨-, v, left, grew, later⟩
  · rw [← growing.found found]
    exact carve_pointer carved
  have first : grownLength s n ≤ s.length.toNat + (n.toNat + 20) + 0x1000 := roundedLength_le _
  have second : grownLength t n ≤ t.length.toNat + (n.toNat + 20) + 0x1000 := roundedLength_le _
  have length := length_toNat growing.bounds
  have longer := Expanded.grownLength_ge (n := n) (Nat.le_of_lt growing.bounds.proper)
  obtain ⟨v', d, grew', again, base, start', stop', len⟩ :=
    growing.grow noWrap (by rw [start] at length ⊢; omega) pager
  cases grew.symm.trans grew'
  -- both ends are ends of pages
  have endPage := growing.bounds.endPage
  have endPage' := again.bounds.endPage
  have low := again.low
  have high := again.high
  rw [← base]
  refine again.pointer_of_enough noWrap ⟨by omega, fun _ => ⟨by omega, ?_⟩⟩ later
  rw [start] at length longer stop'
  rw [start', start] at low
  unfold Cell.hi at high
  omega

end Growth

end BlessOS.Guarantees.HeapTaken
