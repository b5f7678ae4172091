import BlessOS.Guarantees.HeapFreed

/-!
# What `free` reads

`freeReads` lists the header and footer fields that `free` reads, in the order of the
source. What `free` does depends on these fields, the index and the paging only. The
fields of the neighbours are read without a test for the ends of the heap, so they
lie inside of it when the block has a neighbour on both sides.
-/

set_option autoImplicit false

namespace BlessOS.Guarantees.HeapProbes
open BlessOS.Lib.ByteMemory BlessOS.Lib.Tiling
open BlessOS.Source BlessOS.Source.OrderedArray BlessOS.Source.Kheap
open BlessOS.Guarantees.OrderedArrayItems BlessOS.Guarantees.HeapLayout
open BlessOS.Guarantees.HeapInvariant BlessOS.Guarantees.HeapBounds BlessOS.Guarantees.HeapGrow
open BlessOS.Guarantees.HeapUnify BlessOS.Guarantees.HeapFree BlessOS.Guarantees.HeapWellFormed
open BlessOS.Guarantees.HeapFreed

/-! ## The fields that are read -/

/-- A field of a header or a footer. -/
structure Field where
  address : U32
  bytes : Nat
  deriving DecidableEq, Repr

/-- The `magic` of a header or a footer. -/
def magicField (header : U32) : Field := { address := header, bytes := 4 }
def isHoleField (header : U32) : Field := { address := header + 4, bytes := 1 }
def sizeField (header : U32) : Field := { address := header + 8, bytes := 4 }

/-- The `header` of a footer. -/
def headerField (footer : U32) : Field := { address := footer + 4, bytes := 4 }

def Field.Inside (lo hi : Nat) (f : Field) : Prop :=
  lo ≤ f.address.toNat ∧ f.address.toNat + f.bytes ≤ hi

variable {ε : Type}

/-- The reads up to `header->is_hole = 1;`, those of the assertions included. -/
def startReads (p : U32) (s : HeapState ε) : List Field :=
  let header := p - headerBytes
  let footer := header + blockSize s.mem header - footerBytes
  [sizeField header, magicField header, magicField footer]

def leftReads (d : Merge) (s : HeapState ε) : List Field :=
  let testFooter := d.header - footerBytes
  let header := footerHeader s.mem testFooter
  magicField testFooter ::
    if footerMagic s.mem testFooter = heapMagic then
      headerField testFooter :: isHoleField header ::
        if isHole s.mem header = 1 then
          [sizeField d.header, headerField testFooter, sizeField header]
        else []
    else []

def rightReads (d : Merge) (s : HeapState ε) : List Field :=
  let testHeader := d.footer + footerBytes
  magicField testHeader ::
    if headerMagic s.mem testHeader = heapMagic then
      isHoleField testHeader ::
        if isHole s.mem testHeader ≠ 0 then [sizeField d.header, sizeField testHeader] else []
    else []

def trimReads (d : Merge) (s : HeapState ε) : List Field :=
  if d.footer + footerBytes = s.heap.endAddress then [sizeField d.header] else []

/-- The reads of `header_less_than` until a listed hole is not less than the new one. -/
def insertReads (header : U32) (s : HeapState ε) : List Field :=
  let position := insertPosition headerLessThan header s.heap.index s.mem
  (List.range (min (position + 1) s.heap.index.size.toNat)).flatMap fun i =>
    [sizeField (s.heap.index.item s.mem i), sizeField header]

/-- The fields of headers and footers that `free` reads. -/
def freeReads (pager : Pager ε) (p : U32) (s : HeapState ε) : List Field :=
  if p = 0 then []
  else
    let first := startFree p s
    let second := unifyLeft first.1 first.2
    let third := unifyRight second.1 second.2
    startReads p s ++ leftReads first.1 first.2 ++ rightReads second.1 second.2 ++
      trimReads third.1 third.2 ++
      match trim pager third.1 third.2 with
      | none => []
      | some t => if third.1.doAdd then insertReads third.1.header t else []

/-! ## Heaps that look alike -/

/-- The same heap and paging, with the same bytes in a range of addresses and in the
entries of the index. -/
structure Alike (lo hi : Nat) (s s' : HeapState ε) : Prop where
  heap : s'.heap = s.heap
  paging : s'.paging = s.paging
  bytes : AgreeOn lo hi s.mem s'.mem
  entries : AgreeOn s.heap.index.array.toNat
    (s.heap.index.array.toNat + 4 * s.heap.index.size.toNat) s.mem s'.mem

/-- An index in front of the range, in the order of the sizes. -/
structure InFront (lo : Nat) (heap : Heap) : Prop where
  order : heap.index.lessThan = some headerLessThan
  room : Room heap.index
  before : heap.index.array.toNat + 4 * heap.index.size.toNat ≤ lo

section Alike

variable {lo hi : Nat} {s s' : HeapState ε} {h : U32} {write : Mem → Mem}

/-- Two memories hold the same field. -/
theorem Field.Inside.load32 {f : Field} {m m' : Mem} (inside : f.Inside lo hi)
    (agree : AgreeOn lo hi m m') (small : hi ≤ 2 ^ 32) (word : f.bytes = 4) :
    load32 m' f.address = load32 m f.address := by
  obtain ⟨low, high⟩ := inside
  rw [word] at high
  exact agree.load32 low high (Nat.le_trans high small)

theorem Field.Inside.load8 {f : Field} {m m' : Mem} (inside : f.Inside lo hi)
    (agree : AgreeOn lo hi m m') (byte : f.bytes = 1) :
    load8 m' f.address = load8 m f.address := by
  obtain ⟨low, high⟩ := inside
  rw [byte] at high
  exact agree.load8 low high

theorem Alike.store (alike : Alike lo hi s s') (uniform : Uniform write) :
    Alike lo hi { s with mem := write s.mem } { s' with mem := write s'.mem } :=
  ⟨alike.heap, alike.paging, uniform _ _ _ _ alike.bytes, uniform _ _ _ _ alike.entries⟩

/-! ### The writes of `free` -/

theorem uniform_setIsHole (value : U8) : Uniform (setIsHole · h value) :=
  uniform_store8 _ _

theorem uniform_setBlockSize (value : U32) : Uniform (setBlockSize · h value) :=
  uniform_store32 _ _

theorem uniform_setFooterHeader (value : U32) : Uniform (setFooterHeader · h value) :=
  uniform_store32 _ _

theorem uniform_writeFooter (value : U32) : Uniform (writeFooter · h value) :=
  (uniform_setFooterHeader value).comp (uniform_store32 h heapMagic)

end Alike

/-! ## The stages -/

section Stages

variable {lo hi : Nat} {s s' : HeapState ε} {p : U32} {d : Merge}

theorem startFree_alike (alike : Alike lo hi s s') (small : hi ≤ 2 ^ 32)
    (reads : ∀ f ∈ startReads p s, f.Inside lo hi) :
    (startFree p s').1 = (startFree p s).1 ∧ Alike lo hi (startFree p s).2 (startFree p s').2 := by
  have size : blockSize s'.mem (p - headerBytes) = blockSize s.mem (p - headerBytes) :=
    (reads (sizeField (p - headerBytes)) (by simp [startReads])).load32 alike.bytes small rfl
  refine ⟨?_, alike.store (uniform_setIsHole 1)⟩
  unfold startFree
  dsimp only
  rw [size]

theorem unifyLeft_alike (alike : Alike lo hi s s') (small : hi ≤ 2 ^ 32)
    (reads : ∀ f ∈ leftReads d s, f.Inside lo hi) :
    (unifyLeft d s').1 = (unifyLeft d s).1 ∧ Alike lo hi (unifyLeft d s).2 (unifyLeft d s').2 := by
  unfold leftReads at reads
  unfold unifyLeft
  dsimp only at reads ⊢
  generalize d.header - footerBytes = f at reads ⊢
  have magic : footerMagic s'.mem f = footerMagic s.mem f :=
    (reads (magicField f) (by simp)).load32 alike.bytes small rfl
  rw [magic]
  by_cases found : footerMagic s.mem f = heapMagic
  · rw [if_pos found] at reads
    have names : footerHeader s'.mem f = footerHeader s.mem f :=
      (reads (headerField f) (by simp)).load32 alike.bytes small rfl
    rw [names]
    generalize footerHeader s.mem f = h at reads ⊢
    have hole : isHole s'.mem h = isHole s.mem h :=
      (reads (isHoleField h) (by simp)).load8 alike.bytes rfl
    rw [hole]
    by_cases yes : isHole s.mem h = 1
    · rw [if_pos yes] at reads
      rw [if_pos ⟨found, yes⟩, if_pos ⟨found, yes⟩]
      have own : blockSize s'.mem d.header = blockSize s.mem d.header :=
        (reads (sizeField d.header) (by simp)).load32 alike.bytes small rfl
      have named := alike.store (uniform_setFooterHeader (h := d.footer) h)
      have size : blockSize (setFooterHeader s'.mem d.footer h) h =
          blockSize (setFooterHeader s.mem d.footer h) h :=
        (reads (sizeField h) (by simp)).load32 named.bytes small rfl
      rw [own, size]
      exact ⟨rfl, named.store (uniform_setBlockSize _)⟩
    · rw [if_neg fun both => yes both.2, if_neg fun both => yes both.2]
      exact ⟨rfl, alike⟩
  · rw [if_neg fun both => found both.1, if_neg fun both => found both.1]
    exact ⟨rfl, alike⟩

theorem removeHole_alike (alike : Alike lo hi s s') (front : InFront lo s.heap) {i : Nat}
    (inside : i < s.heap.index.size.toNat) :
    Alike lo hi (s.removeHole i) (s'.removeHole i) ∧ InFront lo (s.removeHole i).heap := by
  obtain ⟨order, ⟨fits, small⟩, before⟩ := front
  obtain ⟨heap, paging, bytes, entries⟩ := alike
  have fits' : Fits s.heap.index.array s.heap.index.size.toNat := fits.mono (Nat.le_succ _)
  have fewer : (s.heap.index.size - 1).toNat + 1 = s.heap.index.size.toNat := by bv_omega
  have same := items_congr fits' entries
  obtain ⟨listing, off⟩ := removeOrderedArray_spec (m := s.mem) inside fits'
  obtain ⟨listing', off'⟩ := removeOrderedArray_spec (m := s'.mem) inside fits'
  have shorter : Fits s.heap.index.array (s.heap.index.size - 1).toNat := fits.mono (by omega)
  refine ⟨⟨?_, paging, ?_, ?_⟩, order, ⟨?_, ?_⟩, ?_⟩
  · change ({ s'.heap with index := _ } : Heap) = _
    rw [heap]
    rfl
  · intro x low high
    change (removeOrderedArray i s'.heap.index s'.mem).2 x = (removeOrderedArray i s.heap.index s.mem).2 x
    rw [heap, off x (by omega), off' x (by omega)]
    exact bytes x low high
  · change AgreeOn _ _ (removeOrderedArray i s.heap.index s.mem).2
      (removeOrderedArray i s'.heap.index s'.mem).2
    rw [heap]
    refine agreeOn_of_items (a := { s.heap.index with size := s.heap.index.size - 1 }) shorter ?_
    exact listing'.trans ((congrArg (·.eraseIdx i) same).trans listing.symm)
  · exact fits.mono (by show (s.heap.index.size - 1).toNat + 1 ≤ _; omega)
  · change (s.heap.index.size - 1).toNat + 1 < 2 ^ 32
    omega
  · change s.heap.index.array.toNat + 4 * (s.heap.index.size - 1).toNat ≤ lo
    omega

theorem indexOf_alike (alike : Alike lo hi s s') (front : InFront lo s.heap) (h : U32) :
    indexOf h s' = indexOf h s := by
  have same := items_congr (front.room.1.mono (Nat.le_succ _)) alike.entries
  unfold indexOf
  rw [alike.heap]
  refine scan_congr _ _ fun i small _ => ?_
  rw [item_eq_of_items same (by omega)]

/-- A size that is stored in the range leaves the entries of the index alone. -/
theorem items_setBlockSize (front : InFront lo s.heap) (small : hi ≤ 2 ^ 32) {h : U32}
    (inside : (sizeField h).Inside lo hi) (value : U32) :
    items s.heap.index (setBlockSize s.mem h value) = items s.heap.index s.mem := by
  obtain ⟨low, high⟩ := inside
  have before := front.before
  refine items_congr (front.room.1.mono (Nat.le_succ _)) ?_
  exact store32_agree _ value (Nat.le_trans high small) (Or.inr (Nat.le_trans before low))

theorem unifyRight_alike (alike : Alike lo hi s s') (front : InFront lo s.heap) (small : hi ≤ 2 ^ 32)
    (reads : ∀ f ∈ rightReads d s, f.Inside lo hi)
    (listed : rightTest s.mem (d.footer + footerBytes) →
      d.footer + footerBytes ∈ items s.heap.index s.mem) :
    (unifyRight d s').1 = (unifyRight d s).1 ∧
      Alike lo hi (unifyRight d s).2 (unifyRight d s').2 ∧ InFront lo (unifyRight d s).2.heap := by
  unfold rightReads at reads
  unfold unifyRight
  unfold rightTest at listed
  dsimp only at reads ⊢
  generalize d.footer + footerBytes = h at reads listed ⊢
  have magic : headerMagic s'.mem h = headerMagic s.mem h :=
    (reads (magicField h) (by simp)).load32 alike.bytes small rfl
  rw [magic]
  by_cases found : headerMagic s.mem h = heapMagic
  · rw [if_pos found] at reads
    have hole : isHole s'.mem h = isHole s.mem h :=
      (reads (isHoleField h) (by simp)).load8 alike.bytes rfl
    rw [hole]
    by_cases yes : isHole s.mem h ≠ 0
    · rw [if_pos yes] at reads
      rw [if_pos ⟨found, yes⟩, if_pos ⟨found, yes⟩]
      have inside := reads (sizeField d.header) (by simp)
      have own : blockSize s'.mem d.header = blockSize s.mem d.header :=
        inside.load32 alike.bytes small rfl
      have size : blockSize s'.mem h = blockSize s.mem h :=
        (reads (sizeField h) (by simp)).load32 alike.bytes small rfl
      rw [own, size]
      generalize blockSize s.mem d.header + blockSize s.mem h = sum
      have joined := alike.store (uniform_setBlockSize (h := d.header) sum)
      have entries := items_setBlockSize front small inside sum
      have place := indexOf_alike joined front h
      obtain ⟨bound, -⟩ := indexOf_spec (h := h) (s := { s with mem := setBlockSize s.mem d.header sum })
        (by show h ∈ items s.heap.index _; rw [entries]; exact listed ⟨found, yes⟩)
      have size' : blockSize (setBlockSize s'.mem d.header sum) h =
          blockSize (setBlockSize s.mem d.header sum) h :=
        (reads (sizeField h) (by simp)).load32 joined.bytes small rfl
      rw [size', place]
      exact ⟨rfl, removeHole_alike joined front bound⟩
    · rw [if_neg fun both => yes both.2, if_neg fun both => yes both.2]
      exact ⟨rfl, alike, front⟩
  · rw [if_neg fun both => found both.1, if_neg fun both => found both.1]
    exact ⟨rfl, alike, front⟩

theorem contract_alike (pager : Pager ε) (offset : U32) (alike : Alike lo hi s s')
    (front : InFront lo s.heap) :
    ∃ u u', contract pager offset s = some (contractedSize offset, u) ∧
      contract pager offset s' = some (contractedSize offset, u') ∧ Alike lo hi u u' ∧
      InFront lo u.heap ∧ u.mem = s.mem ∧ u'.mem = s'.mem := by
  obtain ⟨m, paging, heap⟩ := s
  obtain ⟨m', paging', heap'⟩ := s'
  obtain ⟨sameHeap, samePaging, bytes, entries⟩ := alike
  dsimp only at sameHeap samePaging
  subst sameHeap samePaging
  obtain ⟨paging'', contracted⟩ := contract_total pager offset heap' paging'
  exact ⟨_, _, contracted m, contracted m', ⟨rfl, rfl, bytes, entries⟩,
    ⟨front.order, front.room, front.before⟩, rfl, rfl⟩

theorem trim_alike (pager : Pager ε) (alike : Alike lo hi s s') (front : InFront lo s.heap)
    (small : hi ≤ 2 ^ 32) (reads : ∀ f ∈ trimReads d s, f.Inside lo hi) :
    ∃ t t', trim pager d s = some t ∧ trim pager d s' = some t' ∧ Alike lo hi t t' ∧
      InFront lo t.heap := by
  have length : s'.length = s.length := by
    unfold HeapState.length
    rw [alike.heap]
  unfold trimReads at reads
  unfold trim
  rw [alike.heap, length]
  split at reads
  · next ends =>
    obtain ⟨u, u', contracted, contracted', moved, front', same, same'⟩ :=
      contract_alike pager (d.header - s.heap.startAddress) alike front
    have size : blockSize u'.mem d.header = blockSize u.mem d.header :=
      (reads (sizeField d.header) (by simp)).load32 moved.bytes small rfl
    rw [if_pos ends, if_pos ends, contracted, contracted']
    simp only [Option.bind_eq_bind, Option.bind_some]
    have index : u'.heap.index = u.heap.index := by rw [moved.heap]
    rw [size, index, indexOf_alike moved front' d.testHeader]
    generalize blockSize u.mem d.header - _ = rest
    by_cases some : rest ≠ 0
    · rw [if_pos some, if_pos some, blockSize_setBlockSize, blockSize_setBlockSize]
      have sized := moved.store (uniform_setBlockSize (h := d.header) rest)
      exact ⟨_, _, rfl, rfl, sized.store (uniform_writeFooter d.header), front'⟩
    · rw [if_neg some, if_neg some]
      by_cases listed : indexOf d.testHeader u < u.heap.index.size.toNat
      · rw [if_pos listed, if_pos listed]
        exact ⟨_, _, rfl, rfl, removeHole_alike moved front' listed⟩
      · rw [if_neg listed, if_neg listed]
        exact ⟨_, _, rfl, rfl, moved, front'⟩
  · next no =>
    rw [if_neg no, if_neg no]
    exact ⟨_, _, rfl, rfl, alike, front⟩

theorem insertPosition_alike (alike : Alike lo hi s s') (front : InFront lo s.heap)
    (small : hi ≤ 2 ^ 32) {h : U32} (reads : ∀ f ∈ insertReads h s, f.Inside lo hi) :
    insertPosition headerLessThan h s.heap.index s'.mem =
      insertPosition headerLessThan h s.heap.index s.mem := by
  have same := items_congr (front.room.1.mono (Nat.le_succ _)) alike.entries
  have read : ∀ i, i < s.heap.index.size.toNat →
      i ≤ insertPosition headerLessThan h s.heap.index s.mem →
      ∀ f ∈ [sizeField (s.heap.index.item s.mem i), sizeField h], f.Inside lo hi := by
    intro i inside before f member
    refine reads f (List.mem_flatMap.mpr ⟨i, ?_, member⟩)
    rw [List.mem_range]
    omega
  refine scan_congr _ _ fun i inside before => ?_
  have fields := read i (by omega) before
  have size : blockSize s'.mem (s.heap.index.item s.mem i) =
      blockSize s.mem (s.heap.index.item s.mem i) :=
    (fields (sizeField (s.heap.index.item s.mem i)) (by simp)).load32 alike.bytes small rfl
  have own : blockSize s'.mem h = blockSize s.mem h :=
    (fields (sizeField h) (by simp)).load32 alike.bytes small rfl
  rw [item_eq_of_items same (by omega)]
  unfold headerLessThan
  rw [size, own]

theorem insertHole_alike (alike : Alike lo hi s s') (front : InFront lo s.heap) (small : hi ≤ 2 ^ 32)
    {h : U32} (reads : ∀ f ∈ insertReads h s, f.Inside lo hi) :
    ∃ u u', s.insertHole h = some u ∧ s'.insertHole h = some u' ∧ Alike lo hi u u' := by
  have place := insertPosition_alike alike front small reads
  obtain ⟨order, room, before⟩ := front
  have same := items_congr (room.1.mono (Nat.le_succ _)) alike.entries
  obtain ⟨m, inserted, listing, off⟩ := insertOrderedArray_spec (m := s.mem) h order room
  obtain ⟨m', inserted', listing', off'⟩ := insertOrderedArray_spec (m := s'.mem) h order room
  have grown := grown_size room
  have slots : AgreeOn s.heap.index.array.toNat
      (s.heap.index.array.toNat + 4 * (s.heap.index.size + 1).toNat) m m' := by
    refine agreeOn_of_items (a := { s.heap.index with size := s.heap.index.size + 1 }) ?_ ?_
    · rw [grown]
      exact room.1
    · rw [listing, listing', same, place]
  refine ⟨{ s with mem := m, heap := resize s.heap (s.heap.index.size + 1) },
    { s' with mem := m', heap := resize s.heap (s.heap.index.size + 1) }, ?_, ?_,
    ⟨rfl, alike.paging, fun x low high => ?_, slots⟩⟩
  · unfold HeapState.insertHole
    rw [inserted]
    rfl
  · unfold HeapState.insertHole
    rw [alike.heap, inserted']
    rfl
  · -- the last entry of a full index may lie in the range
    by_cases slot : x.toNat < s.heap.index.array.toNat + 4 * (s.heap.index.size + 1).toNat ∧
        s.heap.index.array.toNat ≤ x.toNat
    · exact slots x slot.2 slot.1
    · change m' x = m x
      rw [off x (by omega), off' x (by omega)]
      exact alike.bytes x low high

end Stages

/-! ## The whole of `free` -/

/-- The stages of `freeReads` when there is something to free. -/
theorem freeReads_eq (pager : Pager ε) {p : U32} (proper : p ≠ 0) (s : HeapState ε) :
    freeReads pager p s = startReads p s ++ leftReads (startFree p s).1 (startFree p s).2 ++
      rightReads (leftMerged p s).1 (leftMerged p s).2 ++ trimReads (unified p s).1 (unified p s).2 ++
      match trim pager (unified p s).1 (unified p s).2 with
      | none => []
      | some t => if (unified p s).1.doAdd then insertReads (unified p s).1.header t else [] :=
  if_neg proper

/-- `free` does the same to heaps that look alike where it reads. -/
theorem free_alike {lo hi : Nat} {s s' : HeapState ε} {p : U32} (pager : Pager ε)
    (alike : Alike lo hi s s') (front : InFront lo s.heap) (small : hi ≤ 2 ^ 32)
    (listed : rightTest (leftMerged p s).2.mem ((leftMerged p s).1.footer + footerBytes) →
      (leftMerged p s).1.footer + footerBytes ∈
        items (leftMerged p s).2.heap.index (leftMerged p s).2.mem)
    (reads : ∀ f ∈ freeReads pager p s, f.Inside lo hi) :
    ∃ u u', free pager p s = some u ∧ free pager p s' = some u' ∧ Alike lo hi u u' := by
  by_cases null : p = 0
  · exact ⟨s, s', if_pos null, if_pos null, alike⟩
  · rw [freeReads_eq pager null] at reads
    simp only [List.mem_append, or_imp, forall_and] at reads
    obtain ⟨⟨⟨⟨started, left⟩, right⟩, cut⟩, final⟩ := reads
    obtain ⟨same₁, alike₁⟩ := startFree_alike alike small started
    obtain ⟨same₂, alike₂⟩ : (leftMerged p s').1 = (leftMerged p s).1 ∧
        Alike lo hi (leftMerged p s).2 (leftMerged p s').2 := by
      unfold leftMerged
      rw [same₁]
      exact unifyLeft_alike alike₁ small left
    have front₂ : InFront lo (leftMerged p s).2.heap := by
      rw [leftMerged_heap]
      exact front
    obtain ⟨same₃, alike₃, front₃⟩ : (unified p s').1 = (unified p s).1 ∧
        Alike lo hi (unified p s).2 (unified p s').2 ∧ InFront lo (unified p s).2.heap := by
      rw [unified_eq, unified_eq, same₂]
      exact unifyRight_alike alike₂ front₂ small right listed
    obtain ⟨t, t', trimmed, trimmed', alike₄, front₄⟩ := trim_alike pager alike₃ front₃ small cut
    rw [free_eq pager null, free_eq pager null, same₃, trimmed, trimmed']
    rw [trimmed] at final
    dsimp only at final
    simp only [Option.bind_some]
    split
    · next added =>
      rw [if_pos added] at final
      exact insertHole_alike alike₄ front₄ small final
    · exact ⟨t, t', rfl, rfl, alike₄⟩

/-! ## Blocks between others -/

section Interior

variable {s : HeapState ε} {before after : List Cell} {c : Cell} {p : U32}
  (wf : WellFormed s.heap s.mem (before ++ c :: after)) (block : c.used ≠ none)
  (pointer : p = c.base + headerBytes)

/-- The header fields of a cell lie in the heap. -/
theorem header_inside {heap : Heap} {m : Mem} {cells : List Cell} {d : Cell}
    (layout : Layout heap m cells) (member : d ∈ cells) {f : Field}
    (field : f ∈ [magicField d.base, isHoleField d.base, sizeField d.base]) :
    f.Inside heap.startAddress.toNat heap.endAddress.toNat := by
  have bounds := layout.bounds d member
  have wide := (layout.ok d member).wide
  have small := layout.hi_lt member
  unfold Cell.hi Cell.lo at *
  simp only [List.mem_cons, List.not_mem_nil, or_false] at field
  rcases field with rfl | rfl | rfl <;>
    simp only [Field.Inside, magicField, isHoleField, sizeField] <;> bv_omega

/-- So do those of its footer. -/
theorem footer_inside {heap : Heap} {m : Mem} {cells : List Cell} {d : Cell}
    (layout : Layout heap m cells) (member : d ∈ cells) {f : Field}
    (field : f ∈ [magicField d.foot, headerField d.foot]) :
    f.Inside heap.startAddress.toNat heap.endAddress.toNat := by
  have bounds := layout.bounds d member
  have wide := (layout.ok d member).wide
  have small := layout.hi_lt member
  have address := foot_toNat wide (Nat.le_of_lt small)
  unfold Cell.hi Cell.lo at *
  simp only [List.mem_cons, List.not_mem_nil, or_false] at field
  rcases field with rfl | rfl <;> simp only [Field.Inside, magicField, headerField] <;> bv_omega

include wf pointer in
theorem startReads_inside : ∀ f ∈ startReads p s,
    f.Inside s.heap.startAddress.toNat s.heap.endAddress.toNat := by
  have header : p - headerBytes = c.base := by rw [pointer, BitVec.add_sub_cancel]
  have member : c ∈ before ++ c :: after := by simp
  unfold startReads
  dsimp only
  rw [header, (wf.ok c member).header.size]
  intro f read
  simp only [List.mem_cons, List.not_mem_nil, or_false] at read
  rcases read with rfl | rfl | rfl
  · exact header_inside wf.layout member (by simp)
  · exact header_inside wf.layout member (by simp)
  · exact footer_inside wf.layout member (List.mem_cons_self (a := magicField c.foot))

include wf pointer in
theorem leftReads_inside (neighbour : before ≠ []) :
    ∀ f ∈ leftReads (startFree p s).1 (startFree p s).2,
      f.Inside s.heap.startAddress.toNat s.heap.endAddress.toNat := by
  have header : p - headerBytes = c.base := by rw [pointer, BitVec.add_sub_cancel]
  obtain ⟨front, l, last⟩ := (List.eq_nil_or_concat' before).resolve_left neighbour
  obtain ⟨foot, -, own, -⟩ := left_own wf pointer last
  have names := own.names
  have left : l ∈ before ++ c :: after := by simp [last]
  have member : c ∈ before ++ c :: after := by simp
  change ∀ f ∈ leftReads { header := p - headerBytes, footer := _, testHeader := _, doAdd := _ }
    { s with mem := marked s p }, _
  unfold leftReads
  dsimp only
  rw [header, foot, names, if_pos own.magic]
  intro f read
  have fields : f ∈ [magicField l.foot, headerField l.foot] ∨
      f ∈ [magicField l.base, isHoleField l.base, sizeField l.base] ∨
      f ∈ [magicField c.base, isHoleField c.base, sizeField c.base] := by
    split at read <;> simp only [List.mem_cons, List.not_mem_nil, or_false] at read ⊢ <;> tauto
  rcases fields with here | here | here
  · exact footer_inside wf.layout left here
  · exact header_inside wf.layout left here
  · exact header_inside wf.layout member here

include wf block pointer in
theorem rightReads_inside (fenced : Fenced s before after) (neighbour : after ≠ []) :
    ∀ f ∈ rightReads (leftMerged p s).1 (leftMerged p s).2,
      f.Inside s.heap.startAddress.toNat s.heap.endAddress.toNat := by
  have header : p - headerBytes = c.base := by rw [pointer, BitVec.add_sub_cancel]
  obtain ⟨front, e, m, joining, -, -, top, -, -, result, agree, -⟩ :=
    leftMerged_spec wf.layout wf.indexed block pointer (header ▸ left_listed wf pointer fenced)
  obtain ⟨place, -⟩ := leftMerged_right wf.layout wf.indexed pointer joining top result agree
  have behind := rightHeader_toNat wf.layout pointer
  rw [header] at behind
  obtain ⟨r, back, rfl⟩ := List.exists_cons_of_ne_nil neighbour
  obtain ⟨adjacent, -⟩ := right_neighbour wf.layout
  have base : rightHeader (marked s p) c.base = r.base :=
    BitVec.eq_of_toNat_eq (behind.trans adjacent)
  unfold rightReads
  dsimp only
  rw [place, base, joining.header]
  intro f read
  have fields : f ∈ [magicField r.base, isHoleField r.base, sizeField r.base] ∨
      f = sizeField e.base := by
    split at read
    · split at read <;> simp only [List.mem_cons, List.not_mem_nil, or_false] at read ⊢ <;> tauto
    · simp only [List.mem_cons, List.not_mem_nil, or_false] at read ⊢
      tauto
  rcases fields with here | rfl
  · exact header_inside wf.layout (by simp) here
  · have inside := header_inside joining.layout (d := e) (by simp) (f := sizeField e.base) (by simp)
    rwa [leftMerged_heap] at inside

section Made

variable {front back : List Cell} {e : Cell} (made : Unified s p before c after front e back)

include made in
/-- The header of a cell of the merged heap lies in the heap. -/
theorem merged_inside {d : Cell} (member : d ∈ front ++ e :: back) :
    (sizeField d.base).Inside s.heap.startAddress.toNat s.heap.endAddress.toNat := by
  have inside := header_inside made.joining.layout member (f := sizeField d.base) (by simp)
  rwa [unified_start made, unified_end made] at inside

include made in
theorem trimReads_inside : ∀ f ∈ trimReads (unified p s).1 (unified p s).2,
    f.Inside s.heap.startAddress.toNat s.heap.endAddress.toNat := by
  unfold trimReads
  rw [made.joining.header]
  intro f read
  split at read
  · rw [List.mem_singleton.mp read]
    exact merged_inside made (by simp)
  · cases read

/-- The footer of what is left may wrap around, but not as far as the index. -/
theorem remnant_foot_outside {start array x offset : U32} (place : start.toNat + offset.toNat = e.lo)
    (clear : e.lo + 0x8000 ≤ array.toNat + 2 ^ 32) (area : array.toNat + 0x80000 ≤ start.toNat)
    (above : array.toNat ≤ x.toNat) (below : x.toNat < array.toNat + 0x80000) :
    8 ≤ x - (remnant e offset).foot := by
  have small : e.lo < 2 ^ 32 := e.base.isLt
  have rounded := roundedLength_le offset.toNat
  have stop := contractedSize_toNat (x := offset) (by omega)
  have least : 0x8000 ≤ contractedLength offset.toNat := Nat.le_max_left _ _
  have most := contractedLength_bound offset.toNat
  have foot : (remnant e offset).foot = start + contractedSize offset - 8 := by
    change e.base + (contractedSize offset - offset) - 8 = _
    unfold Cell.lo at place
    bv_omega
  rw [foot]
  generalize contractedSize offset = length at *
  generalize contractedLength offset.toNat = bytes at *
  clear foot rounded
  bv_omega

include made in
/-- `trim` leaves the entries of the index alone. -/
theorem trim_items (pager : Pager ε)
    (clear : s.heap.endAddress.toNat + 0x8000 ≤ s.heap.index.array.toNat + 2 ^ 32) :
    ∃ t, trim pager (unified p s).1 (unified p s).2 = some t ∧
      items t.heap.index t.mem = items (unified p s).2.heap.index (unified p s).2.mem := by
  by_cases ends : (unified p s).1.footer + footerBytes = (unified p s).2.heap.endAddress
  · obtain ⟨paging, -, trimmed⟩ := trim_total pager made.joining ends
    obtain ⟨-, -, place, -⟩ := unified_length made
    have area := made.joining.indexed.area
    have joining := made.joining
    have index : (unified p s).2.heap.index.array = s.heap.index.array := by rw [made.heap]; rfl
    have lower := joining.area_le
    have inside : e.hi ≤ s.heap.endAddress.toNat := by
      rw [← unified_end made]
      exact joining.bounds.2
    unfold Cell.hi at inside
    rw [unified_start made] at area trimmed
    refine ⟨_, trimmed, joining.indexed.items_frame fun x above below => ?_⟩
    rw [index] at above below area lower
    refine (writeFooter_apply_of_outside
      (remnant_foot_outside place (by omega) area above below)).trans ?_
    refine store32_apply_of_outside _ _ _ _ ?_
    change 4 ≤ x - (e.base + 8)
    have small : e.lo < 2 ^ 32 := e.base.isLt
    unfold Cell.lo at *
    bv_omega
  · exact ⟨_, trim_no pager ends, rfl⟩

include made in
theorem insertReads_inside {t : HeapState ε}
    (entries : items t.heap.index t.mem = items (unified p s).2.heap.index (unified p s).2.mem) :
    ∀ f ∈ insertReads (unified p s).1.header t,
      f.Inside s.heap.startAddress.toNat s.heap.endAddress.toNat := by
  unfold insertReads
  dsimp only
  intro f read
  obtain ⟨i, short, field⟩ := List.mem_flatMap.mp read
  have inside := List.mem_range.mp short
  have listed : t.heap.index.item t.mem i ∈ items t.heap.index t.mem := by
    refine mem_items.mpr ⟨i, by omega, rfl⟩
  rw [entries] at listed
  obtain ⟨d, member, -, base⟩ := made.joining.entry listed
  rw [← base, made.joining.header] at field
  simp only [List.mem_cons, List.not_mem_nil, or_false] at field
  rcases field with rfl | rfl
  · exact merged_inside made member
  · exact merged_inside made (by simp)

end Made

include wf block pointer in
/-- Between two other cells, all that `free` reads lies in the heap. -/
theorem reads_inside (pager : Pager ε)
    (clear : s.heap.endAddress.toNat + 0x8000 ≤ s.heap.index.array.toNat + 2 ^ 32)
    (left : before ≠ []) (right : after ≠ []) :
    ∀ f ∈ freeReads pager p s, f.Inside s.heap.startAddress.toNat s.heap.endAddress.toNat := by
  have fenced : Fenced s before after := ⟨fun no => absurd no left, fun no => absurd no right⟩
  obtain ⟨front, e, back, made, -⟩ := unified_exact wf pointer fenced block
  obtain ⟨t, trimmed, entries⟩ := trim_items made pager clear
  rw [freeReads_eq pager (proper_pointer wf pointer), trimmed]
  intro f read
  simp only [List.mem_append] at read
  rcases read with (((first | second) | third) | fourth) | last
  · exact startReads_inside wf pointer f first
  · exact leftReads_inside wf pointer left f second
  · exact rightReads_inside wf block pointer fenced right f third
  · exact trimReads_inside made f fourth
  · split at last
    · exact insertReads_inside made entries f last
    · cases last

include wf pointer in
/-- The first block reads a footer in front of the heap. -/
theorem left_of_reads (pager : Pager ε)
    (reads : ∀ f ∈ freeReads pager p s,
      f.Inside s.heap.startAddress.toNat s.heap.endAddress.toNat) : before ≠ [] := by
  rintro rfl
  have room := header_room wf
  have header : p - headerBytes = c.base := by rw [pointer, BitVec.add_sub_cancel]
  have first : c.base.toNat = s.heap.startAddress.toNat := wf.tiles.1
  have read : magicField (c.base - footerBytes) ∈ freeReads pager p s := by
    rw [freeReads_eq pager (proper_pointer wf pointer), ← header]
    simp [leftReads, startFree]
  obtain ⟨low, -⟩ := reads _ read
  simp only [magicField, footerBytes] at low
  bv_omega

include wf pointer in
/-- The last block reads a header behind the heap. -/
theorem right_of_reads (pager : Pager ε)
    (reads : ∀ f ∈ freeReads pager p s,
      f.Inside s.heap.startAddress.toNat s.heap.endAddress.toNat) : after ≠ [] := by
  rintro rfl
  have room := header_room wf
  have header : p - headerBytes = c.base := by rw [pointer, BitVec.add_sub_cancel]
  have last : c.hi = s.heap.endAddress.toNat := (tiles_middle.mp wf.tiles).2
  have ok := wf.ok c (by simp)
  have address := foot_toNat ok.wide (Nat.le_of_lt room.2.2)
  have footer : (leftMerged p s).1.footer = c.foot := by
    unfold leftMerged unifyLeft startFree
    dsimp only
    rw [header, ok.header.size]
    split <;> rfl
  have read : magicField (c.foot + footerBytes) ∈ freeReads pager p s := by
    rw [freeReads_eq pager (proper_pointer wf pointer), ← footer]
    simp [rightReads]
  obtain ⟨-, high⟩ := reads _ read
  simp only [magicField, footerBytes] at high
  bv_omega

/-- All that `free` reads of headers and footers lies in the heap, so that it does the same
to every heap that looks alike there, if and only if the block is neither the first cell of
the heap nor the last. -/
theorem probes_inside_iff (pager : Pager ε) (wf : WellFormed s.heap s.mem (before ++ c :: after))
    (block : c.used ≠ none) (pointer : p = c.base + headerBytes)
    (clear : s.heap.endAddress.toNat + 0x8000 ≤ s.heap.index.array.toNat + 2 ^ 32) :
    ((∀ f ∈ freeReads pager p s, f.Inside s.heap.startAddress.toNat s.heap.endAddress.toNat) ∧
      ∀ s', Alike s.heap.startAddress.toNat s.heap.endAddress.toNat s s' →
        ∃ u u', free pager p s = some u ∧ free pager p s' = some u' ∧
          Alike s.heap.startAddress.toNat s.heap.endAddress.toNat u u') ↔
      before ≠ [] ∧ after ≠ [] := by
  constructor
  · rintro ⟨reads, -⟩
    exact ⟨left_of_reads wf pointer pager reads, right_of_reads wf pointer pager reads⟩
  · rintro ⟨left, right⟩
    have reads := reads_inside wf block pointer pager clear left right
    refine ⟨reads, fun s' alike => ?_⟩
    have header : p - headerBytes = c.base := by rw [pointer, BitVec.add_sub_cancel]
    have fenced : Fenced s before after := ⟨fun no => absurd no left, fun no => absurd no right⟩
    have indexed := wf.indexed
    have few := indexed.few
    have area := indexed.area
    have front : InFront s.heap.startAddress.toNat s.heap :=
      ⟨indexed.order, ⟨indexed.fits, by omega⟩, by omega⟩
    refine free_alike pager alike front (Nat.le_of_lt s.heap.endAddress.isLt) ?_ reads
    obtain ⟨_, e, m, joining, -, -, top, -, -, result, agree, -⟩ :=
      leftMerged_spec wf.layout indexed block pointer (header ▸ left_listed wf pointer fenced)
    obtain ⟨place, test, -, entries⟩ :=
      leftMerged_right wf.layout indexed pointer joining top result agree
    rw [result, place]
    intro passes
    change _ ∈ items s.heap.index m
    rw [entries]
    exact right_listed wf pointer fenced (test.mp passes)

end Interior

/-! ## Three cells -/

/-- A hole at the start of the kernel heap. -/
def lowHole : Cell := { base := 0x380000, size := 0x1000, used := none }

/-- The block between it and `highBlock`. -/
def midBlock : Cell := { base := 0x381000, size := 0x6ff0, used := some 0x6fdc }

/-- A heap of a hole and two blocks. -/
def threeCells : HeapState (List U32) :=
  { mem := writeCell highBlock (writeCell midBlock (writeCell lowHole
      (store32 (fun _ => 0) 0x300000 0x380000)))
    paging := []
    heap :=
      { index := { array := 0x300000, size := 1, maxSize := heapIndexSize,
                   lessThan := some headerLessThan }
        startAddress := 0x380000
        endAddress := 0x38a000
        maxAddress := 0xCFFFF000 } }

theorem threeCells_wellFormed :
    WellFormed threeCells.heap threeCells.mem [lowHole, midBlock, highBlock] := by
  let entry : Mem := store32 (fun _ => 0) 0x300000 0x380000
  have second : AgreeOff 0x381000 0x38a000 (writeCell lowHole entry) threeCells.mem :=
    ((writeCell_agreeOff (c := midBlock) (by decide) (by decide)).mono (by decide) (by decide)).trans
      ((writeCell_agreeOff (c := highBlock) (by decide) (by decide)).mono (by decide) (by decide))
  have third : AgreeOff 0x387ff0 0x38a000 (writeCell midBlock (writeCell lowHole entry))
      threeCells.mem := writeCell_agreeOff (c := highBlock) (by decide) (by decide)
  have low : BlockOk threeCells.mem threeCells.heap.endAddress.toNat lowHole :=
    (writeCell_block (by decide) (by decide) fun n used => by cases used).frame (by decide)
      (second.on (by decide))
  have mid : BlockOk threeCells.mem threeCells.heap.endAddress.toNat midBlock := by
    refine (writeCell_block (by decide) (by decide) fun n used => ?_).frame (by decide)
      (third.on (by decide))
    cases used
    decide
  have high : BlockOk threeCells.mem threeCells.heap.endAddress.toNat highBlock := by
    refine writeCell_block (by decide) (by decide) fun n used => ?_
    cases used
    decide
  refine ⟨⟨rfl, rfl, rfl, rfl⟩, fun c member => ?_, rfl, by decide, by decide, by decide, ?_⟩
  · simp only [List.mem_cons, List.not_mem_nil, or_false] at member
    rcases member with rfl | rfl | rfl
    · exact low
    · exact mid
    · exact high
  · exact List.Perm.of_eq (by decide +kernel)

/-- The same heap with the header of a hole behind it. -/
def staleHeader : HeapState (List U32) :=
  { threeCells with mem := writeHeader threeCells.mem 0x38a000 1 0x1000 }

theorem staleHeader_alike : Alike 0x380000 0x38a000 threeCells staleHeader := by
  have written : AgreeOff 0x38a000 0x38a00c threeCells.mem staleHeader.mem :=
    writeHeader_agreeOff (by decide) (by decide) (by decide)
  exact ⟨rfl, rfl, written.on (by decide), written.on (by decide)⟩

/-- Freeing the last block reads the header behind the heap, and the index ends up with an
entry less when that header is a hole's. -/
theorem last_block_reads_behind :
    WellFormed threeCells.heap threeCells.mem ([lowHole, midBlock] ++ highBlock :: []) ∧
      magicField threeCells.heap.endAddress ∈
        freeReads loggingPager (highBlock.base + headerBytes) threeCells ∧
      Alike 0x380000 0x38a000 threeCells staleHeader ∧
      ¬ ∃ u u', free loggingPager (highBlock.base + headerBytes) threeCells = some u ∧
        free loggingPager (highBlock.base + headerBytes) staleHeader = some u' ∧
        Alike 0x380000 0x38a000 u u' := by
  refine ⟨threeCells_wellFormed, by decide +kernel, staleHeader_alike, ?_⟩
  rintro ⟨u, u', freed, freed', alike⟩
  have two : (free loggingPager (highBlock.base + headerBytes) threeCells).map
      (fun u => u.heap.index.size) = some 2 := by decide +kernel
  have one : (free loggingPager (highBlock.base + headerBytes) staleHeader).map
      (fun u => u.heap.index.size) = some 1 := by decide +kernel
  rw [freed, Option.map_some] at two
  rw [freed', Option.map_some, alike.heap, two] at one
  exact absurd one (by decide)

/-- The block in the middle. -/
theorem probes_inside_threeCells :
    (∀ f ∈ freeReads loggingPager 0x38100c threeCells, f.Inside 0x380000 0x38a000) ∧
      ∀ s', Alike 0x380000 0x38a000 threeCells s' →
        ∃ u u', free loggingPager 0x38100c threeCells = some u ∧
          free loggingPager 0x38100c s' = some u' ∧ Alike 0x380000 0x38a000 u u' := by
  have wf : WellFormed threeCells.heap threeCells.mem ([lowHole] ++ midBlock :: [highBlock]) :=
    threeCells_wellFormed
  exact (probes_inside_iff loggingPager wf (p := 0x38100c) (by decide) (by decide)
    (by decide)).mpr ⟨by decide, by decide⟩

end BlessOS.Guarantees.HeapProbes
