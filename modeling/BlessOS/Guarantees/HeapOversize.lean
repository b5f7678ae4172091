import BlessOS.Guarantees.HeapGrowth

/-!
# Requests of any size

`alloc` adds a header and a footer to the request and the sum to the length of the
heap without a test, and gives the new pages to the highest hole wherever it is.
A request is served in the heap exactly if the first sum does not wrap around and
either a hole is large enough or the heap can grow and the highest hole ends it.
-/

set_option autoImplicit false

namespace BlessOS.Guarantees.HeapOversize
open BlessOS.Lib.ByteMemory BlessOS.Lib.Tiling
open BlessOS.Source BlessOS.Source.OrderedArray BlessOS.Source.Kheap
open BlessOS.Guarantees.OrderedArrayItems BlessOS.Guarantees.HeapLayout
open BlessOS.Guarantees.HeapInvariant BlessOS.Guarantees.HeapBounds BlessOS.Guarantees.HeapAlloc
open BlessOS.Guarantees.HeapGrow BlessOS.Guarantees.HeapRuns BlessOS.Guarantees.HeapWellFormed
open BlessOS.Guarantees.HeapFreed BlessOS.Guarantees.HeapGrowth

variable {ε : Type} {s t : HeapState ε} {cells : List Cell} {c : Cell} {p n : U32}
  {i : Nat}

/-! ## What a request may come to -/

/-- `[p, p + n)`, without wrap-around, lies in the heap and meets none of its blocks. -/
structure InHeap (heap : Heap) (cells : List Cell) (p n : U32) : Prop where
  low : heap.startAddress.toNat ≤ p.toNat
  high : p.toNat + n.toNat ≤ heap.endAddress.toNat
  apart : ∀ d ∈ blocks cells, ∀ x, p.toNat ≤ x → x < p.toNat + n.toNat → x < d.lo ∨ d.hi ≤ x

/-- The bounds, the cells, the bytes of the blocks and the index are as they were. -/
structure Unchanged (s : HeapState ε) (cells : List Cell) (u : HeapState ε) : Prop where
  start : u.heap.startAddress = s.heap.startAddress
  stop : u.heap.endAddress = s.heap.endAddress
  ok : ∀ d ∈ cells, BlockOk u.mem u.heap.endAddress.toNat d
  live : ∀ d ∈ blocks cells, AgreeOn d.lo d.hi s.mem u.mem
  index : items u.heap.index u.mem = items s.heap.index s.mem

/-- `alloc` returns, with room for the request in the heap or with nothing changed. -/
def Handled (pager : Pager ε) (s : HeapState ε) (cells : List Cell) (n : U32) : Prop :=
  ∃ p u, alloc pager n 0 s = some (p, u) ∧ (InHeap u.heap cells p n ∨ Unchanged s cells u)

/-- The hole at the highest address. -/
structure HighestHole (cells : List Cell) (c : Cell) : Prop where
  member : c ∈ cells
  hole : c.used = none
  most : ∀ d ∈ cells, d.used = none → d.lo ≤ c.lo

/-- The size with header and footer is a 32-bit number, and some hole is large enough, or
the heap can grow by it and the highest hole, if there is one, ends the heap (or has room
for the request as it is, but for the footer). -/
def Servable (s : HeapState ε) (cells : List Cell) (n : U32) : Prop :=
  n.toNat + 20 < 2 ^ 32 ∧ ((∃ c ∈ cells, c.used = none ∧ n.toNat + 20 ≤ c.len) ∨
    s.heap.startAddress.toNat + grownLength s n < 2 ^ 32 ∧
      ∀ c, HighestHole cells c → c.hi = s.heap.endAddress.toNat ∨ n.toNat + 12 ≤ c.len)

/-- The length of the heap after it has grown by a sum that may have wrapped around. -/
def wrappedLength (s : HeapState ε) (n : U32) : Nat :=
  roundedLength (s.length.toNat + (needed n).toNat)

/-- If no hole is large enough, the heap keeps its end in the address space and grows by a
header and a footer at least, or the sum wraps around to the length it has; a size that
wraps around to zero does not meet a hole at the start of the heap. -/
structure Plain (s : HeapState ε) (cells : List Cell) (n : U32) : Prop where
  growth : (∀ c ∈ cells, c.used = none → c.len < (needed n).toNat) →
    (s.heap.startAddress.toNat + wrappedLength s n < 2 ^ 32 ∧
        s.length.toNat + 20 ≤ wrappedLength s n) ∨
      (pageRound (s.length + needed n) = s.length ∧ ∃ c ∈ cells, c.used = none)
  first : n.toNat + 20 = 2 ^ 32 → ∀ c ∈ cells, c.used = none → c.lo ≠ s.heap.startAddress.toNat

/-- The other holes lie in front of it. -/
theorem HighestHole.below {heap : Heap} {m : Mem} {d : Cell} (highest : HighestHole cells c)
    (layout : Layout heap m cells) (member : d ∈ cells) (hole : d.used = none) (other : d ≠ c) :
    d.hi ≤ c.lo := by
  have most := highest.most d member hole
  have wide := (layout.ok c highest.member).wide
  refine (layout.apart highest.member member other).resolve_right fun behind => ?_
  unfold Cell.hi at behind
  omega

theorem HighestHole.unique {heap : Heap} {m : Mem} {d : Cell} (highest : HighestHole cells c)
    (layout : Layout heap m cells) (other : HighestHole cells d) : d = c := by
  by_contra distinct
  have below := highest.below layout other.member other.hole distinct
  have above := other.below layout highest.member highest.hole fun same => distinct same.symm
  have wide := (layout.ok c highest.member).wide
  unfold Cell.hi at *
  omega

theorem wrappedLength_eq (noWrap : n.toNat + 20 < 2 ^ 32) : wrappedLength s n = grownLength s n := by
  unfold wrappedLength grownLength
  rw [needed_toNat noWrap]

/-! ## Carving without conditions -/

/-- The entries of the index after an insertion. -/
theorem insertHole_listed (order : s.heap.index.lessThan = some headerLessThan)
    (room : Room s.heap.index) (h : U32) :
    ∃ m, s.insertHole h =
        some { s with mem := m, heap := resize s.heap (s.heap.index.size + 1) } ∧
      (∀ x, x ∈ items (resize s.heap (s.heap.index.size + 1)).index m ↔
        x = h ∨ x ∈ items s.heap.index s.mem) ∧
      AgreeOff s.heap.index.array.toNat
        (s.heap.index.array.toNat + 4 * (s.heap.index.size.toNat + 1)) s.mem m := by
  obtain ⟨m, inserted, listing, agree⟩ := insertHole_total order room h
  have position := insertPosition_le (m := s.mem) (a := s.heap.index) headerLessThan h
  refine ⟨m, inserted, fun x => ?_, agree⟩
  rw [listing, List.mem_insertIdx (by rwa [length_items])]

/-- What is left of a hole comes to the index, wherever it is. -/
theorem addRemainder_total (order : s.heap.index.lessThan = some headerLessThan)
    (room : Room s.heap.index) (pos size : U32) {rest : U32} (proper : rest ≠ 0) :
    ∃ m, addRemainder pos size rest s =
        some { s with mem := m, heap := resize s.heap (s.heap.index.size + 1) } ∧
      pos + headerBytes + footerBytes + size ∈
        items (resize s.heap (s.heap.index.size + 1)).index m := by
  have grows : ∀ (written : Mem) (h : U32), ∃ m, { s with mem := written }.insertHole h =
      some { s with mem := m, heap := resize s.heap (s.heap.index.size + 1) } ∧
      h ∈ items (resize s.heap (s.heap.index.size + 1)).index m := by
    intro written h
    obtain ⟨m, inserted, entries, -⟩ :=
      insertHole_listed (s := { s with mem := written }) order room h
    exact ⟨m, inserted, (entries h).mpr (Or.inl rfl)⟩
  unfold addRemainder
  rw [if_pos proper]
  exact grows _ _

theorem pred_toNat {x : U32} (inside : i < x.toNat) : (x - 1).toNat = x.toNat - 1 := by bv_omega

theorem room_pred (room : Room s.heap.index) (inside : i < s.heap.index.size.toNat) :
    Room (resize s.heap (s.heap.index.size - 1)).index := by
  have size := pred_toNat inside
  obtain ⟨fits, few⟩ := room
  constructor
  · change Fits s.heap.index.array ((s.heap.index.size - 1).toNat + 1)
    exact fits.mono (by omega)
  · change (s.heap.index.size - 1).toNat + 1 < 2 ^ 32
    omega

/-- Whatever the sizes are, `carve` returns the body of the hole and leaves the bounds of
the heap alone. The entry leaves the index, and another may come to it. -/
theorem carve_total (n : U32) (order : s.heap.index.lessThan = some headerLessThan)
    (room : Room s.heap.index) (inside : i < s.heap.index.size.toNat) :
    ∃ u, carve n 0 i s = some (s.heap.index.item s.mem i + headerBytes, u) ∧
      u.heap.startAddress = s.heap.startAddress ∧ u.heap.endAddress = s.heap.endAddress ∧
      (u.heap.index.size = s.heap.index.size - 1 ∨
        s.heap.index.item s.mem i + needed n ∈ items u.heap.index u.mem) := by
  obtain ⟨m₀, removed⟩ : ∃ m, s.removeHole i =
      { s with mem := m, heap := resize s.heap (s.heap.index.size - 1) } := ⟨_, rfl⟩
  have room' := room_pred room inside
  rw [carve_eq]
  dsimp only
  rw [removed]
  dsimp only
  generalize s.heap.index.item s.mem i = pos
  generalize blockSize s.mem pos = holeSize
  by_cases whole : holeSize - needed n < headerBytes + footerBytes
  · simp only [if_pos whole, BitVec.sub_self, addRemainder, ne_eq]
    exact ⟨_, rfl, rfl, rfl, Or.inl rfl⟩
  · have rest : holeSize - needed n ≠ 0 := by
      unfold headerBytes footerBytes at whole
      bv_omega
    have place : pos + headerBytes + footerBytes + n = pos + needed n := by
      unfold needed
      ac_rfl
    simp only [if_neg whole]
    obtain ⟨m, added, listed⟩ := addRemainder_total (s := { s with
      mem := writeFooter (writeHeader m₀ pos 0 (needed n)) (pos + headerBytes + n) pos,
      heap := resize s.heap (s.heap.index.size - 1) }) order room' pos n rest
    rw [place] at listed
    exact ⟨_, congrArg (Option.map _) added, rfl, rfl, Or.inr listed⟩

/-! ## Growing without conditions -/

/-- What `growHeap` leaves when only the hole at `h` is large enough then. -/
structure Enlarged (pager : Pager ε) (s : HeapState ε) (n h : U32) (u : HeapState ε) : Prop where
  misses : findSmallestHole (needed n) 0 s = none
  grew : growHeap pager (needed n) s = some u
  start : u.heap.startAddress = s.heap.startAddress
  stop : u.heap.endAddress.toNat = s.heap.startAddress.toNat + wrappedLength s n
  order : u.heap.index.lessThan = some headerLessThan
  room : Room u.heap.index
  listed : h ∈ items u.heap.index u.mem
  large : needed n ≤ blockSize u.mem h
  only : ∀ x ∈ items u.heap.index u.mem, needed n ≤ blockSize u.mem x → x = h

/-- The body of that hole is returned. -/
theorem Enlarged.alloc {pager : Pager ε} {h : U32} {u : HeapState ε}
    (enlarged : Enlarged pager s n h u) :
    ∃ v, Kheap.alloc pager n 0 s = some (h + headerBytes, v) ∧
      v.heap.startAddress = s.heap.startAddress ∧
      v.heap.endAddress.toNat = s.heap.startAddress.toNat + wrappedLength s n := by
  obtain ⟨i, found⟩ := findSmallestHole_isSome enlarged.listed enlarged.large
  obtain ⟨inside, fits, -⟩ := findSmallestHole_some found
  have entry := enlarged.only _ (mem_items.mpr ⟨i, inside, rfl⟩) fits
  obtain ⟨v, carved, start, stop, -⟩ := carve_total n enlarged.order enlarged.room inside
  rw [entry] at carved
  have ran := alloc_of_grown enlarged.misses enlarged.grew found
  refine ⟨v, ran.trans carved, start.trans enlarged.start, ?_⟩
  rw [stop]
  exact enlarged.stop

/-- What `expand` leaves when it is called for the sum. -/
structure Lengthened (pager : Pager ε) (s : HeapState ε) (n : U32) (t : HeapState ε) : Prop where
  ran : expand pager (s.length + needed n) s = some t
  index : t.heap.index = s.heap.index
  start : t.heap.startAddress = s.heap.startAddress
  stop : t.heap.endAddress.toNat = s.heap.startAddress.toNat + wrappedLength s n
  added : s.heap.endAddress.toNat + (t.length - s.length).toNat = t.heap.endAddress.toNat
  agree : AgreeOff s.heap.endAddress.toNat (2 ^ 32) s.mem t.mem

section Growth

variable (pager : Pager ε) (wf : WellFormed s.heap s.mem cells) (mapped : EndMapped pager s)
  (space : s.heap.startAddress.toNat + wrappedLength s n < 2 ^ 32)

include wf in
/-- The length that is asked for is covered. -/
theorem le_wrappedLength :
    s.heap.endAddress.toNat + (needed n).toNat ≤ s.heap.startAddress.toNat + wrappedLength s n := by
  have proper := wf.tiles.le
  have length := length_toNat_of_le proper
  have covered : s.length.toNat + (needed n).toNat ≤ wrappedLength s n := le_roundedLength _
  omega

include wf mapped space in
theorem exists_lengthened : ∃ t, Lengthened pager s n t := by
  have proper := wf.tiles.le
  have covered := le_wrappedLength (n := n) wf
  obtain ⟨t, ran, heap, stop, agree⟩ := expand_grows pager (needed n) proper mapped space
  have start : t.heap.startAddress = s.heap.startAddress := by rw [heap]
  have stop' : t.heap.endAddress.toNat = s.heap.startAddress.toNat + wrappedLength s n := stop
  exact ⟨t, ran, by rw [heap], start, stop', grown_toNat start proper (by omega), agree⟩

include wf in
/-- With an empty index, the new pages become the only hole. -/
theorem growHeap_only {size : U32} (empty : holes cells = [])
    (ran : expand pager (s.length + size) s = some t) (index : t.heap.index = s.heap.index)
    (added : s.heap.endAddress.toNat + (t.length - s.length).toNat = t.heap.endAddress.toNat)
    (wide : 20 ≤ (t.length - s.length).toNat) :
    ∃ m, growHeap pager size s = some { t with mem := m, heap := resize t.heap 1 } ∧
      (∀ x, x ∈ items (resize t.heap 1).index m ↔ x = s.heap.endAddress) ∧
      blockSize m s.heap.endAddress = t.length - s.length := by
  have proper := wf.tiles.le
  have area := wf.indexed.area
  have small := t.heap.endAddress.isLt
  have unused : t.heap.index.size = 0 := by
    have entries := wf.indexed.entries.length_eq
    rw [length_items, empty] at entries
    rw [index]
    exact BitVec.eq_of_toNat_eq entries
  have nothing : highestHole t.heap.index t.mem = none := by
    unfold highestHole
    rw [unused]
    rfl
  have grew := growHeap_none ran nothing
  have written : BlockOk (writeCell (newHole s t) t.mem) 0 (newHole s t) := by
    refine writeCell_block wide ?_ fun k used => by cases used
    exact added.trans_le (Nat.le_of_lt small)
  have order : t.heap.index.lessThan = some headerLessThan := by
    rw [index]
    exact wf.indexed.order
  have room : Room t.heap.index := by
    rw [index]
    exact wf.indexed.room
  obtain ⟨m, inserted, entries, agree⟩ := insertHole_listed
    (s := { t with mem := writeCell (newHole s t) t.mem }) order room s.heap.endAddress
  have one : t.heap.index.size + 1 = 1 := by
    rw [unused]
    rfl
  dsimp only at inserted entries agree
  rw [one] at inserted entries
  refine ⟨m, grew.trans inserted, fun x => ⟨fun listed => ?_, fun same => ?_⟩, ?_⟩
  · refine ((entries x).mp listed).resolve_right fun old => ?_
    obtain ⟨j, inside, -⟩ := mem_items.mp old
    rw [unused] at inside
    exact absurd inside (Nat.not_lt_zero j)
  · exact (entries x).mpr (Or.inl same)
  · have behind : t.heap.index.array.toNat + 4 * (t.heap.index.size.toNat + 1) ≤
        s.heap.endAddress.toNat := by
      rw [unused, index]
      change _ + 4 * (0 + 1) ≤ _
      omega
    have bytes := blockSize_congr (agree.on (Or.inr behind)) (by omega)
    exact bytes.trans written.header.size

include wf mapped space in
/-- Without holes, the hole made at the old end serves the request. -/
theorem enlarged_new (empty : holes cells = []) (wide : s.length.toNat + 20 ≤ wrappedLength s n) :
    ∃ u, Enlarged pager s n s.heap.endAddress u := by
  have proper := wf.tiles.le
  have length := length_toNat_of_le proper
  have covered := le_wrappedLength (n := n) wf
  have area := wf.indexed.area
  obtain ⟨t, ran, index, start, stop, added, -⟩ := exists_lengthened pager wf mapped space
  have misses : findSmallestHole (needed n) 0 s = none :=
    findSmallestHole_of_small wf.layout wf.indexed fun c member hole =>
      absurd hole (holes_eq_nil_iff.mp empty c member)
  obtain ⟨m, grew, only, size⟩ := growHeap_only pager wf empty ran index added (by omega)
  have order : t.heap.index.lessThan = some headerLessThan := by
    rw [index]
    exact wf.indexed.order
  refine ⟨_, misses, grew, start, stop, order, ?_, (only _).mpr rfl, ?_,
    fun x listed _ => (only x).mp listed⟩
  · have few := s.heap.endAddress.isLt
    constructor
    · change Fits t.heap.index.array 2
      rw [index]
      unfold Fits
      omega
    · change 2 < 2 ^ 32
      decide
  · change needed n ≤ blockSize m s.heap.endAddress
    rw [size, BitVec.le_def]
    omega

include wf mapped space in
/-- Otherwise it is the highest hole, with the new pages, wherever it is. -/
theorem enlarged_highest (noWrap : n.toNat + 20 < 2 ^ 32) (listed : holes cells ≠ [])
    (small : ∀ c ∈ cells, c.used = none → c.len < (needed n).toNat) :
    ∃ c u, HighestHole cells c ∧ Enlarged pager s n c.base u := by
  have proper := wf.tiles.le
  have need := needed_toNat noWrap
  have covered := le_wrappedLength (n := n) wf
  have area := wf.indexed.area
  obtain ⟨t, ran, index, start, stop, added, agree⟩ := exists_lengthened pager wf mapped space
  have old : Layout s.heap t.mem cells := wf.layout.frame (agree.on (Or.inl (Nat.le_refl _)))
  have entries : Indexed s.heap t.mem (holes cells) :=
    wf.indexed.frame (agree.on (Or.inl (by omega)))
  obtain ⟨i, c, found, header, member, hole, most⟩ :=
    (highestHole_cases old entries).resolve_left fun empty => listed empty.2
  rw [← index] at found header
  have cellOk := old.ok c member
  have bounds := wf.layout.bounds c member
  have wide := cellOk.wide
  have misses := findSmallestHole_of_small wf.layout wf.indexed small
  have grew := growHeap_some ran found header cellOk.header.size
  have len := grownHole_len bounds.2 added
  obtain ⟨-, written, size⟩ := grownHole_resized bounds.2 added wide
  generalize grownHole s t c = d at grew len written size
  have indexed : Indexed s.heap (resizeCell d t.mem) (holes cells) :=
    entries.frame (written.on (Or.inl (by omega)))
  have highest : HighestHole cells c := by
    refine ⟨member, hole, fun e present free => ?_⟩
    exact most e.base (entries.entries.symm.subset (mem_holes.mpr ⟨e, present, free, rfl⟩))
  refine ⟨c, _, highest, misses, grew, start, stop, ?_, ?_, ?_, ?_, ?_⟩
  · change t.heap.index.lessThan = some headerLessThan
    rw [index]
    exact wf.indexed.order
  · change Room t.heap.index
    rw [index]
    exact wf.indexed.room
  · change c.base ∈ items t.heap.index (resizeCell d t.mem)
    rw [index]
    exact indexed.entries.symm.subset (mem_holes.mpr ⟨c, member, hole, rfl⟩)
  · change needed n ≤ blockSize (resizeCell d t.mem) c.base
    rw [size, BitVec.le_def]
    unfold Cell.len at len
    omega
  · intro x present large
    rw [index] at present
    obtain ⟨e, member', free, rfl⟩ := mem_holes.mp (indexed.entries.subset present)
    by_contra other
    have below : e.hi ≤ c.lo :=
      highest.below old member' free fun same => other (congrArg Cell.base same)
    have ok := (old.ok e member').frame (Nat.le_of_lt (wf.layout.hi_lt member'))
      (written.on (Or.inl below))
    rw [ok.header.size] at large
    exact absurd large (Nat.not_le.mpr (small e member' free))

end Growth

/-! ## Growing by nothing -/

/-- When the sum wraps around to the length there is, `expand` changes nothing. -/
theorem expand_same (pager : Pager ε) {size : U32} (same : pageRound (s.length + size) = s.length) :
    expand pager (s.length + size) s = some s := by
  have ends : s.heap.startAddress + s.length = s.heap.endAddress := by
    unfold HeapState.length
    bv_omega
  have looped : expandLoop pager s.length pageBound s.length s = some s :=
    if_neg (BitVec.lt_irrefl _)
  unfold expand
  dsimp only
  rw [same, looped]
  change some (s.setEnd (s.heap.startAddress + s.length)) = some s
  rw [ends]
  rfl

theorem grownHole_self (c : Cell) : grownHole s s c = c := by
  unfold grownHole
  rw [BitVec.sub_self]
  exact congrArg (fun size => { c with size := size }) (BitVec.add_zero c.size)

/-- A cell that gets its own size and footer again. -/
theorem resized_wellFormed {heap : Heap} {m : Mem} (wf : WellFormed heap m cells)
    (member : c ∈ cells) : WellFormed heap (resizeCell c m) cells := by
  have ok := wf.ok c member
  have top := Nat.le_of_lt (wf.layout.hi_lt member)
  have written : AgreeOff c.lo c.hi m (resizeCell c m) := resizeCell_agreeOff ok.wide top
  have area := wf.indexed.area
  have low := (wf.layout.bounds c member).1
  refine ⟨wf.tiles, fun d member' => ?_, wf.indexed.frame (written.on (Or.inl (by omega)))⟩
  by_cases same : d = c
  · rw [same]
    exact resizeCell_block ok.header.magic ok.header.flag ok.wide top ok.room
  · exact (wf.ok d member').frame (Nat.le_of_lt (wf.layout.hi_lt member'))
      (written.on (wf.layout.apart member member' same))

/-- `alloc` then calls itself on the same heap again and again. -/
theorem allocFrom_diverges (pager : Pager ε) (member : c ∈ cells) (hole : c.used = none)
    (same : pageRound (s.length + needed n) = s.length)
    (small : ∀ d ∈ cells, d.used = none → d.len < (needed n).toNat) (depth : Nat) {m : Mem}
    (wf : WellFormed s.heap m cells) : allocFrom pager n 0 depth { s with mem := m } = none := by
  induction depth generalizing m with
  | zero => rfl
  | succ depth ih =>
    have misses : findSmallestHole (needed n) 0 { s with mem := m } = none :=
      findSmallestHole_of_small wf.layout wf.indexed small
    obtain ⟨i, d, found, header, member', -⟩ :=
      (highestHole_cases wf.layout wf.indexed).resolve_left fun empty =>
        holes_eq_nil_iff.mp empty.2 c member hole
    have ran : expand pager (s.length + needed n) { s with mem := m } = some { s with mem := m } :=
      expand_same (s := { s with mem := m }) pager same
    have grew := growHeap_some (s := { s with mem := m }) (t := { s with mem := m }) ran found header
      (wf.ok d member').header.size
    rw [grownHole_self] at grew
    unfold needed at misses grew
    rw [allocFrom, misses]
    dsimp only
    rw [grew]
    exact ih (resized_wellFormed wf member')

theorem alloc_diverges (pager : Pager ε) (wf : WellFormed s.heap s.mem cells) (member : c ∈ cells)
    (hole : c.used = none) (same : pageRound (s.length + needed n) = s.length)
    (small : ∀ d ∈ cells, d.used = none → d.len < (needed n).toNat) : alloc pager n 0 s = none :=
  allocFrom_diverges pager member hole same small recursionBound wf

/-! ## Sizes that wrap around -/

section Wrapped

variable (wf : WellFormed s.heap s.mem cells) (wrapped : 2 ^ 32 ≤ n.toNat + 20)

include wrapped in
theorem needed_wrapped : (needed n).toNat + 2 ^ 32 = n.toNat + 20 := by
  unfold needed headerBytes footerBytes
  bv_omega

include wf in
/-- An entry of the index is the header of a hole. -/
theorem hole_of_entry (inside : i < s.heap.index.size.toNat) :
    ∃ c ∈ cells, c.used = none ∧ s.heap.index.item s.mem i = c.base ∧
      blockSize s.mem c.base = c.size := by
  obtain ⟨c, member, hole, base, size⟩ :=
    wf.layout.blockSize_hole (wf.indexed.entries.subset (mem_items.mpr ⟨i, inside, rfl⟩))
  exact ⟨c, member, hole, base.symm, base ▸ size⟩

include wf wrapped in
/-- No address of the heap has so many behind it. -/
theorem not_inHeap {heap : Heap} (start : heap.startAddress = s.heap.startAddress) :
    ¬ InHeap heap cells p n := by
  intro placed
  have low := placed.low
  have high := placed.high
  have area := wf.indexed.area
  have small := heap.endAddress.isLt
  rw [start] at low
  omega

theorem footer_in_front {x : U32} (low : 8 ≤ x.toNat) : (x - footerBytes).toNat + 8 = x.toNat := by
  unfold footerBytes
  bv_omega

/-- Writing a hole, with its footer if that lies below `stop`, changes no other cell. -/
theorem rewrite_agreeOff (wide : 20 ≤ c.len) (top : c.hi < 2 ^ 32) (m : Mem) (stop : U32) :
    AgreeOff c.lo c.hi m (if c.foot < stop then
      writeFooter (writeHeader m c.base 1 c.size) c.foot c.base
      else writeHeader m c.base 1 c.size) := by
  have low : c.base.toNat + 12 ≤ c.hi := by
    unfold Cell.hi Cell.lo
    omega
  have header : AgreeOff c.lo c.hi m (writeHeader m c.base 1 c.size) :=
    writeHeader_agreeOff (Nat.le_refl _) low (by omega)
  split
  · have last := foot_toNat wide (Nat.le_of_lt top)
    refine header.trans (writeFooter_agreeOff ?_ (Nat.le_of_eq last) (by omega))
    unfold Cell.hi at last
    omega
  · exact header

/-- Where a block of size zero has its footer and ends. -/
theorem zero_places (zero : needed n = 0) (x : U32) :
    x + headerBytes + footerBytes + n = x ∧ x + headerBytes + n = x - footerBytes := by
  have place : x + headerBytes + footerBytes + n = x := by
    have moved : x + headerBytes + footerBytes + n = x + needed n := by
      unfold needed
      ac_rfl
    rw [moved, zero]
    exact BitVec.add_zero _
  refine ⟨place, ?_⟩
  refine (BitVec.sub_eq_iff_eq_add.mpr ?_).symm
  refine place.symm.trans ?_
  ac_rfl

/-- What is written into a hole and to the index leaves the footer in front of it alone. -/
theorem footer_kept {m₀ m₁ m : Mem} (indexed : Indexed s.heap m₀ (holes cells))
    (inside : i < s.heap.index.size.toNat) (low : s.heap.startAddress.toNat + 8 ≤ c.lo)
    (agree : AgreeOff c.lo c.hi m₁ m) :
    ∃ u, ({ s with mem := m, heap := resize s.heap (s.heap.index.size - 1) } :
        HeapState ε).insertHole c.base = some u ∧
      u.heap.startAddress = s.heap.startAddress ∧
      footerHeader u.mem (c.base - footerBytes) = footerHeader m₁ (c.base - footerBytes) := by
  have order : (resize s.heap (s.heap.index.size - 1)).index.lessThan = some headerLessThan :=
    indexed.order
  have address := footer_in_front (x := c.base) (by unfold Cell.lo at low; omega)
  obtain ⟨m', inserted, -, agree'⟩ := insertHole_listed
    (s := { s with mem := m, heap := resize s.heap (s.heap.index.size - 1) }) order
    (room_pred indexed.room inside) c.base
  have area := indexed.area
  have few := indexed.few
  have slots : s.heap.index.array.toNat + 4 * ((s.heap.index.size - 1).toNat + 1) ≤
      (c.base - footerBytes).toNat := by
    rw [pred_toNat inside]
    unfold Cell.lo at low
    omega
  refine ⟨_, inserted, rfl, ?_⟩
  have inserted' := footerHeader_congr (agree'.on (Or.inr slots)) (by omega)
  have written := footerHeader_congr (f := c.base - footerBytes)
    (agree.on (Or.inl (Nat.le_of_eq address))) (by omega)
  exact inserted'.trans written

/-- A block of size zero is written over the footer in front of the hole, which then is
written back. -/
theorem carve_zero (indexed : Indexed s.heap s.mem (holes cells)) (zero : needed n = 0)
    (inside : i < s.heap.index.size.toNat) (found : s.heap.index.item s.mem i = c.base)
    (size : blockSize s.mem c.base = c.size) (wide : 20 ≤ c.len) (top : c.hi < 2 ^ 32)
    (low : s.heap.startAddress.toNat + 8 ≤ c.lo) :
    ∃ u, carve n 0 i s = some (c.base + headerBytes, u) ∧
      u.heap.startAddress = s.heap.startAddress ∧
      footerHeader u.mem (c.base - footerBytes) = c.base := by
  obtain ⟨m₀, removed⟩ : ∃ m, s.removeHole i =
      { s with mem := m, heap := resize s.heap (s.heap.index.size - 1) } := ⟨_, rfl⟩
  have enough : ¬ c.size < headerBytes + footerBytes := by
    unfold headerBytes footerBytes
    unfold Cell.len at wide
    bv_omega
  have rest : c.size ≠ 0 := by
    unfold Cell.len at wide
    bv_omega
  obtain ⟨place, foot⟩ := zero_places zero c.base
  have less : c.size - needed n = c.size := by
    rw [zero]
    exact BitVec.sub_zero _
  rw [carve_eq]
  simp only [found, size, removed, less, if_neg enough, foot]
  generalize wrote :
    writeFooter (writeHeader m₀ c.base 0 (needed n)) (c.base - footerBytes) c.base = m₁
  have names : footerHeader m₁ (c.base - footerBytes) = c.base := by
    rw [← wrote]
    exact footerHeader_writeFooter
  obtain ⟨u, inserted, start, kept⟩ := footer_kept indexed inside low
    (rewrite_agreeOff wide top m₁ s.heap.endAddress)
  unfold addRemainder
  rw [if_pos rest, place]
  exact ⟨u, congrArg (Option.map _) inserted, start, kept.trans names⟩

include wf in
/-- A cell that does not begin the heap has a cell in front of it. -/
theorem exists_in_front (member : c ∈ cells) (behind : c.lo ≠ s.heap.startAddress.toNat) :
    ∃ d ∈ cells, d.hi = c.lo := by
  obtain ⟨before, after, rfl⟩ := List.append_of_mem member
  obtain ⟨first, -⟩ := tiles_middle.mp wf.tiles
  rcases List.eq_nil_or_concat' before with rfl | ⟨front, d, rfl⟩
  · exact absurd first.symm behind
  · obtain ⟨-, ends⟩ := tiles_middle.mp first
    exact ⟨d, by simp, ends⟩

include wf in
/-- That cell loses its footer. -/
theorem zero_changes {d : Cell} {u : HeapState ε} (member : c ∈ cells) (member' : d ∈ cells)
    (meets : d.hi = c.lo) (names : footerHeader u.mem (c.base - footerBytes) = c.base) :
    ¬ Unchanged s cells u := by
  intro same
  have bounds := wf.layout.bounds c member
  have wide := (wf.ok c member).wide
  have wide' := (wf.ok d member').wide
  have ok := same.ok d member'
  rw [same.stop] at ok
  have own := ok.footer (Or.inr (by unfold Cell.hi at *; omega))
  have next : d.base + d.size = c.base := by
    apply BitVec.eq_of_toNat_eq
    have small := c.base.isLt
    unfold Cell.hi Cell.lo Cell.len at meets
    rw [BitVec.toNat_add]
    omega
  have foot : d.foot = c.base - footerBytes := by
    unfold Cell.foot
    rw [next]
  have twice : c.base = d.base := by
    rw [← names, ← foot]
    exact own.names
  unfold Cell.hi Cell.lo at meets
  rw [twice] at meets
  omega

include wf wrapped in
/-- An entry leaves the index, or one that is no hole's comes to it. -/
theorem wrapped_changes (nonzero : needed n ≠ 0) {u : HeapState ε}
    (inside : i < s.heap.index.size.toNat)
    (carved : u.heap.index.size = s.heap.index.size - 1 ∨
      s.heap.index.item s.mem i + needed n ∈ items u.heap.index u.mem) :
    ¬ Unchanged s cells u := by
  intro same
  rcases carved with shorter | listed
  · have lengths := congrArg List.length same.index
    rw [length_items, length_items, shorter, pred_toNat inside] at lengths
    omega
  · rw [same.index] at listed
    obtain ⟨c, member, -, base, -⟩ := hole_of_entry wf inside
    obtain ⟨d, member', -, base', -⟩ :=
      wf.layout.blockSize_hole (wf.indexed.entries.subset listed)
    have small := wf.layout.hi_lt member
    have wide := (wf.ok c member).wide
    have little := needed_wrapped wrapped
    have positive : (needed n).toNat ≠ 0 := fun zero => nonzero (BitVec.eq_of_toNat_eq zero)
    have most := n.isLt
    have place : d.lo = c.lo + (needed n).toNat := by
      rw [base] at base'
      have address := congrArg BitVec.toNat base'
      rw [BitVec.toNat_add] at address
      unfold Cell.hi Cell.lo at *
      omega
    have other : d ≠ c := by
      rintro rfl
      omega
    have apart := wf.layout.apart member member' other
    unfold Cell.hi at apart
    omega

include wf wrapped in
/-- A request whose size wraps around is not handled. -/
theorem wrapped_unhandled (pager : Pager ε) (mapped : EndMapped pager s) (plain : Plain s cells n) :
    ¬ Handled pager s cells n := by
  rintro ⟨p, u, ran, outcome⟩
  have little := needed_wrapped wrapped
  have most := n.isLt
  by_cases empty : holes cells = []
  · have full := holes_eq_nil_iff.mp empty
    obtain ⟨space, wide⟩ := (plain.growth fun c member hole =>
      absurd hole (full c member)).resolve_right fun ⟨_, c, member, hole⟩ => full c member hole
    obtain ⟨t, enlarged⟩ := enlarged_new pager wf mapped space empty wide
    obtain ⟨v, ran', start, stop⟩ := enlarged.alloc
    cases ran.symm.trans ran'
    rcases outcome with placed | same
    · exact not_inHeap wf wrapped start placed
    · have length := length_toNat_of_le wf.tiles.le
      rw [same.stop] at stop
      omega
  · obtain ⟨h, listed⟩ := List.exists_mem_of_ne_nil _ empty
    obtain ⟨c, member, hole, rfl⟩ := mem_holes.mp listed
    have wide := (wf.ok c member).wide
    have large : needed n ≤ blockSize s.mem c.base := by
      rw [(wf.ok c member).header.size, BitVec.le_def]
      unfold Cell.len at wide
      omega
    obtain ⟨i, found⟩ := findSmallestHole_isSome (wf.indexed.entries.symm.subset listed) large
    obtain ⟨inside, -⟩ := findSmallestHole_some found
    rw [alloc_of_found pager found] at ran
    by_cases zero : needed n = 0
    · obtain ⟨d, member', hole', base, size⟩ := hole_of_entry wf inside
      have behind := plain.first (by rw [zero] at little; exact little.symm) d member' hole'
      obtain ⟨e, member'', meets⟩ := exists_in_front wf member' behind
      have low := (wf.layout.bounds e member'').1
      have wide' := (wf.ok e member'').wide
      obtain ⟨v, carved, start, names⟩ := carve_zero wf.indexed zero inside base size
        (wf.ok d member').wide (wf.layout.hi_lt member') (by unfold Cell.hi at meets; omega)
      cases ran.symm.trans carved
      rcases outcome with placed | same
      · exact not_inHeap wf wrapped start placed
      · exact zero_changes wf member' member'' meets names same
    · obtain ⟨v, carved, start, -, index⟩ :=
        carve_total n wf.indexed.order wf.indexed.room inside
      cases ran.symm.trans carved
      rcases outcome with placed | same
      · exact not_inHeap wf wrapped start placed
      · exact wrapped_changes wf wrapped zero inside index same

end Wrapped

/-! ## The guarantee -/

section Exact

variable (pager : Pager ε) (wf : WellFormed s.heap s.mem cells) (mapped : EndMapped pager s)

include wf in
theorem body_toNat (member : c ∈ cells) : (c.base + headerBytes).toNat = c.lo + 12 := by
  have small := wf.layout.hi_lt member
  have wide := (wf.ok c member).wide
  unfold headerBytes
  unfold Cell.hi Cell.lo at *
  bv_omega

include wf in
/-- A hole has room for its own bytes behind the header, even when the heap has grown. -/
theorem inHeap_of_hole {heap : Heap} (start : heap.startAddress = s.heap.startAddress)
    (longer : s.heap.endAddress.toNat ≤ heap.endAddress.toNat) (member : c ∈ cells)
    (hole : c.used = none) (room : n.toNat + 12 ≤ c.len) :
    InHeap heap cells (c.base + headerBytes) n := by
  have body := body_toNat wf member
  have bounds := wf.layout.bounds c member
  refine ⟨?_, ?_, fun d block x low high => ?_⟩
  · rw [body, start]
    omega
  · rw [body]
    unfold Cell.hi at bounds
    omega
  · obtain ⟨member', used⟩ := mem_blocks.mp block
    have apart := wf.layout.apart member member' fun same => used (same ▸ hole)
    rw [body] at low high
    unfold Cell.hi at *
    omega

/-- Behind all blocks there is room for what the heap has grown by. -/
theorem inHeap_behind {heap : Heap} {h : U32} (start : heap.startAddress = s.heap.startAddress)
    (longer : s.heap.endAddress.toNat + (n.toNat + 20) ≤ heap.endAddress.toNat)
    (low : s.heap.startAddress.toNat ≤ h.toNat) (high : h.toNat ≤ s.heap.endAddress.toNat)
    (behind : ∀ d ∈ blocks cells, d.hi ≤ h.toNat) : InHeap heap cells (h + headerBytes) n := by
  have small := heap.endAddress.isLt
  have body : (h + headerBytes).toNat = h.toNat + 12 := by
    unfold headerBytes
    bv_omega
  refine ⟨?_, ?_, fun d block x above _ => ?_⟩
  · rw [body, start]
    omega
  · rw [body]
    omega
  · have below := behind d block
    rw [body] at above
    omega

include wf in
/-- The blocks lie in front of a hole that ends the heap. -/
theorem blocks_in_front (member : c ∈ cells) (hole : c.used = none)
    (last : c.hi = s.heap.endAddress.toNat) : ∀ d ∈ blocks cells, d.hi ≤ c.lo := by
  intro d block
  obtain ⟨member', used⟩ := mem_blocks.mp block
  have bounds := wf.layout.bounds d member'
  have wide := (wf.ok d member').wide
  refine (wf.layout.apart member member' fun same => used (same ▸ hole)).resolve_right fun behind => ?_
  unfold Cell.hi at *
  omega

include wf mapped in
/-- The condition is enough. -/
theorem handled_of_servable (servable : Servable s cells n) : Handled pager s cells n := by
  obtain ⟨noWrap, served⟩ := servable
  have need := needed_toNat noWrap
  by_cases large : ∃ c ∈ cells, c.used = none ∧ n.toNat + 20 ≤ c.len
  · obtain ⟨h, member, hole, enough⟩ := large
    obtain ⟨before, c, after, i, m, size, rfl, fitting, ran, -⟩ :=
      alloc_carved pager wf noWrap member hole enough
    have enough' := fitting.large
    refine ⟨_, _, ran, Or.inl ?_⟩
    exact inHeap_of_hole wf rfl (Nat.le_refl _) (by simp) fitting.hole (by omega)
  · obtain ⟨space, ends⟩ := served.resolve_left large
    rw [← wrappedLength_eq noWrap] at space
    have proper := wf.tiles.le
    have length := length_toNat_of_le proper
    have covered : s.length.toNat + (needed n).toNat ≤ wrappedLength s n := le_roundedLength _
    by_cases empty : holes cells = []
    · obtain ⟨u, enlarged⟩ := enlarged_new pager wf mapped space empty (by omega)
      obtain ⟨v, ran, start, stop⟩ := enlarged.alloc
      refine ⟨_, v, ran, Or.inl (inHeap_behind start (by omega) proper (Nat.le_refl _) ?_)⟩
      exact fun d block => (wf.layout.bounds d (mem_blocks.mp block).1).2
    · have small : ∀ c ∈ cells, c.used = none → c.len < (needed n).toNat := by
        intro c member hole
        by_contra enough
        exact large ⟨c, member, hole, by omega⟩
      obtain ⟨c, u, highest, enlarged⟩ := enlarged_highest pager wf mapped space noWrap empty small
      obtain ⟨v, ran, start, stop⟩ := enlarged.alloc
      have bounds := wf.layout.bounds c highest.member
      refine ⟨_, v, ran, Or.inl ?_⟩
      rcases ends c highest with last | room
      · exact inHeap_behind start (by omega) bounds.1 (Nat.le_trans (Nat.le_add_right _ _) bounds.2)
          (blocks_in_front wf highest.member highest.hole last)
      · exact inHeap_of_hole wf start (by omega) highest.member highest.hole room

include wf in
/-- A cell that does not end the heap has a cell behind it. -/
theorem exists_behind (member : c ∈ cells) (short : c.hi ≠ s.heap.endAddress.toNat) :
    ∃ d ∈ cells, d.lo = c.hi := by
  obtain ⟨before, after, rfl⟩ := List.append_of_mem member
  obtain ⟨-, last⟩ := tiles_middle.mp wf.tiles
  cases after with
  | nil => exact absurd last short
  | cons d rest => exact ⟨d, by simp, last.1⟩

include wf in
/-- Behind the highest hole there is a block, if anything. -/
theorem room_of_inHeap {heap : Heap} (highest : HighestHole cells c)
    (short : c.hi ≠ s.heap.endAddress.toNat)
    (placed : InHeap heap cells (c.base + headerBytes) n) : n.toNat + 12 ≤ c.len := by
  obtain ⟨d, member, meets⟩ := exists_behind wf highest.member short
  have wide := (wf.ok c highest.member).wide
  have wide' := (wf.ok d member).wide
  have block : d.used ≠ none := by
    intro hole
    have most := highest.most d member hole
    unfold Cell.hi at meets
    omega
  have apart := placed.apart d (mem_blocks.mpr ⟨member, block⟩) c.hi
  rw [body_toNat wf highest.member] at apart
  unfold Cell.hi at *
  omega

include wf mapped in
/-- It is necessary on plain requests. -/
theorem servable_of_handled (plain : Plain s cells n) (handled : Handled pager s cells n) :
    Servable s cells n := by
  have most := n.isLt
  by_cases noWrap : n.toNat + 20 < 2 ^ 32
  · refine ⟨noWrap, ?_⟩
    by_cases large : ∃ c ∈ cells, c.used = none ∧ n.toNat + 20 ≤ c.len
    · exact Or.inl large
    · have need := needed_toNat noWrap
      have small : ∀ c ∈ cells, c.used = none → c.len < (needed n).toNat := by
        intro c member hole
        by_contra enough
        exact large ⟨c, member, hole, by omega⟩
      obtain ⟨p, w, ran, outcome⟩ := handled
      obtain ⟨space, wide⟩ := (plain.growth small).resolve_right fun ⟨same, c, member, hole⟩ => by
        rw [alloc_diverges pager wf member hole same small] at ran
        cases ran
      refine Or.inr ⟨wrappedLength_eq noWrap ▸ space, fun c highest => ?_⟩
      by_contra neither
      have listed : holes cells ≠ [] := fun empty =>
        holes_eq_nil_iff.mp empty c highest.member highest.hole
      obtain ⟨c', u, highest', enlarged⟩ := enlarged_highest pager wf mapped space noWrap listed small
      obtain ⟨v, ran', start, stop⟩ := enlarged.alloc
      cases ran.symm.trans ran'
      obtain rfl := highest.unique wf.layout highest'
      rcases outcome with placed | same
      · exact neither (Or.inr (room_of_inHeap wf highest (fun last => neither (Or.inl last)) placed))
      · have length := length_toNat_of_le wf.tiles.le
        rw [same.stop] at stop
        omega
  · exact absurd handled (wrapped_unhandled wf (Nat.not_lt.mp noWrap) pager mapped plain)

end Exact

/-- On a well-formed heap, every request that meets the condition is handled, and a plain
request is handled exactly if it does. -/
theorem alloc_handled_iff (pager : Pager ε) (wf : WellFormed s.heap s.mem cells)
    (mapped : EndMapped pager s) :
    (Servable s cells n → Handled pager s cells n) ∧
      (Plain s cells n → (Handled pager s cells n ↔ Servable s cells n)) :=
  ⟨handled_of_servable pager wf mapped, fun plain =>
    ⟨servable_of_handled pager wf mapped plain, handled_of_servable pager wf mapped⟩⟩

/-- Requests for 16 bytes and for 16 bytes less than the address space. -/
theorem alloc_handled_twoBlocks :
    Handled loggingPager twoBlocks [lowBlock, highBlock] 16 ∧
      ¬ Handled loggingPager twoBlocks [lowBlock, highBlock] 0xfffffff0 := by
  have full : ∀ c ∈ [lowBlock, highBlock], c.used ≠ none := by decide
  have exact' := fun n => alloc_handled_iff (n := n) loggingPager twoBlocks_wellFormed
    (Or.inl (by decide))
  constructor
  · refine (exact' 16).1 ⟨by decide, Or.inr ⟨by decide, fun c highest => ?_⟩⟩
    exact absurd highest.hole (full c highest.member)
  · have plain : Plain twoBlocks [lowBlock, highBlock] 0xfffffff0 :=
      ⟨fun _ => Or.inl (by decide), fun wraps => absurd wraps (by decide)⟩
    intro handled
    exact absurd (((exact' 0xfffffff0).2 plain).mp handled).1 (by decide)

/-- The first request of the kernel, for 16 bytes less than the address space. -/
theorem first_oversized_misplaced : ∃ m heap,
    createHeap 0x300000 0x400000 0xCFFFF000 (fun _ => 0) = some (m, heap) ∧
      WellFormed heap m [wholeHeap 0x300000 0x400000] ∧
      ¬ Handled loggingPager { mem := m, paging := [], heap := heap } [wholeHeap 0x300000 0x400000]
        0xfffffff0 := by
  obtain ⟨m, heap, created, -, stop, -, wf⟩ := @createHeap_wellFormed 0x300000 0x400000 (by decide)
    (by decide) 0xCFFFF000 fun _ => 0
  refine ⟨m, heap, created, wf, wrapped_unhandled wf (by decide) loggingPager (Or.inl ?_) ?_⟩
  · change heap.endAddress.toNat % 0x1000 = 0
    rw [stop]
    decide
  · refine ⟨fun small => ?_, fun wraps => absurd wraps (by decide)⟩
    exact absurd (small _ (List.mem_singleton.mpr rfl) rfl) (by decide)

end BlessOS.Guarantees.HeapOversize
