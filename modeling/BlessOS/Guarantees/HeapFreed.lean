import BlessOS.Guarantees.HeapWellFormed

/-!
# Freeing in a well-formed heap

When every footer is its own and no `HEAP_MAGIC` word lies just outside of the heap,
the tests of `free` are exact: each passes when the neighbour on that side is a hole.
So the hole that is made takes in the block and the holes beside it, and `Cut` says
what the contraction does with it, however little is left at the end of the heap.
-/

set_option autoImplicit false

namespace BlessOS.Guarantees.HeapFreed
open BlessOS.Lib.ByteMemory BlessOS.Lib.Tiling
open BlessOS.Source BlessOS.Source.OrderedArray BlessOS.Source.Kheap
open BlessOS.Guarantees.OrderedArrayItems BlessOS.Guarantees.HeapLayout
open BlessOS.Guarantees.HeapInvariant BlessOS.Guarantees.HeapBounds BlessOS.Guarantees.HeapGrow
open BlessOS.Guarantees.HeapUnify BlessOS.Guarantees.HeapFree BlessOS.Guarantees.HeapWellFormed

variable {ε : Type} {s : HeapState ε} {before after front back : List Cell} {c e : Cell} {p : U32}

/-- No footer ends where the heap begins, and no header begins where it ends. -/
structure Bordered (s : HeapState ε) : Prop where
  below : footerMagic s.mem (s.heap.startAddress - footerBytes) ≠ heapMagic
  above : headerMagic s.mem s.heap.endAddress ≠ heapMagic

/-- The same where `free` looks outside: in front of the first cell and behind the last. -/
structure Fenced (s : HeapState ε) (before after : List Cell) : Prop where
  below : before = [] → footerMagic s.mem (s.heap.startAddress - footerBytes) ≠ heapMagic
  above : after = [] → headerMagic s.mem s.heap.endAddress ≠ heapMagic

theorem Bordered.fenced (bordered : Bordered s) : Fenced s before after :=
  ⟨fun _ => bordered.below, fun _ => bordered.above⟩

/-- The header of the hole that the block of `c` becomes part of. -/
def leftEdge (before : List Cell) (c : Cell) : U32 :=
  match before.getLast? with
  | none => c.base
  | some l => if l.used = none then l.base else c.base

/-- The hole that is made ends the heap. -/
def EndsHeap (after : List Cell) : Prop := after.length ≤ 1 ∧ ∀ r ∈ after, r.used = none

instance (after : List Cell) : Decidable (EndsHeap after) := by
  unfold EndsHeap
  infer_instance

theorem flag_eq_one : c.flag = 1 ↔ c.used = none := by
  unfold Cell.flag
  split
  · next hole => exact ⟨fun _ => hole, fun _ => rfl⟩
  · next block => exact ⟨fun one => absurd one (by decide), fun hole => absurd hole block⟩

/-! ## The tests -/

section Tests

variable (wf : WellFormed s.heap s.mem (before ++ c :: after)) (pointer : p = c.base + headerBytes)

include wf in
theorem header_room : 0x80000 ≤ c.base.toNat ∧ c.base.toNat + 12 ≤ c.hi ∧ c.hi < 2 ^ 32 := by
  have small := wf.layout.hi_lt (c := c) (by simp)
  have bounds := wf.layout.bounds c (by simp)
  have wide := (wf.ok c (by simp)).wide
  have area := wf.indexed.area
  unfold Cell.hi Cell.lo at *
  omega

include wf pointer in
theorem proper_pointer : p ≠ 0 :=
  pointer_ne_zero pointer (wf.ok c (by simp)).wide (Nat.le_of_lt (header_room wf).2.2)

include wf pointer in
theorem marks : AgreeOff c.base.toNat (c.base.toNat + 12) s.mem (marked s p) := by
  have room := header_room wf
  exact marked_agreeOff pointer (by omega)

include wf pointer in
/-- The mark does not change what the index lists. -/
theorem items_marked : items s.heap.index (marked s p) = items s.heap.index s.mem := by
  have bounds := wf.layout.bounds c (by simp)
  exact wf.indexed.items_frame ((marks wf pointer).on
    (Or.inl (Nat.le_trans wf.indexed.area bounds.1)))

include wf pointer in
/-- The footer on the left is that of the left neighbour. -/
theorem left_own {l : Cell} (last : before = front ++ [l]) :
    c.base - footerBytes = l.foot ∧ l.hi = c.lo ∧ OwnFooter (marked s p) l ∧
      HeaderOk (marked s p) l := by
  subst last
  have room := header_room wf
  obtain ⟨adjacent, ok, -⟩ := left_neighbour wf.layout
  have top := (wf.layout.bounds c (by simp)).2
  have ok' := wf.ok l (by simp)
  have agree : AgreeOn l.lo l.hi s.mem (marked s p) :=
    (marks wf pointer).on (Or.inl (Nat.le_of_eq adjacent))
  have inner : l.hi ≠ s.heap.endAddress.toNat := by
    unfold Cell.lo at adjacent
    omega
  have small : l.hi ≤ 2 ^ 32 := by
    unfold Cell.lo at adjacent
    omega
  exact ⟨left_foot adjacent, adjacent, (ok'.footer (Or.inr inner)).frame ok'.wide small agree,
    ok'.header.frame ok'.wide small agree⟩

include wf pointer in
theorem left_names {l : Cell} (last : before = front ++ [l]) :
    leftHeader (marked s p) c.base = l.base := by
  obtain ⟨foot, -, own, -⟩ := left_own wf pointer last
  unfold leftHeader
  rw [foot]
  exact own.names

variable (fenced : Fenced s before after)

include wf pointer fenced in
/-- The test on the left passes when the left neighbour is a hole. -/
theorem leftTest_iff : leftTest (marked s p) c.base ↔
    ∃ front l, before = front ++ [l] ∧ l.used = none := by
  rcases List.eq_nil_or_concat' before with nothing | ⟨front, l, last⟩
  · constructor
    · rintro ⟨magic, -⟩
      have room := header_room wf
      have first : c.base.toNat = s.heap.startAddress.toNat := by
        rw [nothing] at wf
        exact wf.tiles.1
      have base : c.base = s.heap.startAddress := BitVec.eq_of_toNat_eq first
      have kept : footerMagic (marked s p) (c.base - footerBytes) =
          footerMagic s.mem (c.base - footerBytes) := by
        unfold footerBytes
        exact (marks wf pointer).load32 fun k small => by bv_omega
      rw [kept, base] at magic
      exact absurd magic (fenced.below nothing)
    · rintro ⟨front, l, last, -⟩
      rw [nothing] at last
      exact absurd last (by simp)
  · obtain ⟨foot, -, own, top⟩ := left_own wf pointer last
    have names := left_names wf pointer last
    have test : leftTest (marked s p) c.base ↔ l.used = none := by
      unfold leftTest
      rw [names, foot, top.flag, flag_eq_one]
      exact and_iff_right own.magic
    rw [test]
    constructor
    · intro hole
      exact ⟨front, l, last, hole⟩
    · rintro ⟨front', l', last', hole⟩
      rw [last] at last'
      rw [(List.append_singleton_inj.mp last').2]
      exact hole

include wf pointer fenced in
/-- The test on the right passes when the right neighbour is a hole. -/
theorem rightTest_iff : rightTest (marked s p) (rightHeader (marked s p) c.base) ↔
    ∃ r back, after = r :: back ∧ r.used = none := by
  have room := header_room wf
  have header : p - headerBytes = c.base := by rw [pointer, BitVec.add_sub_cancel]
  have behind := rightHeader_toNat wf.layout pointer
  rw [header] at behind
  obtain ⟨magic, flag, -⟩ := header_behind (marks wf pointer) (by omega)
    (h := rightHeader (marked s p) c.base) (by omega)
  unfold rightTest
  rw [magic, flag]
  cases after with
  | nil =>
    have last : c.hi = s.heap.endAddress.toNat := (tiles_middle.mp wf.tiles).2
    have ends : rightHeader (marked s p) c.base = s.heap.endAddress :=
      BitVec.eq_of_toNat_eq (behind.trans last)
    rw [ends]
    constructor
    · rintro ⟨magic, -⟩
      exact absurd magic (fenced.above rfl)
    · rintro ⟨r, back, nothing, -⟩
      cases nothing
  | cons r back =>
    obtain ⟨adjacent, -⟩ := right_neighbour wf.layout
    have top := (wf.ok r (by simp)).header
    have base : rightHeader (marked s p) c.base = r.base :=
      BitVec.eq_of_toNat_eq (behind.trans adjacent)
    rw [base, top.flag]
    constructor
    · rintro ⟨-, flag⟩
      refine ⟨r, back, rfl, ?_⟩
      by_contra block
      exact flag (if_neg block)
    · rintro ⟨r', back', row, hole⟩
      obtain ⟨rfl, -⟩ := List.cons.inj row
      exact ⟨top.magic, by rw [flag_eq_one.mpr hole]; decide⟩

include wf pointer fenced in
theorem mergedHeader_eq : mergedHeader (marked s p) c.base = leftEdge before c := by
  have test := leftTest_iff wf pointer fenced
  unfold mergedHeader leftEdge
  rcases List.eq_nil_or_concat' before with nothing | ⟨front, l, last⟩
  · have no : ¬ leftTest (marked s p) c.base := by
      rw [test, nothing]
      rintro ⟨front, l, last, -⟩
      exact absurd last (by simp)
    rw [if_neg no, nothing]
    rfl
  · rw [left_names wf pointer last, last, List.getLast?_concat]
    refine if_congr ?_ rfl rfl
    rw [test, last]
    constructor
    · rintro ⟨front', l', last', hole⟩
      rw [(List.append_singleton_inj.mp last').2]
      exact hole
    · intro hole
      exact ⟨front, l, rfl, hole⟩

include wf pointer in
/-- The mark leaves the holes listed. -/
theorem listed_marked {x : Cell} (member : x ∈ before ++ c :: after) (hole : x.used = none) :
    x.base ∈ items s.heap.index (marked s p) := by
  rw [items_marked wf pointer]
  exact wf.indexed.entries.symm.subset (mem_holes.mpr ⟨x, member, hole, rfl⟩)

include wf pointer fenced in
theorem left_listed : LeftListed s.heap.index (marked s p) c.base := by
  intro test
  obtain ⟨front, l, last, hole⟩ := (leftTest_iff wf pointer fenced).mp test
  obtain ⟨-, adjacent, -, top⟩ := left_own wf pointer last
  rw [left_names wf pointer last, top.size]
  exact ⟨listed_marked wf pointer (by simp [last]) hole, adjacent⟩

include wf pointer fenced in
theorem right_listed (test : rightTest (marked s p) (rightHeader (marked s p) c.base)) :
    rightHeader (marked s p) c.base ∈ items s.heap.index (marked s p) := by
  have header : p - headerBytes = c.base := by rw [pointer, BitVec.add_sub_cancel]
  obtain ⟨r, back, rfl, hole⟩ := (rightTest_iff wf pointer fenced).mp test
  have behind := rightHeader_toNat wf.layout pointer
  rw [header] at behind
  obtain ⟨adjacent, -⟩ := right_neighbour wf.layout
  have base : rightHeader (marked s p) c.base = r.base :=
    BitVec.eq_of_toNat_eq (behind.trans adjacent)
  rw [base]
  exact listed_marked wf pointer (by simp) hole

include wf pointer fenced in
theorem unified_exact (block : c.used ≠ none) :
    ∃ front e back, Unified s p before c after front e back ∧
      (¬ rightTest (marked s p) (rightHeader (marked s p) (p - headerBytes)) →
        OwnFooter (unified p s).2.mem e) := by
  have header : p - headerBytes = c.base := by rw [pointer, BitVec.add_sub_cancel]
  refine unified_spec wf.layout wf.indexed block pointer ?_ ?_
  · rw [header]
    exact left_listed wf pointer fenced
  · rw [header]
    exact right_listed wf pointer fenced

end Tests

/-! ## The cells around the hole -/

section Around

variable (wf : WellFormed s.heap s.mem (before ++ c :: after)) (pointer : p = c.base + headerBytes)
  (fenced : Fenced s before after) (made : Unified s p before c after front e back)

include made in
/-- Blocks other than the one that is freed stay. -/
theorem live_kept {d : Cell} (member : d ∈ before ++ after) (block : d.used ≠ none) :
    d ∈ front ++ back := by
  rcases List.mem_append.mp member with early | late
  · exact List.mem_append_left _ (made.left.subset early block)
  · exact List.mem_append_right _ (made.right.subset late block)

include wf pointer fenced made in
theorem edge_base : e.base = leftEdge before c := by
  have header : p - headerBytes = c.base := by rw [pointer, BitVec.add_sub_cancel]
  rw [made.base, header, mergedHeader_eq wf pointer fenced]

include wf pointer fenced made in
/-- Nothing is behind the hole when it ends the heap, and only then. -/
theorem back_nil_iff : back = [] ↔ EndsHeap after := by
  have header : p - headerBytes = c.base := by rw [pointer, BitVec.add_sub_cancel]
  have right := made.right
  have test := rightTest_iff wf pointer fenced
  unfold RightOf at right
  rw [header] at right
  unfold EndsHeap
  split at right
  · obtain ⟨r, rfl, hole⟩ := right
    simp only [List.length_cons, List.mem_cons, forall_eq_or_imp, hole, true_and]
    constructor
    · rintro rfl
      simp
    · rintro ⟨short, -⟩
      exact List.eq_nil_of_length_eq_zero (by omega)
  · next no =>
    rw [← right]
    constructor
    · rintro rfl
      simp
    · rintro ⟨short, holes⟩
      cases after with
      | nil => rfl
      | cons r rest => exact absurd (test.mpr ⟨r, rest, rfl, holes r (by simp)⟩) no

include made in
theorem unified_end : (unified p s).2.heap.endAddress = s.heap.endAddress := by
  rw [made.heap]
  rfl

include made in
theorem unified_start : (unified p s).2.heap.startAddress = s.heap.startAddress :=
  made.joining.start

include made in
/-- The hole reaches the end of the heap when nothing is behind it. -/
theorem top_iff : e.hi = s.heap.endAddress.toNat ↔ back = [] := by
  obtain ⟨-, last⟩ := tiles_middle.mp made.joining.layout.tiles
  rw [unified_end made] at last
  constructor
  · intro ends
    refine last.eq_nil_of_end (fun x member => ?_) ends
    have wide := (made.joining.layout.ok x (by simp [member])).wide
    omega
  · rintro rfl
    exact last

end Around

/-! ## The contraction -/

/-- What `trim` leaves of the heap, whether or not the hole ends it. -/
structure Cut (pager : Pager ε) (s : HeapState ε) (p : U32) (e : Cell) (back : List Cell)
    (t : HeapState ε) : Prop where
  trimmed : trim pager (unified p s).1 (unified p s).2 = some t
  heap : t.heap = { (unified p s).2.heap with endAddress := t.heap.endAddress }
  stop : t.heap.endAddress.toNat =
    if back = [] then
      s.heap.startAddress.toNat + contractedLength (e.base - s.heap.startAddress).toNat
    else s.heap.endAddress.toNat
  /-- Writes reach into the last bytes in front of the hole at most. -/
  frame : ∃ low, s.heap.startAddress.toNat ≤ low ∧ e.lo ≤ low + 7 ∧
    AgreeOff low e.hi (unified p s).2.mem t.mem
  /-- The pages that are given up lie between the new end and the old one. -/
  pages : ∃ removed : List U32,
    t.paging = removed.foldl (fun paging a => pager.removePage a paging) s.paging ∧
      ∀ a ∈ removed, back = [] ∧ ∀ x : U32, x.toNat / 0x1000 = a.toNat / 0x1000 →
        e.lo < x.toNat ∧ x.toNat < s.heap.endAddress.toNat

section Contraction

variable (pager : Pager ε) (made : Unified s p before c after front e back)
  (pages : s.length.toNat % 0x1000 = 0) (long : 0x8000 ≤ s.length.toNat)

include made in
/-- The length of the heap when it is contracted, and where the hole begins in it. -/
theorem unified_length : (unified p s).2.length = s.length ∧
    s.heap.startAddress.toNat + s.length.toNat = s.heap.endAddress.toNat ∧
    s.heap.startAddress.toNat + (e.base - s.heap.startAddress).toNat = e.lo ∧
    0x80000 ≤ s.heap.startAddress.toNat := by
  have start := unified_start made
  have stop := unified_end made
  have bounds := made.joining.bounds
  have area := made.joining.indexed.area
  rw [start, stop] at bounds
  rw [start] at area
  have length : (unified p s).2.length = s.length := by
    unfold HeapState.length
    rw [start, stop]
  have whole := length_toNat_of_le (s := s) (by unfold Cell.hi at bounds; omega)
  refine ⟨length, by unfold Cell.hi at bounds; omega, ?_, by omega⟩
  unfold Cell.hi Cell.lo at *
  bv_omega

include made pages in
/-- The pages between the new end and the old one are removed, from the top. -/
theorem removed_pages {t : HeapState ε} {offset : U32} (nothing : back = [])
    (offsetEq : e.base - s.heap.startAddress = offset)
    (cut : Trimmed pager e offset (unified p s).2 t) : ∃ removed : List U32,
      t.paging = removed.foldl (fun paging a => pager.removePage a paging) s.paging ∧
        ∀ a ∈ removed, ∀ x : U32, x.toNat / 0x1000 = a.toNat / 0x1000 →
          e.lo < x.toNat ∧ x.toNat < s.heap.endAddress.toNat := by
  obtain ⟨length, whole, place, -⟩ := unified_length made
  have start := unified_start made
  have ends := (top_iff made).mpr nothing
  have wide := made.joining.ok.wide
  rw [offsetEq] at place
  have inside : offset.toNat < s.length.toNat := by
    unfold Cell.hi at ends
    omega
  obtain ⟨size, sizeMod, -, longer, most⟩ := contractedSize_spec inside pages
  obtain ⟨paging, contracted, removed, folded, between⟩ := contract_rule pager
    (fun t => ∃ removed : List U32,
      t.paging = removed.foldl (fun paging a => pager.removePage a paging) s.paging ∧
        ∀ a ∈ removed, ∀ x : U32, x.toNat / 0x1000 = a.toNat / 0x1000 →
          e.lo < x.toNat ∧ x.toNat < s.heap.endAddress.toNat)
    offset (by rw [length]; exact pages) (by rw [length]; exact inside)
    (fun i t aligned above below same ⟨removed, folded, between⟩ => by
      have above' : (contractedSize offset).toNat < i.toNat := above
      rw [length] at below
      have address : (s.heap.startAddress + i).toNat = s.heap.startAddress.toNat + i.toNat := by
        rw [BitVec.toNat_add]
        omega
      refine ⟨removed ++ [s.heap.startAddress + i], ?_, fun a member x page => ?_⟩
      · rw [List.foldl_append, ← folded, start]
        rfl
      · rcases List.mem_append.mp member with early | last
        · exact between a early x page
        · rw [List.mem_singleton.mp last, address] at page
          omega)
    ⟨[], made.paging, fun a member => by cases member⟩
  have same := cut.contracted.symm.trans contracted
  have final : t.paging = paging := congrArg (fun r => r.2.paging) (Option.some.inj same)
  exact ⟨removed, final.trans folded, between⟩

include made pages long in
theorem cut_spec : ∃ t, Cut pager s p e back t := by
  have behind := made.joining.behind_toNat
  have stop := unified_end made
  have start := unified_start made
  have ends := top_iff made
  obtain ⟨length, whole, place, low⟩ := unified_length made
  have wide := made.joining.ok.wide
  have small := s.heap.endAddress.isLt
  by_cases nothing : back = []
  · have top := ends.mpr nothing
    have footer : (unified p s).1.footer + footerBytes = (unified p s).2.heap.endAddress := by
      rw [stop]
      exact BitVec.eq_of_toNat_eq (behind.trans top)
    obtain ⟨t, trimmed, -, cut⟩ := trim_spec pager made.joining footer
      (by rw [start]) (by rw [length]; exact pages) (by rw [start]; omega)
    obtain ⟨removed, folded, between⟩ := removed_pages pager made pages nothing rfl cut
    have newEnd := cut.stop
    have newTop := cut.top
    have some := cut.some
    rw [start] at newEnd
    have inside : (e.base - s.heap.startAddress).toNat < s.length.toNat := by
      unfold Cell.hi at top
      omega
    obtain ⟨-, -, least, -, most⟩ := contractedSize_spec inside pages
    have lo : (remnant e (e.base - s.heap.startAddress)).lo = e.lo := rfl
    refine ⟨t, trimmed, by rw [cut.heap], by rw [if_pos nothing]; exact newEnd, ?_,
      removed, folded, fun a member => ⟨nothing, between a member⟩⟩
    by_cases enough : 20 ≤ (remnant e (e.base - s.heap.startAddress)).len
    · refine ⟨e.lo, by omega, by omega, ?_⟩
      rw [cut.mem]
      have written : AgreeOff e.lo (remnant e (e.base - s.heap.startAddress)).hi (unified p s).2.mem
          (resizeCell (remnant e (e.base - s.heap.startAddress)) (unified p s).2.mem) :=
        resizeCell_agreeOff enough (by omega)
      exact written.mono (Nat.le_refl _) (by omega)
    · -- little is left only when the hole is far from the start of the heap
      have far : 0x7000 ≤ (e.base - s.heap.startAddress).toNat := by
        unfold Cell.hi at newTop
        omega
      have reach : e.lo + 12 ≤ e.hi := by
        unfold Cell.hi
        omega
      refine ⟨e.lo - 7, by omega, by omega, ?_⟩
      rw [cut.mem, ← lo]
      exact resizeCell_near some (by omega) (by omega) (by omega) (by omega)
  · have footer : (unified p s).1.footer + footerBytes ≠ (unified p s).2.heap.endAddress := by
      rw [stop]
      intro same
      rw [same] at behind
      exact nothing (ends.mp behind.symm)
    refine ⟨_, trim_no pager footer, rfl, by rw [if_neg nothing, stop], ?_, [], made.paging,
      fun a member => by cases member⟩
    exact ⟨e.lo, by omega, by omega, AgreeOff.refl _ _ _⟩

end Contraction

/-- The hole that is left in the end. -/
def keptHole (s : HeapState ε) (e : Cell) (back : List Cell) : Cell :=
  if back = [] then remnant e (e.base - s.heap.startAddress) else e

theorem keptHole_base : (keptHole s e back).base = e.base := by
  unfold keptHole
  split <;> rfl

section Kept

variable {pager : Pager ε} {t : HeapState ε} (made : Unified s p before c after front e back)
  (cut : Cut pager s p e back t)

include made cut in
/-- The hole fits into the new bounds of the heap, whatever its size. -/
theorem keptHole_hi (pages : s.length.toNat % 0x1000 = 0)
    (nothing : back = []) : (keptHole s e back).hi = t.heap.endAddress.toNat ∧
      (keptHole s e back).len = contractedLength (e.base - s.heap.startAddress).toNat -
        (e.base - s.heap.startAddress).toNat := by
  obtain ⟨length, whole, place, low⟩ := unified_length made
  have stop := cut.stop
  have top := (top_iff made).mpr nothing
  have wide := made.joining.ok.wide
  rw [if_pos nothing] at stop
  have inside : (e.base - s.heap.startAddress).toNat < s.length.toNat := by
    unfold Cell.hi at top
    omega
  obtain ⟨size, -, -, longer, most⟩ := contractedSize_spec inside pages
  have len : (remnant e (e.base - s.heap.startAddress)).len =
      contractedLength (e.base - s.heap.startAddress).toNat -
        (e.base - s.heap.startAddress).toNat := by
    change (contractedSize (e.base - s.heap.startAddress) - (e.base - s.heap.startAddress)).toNat = _
    bv_omega
  unfold keptHole
  rw [if_pos nothing]
  refine ⟨?_, len⟩
  change e.lo + (remnant e (e.base - s.heap.startAddress)).len = t.heap.endAddress.toNat
  omega

include made cut in
/-- When enough is left of it, the hole is a cell of the heap. -/
theorem cut_layout (pages : s.length.toNat % 0x1000 = 0) (long : 0x8000 ≤ s.length.toNat)
    (wide : 20 ≤ (keptHole s e back).len) :
    Layout t.heap t.mem (front ++ keptHole s e back :: back) := by
  have start := unified_start made
  have stop := unified_end made
  have ends := top_iff made
  have behind := made.joining.behind_toNat
  obtain ⟨length, whole, place, low⟩ := unified_length made
  have small := s.heap.endAddress.isLt
  have trimmed := cut.trimmed
  unfold keptHole at wide ⊢
  by_cases nothing : back = []
  · rw [if_pos nothing] at wide ⊢
    have footer : (unified p s).1.footer + footerBytes = (unified p s).2.heap.endAddress := by
      rw [stop]
      exact BitVec.eq_of_toNat_eq (behind.trans (ends.mpr nothing))
    obtain ⟨t', trimmed', -, -, joining, -⟩ := trim_end pager made.joining footer
       (by rw [start]) (by rw [length]; exact pages) wide
      (by rw [start]; omega)
    rw [Option.some.inj (trimmed.symm.trans trimmed')]
    exact joining.layout
  · rw [if_neg nothing] at wide ⊢
    have footer : (unified p s).1.footer + footerBytes ≠ (unified p s).2.heap.endAddress := by
      rw [stop]
      intro same
      rw [same] at behind
      exact nothing (ends.mp behind.symm)
    rw [Option.some.inj (trimmed.symm.trans (trim_no pager footer))]
    exact made.joining.layout

end Kept

/-! ## The index -/

section Index

variable {pager : Pager ε} {t : HeapState ε} (made : Unified s p before c after front e back)
  (cut : Cut pager s p e back t)

include made cut in
/-- The contraction leaves the index alone. -/
theorem cut_indexed : Indexed t.heap t.mem
    (holes front ++ ((if (unified p s).1.doAdd then [] else [e.base]) ++ holes back)) := by
  obtain ⟨low, above, -, agree⟩ := cut.frame
  have indexed := made.joining.indexed
  have start := unified_start made
  have area := indexed.area
  rw [start] at area
  obtain ⟨order, area', below, few, entries⟩ :=
    indexed.frame (agree.on (Or.inl (Nat.le_trans area above)))
  rw [cut.heap]
  exact ⟨order, area', below, few, entries⟩

include made cut in
theorem cut_start : t.heap.startAddress = s.heap.startAddress := by
  rw [cut.heap]
  exact unified_start made

include made cut in
/-- The index has grown no fuller, and is less full when a hole on the right left it. -/
theorem cut_count : t.heap.index.size.toNat ≤ s.heap.index.size.toNat ∧
    (t.heap.index.size.toNat = s.heap.index.size.toNat →
      ¬ rightTest (marked s p) (rightHeader (marked s p) (p - headerBytes))) := by
  have count := made.count
  have size : t.heap.index.size = (unified p s).2.heap.index.size := by rw [cut.heap]
  rw [size]
  split at count
  · exact ⟨by omega, fun same => by omega⟩
  · next no => exact ⟨Nat.le_of_eq (congrArg BitVec.toNat count), fun _ => no⟩

include made cut in
/-- `free` from here on. -/
theorem free_of_cut (wf : WellFormed s.heap s.mem (before ++ c :: after))
    (pointer : p = c.base + headerBytes) : free pager p s =
      if (unified p s).1.doAdd then t.insertHole e.base else some t := by
  rw [free_eq pager (proper_pointer wf pointer), cut.trimmed, made.joining.header]
  rfl

include made cut in
/-- Of a block that stays, `trim` may overwrite the footer and nothing else. -/
theorem cut_frame {d : Cell} (member : d ∈ front ++ back) :
    AgreeOn d.lo (d.hi - 8) s.mem t.mem := by
  obtain ⟨low, -, near, agree⟩ := cut.frame
  have apart := made.joining.apart member
  exact ((made.frame d member).mono (Nat.le_refl _) (by omega)).trans (agree.on (by omega))

end Index

/-! ## Two blocks -/

/-- A block of `0x7ff0` bytes at the start of the kernel heap. -/
def lowBlock : Cell := { base := 0x380000, size := 0x7ff0, used := some 0x7fdc }

/-- The block behind it, up to the end of the heap. -/
def highBlock : Cell := { base := 0x387ff0, size := 0x2010, used := some 0x1ffc }

/-- A heap of these two blocks, with an empty index. -/
def twoBlocks : HeapState (List U32) :=
  { mem := writeCell highBlock (writeCell lowBlock fun _ => 0)
    paging := []
    heap :=
      { index := { array := 0x300000, size := 0, maxSize := heapIndexSize,
                   lessThan := some headerLessThan }
        startAddress := 0x380000
        endAddress := 0x38a000
        maxAddress := 0xCFFFF000 } }

/-- Page functions that record the pages that are removed. -/
def loggingPager : Pager (List U32) where
  getPageAddr _ _ := 0
  getFreePage paging := (0, paging)
  putPage _ _ paging := (0, paging)
  removePage a paging := paging ++ [a]
  behind _ := fun _ => 0

theorem twoBlocks_agreeOff :
    AgreeOff 0x380000 0x38a000 (fun _ => 0) twoBlocks.mem :=
  ((writeCell_agreeOff (c := lowBlock) (by decide) (by decide)).mono (by decide) (by decide)).trans
    ((writeCell_agreeOff (c := highBlock) (by decide) (by decide)).mono (by decide) (by decide))

theorem twoBlocks_wellFormed : WellFormed twoBlocks.heap twoBlocks.mem [lowBlock, highBlock] := by
  have low : BlockOk twoBlocks.mem twoBlocks.heap.endAddress.toNat lowBlock := by
    refine (writeCell_block (by decide) (by decide) fun n used => ?_).frame (by decide)
      ((writeCell_agreeOff (c := highBlock) (by decide) (by decide)).on (by decide))
    cases used
    decide
  have high : BlockOk twoBlocks.mem twoBlocks.heap.endAddress.toNat highBlock := by
    refine writeCell_block (by decide) (by decide) fun n used => ?_
    cases used
    decide
  refine ⟨⟨rfl, rfl, rfl⟩, fun c member => ?_, ⟨rfl, by decide, by decide, by decide, List.Perm.refl _⟩⟩
  rcases List.mem_cons.mp member with rfl | member
  · exact low
  · rw [List.mem_singleton.mp member]
    exact high

theorem twoBlocks_bordered : Bordered twoBlocks := by
  have agree := twoBlocks_agreeOff
  constructor
  · have kept : footerMagic twoBlocks.mem (0x380000 - footerBytes) = 0 :=
      (footerMagic_congr (agree.on (by decide)) (by decide)).trans (by decide)
    exact fun same => absurd (kept.symm.trans same) (by decide)
  · have kept : headerMagic twoBlocks.mem 0x38a000 = 0 :=
      (headerMagic_congr (agree.on (by decide)) (by decide)).trans (by decide)
    exact fun same => absurd (kept.symm.trans same) (by decide)

end BlessOS.Guarantees.HeapFreed
