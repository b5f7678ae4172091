import BlessOS.Guarantees.HeapFreed
import BlessOS.Source.Memory

/-!
# What `free` leaves alone

Freeing a block of a well-formed heap writes to no byte of the body of another live
block, and removes no page that holds a byte of another live block: neighbouring
holes are found by exact tests, and what is left of a hole at the end of the heap
begins before the pages that are removed.
-/

set_option autoImplicit false

namespace BlessOS.Guarantees.HeapFrame
open BlessOS.Lib.ByteMemory BlessOS.Lib.Tiling
open BlessOS.Source BlessOS.Source.OrderedArray BlessOS.Source.Kheap
open BlessOS.Guarantees.OrderedArrayItems BlessOS.Guarantees.HeapLayout
open BlessOS.Guarantees.HeapInvariant BlessOS.Guarantees.HeapUnify BlessOS.Guarantees.HeapFree
open BlessOS.Guarantees.HeapWellFormed BlessOS.Guarantees.HeapFreed

variable {ε : Type} {s : HeapState ε} {cells : List Cell} {c : Cell} {p : U32}

/-- Freeing a live block of a well-formed heap changes no byte between the header and
the footer of another live block, and removes no page with a byte of one. -/
theorem free_frame (pager : Pager ε) (wf : WellFormed s.heap s.mem cells)
    (room : s.heap.index.size < heapIndexSize) (pages : s.length.toNat % 0x1000 = 0)
    (long : heapMinSize ≤ s.length) (bordered : Bordered s) (member : c ∈ cells)
    (block : c.used ≠ none) (pointer : p = c.base + headerBytes) :
    ∃ (u : HeapState ε) (removed : List U32), free pager p s = some u ∧
      u.paging = removed.foldl (fun paging a => pager.removePage a paging) s.paging ∧
      ∀ d ∈ cells, d ≠ c → d.used ≠ none →
        AgreeOn (d.lo + 12) (d.hi - 8) s.mem u.mem ∧
        ∀ a ∈ removed, ∀ x : U32, d.lo ≤ x.toNat → x.toNat < d.hi →
          x.toNat / 0x1000 ≠ a.toNat / 0x1000 := by
  obtain ⟨before, after, rfl⟩ := List.append_of_mem member
  obtain ⟨front, e, back, made, -⟩ := unified_exact wf pointer bordered.fenced block
  obtain ⟨t, cut⟩ := cut_spec pager made pages long
  obtain ⟨removed, folded, between⟩ := cut.pages
  have result := free_of_cut made cut wf pointer
  have kept : ∀ d ∈ before ++ c :: after, d ≠ c → d.used ≠ none → d ∈ front ++ back := by
    intro d present other live
    refine live_kept made ?_ live
    simp only [List.mem_append, List.mem_cons] at present ⊢
    tauto
  have apart : ∀ d ∈ front ++ back, ∀ a ∈ removed, ∀ x : U32, d.lo ≤ x.toNat → x.toNat < d.hi →
      x.toNat / 0x1000 ≠ a.toNat / 0x1000 := by
    intro d stays a given x low high page
    obtain ⟨nothing, inside⟩ := between a given
    obtain ⟨behind, -⟩ := inside x page
    -- as the hole ends the heap, the block lies in front of it
    rw [nothing, List.append_nil] at stays
    have first := (tiles_middle.mp made.joining.layout.tiles).1
    have bounds : d.hi ≤ e.lo := (first.bounds d stays).2
    omega
  have start := cut_start made cut
  have count := cut_count made cut
  cases added : (unified p s).1.doAdd with
  | false =>
    rw [added] at result
    refine ⟨t, removed, result, folded, fun d present other live => ?_⟩
    have stays := kept d present other live
    exact ⟨(cut_frame made cut stays).mono (Nat.le_add_right _ _) (Nat.le_refl _), apart d stays⟩
  | true =>
    rw [added] at result
    have listed := cut_indexed made cut
    have space : t.heap.index.size.toNat < 0x20000 := Nat.lt_of_le_of_lt count.1 room
    obtain ⟨m, inserted, -, -, agree⟩ := insertHole_spec listed space e.base
    refine ⟨_, removed, result.trans inserted, folded, fun d present other live => ?_⟩
    have stays := kept d present other live
    have low := (wf.layout.bounds d present).1
    have area := listed.area
    rw [start] at area
    have body := (cut_frame made cut stays).trans (agree.on (Or.inr (Nat.le_trans area low)))
    exact ⟨body.mono (Nat.le_add_right _ _) (Nat.le_refl _), apart d stays⟩

/-- Freeing the second of two blocks leaves the body of the first alone. -/
theorem free_frame_twoBlocks : ∃ (u : HeapState (List U32)) (removed : List U32),
    free loggingPager 0x387ffc twoBlocks = some u ∧
    u.paging = removed.foldl (fun paging a => loggingPager.removePage a paging) [] ∧
    AgreeOn 0x38000c 0x387fe8 twoBlocks.mem u.mem := by
  obtain ⟨u, removed, ran, paging, others⟩ := free_frame (c := highBlock) (p := 0x387ffc) loggingPager
    twoBlocks_wellFormed (by decide) (by decide) (by decide) twoBlocks_bordered (by simp) (by decide)
    (by decide)
  exact ⟨u, removed, ran, paging, (others lowBlock (by simp) (by decide) (by decide)).1⟩

end BlessOS.Guarantees.HeapFrame
