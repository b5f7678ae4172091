import BlessOS.Guarantees.HeapRuns

/-!
# Live blocks are apart

The blocks that are live in a session are pairwise disjoint and lie inside the
heap, as long as every call finds the heap in a state it copes with. `alloc` gives
new pages to the highest hole of the index wherever that hole is, and then hands out
blocks that are in use.
-/

set_option autoImplicit false

namespace BlessOS.Guarantees.HeapSafety
open BlessOS.Lib.ByteMemory BlessOS.Lib.Transition
open BlessOS.Source BlessOS.Source.Kheap
open BlessOS.Guarantees.HeapLayout BlessOS.Guarantees.HeapInvariant BlessOS.Guarantees.HeapRuns

variable {ε : Type}

/-- Two payloads that share no byte. -/
def Apart (a b : U32 × U32) : Prop :=
  a.1.toNat + a.2.toNat ≤ b.1.toNat ∨ b.1.toNat + b.2.toNat ≤ a.1.toNat

def Inside (heap : Heap) (a : U32 × U32) : Prop :=
  heap.startAddress.toNat ≤ a.1.toNat ∧ a.1.toNat + a.2.toNat ≤ heap.endAddress.toNat

instance (a b : U32 × U32) : Decidable (Apart a b) := inferInstanceAs (Decidable (_ ∨ _))

/-- A payload lies in its cell, between header and footer. -/
theorem payload_bounds {heap : Heap} {m : Mem} {cells : List Cell} (layout : Layout heap m cells)
    {c : Cell} (member : c ∈ cells) {n : U32} (used : c.used = some n) :
    (c.base + headerBytes).toNat = c.lo + 12 ∧ c.lo + 12 + n.toNat + 8 ≤ c.hi := by
  have ok := layout.ok c member
  have room := ok.room n used
  have small := layout.hi_lt member
  unfold headerBytes
  unfold Cell.hi Cell.lo at *
  constructor
  · bv_omega
  · omega

theorem payloads_apart {heap : Heap} {m : Mem} {cells : List Cell} (layout : Layout heap m cells) :
    (payloads cells).Pairwise Apart := by
  have order := layout.tiles.pairwise
  have inner : cells.Pairwise fun a b => ∀ x ∈ a.payload, ∀ y ∈ b.payload, Apart x y := by
    refine order.imp_of_mem fun {a b} ha hb before x hx y hy => Or.inl ?_
    obtain ⟨n, used, rfl⟩ := Option.map_eq_some_iff.mp hx
    obtain ⟨k, used', rfl⟩ := Option.map_eq_some_iff.mp hy
    have left := payload_bounds layout ha used
    have right := payload_bounds layout hb used'
    have ends : a.hi ≤ b.lo := before
    dsimp only
    omega
  exact List.Pairwise.filterMap Cell.payload (fun a b related x hx y hy => related x hx y hy) inner

theorem payloads_inside {heap : Heap} {m : Mem} {cells : List Cell} (layout : Layout heap m cells) :
    ∀ a ∈ payloads cells, Inside heap a := by
  intro a member
  obtain ⟨c, present, used, pointer⟩ := mem_payloads.mp member
  have bounds := layout.bounds c present
  have payload := payload_bounds layout present used
  unfold Inside
  rw [pointer]
  omega

/-- From `create_heap`, in every run of legal calls each of which finds the heap
sound for it, the live blocks are pairwise disjoint and inside the heap, and each
such call returns. -/
theorem live_blocks_apart_inside (pager : Pager ε) {start stop max : U32} {m m' : Mem}
    {heap : Heap} {paging : ε} {calls : List Call} {t : Session ε} (ok : CreateOk start stop max)
    (created : createHeap start stop max m = some (m', heap))
    (run : GuardedRun (Step pager) Admitted (newSession heap m' paging) calls t) :
    t.live.Pairwise Apart ∧ (∀ a ∈ t.live, Inside t.heap.heap a) ∧
      ∀ next, Admitted t next → ∃ u, Step pager t next u := by
  obtain ⟨cells, held⟩ := session_inv ok created run
  have layout := held.inv.layout
  refine ⟨?_, fun a member => payloads_inside layout a (held.live.subset member), fun next guard => ?_⟩
  · exact (held.live.pairwise_iff fun {a b} apart => Or.symm apart).mpr (payloads_apart layout)
  · obtain ⟨u, -, returned, -⟩ := call_spec pager held guard
    exact ⟨u, returned⟩

/-- A block that fills the heap, growth for a second one, and a free. -/
theorem live_blocks_apart_inside_grown : ∃ t, session mappedPager Admitted 0x300000 0x388000
    0xCFFFF000 (fun _ => 0) () [.alloc 32748, .alloc 8, .alloc 30, .free 0x38000C] = some t ∧
    t.live = [(0x388028, 30), (0x38800C, 8)] ∧ t.live.Pairwise Apart ∧
    ∀ a ∈ t.live, Inside t.heap.heap a := by
  have ran : (session mappedPager Admitted 0x300000 0x388000 0xCFFFF000 (fun _ => 0) ()
      [.alloc 32748, .alloc 8, .alloc 30, .free 0x38000C]).map Session.live =
      some [(0x388028, 30), (0x38800C, 8)] := by decide +kernel
  obtain ⟨t, ran, live⟩ := Option.map_eq_some_iff.mp ran
  obtain ⟨m', heap, created, run⟩ := session_run ran
  have ok : CreateOk 0x300000 0x388000 0xCFFFF000 := ⟨by decide, by decide, by decide, by decide⟩
  obtain ⟨apart, inside, -⟩ := live_blocks_apart_inside mappedPager ok created run
  exact ⟨t, ran, live, apart, inside⟩

/-- The first block of a full heap is freed; the heap then grows at that hole, in
front of a live block, and the next block overlaps the live one. -/
theorem alloc_overlaps_live : ∃ m' heap calls t, CreateOk 0x300000 0x388000 0xCFFFF000 ∧
    createHeap 0x300000 0x388000 0xCFFFF000 (fun _ => 0) = some (m', heap) ∧
    GuardedRun (Step mappedPager) Legal (newSession heap m' ()) calls t ∧
    ¬ t.live.Pairwise Apart := by
  have ran : (session mappedPager Legal 0x300000 0x388000 0xCFFFF000 (fun _ => 0) ()
      [.alloc 100, .alloc 32628, .free 0x38000C, .alloc 200]).map
      (fun t => decide (t.live.Pairwise Apart)) = some false := by decide +kernel
  obtain ⟨t, ran, overlap⟩ := Option.map_eq_some_iff.mp ran
  obtain ⟨m', heap, created, run⟩ := session_run ran
  exact ⟨m', heap, _, t, ⟨by decide, by decide, by decide, by decide⟩, created, run,
    of_decide_eq_false overlap⟩

end BlessOS.Guarantees.HeapSafety
