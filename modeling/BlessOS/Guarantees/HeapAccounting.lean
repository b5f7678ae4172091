import BlessOS.Guarantees.PageDirectory

/-!
# The pages of a heap that grows or shrinks

`expand` and `contract` round the new length up, and give a length that is pages already
one page more. So `expand` is right for the other lengths, if no page table has to be made
for the last page: such a table is not cleared, and may show pages behind the heap.
`contract` starts at the last page and stops in front of the page at the new length, which
stays mapped: it is right when it has no page to give up.
-/

set_option autoImplicit false

namespace BlessOS.Guarantees.HeapAccounting
open BlessOS.Lib.ByteMemory
open BlessOS.Source BlessOS.Source.Memory BlessOS.Source.Kheap BlessOS.Source.Setup
open BlessOS.Guarantees.HeapBounds BlessOS.Guarantees.PageAllocator BlessOS.Guarantees.PageTables
open BlessOS.Guarantees.PageDirectory

variable {s t : HeapState Paging} {p q : Paging} {a b n : U32} {start stop x : Nat}

/-! ## One page of the loop of `expand` -/

/-- The directory entries without a table, for the addresses from `x` to `stop`. -/
def missing (p : Paging) (x stop : Nat) : Finset Nat :=
  (Finset.range 1024).filter fun d =>
    ¬ HasTable p.mem d ∧ x < (d + 1) * 0x400000 ∧ d * 0x400000 < stop

theorem mem_missing {d : Nat} : d ∈ missing p x stop ↔
    d < 1024 ∧ ¬ HasTable p.mem d ∧ x < (d + 1) * 0x400000 ∧ d * 0x400000 < stop := by
  unfold missing
  rw [Finset.mem_filter, Finset.mem_range]

/-- The paging `q` when `expand`, on a heap from `start` with the paging `p`, has come to the
page at `x` and goes on to `stop`. -/
structure Progress (p : Paging) (start stop x : Nat) (q : Paging) : Prop where
  tables : Tables q.mem
  clear : Clear q
  frames : ∀ k ∈ freeFrames q, k ∈ freeFrames p ∧ ∀ b, frameWord q.mem k b = frameWord p.mem k b
  kept : ∀ d < 1024, HasTable p.mem d → HasTable q.mem d
  ahead : ∀ d < 1024, x ≤ d * 0x400000 → HasTable q.mem d → HasTable p.mem d
  mapped : ∀ b : U32, start ≤ b.toNat → b.toNat < x → Mapped b q
  old : ∀ b : U32, x ≤ b.toNat → HasTable p.mem (region b) → ¬ Mapped b q
  fresh : ∀ b : U32, x ≤ b.toNat → ¬ HasTable p.mem (region b) → HasTable q.mem (region b) →
    ∃ k ∈ freeFrames p, getPageAddr b q = frameWord p.mem k b &&& ~~~7
  enough : (stop - x) / 0x1000 + (missing q x stop).card ≤ (freeFrames q).card

/-- A page on a frame of the allocator shows as mapped. -/
theorem frame_ne_zero {k : Nat} (inside : k < pagingPages) : (pageOf k ||| 7) &&& ~~~7 ≠ 0 := by
  rw [frame_of_entry (pageOf_aligned inside)]
  exact pageOf_ne_zero inside

namespace Progress

variable (progress : Progress p start stop x q) (here : a.toNat = x) (page : x % 0x1000 = 0)
  (more : x + 0x1000 ≤ stop)

include here page in
/-- The addresses up to the next page are those in front of `x` and those in its page. -/
theorem same_page (low : x ≤ b.toNat) (high : b.toNat < x + 0x1000) : pageIndex b = pageIndex a := by
  unfold pageIndex
  omega

include here page in
theorem other_page (outside : b.toNat < x ∨ x + 0x1000 ≤ b.toNat) : pageIndex b ≠ pageIndex a := by
  unfold pageIndex
  omega

include progress here page in
/-- One more page is mapped when those in front of it still are. -/
theorem mapped_next {r : Paging} (kept : ∀ b, b.toNat < x → Mapped b q → Mapped b r)
    (present : Mapped a r) : ∀ b : U32, start ≤ b.toNat → b.toNat < x + 0x1000 → Mapped b r := by
  intro b low high
  by_cases before : b.toNat < x
  · exact kept b before (progress.mapped b low before)
  · unfold Mapped
    rw [getPageAddr_congr (same_page here page (by omega) high)]
    exact present

/-- No table is missing that was not before. -/
theorem missing_next {r : Paging} (kept : ∀ d < 1024, HasTable q.mem d → HasTable r.mem d) :
    missing r (x + 0x1000) stop ⊆ missing q x stop := by
  intro d found
  obtain ⟨inside, never, low, high⟩ := mem_missing.mp found
  exact mem_missing.mpr ⟨inside, fun had => never (kept d inside had), by omega, high⟩

include progress here page more in
/-- A page that shows as mapped is left alone. -/
theorem skip (present : Mapped a q) : Progress p start stop (x + 0x1000) q where
  tables := progress.tables
  clear := progress.clear
  frames := progress.frames
  kept := progress.kept
  ahead d inside behind := progress.ahead d inside (by omega)
  mapped := mapped_next progress here page (fun _ _ held => held) present
  old b behind := progress.old b (by omega)
  fresh b behind := progress.fresh b (by omega)
  enough := by
    have fewer : (missing q (x + 0x1000) stop).card ≤ (missing q x stop).card :=
      Finset.card_le_card (missing_next fun _ _ had => had)
    have enough := progress.enough
    omega

include progress here page more in
/-- A page is put where there is a table. -/
theorem present (has : HasTable q.mem (region a)) :
    Progress p start stop (x + 0x1000) (putFreePage a q) := by
  have enough := progress.enough
  obtain ⟨k, member, left, directory, entries, words⟩ := putFreePage_present progress.tables has
    (Finset.card_pos.mp (by omega))
  have tables := fun d inside => table_congr (directory d inside)
  have others : ∀ b, pageIndex b ≠ pageIndex a →
      getPageAddr b (putFreePage a q) = getPageAddr b q := by
    intro b other
    refine getPageAddr_of_entries (directory _ (region_lt b)) fun had => ?_
    rw [entries b had, if_neg other]
  have mapped : Mapped a (putFreePage a q) := by
    have still : HasTable (putFreePage a q).mem (region a) := (tables _ (region_lt a)).2.mpr has
    unfold Mapped
    rw [getPageAddr_table, if_pos still, entries a has, if_pos rfl]
    exact frame_ne_zero (mem_freeFrames.mp member).1
  have fewer : (missing (putFreePage a q) (x + 0x1000) stop).card ≤ (missing q x stop).card :=
    Finset.card_le_card (missing_next fun d inside had => (tables d inside).2.mpr had)
  exact
    { tables := progress.tables.congr directory
      clear := fun d inside has' j free => by
        rw [left] at free
        rw [(tables d inside).1]
        exact progress.clear d inside ((tables d inside).2.mp has') j (Finset.mem_of_mem_erase free)
      frames := fun j free => by
        rw [left] at free
        have before := Finset.mem_of_mem_erase free
        obtain ⟨free', same⟩ := progress.frames j before
        refine ⟨free', fun b => Eq.trans ?_ (same b)⟩
        exact words j (mem_freeFrames.mp before).1
          (Ne.symm (progress.clear _ (region_lt a) has j before)) b
      kept := fun d inside had => (tables d inside).2.mpr (progress.kept d inside had)
      ahead := fun d inside behind had =>
        progress.ahead d inside (by omega) ((tables d inside).2.mp had)
      mapped := by
        refine mapped_next progress here page (fun b before held => ?_) mapped
        unfold Mapped
        rw [others b (other_page here page (Or.inl before))]
        exact held
      old := fun b behind had => by
        unfold Mapped
        rw [others b (other_page here page (Or.inr behind))]
        exact progress.old b (by omega) had
      fresh := fun b behind never had => by
        rw [others b (other_page here page (Or.inr behind))]
        exact progress.fresh b (by omega) never ((tables _ (region_lt b)).2.mp had)
      enough := by
        rw [left, Finset.card_erase_of_mem member]
        omega }

include progress here page more in
/-- A page is put where a table has to be made. -/
theorem absent (none' : ¬ HasTable q.mem (region a)) :
    Progress p start stop (x + 0x1000) (putFreePage a q) := by
  have enough := progress.enough
  have place : region a = x / 0x400000 := congrArg (· / 0x400000) here
  have counted : region a ∈ missing q x stop :=
    mem_missing.mpr ⟨region_lt a, none', by omega, by omega⟩
  have some : 0 < (missing q x stop).card := Finset.card_pos.mpr ⟨_, counted⟩
  obtain ⟨k, member, f, member', left, tables, others, has, new, entries, kept, words⟩ :=
    putFreePage_absent progress.tables none' (by omega) progress.clear
  have free := Finset.mem_of_mem_erase member'
  have inside := (mem_freeFrames.mp free).1
  have others' := fun d bound other => table_congr (others d bound other)
  have elsewhere : ∀ b, region b ≠ region a →
      getPageAddr b (putFreePage a q) = getPageAddr b q := fun b other =>
    getPageAddr_of_entries (others _ (region_lt b) other) (kept b other)
  -- in the region of the new table nothing was mapped
  have apart : ∀ b, HasTable q.mem (region b) → region b ≠ region a :=
    fun b had same => none' (same ▸ had)
  have still : ∀ d < 1024, HasTable q.mem d → HasTable (putFreePage a q).mem d := by
    intro d bound had
    by_cases this : d = region a
    · rw [this]
      exact has
    · exact (others' d bound this).2.mpr had
  have mapped : Mapped a (putFreePage a q) := by
    unfold Mapped
    rw [getPageAddr_table, if_pos has, entries a rfl, if_pos rfl]
    exact frame_ne_zero (mem_freeFrames.mp member).1
  have fewer : (missing (putFreePage a q) (x + 0x1000) stop).card ≤
      ((missing q x stop).erase (region a)).card := by
    refine Finset.card_le_card (Finset.subset_erase.mpr ⟨missing_next still, fun found => ?_⟩)
    exact (mem_missing.mp found).2.1 has
  rw [Finset.card_erase_of_mem counted] at fewer
  exact
    { tables := tables
      clear := fun d bound has' j remaining => by
        rw [left] at remaining
        obtain ⟨notTable, before⟩ := Finset.mem_erase.mp remaining
        have before' := Finset.mem_of_mem_erase before
        by_cases this : d = region a
        · rw [this, new]
          exact fun same => notTable
            (pageOf_injective (mem_freeFrames.mp before').1 inside same.symm)
        · rw [(others' d bound this).1]
          exact progress.clear d bound ((others' d bound this).2.mp has') j before'
      frames := fun j remaining => by
        rw [left] at remaining
        obtain ⟨notTable, before⟩ := Finset.mem_erase.mp remaining
        have before' := Finset.mem_of_mem_erase before
        obtain ⟨free', same⟩ := progress.frames j before'
        exact ⟨free', fun b => (words j (mem_freeFrames.mp before').1 notTable b).trans (same b)⟩
      kept := fun d bound had => still d bound (progress.kept d bound had)
      ahead := fun d bound behind had => by
        have this : d ≠ region a := by omega
        exact progress.ahead d bound (by omega) ((others' d bound this).2.mp had)
      mapped := by
        refine mapped_next progress here page (fun b _ held => ?_) mapped
        unfold Mapped
        rw [elsewhere b (apart b (hasTable_of_mapped held))]
        exact held
      old := fun b behind had => by
        unfold Mapped
        rw [elsewhere b (apart b (progress.kept _ (region_lt b) had))]
        exact progress.old b (by omega) had
      fresh := fun b behind never had => by
        by_cases this : region b = region a
        · obtain ⟨free', same⟩ := progress.frames f free
          refine ⟨f, free', ?_⟩
          rw [getPageAddr_table, if_pos had, entries b this,
            if_neg (other_page here page (Or.inr behind)), same b]
        · rw [elsewhere b this]
          exact progress.fresh b (by omega) never ((others' _ (region_lt b) this).2.mp had)
      enough := by
        rw [left, Finset.card_erase_of_mem member', Finset.card_erase_of_mem member]
        omega }

end Progress

/-! ## The pages of the heap -/

/-- From its start on, the pages of the heap are mapped and no others. -/
def MappedExactly (s : HeapState Paging) : Prop :=
  ∀ a, s.heap.startAddress ≤ a → (Mapped a s.paging ↔ a < s.heap.endAddress)

/-- The smallest length in pages for so many bytes. -/
def pagesFor (bytes : Nat) : Nat := (bytes + 0xfff) / 0x1000 * 0x1000

/-- A heap of whole pages, at least eight, that are the pages mapped from its start on. -/
structure Paged (s : HeapState Paging) : Prop where
  tables : Tables s.paging.mem
  proper : s.heap.startAddress ≤ s.heap.endAddress
  pages : s.length.toNat % 0x1000 = 0
  long : heapMinSize ≤ s.length
  mapped : MappedExactly s

/-- The call returns with a heap of this length that is mapped exactly. -/
def Accounts (returned : Option (HeapState Paging)) (length : Nat) : Prop :=
  ∃ u, returned = some u ∧ u.length.toNat = length ∧ MappedExactly u

namespace Paged

variable (paged : Paged s)

include paged in
theorem length_eq : s.heap.startAddress.toNat + s.length.toNat = s.heap.endAddress.toNat ∧
    0x8000 ≤ s.length.toNat := by
  have length := length_toNat_of_le (s := s) paged.proper
  have proper : s.heap.startAddress.toNat ≤ s.heap.endAddress.toNat := paged.proper
  have long : 0x8000 ≤ s.length.toNat := paged.long
  omega

include paged in
/-- The page that the heap ends in is not mapped, and the last page of the heap is. -/
theorem bounds : PageBounds s.heap := by
  obtain ⟨sum, long⟩ := paged.length_eq
  have pages := paged.pages
  have ends : s.heap.endAddress.toNat % 0x1000 = 0 := by
    by_contra inside
    obtain ⟨last, value⟩ : ∃ last : U32, last.toNat + 1 = s.heap.endAddress.toNat :=
      ⟨s.heap.endAddress - 1, by bv_omega⟩
    have low : s.heap.startAddress ≤ last := by
      rw [BitVec.le_def]
      omega
    have high : last < s.heap.endAddress := by
      rw [BitVec.lt_def]
      omega
    have together : pageIndex last = pageIndex s.heap.endAddress := by
      unfold pageIndex
      omega
    have mapped := (paged.mapped last low).mpr high
    unfold Mapped at mapped
    rw [getPageAddr_congr together] at mapped
    exact BitVec.lt_irrefl _ ((paged.mapped s.heap.endAddress paged.proper).mp mapped)
  exact ⟨by omega, ends, by omega⟩

end Paged

/-! ## Growing -/

/-- The page allocator serves the request: it counts no page table as free, and has the
frames for the pages and for the page tables that are missing. -/
structure Allocates (s : HeapState Paging) (n : U32) : Prop where
  clear : Clear s.paging
  enough : (pagesFor n.toNat - s.length.toNat) / 0x1000 +
    (missing s.paging s.heap.endAddress.toNat (s.heap.startAddress.toNat + pagesFor n.toNat)).card ≤
      (freeFrames s.paging).card

/-- No page table has to be made for the addresses behind the heap's last page. -/
def TableReady (p : Paging) (stop : Nat) : Prop :=
  stop % 0x400000 = 0 ∨ HasTable p.mem (stop / 0x400000)

theorem roundedLength_eq {bytes : Nat} (large : 0x1000 ≤ bytes) (partly : bytes % 0x1000 ≠ 0) :
    roundedLength bytes = pagesFor bytes := by
  unfold roundedLength pagesFor
  rw [if_neg (by omega)]
  omega

section Expand

variable (behind : Paging → Mem) (paged : Paged s) (longer : s.length < n)
  (space : s.heap.startAddress.toNat + pagesFor n.toNat < 2 ^ 32) (allocates : Allocates s n)
  (partly : n.toNat % 0x1000 ≠ 0)

include paged longer allocates space partly in
/-- The loop of `expand`, over all its pages. -/
theorem expand_progress : ∃ t : HeapState Paging, expand (kernelPager behind) n s =
      some (t.setEnd (s.heap.startAddress + pageRound n)) ∧ t.heap = s.heap ∧
    (pageRound n).toNat = pagesFor n.toNat ∧
    Progress s.paging s.heap.startAddress.toNat (s.heap.startAddress.toNat + pagesFor n.toNat)
      (s.heap.startAddress.toNat + pagesFor n.toNat) t.paging := by
  obtain ⟨sum, long⟩ := paged.length_eq
  have bounds := paged.bounds
  have longer' : s.length.toNat < n.toNat := longer
  have round : roundedLength n.toNat = pagesFor n.toNat := roundedLength_eq (by omega) partly
  have value : (pageRound n).toNat = pagesFor n.toNat := by
    rw [pageRound_toNat (by omega), round]
  have startPage := bounds.startPage
  have stopPage : pagesFor n.toNat % 0x1000 = 0 := Nat.mul_mod_left _ _
  have first : Progress s.paging s.heap.startAddress.toNat
      (s.heap.startAddress.toNat + pagesFor n.toNat)
      (s.heap.startAddress.toNat + s.length.toNat) s.paging := by
    have outside : ∀ b : U32, s.heap.endAddress.toNat ≤ b.toNat → ¬ Mapped b s.paging := by
      intro b far mapped
      have below : b.toNat < s.heap.endAddress.toNat :=
        (paged.mapped b (by rw [BitVec.le_def]; omega)).mp mapped
      omega
    rw [sum]
    refine ⟨paged.tables, allocates.clear, fun k free => ⟨free, fun _ => rfl⟩, fun _ _ had => had,
      fun _ _ _ had => had, fun b low high => (paged.mapped b low).mpr high,
      fun b far _ => outside b far, fun b _ never had => absurd had never, ?_⟩
    have enough := allocates.enough
    have pages : s.heap.startAddress.toNat + pagesFor n.toNat - s.heap.endAddress.toNat =
        pagesFor n.toNat - s.length.toNat := by omega
    rw [pages]
    exact enough
  obtain ⟨t, ran, same, progress⟩ := expand_rule (kernelPager behind)
    (fun i t => Progress s.paging s.heap.startAddress.toNat
      (s.heap.startAddress.toNat + pagesFor n.toNat) (s.heap.startAddress.toNat + i.toNat) t.paging)
    n bounds (Nat.le_of_lt longer') (by omega)
    (fun i t aligned from_old below kept progress => by
      have below' : i.toNat < (pageRound n).toNat := below
      have address : (s.heap.startAddress + i).toNat = s.heap.startAddress.toNat + i.toNat := by
        rw [BitVec.toNat_add]
        omega
      have next : (i + 0x1000).toNat = i.toNat + 0x1000 := by bv_omega
      have more : s.heap.startAddress.toNat + i.toNat + 0x1000 ≤
          s.heap.startAddress.toNat + pagesFor n.toNat := by omega
      rw [next, ← Nat.add_assoc, mapPage_paging]
      split
      · next absent =>
        by_cases has : HasTable t.paging.mem (region (s.heap.startAddress + i))
        · exact progress.present address (by omega) more has
        · exact progress.absent address (by omega) more has
      · next present => exact progress.skip address (by omega) more present)
    first
  rw [value] at progress
  exact ⟨t, ran, same, value, progress⟩

include paged longer allocates space partly in
/-- The new length is right, and the heap mapped exactly where no table was made for addresses
behind it. -/
theorem expand_accounts (ready : TableReady s.paging (s.heap.startAddress.toNat + pagesFor n.toNat)) :
    Accounts (expand (kernelPager behind) n s) (pagesFor n.toNat) := by
  obtain ⟨t, ran, same, value, progress⟩ :=
    expand_progress behind paged longer space allocates partly
  have stop : (s.heap.startAddress + pageRound n).toNat =
      s.heap.startAddress.toNat + pagesFor n.toNat := by
    rw [BitVec.toNat_add, value]
    omega
  refine ⟨_, ran, ?_, fun a low => ?_⟩
  · change (s.heap.startAddress + pageRound n - t.heap.startAddress).toNat = _
    rw [same, BitVec.add_comm, BitVec.add_sub_cancel, value]
  · have low' : s.heap.startAddress.toNat ≤ a.toNat := same ▸ low
    change Mapped a t.paging ↔ a < s.heap.startAddress + pageRound n
    rw [BitVec.lt_def, stop]
    refine ⟨fun mapped => ?_, fun high => progress.mapped a low' high⟩
    by_contra far
    have has := hasTable_of_mapped mapped
    refine progress.old a (by omega) ?_ mapped
    have place : region a = a.toNat / 0x400000 := rfl
    rcases ready with aligned | made
    · exact progress.ahead _ (region_lt a) (by omega) has
    · by_cases begun : s.heap.startAddress.toNat + pagesFor n.toNat ≤ region a * 0x400000
      · exact progress.ahead _ (region_lt a) begun has
      · have last : region a = (s.heap.startAddress.toNat + pagesFor n.toNat) / 0x400000 := by omega
        rw [last]
        exact made

include paged longer allocates space partly in
/-- Otherwise the page behind the heap shows what a free frame held. -/
theorem expand_behind
    (late : ¬ TableReady s.paging (s.heap.startAddress.toNat + pagesFor n.toNat)) :
    ∃ u stop, expand (kernelPager behind) n s = some u ∧ u.heap.endAddress = stop ∧
      u.heap.startAddress ≤ stop ∧
      ∃ k ∈ freeFrames s.paging,
        getPageAddr stop u.paging = frameWord s.paging.mem k stop &&& ~~~7 := by
  obtain ⟨t, ran, same, value, progress⟩ :=
    expand_progress behind paged longer space allocates partly
  obtain ⟨sum, long⟩ := paged.length_eq
  obtain ⟨notStart, notMade⟩ := not_or.mp late
  have startPage := paged.bounds.startPage
  have longer' : s.length.toNat < n.toNat := longer
  have covered : n.toNat ≤ pagesFor n.toNat := by
    unfold pagesFor
    omega
  have pages : pagesFor n.toNat % 0x1000 = 0 := Nat.mul_mod_left _ _
  obtain ⟨stop, address⟩ : ∃ stop : U32, stop = s.heap.startAddress + pageRound n := ⟨_, rfl⟩
  have place : stop.toNat = s.heap.startAddress.toNat + pagesFor n.toNat := by
    rw [address, BitVec.toNat_add, value]
    omega
  have last : region stop = (s.heap.startAddress.toNat + pagesFor n.toNat) / 0x400000 := by
    unfold region
    rw [place]
  -- the last page of the heap has the table that was made
  have made : HasTable t.paging.mem (region stop) := by
    obtain ⟨a, before⟩ : ∃ a : U32, a.toNat + 0x1000 = stop.toNat := ⟨stop - 0x1000, by bv_omega⟩
    have mapped := progress.mapped a (by omega) (by omega)
    have together : region a = region stop := by
      unfold region
      omega
    rw [← together]
    exact hasTable_of_mapped mapped
  refine ⟨_, stop, ran, address.symm, ?_, progress.fresh stop (Nat.le_of_eq place.symm)
    (by rw [last]; exact notMade) made⟩
  change t.heap.startAddress ≤ stop
  rw [same, BitVec.le_def]
  omega

end Expand

/-- Whatever `n` is, the new length is the rounded one. -/
theorem length_of_expand {pager : Pager Paging} {u : HeapState Paging}
    (ran : expand pager n s = some u) : u.length = pageRound n := by
  unfold expand at ran
  obtain ⟨t, -, returned⟩ := Option.bind_eq_some_iff.mp ran
  rw [← Option.some.inj returned]
  change t.heap.startAddress + pageRound n - t.heap.startAddress = _
  rw [BitVec.add_comm, BitVec.add_sub_cancel]

/-- A length that is pages already gets a page too many. -/
theorem partly_of_accounts {pager : Pager Paging} (large : 0x1000 ≤ n.toNat)
    (accounts : Accounts (expand pager n s) (pagesFor n.toNat)) : n.toNat % 0x1000 ≠ 0 := by
  obtain ⟨u, ran, length, -⟩ := accounts
  intro whole
  have small := n.isLt
  have masked := pageMask_toNat n
  rw [length_of_expand ran] at length
  unfold pagesFor at length
  unfold pageRound at length
  split at length
  · rw [BitVec.toNat_add, masked] at length
    change (_ + 0x1000) % 2 ^ 32 = _ at length
    omega
  · next little => bv_omega

/-! ## What free frames hold -/

def InFreeFrame (p : Paging) (a : U32) : Prop :=
  ∃ k ∈ freeFrames p, (pageOf k).toNat ≤ a.toNat ∧ a.toNat < (pageOf k).toNat + 0x1000

/-- The same paging, with any bytes in the frames that are free. -/
structure SameButFree (p q : Paging) : Prop where
  memMap : q.memMap = p.memMap
  mem : ∀ a, ¬ InFreeFrame p a → q.mem a = p.mem a

namespace SameButFree

variable (same : SameButFree p q)

include same in
theorem frames : freeFrames q = freeFrames p := by
  unfold freeFrames
  rw [same.memMap]

include same in
theorem word (outside : ∀ k ∈ freeFrames p,
      a.toNat + 4 ≤ (pageOf k).toNat ∨ (pageOf k).toNat + 0x1000 ≤ a.toNat)
    (bound : a.toNat + 4 ≤ 2 ^ 32) : load32 q.mem a = load32 p.mem a := by
  refine load32_congr fun i small => same.mem _ ?_
  rintro ⟨k, free, low, high⟩
  have apart := outside k free
  bv_omega

include same in
theorem directory {d : Nat} (inside : d < 1024) : dirEntry q.mem d = dirEntry p.mem d := by
  have place := dirEntry_place inside
  refine same.word (fun k free => Or.inl ?_) (by omega)
  have low := (pageOf_page (mem_freeFrames.mp free).1).2
  omega

include same in
theorem addresses (tables : Tables p.mem) (clear : Clear p) (b : U32) :
    getPageAddr b q = getPageAddr b p := by
  refine getPageAddr_of_entries (same.directory (region_lt b)) fun had => ?_
  have kept : table q.mem (region b) = table p.mem (region b) :=
    (table_congr (same.directory (region_lt b))).1
  unfold pageEntry
  rw [kept]
  refine same.word (fun k free => ?_) (tables.behind had).2
  have apart := clear _ (region_lt b) had k free
  obtain ⟨page, top⟩ := table_page p.mem (region b)
  have page' := (pageOf_page (mem_freeFrames.mp free).1).1
  have different : (table p.mem (region b)).toNat ≠ (pageOf k).toNat :=
    fun equal => apart (BitVec.eq_of_toNat_eq equal)
  rw [pageTableEntry_toNat _ top]
  omega

include same in
/-- A heap is paged whatever the free frames hold, and its requests are served. -/
theorem paged (paged : Paged s) (of : s.paging = p) (allocates : Allocates s n) :
    Paged { s with paging := q } ∧ Allocates { s with paging := q } n := by
  subst of
  have entries := fun d inside => same.directory (d := d) inside
  have kept := fun d inside => table_congr (entries d inside)
  have absent : ∀ x stop, missing q x stop = missing s.paging x stop := by
    intro x stop
    ext d
    rw [mem_missing, mem_missing]
    by_cases inside : d < 1024
    · rw [(kept d inside).2]
    · simp only [inside, false_and]
  have frames := same.frames
  refine ⟨⟨paged.tables.congr entries, paged.proper, paged.pages, paged.long, fun a low => ?_⟩,
    fun d inside has k free => ?_, ?_⟩
  · change getPageAddr a q ≠ 0 ↔ _
    rw [same.addresses paged.tables allocates.clear a]
    exact paged.mapped a low
  · rw [frames] at free
    rw [(kept d inside).1]
    exact allocates.clear d inside ((kept d inside).2.mp has) k free
  · change _ + (missing q _ _).card ≤ (freeFrames q).card
    rw [absent, frames]
    exact allocates.enough

end SameButFree

/-- Free frames may be full of ones. -/
theorem exists_dirty (p : Paging) : ∃ q, SameButFree p q ∧
    ∀ k ∈ freeFrames p, ∀ b, frameWord q.mem k b &&& ~~~7 ≠ 0 := by
  classical
  refine ⟨{ p with mem := fun a => if InFreeFrame p a then 0xff else p.mem a }, ⟨rfl, fun a outside =>
    if_neg outside⟩, fun k free b => ?_⟩
  have inside := (mem_freeFrames.mp free).1
  have value := pageOf_toNat inside
  have bound : k < 1792 := inside
  have place := pageTableEntry_toNat (a := b) (pageOf k) (by omega)
  have ones : frameWord (fun a => if InFreeFrame p a then 0xff else p.mem a) k b =
      load32 (fun _ => 0xff) (pageTableEntry (pageOf k) b) := by
    refine load32_congr fun i small => if_pos ⟨k, free, ?_, ?_⟩ <;> bv_omega
  have word : ∀ a, load32 (fun _ => 0xff) a = 0xffffffff := fun a => by
    change (0xff : Byte) ++ (0xff : Byte) ++ (0xff : Byte) ++ (0xff : Byte) = (0xffffffff : U32)
    decide
  change frameWord (fun a => if InFreeFrame p a then 0xff else p.mem a) k b &&& ~~~7 ≠ 0
  rw [ones, word]
  decide

/-- `expand` is right, whatever the free frames hold, for a length that is not pages already and
if no page table has to be made for addresses behind the heap. -/
theorem expand_accounts_iff (behind : Paging → Mem) (paged : Paged s) (longer : s.length < n)
    (space : s.heap.startAddress.toNat + pagesFor n.toNat < 2 ^ 32) (allocates : Allocates s n) :
    (∀ q, SameButFree s.paging q →
      Accounts (expand (kernelPager behind) n { s with paging := q }) (pagesFor n.toNat)) ↔
      n.toNat % 0x1000 ≠ 0 ∧ TableReady s.paging (s.heap.startAddress.toNat + pagesFor n.toNat) := by
  have large : 0x1000 ≤ n.toNat := by
    have long : 0x8000 ≤ s.length.toNat := paged.long
    have longer' : s.length.toNat < n.toNat := longer
    omega
  have ready : ∀ q, SameButFree s.paging q → ∀ stop, stop < 2 ^ 32 →
      (TableReady q stop ↔ TableReady s.paging stop) := by
    intro q same stop small
    unfold TableReady
    rw [(table_congr (same.directory (d := stop / 0x400000) (by omega))).2]
  constructor
  · intro always
    have partly := partly_of_accounts large (always s.paging ⟨rfl, fun _ _ => rfl⟩)
    refine ⟨partly, ?_⟩
    by_contra late
    obtain ⟨q, same, dirty⟩ := exists_dirty s.paging
    obtain ⟨paged', allocates'⟩ := same.paged paged rfl allocates
    obtain ⟨u, stop, ran, ends, low, k, free, shown⟩ := expand_behind behind paged' longer space
      allocates' partly (mt (ready q same _ space).mp late)
    obtain ⟨u', ran', -, mapped⟩ := always q same
    rw [ran] at ran'
    cases ran'
    rw [same.frames] at free
    have visible : Mapped stop u.paging := by
      unfold Mapped
      rw [shown]
      exact dirty k free stop
    rw [← ends] at visible low
    exact BitVec.lt_irrefl _ ((mapped _ low).mp visible)
  · rintro ⟨partly, made⟩ q same
    obtain ⟨paged', allocates'⟩ := same.paged paged rfl allocates
    exact expand_accounts behind paged' longer space allocates' partly
      ((ready q same _ space).mpr made)

/-! ## Shrinking -/

/-- The paging `q` while `contract` removes pages of a heap with the paging `p`: those in front of
`low` and from `high` on are as they were. -/
structure Trimmed (p : Paging) (low high : Nat) (q : Paging) : Prop where
  tables : Tables q.mem
  kept : ∀ b : U32, b.toNat < low ∨ high ≤ b.toNat → getPageAddr b q = getPageAddr b p

theorem Trimmed.remove {low high : Nat} (trimmed : Trimmed p low high q)
    (begins : low ≤ pageIndex a * 0x1000) (ends : pageIndex a * 0x1000 + 0x1000 ≤ high) :
    Trimmed p low high (removePage a q) := by
  obtain ⟨directory, others⟩ := removePage_others (a := a) trimmed.tables
  refine ⟨trimmed.tables.congr directory, fun b outside => (others b ?_).trans (trimmed.kept b outside)⟩
  unfold pageIndex at *
  omega

section Contract

variable (behind : Paging → Mem) (paged : Paged s) (shorter : n < s.length)

include paged shorter in
/-- What the loop of `contract` leaves: the pages up to the one at the new length. -/
theorem contract_spec : ∃ u, (contract (kernelPager behind) n s).map Prod.snd = some u ∧
    u.heap.startAddress = s.heap.startAddress ∧
    u.heap.endAddress = s.heap.startAddress + contractedSize n ∧
    (contractedSize n).toNat = contractedLength n.toNat ∧
    Trimmed s.paging (s.heap.startAddress.toNat + contractedLength n.toNat + 0x1000)
      s.heap.endAddress.toNat u.paging := by
  obtain ⟨sum, long⟩ := paged.length_eq
  have startPage := paged.bounds.startPage
  have shorter' : n.toNat < s.length.toNat := shorter
  obtain ⟨size, sizePage, -, -, limit⟩ := contractedSize_spec shorter' paged.pages
  have pages := paged.pages
  have small := s.heap.endAddress.isLt
  obtain ⟨paging, ran, trimmed⟩ := contract_rule (kernelPager behind)
    (fun t => Trimmed s.paging (s.heap.startAddress.toNat + contractedLength n.toNat + 0x1000)
      s.heap.endAddress.toNat t.paging) n paged.pages shorter
    (fun i t aligned below inside same trimmed => by
      have below' : (contractedSize n).toNat < i.toNat := below
      have address : (s.heap.startAddress + i).toNat = s.heap.startAddress.toNat + i.toNat := by
        rw [BitVec.toNat_add]
        omega
      have place : pageIndex (s.heap.startAddress + i) * 0x1000 =
          s.heap.startAddress.toNat + i.toNat := by
        unfold pageIndex
        omega
      exact trimmed.remove (by omega) (by omega))
    ⟨paged.tables, fun _ _ => rfl⟩
  refine ⟨{ s with paging := paging }.setEnd (s.heap.startAddress + contractedSize n), ?_, rfl, rfl,
    size, trimmed⟩
  rw [ran]
  rfl

/-- The new length is the right one, and the old one, exactly when there is nothing to give up. -/
theorem contractedLength_eq_iff {bytes length : Nat} (inside : bytes < length)
    (pages : length % 0x1000 = 0) (long : 0x8000 ≤ length) :
    (contractedLength bytes = length ∧ max 0x8000 (pagesFor bytes) = length) ↔
      length = 0x8000 ∨ length < bytes + 0x1000 := by
  unfold contractedLength roundedLength pagesFor
  split <;> omega

include paged shorter in
theorem contract_accounts_iff :
    Accounts ((contract (kernelPager behind) n s).map Prod.snd) (max 0x8000 (pagesFor n.toNat)) ↔
      s.length = heapMinSize ∨ s.length.toNat < n.toNat + 0x1000 := by
  obtain ⟨sum, long⟩ := paged.length_eq
  have shorter' : n.toNat < s.length.toNat := shorter
  have small := s.heap.endAddress.isLt
  have limit := contractedLength_le shorter' paged.pages
  obtain ⟨u, ran, start, stop, size, trimmed⟩ := contract_spec behind paged shorter
  have address : u.heap.endAddress.toNat = s.heap.startAddress.toNat + contractedLength n.toNat := by
    rw [stop, BitVec.toNat_add, size]
    omega
  have length : u.length.toNat = contractedLength n.toNat := by
    unfold HeapState.length
    rw [start, stop, BitVec.add_comm, BitVec.add_sub_cancel, size]
  have exact_when := contractedLength_eq_iff shorter' paged.pages long
  have least : s.length = heapMinSize ↔ s.length.toNat = 0x8000 := by
    unfold heapMinSize
    bv_omega
  rw [least, ← exact_when]
  constructor
  · rintro ⟨u', ran', length', mapped⟩
    rw [ran] at ran'
    cases ran'
    -- the page at the new end is still mapped if it was in the heap
    have whole : contractedLength n.toNat = s.length.toNat := by
      by_contra part
      obtain ⟨b, value⟩ : ∃ b : U32, b = u.heap.endAddress := ⟨_, rfl⟩
      have place : b.toNat = s.heap.startAddress.toNat + contractedLength n.toNat := by
        rw [value, address]
      have before : Mapped b s.paging := by
        refine (paged.mapped b ?_).mpr ?_
        · rw [BitVec.le_def]
          omega
        · rw [BitVec.lt_def]
          omega
      have after : Mapped b u.paging := by
        unfold Mapped
        rw [trimmed.kept b (Or.inl (by omega))]
        exact before
      have inside := (mapped b (by rw [start, BitVec.le_def]; omega)).mp after
      rw [value] at inside
      exact BitVec.lt_irrefl _ inside
    exact ⟨whole, by omega⟩
  · rintro ⟨whole, wanted⟩
    refine ⟨u, ran, by omega, fun a low => ?_⟩
    have ends : u.heap.endAddress = s.heap.endAddress := BitVec.eq_of_toNat_eq (by omega)
    rw [start] at low
    rw [ends, ← paged.mapped a low]
    unfold Mapped
    rw [trimmed.kept a (by omega)]

end Contract

/-! ## The guarantee -/

/-- On a heap of pages, a growth that the page allocator serves leads to the smallest length in
pages with exactly its pages mapped, whatever the free frames hold, if and only if the request
is not a length in pages and no page table is made for addresses behind the new end. A
shrinkage leads to the smallest length in pages, but not below the minimum, with exactly its
pages mapped if and only if no page is given up. -/
theorem page_accounting (behind : Paging → Mem) (paged : Paged s) :
    (∀ n : U32, s.length < n → s.heap.startAddress.toNat + pagesFor n.toNat < 2 ^ 32 →
      Allocates s n →
      ((∀ q, SameButFree s.paging q →
        Accounts (expand (kernelPager behind) n { s with paging := q }) (pagesFor n.toNat)) ↔
        n.toNat % 0x1000 ≠ 0 ∧
          TableReady s.paging (s.heap.startAddress.toNat + pagesFor n.toNat))) ∧
    ∀ n : U32, n < s.length →
      (Accounts ((contract (kernelPager behind) n s).map Prod.snd)
          (max heapMinSize.toNat (pagesFor n.toNat)) ↔
        s.length = heapMinSize ∨ s.length.toNat < n.toNat + 0x1000) :=
  ⟨fun _ longer space allocates => expand_accounts_iff behind paged longer space allocates,
    fun _ shorter => contract_accounts_iff behind paged shorter⟩

/-! ## Eight pages -/

/-- A page table at `0x1000` for the first 4 MiB, with pages from `0x300000` to `0x308000`. -/
def eightPagesTable (i : Nat) : U32 :=
  if i = 0 then 0x1007
  else if 0x700 ≤ i ∧ i < 0x708 then pageOf (i - 0x700) ||| 7 else 0

/-- The heap of these pages. -/
def eightPages : HeapState Paging :=
  { mem := fun _ => 0
    paging := { memMap := fun i => if i < 8 then 1 else 0, mem := ofWords eightPagesTable }
    heap :=
      { index := { array := 0x200000, size := 0, maxSize := heapIndexSize,
                   lessThan := some headerLessThan }
        startAddress := 0x300000
        endAddress := 0x308000
        maxAddress := 0xCFFFF000 } }

theorem eightPages_dirEntry {d : Nat} (inside : d < 1024) :
    dirEntry eightPages.paging.mem d = if d = 0 then 0x1007 else 0 := by
  have place := dirEntry_place inside
  have word : (4 * d) / 4 = d := by omega
  unfold dirEntry
  change load32 (ofWords eightPagesTable) _ = _
  rw [load32_ofWords _ (by omega), place, word]
  unfold eightPagesTable
  split
  · rfl
  · rw [if_neg (by omega)]

theorem eightPages_hasTable {d : Nat} (inside : d < 1024) :
    HasTable eightPages.paging.mem d ↔ d = 0 := by
  unfold HasTable
  rw [eightPages_dirEntry inside]
  split <;> simp_all

theorem eightPages_table : table eightPages.paging.mem 0 = 0x1000 := by
  unfold table
  rw [eightPages_dirEntry (by decide)]
  rfl

theorem eightPages_mapped (low : 0x300000 ≤ a.toNat) :
    Mapped a eightPages.paging ↔ a.toNat < 0x308000 := by
  have small := a.isLt
  unfold Mapped
  rw [getPageAddr_table]
  by_cases first : a.toNat < 0x400000
  · have zero : region a = 0 := by
      unfold region
      omega
    have index : pageIndex a % 1024 = a.toNat / 0x1000 := by
      unfold pageIndex
      omega
    have place : (pageTableEntry 0x1000 a).toNat = 0x1000 + 4 * (a.toNat / 0x1000) := by
      rw [pageTableEntry_toNat _ (by decide), index]
      rfl
    have word : (0x1000 + 4 * (a.toNat / 0x1000)) / 4 = 0x400 + a.toNat / 0x1000 := by omega
    rw [zero, if_pos ((eightPages_hasTable (by decide)).mpr rfl)]
    unfold pageEntry
    rw [zero, eightPages_table]
    change load32 (ofWords eightPagesTable) _ &&& ~~~7 ≠ 0 ↔ _
    rw [load32_ofWords _ (by omega), place, word]
    unfold eightPagesTable
    rw [if_neg (by omega)]
    split
    · next inside =>
      have count : pagingPages = 1792 := by decide
      exact iff_of_true (frame_ne_zero (by omega)) (by omega)
    · exact iff_of_false (fun proper => proper (by decide)) (by omega)
  · have other : region a ≠ 0 := by
      unfold region
      omega
    rw [if_neg (mt (eightPages_hasTable (region_lt a)).mp other)]
    exact iff_of_false (fun proper => proper rfl) (by omega)

theorem eightPages_paged : Paged eightPages where
  tables := by
    refine ⟨fun d inside has => ?_, fun d inside d' inside' has has' _ => ?_⟩
    · rw [(eightPages_hasTable inside).mp has, eightPages_table]
      decide
    · rw [(eightPages_hasTable inside).mp has, (eightPages_hasTable inside').mp has']
  proper := by decide
  pages := by decide
  long := by decide
  mapped a low := (eightPages_mapped low).trans (BitVec.lt_def (y := 0x308000)).symm

theorem eightPages_allocates (n : U32) (one : pagesFor n.toNat = 0x9000) : Allocates eightPages n where
  clear d inside has k free := by
    have low := pageOf_toNat (mem_freeFrames.mp free).1
    rw [(eightPages_hasTable inside).mp has, eightPages_table]
    bv_omega
  enough := by
    have length : eightPages.length.toNat = 0x8000 := rfl
    have none' : missing eightPages.paging eightPages.heap.endAddress.toNat
        (eightPages.heap.startAddress.toNat + pagesFor n.toNat) = ∅ := by
      refine Finset.eq_empty_of_forall_notMem fun d member => ?_
      obtain ⟨inside, never, -, high⟩ := mem_missing.mp member
      rw [eightPages_hasTable inside, one] at *
      change d * 0x400000 < 0x300000 + 0x9000 at high
      omega
    have some : 0 < (freeFrames eightPages.paging).card :=
      Finset.card_pos.mpr ⟨1791, mem_freeFrames.mpr ⟨by decide, by decide⟩⟩
    rw [none', one, length, Finset.card_empty]
    exact some

/-- A growth by a part of a page and a shrinkage by a part of a page. -/
theorem page_accounting_eightPages :
    Accounts (expand (kernelPager fun _ _ => 0) 0x8001 eightPages) 0x9000 ∧
      Accounts ((contract (kernelPager fun _ _ => 0) 0x7fff eightPages).map Prod.snd) 0x8000 := by
  obtain ⟨grow, shrink⟩ := page_accounting (fun _ _ => 0) eightPages_paged
  refine ⟨(grow 0x8001 (by decide) (by decide) (eightPages_allocates _ (by decide))).mpr
    ⟨by decide, Or.inr ?_⟩ _ ⟨rfl, fun _ _ => rfl⟩, (shrink 0x7fff (by decide)).mpr (Or.inl (by decide))⟩
  exact (eightPages_hasTable (by decide)).mpr (by decide)

/-- A growth to nine pages makes it ten. -/
theorem expand_page_too_many :
    Paged eightPages ∧ eightPages.length < 0x9000 ∧ Allocates eightPages 0x9000 ∧
      eightPages.heap.startAddress.toNat + pagesFor 0x9000 ≤ eightPages.heap.maxAddress.toNat ∧
      ¬ Accounts (expand (kernelPager fun _ _ => 0) 0x9000 eightPages) (pagesFor 0x9000) :=
  ⟨eightPages_paged, by decide, eightPages_allocates _ (by decide), by decide,
    fun accounts => partly_of_accounts (n := 0x9000) (by decide) accounts (by decide)⟩

end BlessOS.Guarantees.HeapAccounting
