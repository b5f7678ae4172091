import Mathlib.Order.Interval.Finset.Nat
import BlessOS.Guarantees.PageTables
import BlessOS.Guarantees.HeapRuns

/-!
# The frames behind the pages of the heap

`main` puts a frame of `get_free_page` behind every page of the initial heap. Where
the heap grows past these pages it finds the mapping of the boot, which leads to
frames that `mem_map` does not count or that are behind another page already. So
the pages of the heap have frames of their own exactly as long as the heap does not
grow past the region that `main` maps.
-/

set_option autoImplicit false

namespace BlessOS.Guarantees.HeapPages
open BlessOS.Lib.ByteMemory BlessOS.Lib.Transition
open BlessOS.Source BlessOS.Source.Memory BlessOS.Source.Kheap BlessOS.Source.Setup
open BlessOS.Guarantees.PageAllocator BlessOS.Guarantees.PageTables
open BlessOS.Guarantees.HeapLayout BlessOS.Guarantees.HeapInvariant BlessOS.Guarantees.HeapBounds
open BlessOS.Guarantees.HeapAlloc BlessOS.Guarantees.HeapGrow BlessOS.Guarantees.HeapFree
open BlessOS.Guarantees.HeapRuns BlessOS.Guarantees.OrderedArrayItems

variable {m : Mem} {p : Paging} {held : List U32} {a : U32} {i : Nat}

/-! ## The boot -/

theorem identity_succ (bound : i + 1 < mappedPages) :
    (0x1000 : U32).sle (identity (i + 1)) = true ∧ identity (i + 1) - 0x1000 = identity i ∧
      slot (i + 1) - 4 = slot i := by
  have next := slot_toNat bound
  have here := slot_toNat (Nat.lt_of_succ_lt bound)
  unfold mappedPages at bound
  have value : (identity (i + 1)).toNat = (i + 1) * 0x1000 + 7 := by
    unfold identity
    rw [BitVec.toNat_ofNat]
    omega
  have value' : (identity i).toNat = i * 0x1000 + 7 := by
    unfold identity
    rw [BitVec.toNat_ofNat]
    omega
  refine ⟨?_, by bv_omega, by bv_omega⟩
  rw [BitVec.sle_iff_toInt_le, BitVec.toInt_eq_toNat_of_lt (by decide),
    BitVec.toInt_eq_toNat_of_lt (by omega)]
  change ((0x1000 : Nat) : Int) ≤ _
  omega

/-- The loop of `setup_paging`, from the entry of page `i` down. -/
theorem fillTables_spec (i left : Nat) (bound : i < mappedPages) (enough : i < left) (m : Mem)
    (directory : Directory m) : ∃ m', fillTables left (slot i) (identity i) m = some m' ∧
      Directory m' ∧ ∀ j < mappedPages, entry m' j = if j ≤ i then identity j else entry m j := by
  induction i generalizing left m with
  | zero =>
    cases left with
    | zero => omega
    | succ left =>
      have last : ¬ (0x1000 : U32).sle (identity 0) := by decide
      unfold fillTables
      dsimp only
      rw [if_neg last]
      refine ⟨_, rfl, directory.store bound _, fun j inside => ?_⟩
      rw [entry_store bound inside]
      simp only [Nat.le_zero]
      split
      · next first => rw [first]
      · rfl
  | succ i ih =>
    cases left with
    | zero => omega
    | succ left =>
      obtain ⟨more, lower, next⟩ := identity_succ bound
      unfold fillTables
      dsimp only
      rw [if_pos more, lower, next]
      obtain ⟨m', ran, directory', entries⟩ := ih left (Nat.lt_of_succ_lt bound) (by omega)
        (store32 m (slot (i + 1)) (identity (i + 1))) (directory.store bound _)
      refine ⟨m', ran, directory', fun j inside => ?_⟩
      rw [entries j inside, entry_store bound inside]
      rcases Nat.lt_trichotomy j (i + 1) with below | same | above
      · rw [if_pos (by omega), if_pos (by omega)]
      · rw [if_neg (by omega), if_pos same, if_pos (by omega), same]
      · rw [if_neg (by omega), if_neg (by omega), if_neg (by omega)]

/-- `setup_paging` maps each page of the first 8 MiB to itself. -/
theorem setupPaging_spec (m : Mem) : ∃ m', setupPaging m = some m' ∧ Directory m' ∧
    ∀ i < mappedPages, entry m' i = identity i := by
  have directory : Directory (store32 (store32 (repStosl 0 (1024 * 3) 0 m) pgDir (pg0 + 7))
      (pgDir + 4) (pg1 + 7)) := by
    generalize repStosl 0 (1024 * 3) 0 m = cleared
    constructor
    · rw [load32_store32_of_disjoint _ _ (by decide) (by decide) (by decide), load32_store32_self]
    · rw [load32_store32_self]
  have top : pg1 + 4092 = slot 2047 := by decide
  have value : (0x7ff007 : U32) = identity 2047 := by decide
  obtain ⟨m', ran, directory', entries⟩ :=
    fillTables_spec 2047 pageBound (by decide) (by decide) _ directory
  refine ⟨m', ?_, directory', fun i inside => ?_⟩
  · unfold setupPaging
    dsimp only
    rw [top, value]
    exact ran
  · rw [entries i inside, if_pos (Nat.le_of_lt_succ inside)]

/-! ## The pages of `main` -/

/-- The page at `0x200000`, and those from `KHEAP_START` up to page `i`. -/
def mainPages (i : Nat) : Finset Nat := insert 512 (Finset.Ico 768 i)

theorem mem_mainPages {i j : Nat} : j ∈ mainPages i ↔ j = 512 ∨ 768 ≤ j ∧ j < i := by
  unfold mainPages
  rw [Finset.mem_insert, Finset.mem_Ico]

theorem insert_mainPages (begins : 768 ≤ i) : insert i (mainPages i) = mainPages (i + 1) := by
  ext j
  rw [Finset.mem_insert, mem_mainPages, mem_mainPages]
  omega

theorem mainPages_few (ends : i ≤ 1024) : (mainPages i).card < pagingPages := by
  have count := Finset.card_insert_le 512 (Finset.Ico 768 i)
  rw [Nat.card_Ico] at count
  have few : (1024 - 768) + 1 < pagingPages := by decide
  unfold mainPages
  omega

/-- The paging when the heap ends at `stop`. -/
structure PagesMapped (p : Paging) (stop : Nat) : Prop where
  owned : ∃ held, Owned (mainPages 1024) p held
  mapped : ∀ i, 768 ≤ i → i < 1024 → i * 0x1000 < stop → entry p.mem i ≠ 0
  other : entry p.mem 512 = 0x7ff007

theorem pageIndex_ofNat (bound : i ≤ 1024) :
    (BitVec.ofNat 32 (i * 0x1000)).toNat = i * 0x1000 ∧
      pageIndex (BitVec.ofNat 32 (i * 0x1000)) = i := by
  have value : (BitVec.ofNat 32 (i * 0x1000)).toNat = i * 0x1000 := by
    rw [BitVec.toNat_ofNat]
    omega
  refine ⟨value, ?_⟩
  unfold pageIndex
  omega

/-- The loop of `main`, from page `i` on. -/
theorem putHeapPages_spec (left i : Nat) (p : Paging) (held : List U32) (begins : 768 ≤ i)
    (ends : i ≤ 1024) (enough : 1024 - i < left) (owned : Owned (mainPages i) p held)
    (mapped : ∀ j, 768 ≤ j → j < i → entry p.mem j ≠ 0) (other : entry p.mem 512 = 0x7ff007) :
    ∃ p', putHeapPages left (BitVec.ofNat 32 (i * 0x1000)) p = some p' ∧ PagesMapped p' 0x400000 := by
  induction left generalizing i p held with
  | zero => omega
  | succ left ih =>
    obtain ⟨address, index⟩ := pageIndex_ofNat ends
    have test : (BitVec.ofNat 32 (i * 0x1000)).slt (kheapStart + kheapInitialSize) = true ↔
        i < 1024 := by
      rw [BitVec.slt_iff_toInt_lt, BitVec.toInt_eq_toNat_of_lt (by omega), address]
      change ((i * 0x1000 : Nat) : Int) < ((0x400000 : Nat) : Int) ↔ _
      omega
    unfold putHeapPages
    split
    · next more =>
      have below := test.mp more
      have fresh : i ∉ mainPages i := by
        rw [mem_mainPages]
        omega
      obtain ⟨page, -, owned', entries⟩ := owned.put (a := BitVec.ofNat 32 (i * 0x1000))
        (mainPages_few ends) (by omega) (fun member => by
          rw [index] at member
          exact absurd member fresh)
      rw [index] at owned' entries
      rw [insert_mainPages begins] at owned'
      have next : BitVec.ofNat 32 (i * 0x1000) + 0x1000 = BitVec.ofNat 32 ((i + 1) * 0x1000) := by
        bv_omega
      rw [next]
      refine ih (i + 1) _ _ (by omega) (by omega) (by omega) owned' (fun j low high => ?_) ?_
      · rw [entries j (by unfold mappedPages; omega)]
        split
        · exact entry_ne_zero page
        · exact mapped j low (by omega)
      · rw [entries 512 (by decide), if_neg (by omega)]
        exact other
    · next done =>
      have last : i = 1024 := by
        have reached := mt test.mpr done
        omega
      subst last
      exact ⟨p, rfl, ⟨held, owned⟩, fun j low high _ => mapped j low high, other⟩

/-- Nothing is put before `main`. -/
theorem owned_boot (directory : Directory m) (entries : ∀ i < mappedPages, entry m i = identity i) :
    Owned ∅ ⟨fun _ => 0, m⟩ [] where
  directory := directory
  range _ member := absurd member (Finset.notMem_empty _)
  tracks := initial_tracks m
  backed _ member := absurd member (Finset.notMem_empty _)
  apart _ member := absurd member (Finset.notMem_empty _)
  covered _ member := absurd member List.not_mem_nil
  others i inside _ := entries i inside

theorem nextEntry_boot (m : Mem) : nextEntry ⟨⟨fun _ => 0, m⟩, []⟩ = 1791 := by
  have count : pagingPages - 1 = 1790 + 1 := by decide
  unfold nextEntry
  rw [count, searchDown]
  exact if_pos rfl

/-- `main` creates the heap on pages that are all mapped. -/
theorem mainPaging_spec (boot : Mem) : ∃ p, mainPaging boot = some p ∧ PagesMapped p 0x400000 := by
  obtain ⟨m, ran, directory, entries⟩ := setupPaging_spec boot
  obtain ⟨page, first, owned, entries'⟩ := (owned_boot directory entries).put (a := 0x200000)
    (by decide) (by decide) (fun member => absurd member (Finset.notMem_empty _))
  have top : page = 0x7ff000 := by
    rw [first, nextEntry_boot]
    decide
  have index : pageIndex 0x200000 = 512 := by decide
  rw [index] at owned entries'
  have few : insert 512 ∅ = mainPages 768 := by
    unfold mainPages
    rw [Finset.Ico_self]
  rw [few] at owned
  obtain ⟨p, looped, pages⟩ := putHeapPages_spec pageBound 768 _ _ (by decide) (by decide)
    (by decide) owned (fun j low high => by omega)
    (by rw [entries' 512 (by decide), if_pos rfl, top]; decide)
  have start : kheapStart = BitVec.ofNat 32 (768 * 0x1000) := by decide
  refine ⟨p, ?_, pages⟩
  rw [← start] at looped
  unfold mainPaging
  rw [ran, Option.bind_eq_bind, Option.bind_some]
  exact looped

/-! ## Frames of their own -/

/-- The address of a page from `KHEAP_START` to the end of the heap. -/
def HeapPage (stop a : U32) : Prop := a.toNat % 0x1000 = 0 ∧ kheapStart ≤ a ∧ a < stop

/-- The pages of the heap are on different frames, and those of the allocator are taken. -/
def FramesExclusive (p : Paging) (stop : U32) : Prop :=
  (∀ a b, HeapPage stop a → HeapPage stop b → getPageAddr a p = getPageAddr b p → a = b) ∧
    ∀ a, HeapPage stop a → lowMem ≤ getPageAddr a p → getPageAddr a p < highMem →
      p.memMap ((getPageAddr a p - lowMem) >>> 12).toNat ≠ 0

namespace PagesMapped

variable {stop : U32}

theorem mono {lower upper : Nat} (pages : PagesMapped p upper) (le : lower ≤ upper) :
    PagesMapped p lower where
  owned := pages.owned
  mapped i begins ends inside := pages.mapped i begins ends (Nat.lt_of_lt_of_le inside le)
  other := pages.other

/-- The frame behind a page of the heap. -/
theorem frame (pages : PagesMapped p stop.toNat) {held : List U32}
    (owned : Owned (mainPages 1024) p held) (below : a.toNat < 0x400000) (inside : HeapPage stop a) :
    ∃ page ∈ held, entry p.mem (pageIndex a) = page ||| 7 ∧ getPageAddr a p = page := by
  obtain ⟨aligned, begins, ends⟩ := inside
  have begins' : 0x300000 ≤ a.toNat := begins
  have ends' : a.toNat < stop.toNat := ends
  have index : 768 ≤ pageIndex a ∧ pageIndex a < 1024 := by
    unfold pageIndex
    omega
  have present := pages.mapped (pageIndex a) index.1 index.2 (by unfold pageIndex; omega)
  have member : pageIndex a ∈ mainPages 1024 := mem_mainPages.mpr (Or.inr index)
  rcases owned.backed _ member with zero | ⟨page, held_page, value⟩
  · exact absurd zero present
  · refine ⟨page, held_page, value, ?_⟩
    rw [getPageAddr_eq owned.directory (by omega), value, owned.frame_held held_page]

/-- Within the region that `main` maps, the frames are exclusive. -/
theorem exclusive (pages : PagesMapped p stop.toNat) (below : stop.toNat ≤ 0x400000) :
    FramesExclusive p stop := by
  obtain ⟨held, owned⟩ := pages.owned
  have under : ∀ a, HeapPage stop a → a.toNat < 0x400000 := fun a inside => by
    have ends : a.toNat < stop.toNat := inside.2.2
    omega
  refine ⟨fun a b first second same => ?_, fun a inside low high => ?_⟩
  · obtain ⟨page, -, value, address⟩ := pages.frame owned (under a first) first
    obtain ⟨page', -, value', address'⟩ := pages.frame owned (under b second) second
    have equal : page = page' := address.symm.trans (same.trans address')
    have member : ∀ c, HeapPage stop c → pageIndex c ∈ mainPages 1024 := fun c inside => by
      have begins : 0x300000 ≤ c.toNat := inside.2.1
      have ends := under c inside
      rw [mem_mainPages]
      unfold pageIndex
      omega
    have index := owned.apart _ (member a first) _ (member b second)
      (by rw [value, value', equal]) (by rw [value]; exact entry_ne_zero page)
    have aligned := first.1
    have aligned' := second.1
    unfold pageIndex at index
    exact BitVec.eq_of_toNat_eq (by omega)
  · obtain ⟨page, held_page, -, address⟩ := pages.frame owned (under a inside) inside
    obtain ⟨k, bound, rfl⟩ := owned.tracks.pages page held_page
    rw [address, entry_of_pageOf bound]
    have counted := owned.tracks.counted k bound
    rw [if_pos held_page] at counted
    rw [counted]
    decide

/-- Past that region they are not: the page behind it is on the frame of the boot. -/
theorem not_exclusive (pages : PagesMapped p stop.toNat) (above : 0x400000 < stop.toNat) :
    ¬ FramesExclusive p stop := by
  rintro ⟨apart, counted⟩
  obtain ⟨held, owned⟩ := pages.owned
  have behind : HeapPage stop 0x400000 := ⟨by decide, by decide, above⟩
  have address : getPageAddr 0x400000 p = 0x400000 := by
    rw [getPageAddr_eq owned.directory (by decide),
      owned.others (pageIndex 0x400000) (by decide) (by rw [mem_mainPages]; decide)]
    decide
  by_cases taken : (0x400000 : U32) ∈ held
  · -- another page of the heap is on that frame
    obtain ⟨i, member, value⟩ := owned.covered _ taken
    rcases mem_mainPages.mp member with rfl | ⟨begins, ends⟩
    · rw [pages.other] at value
      exact absurd value (by decide)
    · obtain ⟨place, index⟩ := pageIndex_ofNat (Nat.le_of_lt ends)
      have page : HeapPage stop (BitVec.ofNat 32 (i * 0x1000)) := by
        refine ⟨by omega, ?_, ?_⟩
        · rw [BitVec.le_def, place]
          change 0x300000 ≤ _
          omega
        · rw [BitVec.lt_def, place]
          omega
      have same : getPageAddr (BitVec.ofNat 32 (i * 0x1000)) p = getPageAddr 0x400000 p := by
        rw [address, getPageAddr_eq owned.directory (by omega), index, value]
        decide
      have equal := congrArg BitVec.toNat (apart _ _ page behind same)
      rw [place] at equal
      have value' : i * 0x1000 = 0x400000 := equal
      omega
  · have free := counted 0x400000 behind
    rw [address] at free
    have entry : pageOf 768 = 0x400000 := by decide
    have zero := owned.tracks.counted 768 (by decide)
    rw [entry, if_neg taken] at zero
    exact free (by decide) (by decide) zero

/-! ## Growing and shrinking -/

section Pages

variable {behind : Paging → Mem} {s : HeapState Paging}

/-- What `expand` does at a page keeps the pages apart, and maps that page. -/
theorem map_page (behind : Paging → Mem) (aligned : a.toNat % 0x1000 = 0) (begins : 0x300000 ≤ a.toNat)
    (low : a.toNat < 0x800000) (pages : PagesMapped s.paging a.toNat) :
    PagesMapped (mapPage (kernelPager behind) a s).paging (a.toNat + 0x1000) := by
  obtain ⟨⟨held, owned⟩, mapped, other⟩ := pages
  have test := owned.getPageAddr_zero_iff low (by unfold pageIndex; omega)
  have index : pageIndex a * 0x1000 = a.toNat := by
    unfold pageIndex
    omega
  rw [mapPage_paging]
  split
  · next absent =>
    obtain ⟨member, zero⟩ := test.mp absent
    obtain ⟨page, -, owned', entries⟩ := owned.put (mainPages_few (Nat.le_refl _)) low fun _ => zero
    rw [Finset.insert_eq_of_mem member] at owned'
    refine ⟨⟨_, owned'⟩, fun i from768 to1024 inside => ?_, ?_⟩
    · rw [entries i (by unfold mappedPages; omega)]
      split
      · exact entry_ne_zero page
      · exact mapped i from768 to1024 (by omega)
    · rw [entries 512 (by decide), if_neg (by omega)]
      exact other
  · next present =>
    refine ⟨⟨held, owned⟩, fun i from768 to1024 inside zero => ?_, other⟩
    by_cases same : i = pageIndex a
    · exact present (test.mpr ⟨mem_mainPages.mpr (by omega), same ▸ zero⟩)
    · exact mapped i from768 to1024 (by omega) zero

/-- What `contract` does at a page keeps the pages apart, and the pages below mapped. -/
theorem remove_page {stop : Nat} (aligned : a.toNat % 0x1000 = 0) (begins : 0x300000 ≤ a.toNat)
    (below : a.toNat < 0x400000) (outside : stop ≤ a.toNat) (pages : PagesMapped p stop) :
    PagesMapped (removePage a p) stop := by
  obtain ⟨⟨held, owned⟩, mapped, other⟩ := pages
  have index : 768 ≤ pageIndex a ∧ pageIndex a < 1024 := by
    unfold pageIndex
    omega
  have value : pageIndex a * 0x1000 = a.toNat := by
    unfold pageIndex
    omega
  obtain ⟨held', owned', entries⟩ := owned.remove (by omega) (mem_mainPages.mpr (Or.inr index))
  refine ⟨⟨held', owned'⟩, fun i from768 to1024 inside => ?_, ?_⟩
  · rw [entries i (by unfold mappedPages; omega) (by omega)]
    exact mapped i from768 to1024 inside
  · rw [entries 512 (by decide) (by omega)]
    exact other

variable {n : U32}

/-- A request for which the heap grows, up to the end of the boot's mapping. -/
theorem grown_pages {v : HeapState Paging} (bounds : PageBounds s.heap)
    (begins : 0x300000 ≤ s.heap.startAddress.toNat) (noWrap : n.toNat + 20 < 2 ^ 32)
    (space : s.heap.startAddress.toNat + grownLength s n ≤ 0x800000)
    (expanded : Expanded (kernelPager behind) s n v)
    (pages : PagesMapped s.paging s.heap.endAddress.toNat) :
    PagesMapped v.paging v.heap.endAddress.toNat := by
  have need := needed_toNat noWrap
  have covered := le_roundedLength (s.length.toNat + (n.toNat + 20))
  have length := length_toNat bounds
  have proper := bounds.proper
  have startPage := bounds.startPage
  unfold grownLength at space
  have bytes : (s.length + needed n).toNat = s.length.toNat + (n.toNat + 20) := by
    rw [BitVec.toNat_add, need]
    omega
  have rounded : (pageRound (s.length + needed n)).toNat =
      roundedLength (s.length.toNat + (n.toNat + 20)) := by
    rw [pageRound_toNat (by rw [bytes]; omega), bytes]
  obtain ⟨t, ran, same, mapped⟩ := expand_rule (kernelPager behind)
    (fun i t => PagesMapped t.paging (s.heap.startAddress.toNat + i.toNat)) (s.length + needed n)
    bounds (by omega) (by rw [bytes]; omega)
    (fun i t aligned from_old below kept mapped => by
      have below' : i.toNat < (pageRound (s.length + needed n)).toNat := below
      have address : (s.heap.startAddress + i).toNat = s.heap.startAddress.toNat + i.toNat := by
        rw [BitVec.toNat_add]
        omega
      have next : (i + 0x1000).toNat = i.toNat + 0x1000 := by
        rw [BitVec.toNat_add]
        change (_ + 0x1000) % _ = _
        omega
      have mapped' := map_page behind (a := s.heap.startAddress + i) (by omega)
        (by omega) (by omega) (address ▸ mapped)
      rw [address] at mapped'
      rw [next, ← Nat.add_assoc]
      exact mapped')
    (by rw [length, Nat.add_sub_cancel' (Nat.le_of_lt proper)]; exact pages)
  rw [expanded.expanded] at ran
  cases ran
  have stop : (s.heap.startAddress + pageRound (s.length + needed n)).toNat =
      s.heap.startAddress.toNat + (pageRound (s.length + needed n)).toNat := by
    rw [BitVec.toNat_add]
    omega
  change PagesMapped t.paging (s.heap.startAddress + pageRound (s.length + needed n)).toNat
  rw [stop]
  exact mapped

/-- A `free` after which the heap may have shrunk. -/
theorem freed_pages {u : HeapState Paging} {q : U32} (bounds : PageBounds s.heap)
    (begins : 0x300000 ≤ s.heap.startAddress.toNat)
    (long : s.heap.startAddress.toNat + 0x8000 ≤ s.heap.endAddress.toNat)
    (below : s.heap.endAddress.toNat ≤ 0x400000) (moved : EndMoved (kernelPager behind) s q u)
    (pages : PagesMapped s.paging s.heap.endAddress.toNat) :
    PagesMapped u.paging u.heap.endAddress.toNat ∧ u.heap.endAddress.toNat ≤ 0x400000 ∧
      s.heap.startAddress.toNat + 0x8000 ≤ u.heap.endAddress.toNat := by
  unfold EndMoved at moved
  split at moved
  · next ends =>
    obtain ⟨stop, inside, v, start, same, paging, ran⟩ := moved
    have bounds' : PageBounds v.heap := ⟨start ▸ bounds.startPage, same ▸ bounds.endPage,
      start ▸ same ▸ bounds.proper⟩
    have length : v.length.toNat = s.heap.endAddress.toNat - s.heap.startAddress.toNat := by
      rw [length_toNat bounds', start, same]
    have length' := length_toNat bounds
    obtain ⟨size, whole, least, -, most⟩ := contractedSize_spec inside (length_mod bounds)
    have startPage := bounds.startPage
    have value : u.heap.endAddress.toNat =
        s.heap.startAddress.toNat + (contractedSize (mergedOffset s q)).toNat := by
      rw [stop, BitVec.toNat_add]
      omega
    obtain ⟨final, ran', mapped⟩ := contract_rule (kernelPager behind)
      (fun t => PagesMapped t.paging u.heap.endAddress.toNat) (mergedOffset s q) (length_mod bounds')
      (by omega)
      (fun i t aligned above inside' kept mapped => by
        have above' : (contractedSize (mergedOffset s q)).toNat < i.toNat := above
        have address : (v.heap.startAddress + i).toNat = s.heap.startAddress.toNat + i.toNat := by
          rw [start, BitVec.toNat_add]
          omega
        exact remove_page (by omega) (by omega) (by omega) (by omega) mapped)
      (by
        rw [paging]
        exact pages.mono (by omega))
    rw [ran] at ran'
    have final_eq : u.paging = final := congrArg (fun r => r.2.paging) (Option.some.inj ran')
    rw [final_eq]
    exact ⟨mapped, by omega, by omega⟩
  · obtain ⟨stop, paging⟩ := moved
    rw [stop, paging]
    exact ⟨pages, below, long⟩

end Pages

end PagesMapped

/-! ## `kmalloc` and `kfree` -/

section Kernel

variable {ε : Type}

/-- A call of `kmalloc` or `kfree`, in a kernel whose heap is that of the session. -/
def kernelStep (pager : Pager ε) (k : Kernel ε) (s : Session ε) : Call → Session ε → Prop
  | .alloc n, t => ∃ q, kmalloc pager n (k.withHeap s.heap) = some (q, k.withHeap t.heap) ∧
      t.live = (q, n) :: s.live
  | .free q, t => kfree pager q (k.withHeap s.heap) = some (k.withHeap t.heap) ∧
      t.live = s.live.filter fun block => block.1 ≠ q

theorem withHeap_injective (k : Kernel ε) {s t : HeapState ε} (same : k.withHeap s = k.withHeap t) :
    s = t := by
  obtain ⟨mem, paging, heap⟩ := s
  obtain ⟨mem', paging', heap'⟩ := t
  simp only [Kernel.withHeap, Kernel.mk.injEq, Option.some.injEq] at same
  obtain ⟨-, heap_eq, mem_eq, paging_eq⟩ := same
  rw [heap_eq, mem_eq, paging_eq]

theorem kmalloc_withHeap (pager : Pager ε) (n : U32) (k : Kernel ε) (s : HeapState ε) :
    kmalloc pager n (k.withHeap s) =
      (alloc pager n 0 s).map fun result => (result.1, k.withHeap result.2) := by
  change (alloc pager n 0 s).bind (fun result => some (result.1, k.withHeap result.2)) = _
  cases alloc pager n 0 s <;> rfl

theorem kfree_withHeap (pager : Pager ε) (q : U32) (k : Kernel ε) (s : HeapState ε) :
    kfree pager q (k.withHeap s) = (free pager q s).map k.withHeap := by
  change (free pager q s).bind (fun result => some (k.withHeap result)) = _
  cases free pager q s <;> rfl

/-- The kernel's functions are `alloc` and `free` on its heap. -/
theorem kernelStep_iff (pager : Pager ε) (k : Kernel ε) (s t : Session ε) (a : Call) :
    kernelStep pager k s a t ↔ Step pager s a t := by
  obtain ⟨heap, live⟩ := t
  cases a with
  | alloc n =>
    simp only [kernelStep, Step, call, kmalloc_withHeap]
    constructor
    · rintro ⟨q, served, rfl⟩
      obtain ⟨⟨q', heap'⟩, ran, same⟩ := Option.map_eq_some_iff.mp served
      obtain ⟨rfl, same_heap⟩ := Prod.mk.inj same
      rw [ran, ← withHeap_injective k same_heap]
      rfl
    · intro served
      obtain ⟨⟨q, heap'⟩, ran, same⟩ := Option.map_eq_some_iff.mp served
      cases same
      exact ⟨q, by rw [ran]; rfl, rfl⟩
  | free q =>
    simp only [kernelStep, Step, call, kfree_withHeap]
    constructor
    · rintro ⟨freed, rfl⟩
      obtain ⟨heap', ran, same⟩ := Option.map_eq_some_iff.mp freed
      rw [ran, ← withHeap_injective k same]
      rfl
    · intro freed
      obtain ⟨heap', ran, same⟩ := Option.map_eq_some_iff.mp freed
      cases same
      exact ⟨by rw [ran]; rfl, rfl⟩

end Kernel

/-! ## Runs of the kernel's heap -/

/-- The heap does not grow past the region that `main` maps. -/
def WithinMain {ε : Type} (s : Session ε) : Call → Prop
  | .alloc n => findSmallestHole (needed n) 0 s.heap = none →
      s.heap.heap.startAddress.toNat + grownLength s.heap n ≤ (kheapStart + kheapInitialSize).toNat
  | .free _ => True

/-- Calls on a sound heap that stays within that region; `NULL` may always be freed. -/
def Contained {ε : Type} (s : Session ε) (a : Call) : Prop :=
  a = .free 0 ∨ Admitted s a ∧ WithinMain s a

/-- What holds of the kernel's heap and of the pages under it. -/
structure KernelInv (s : Session Paging) (cells : List Cell) : Prop where
  session : SessionInv s cells
  start : s.heap.heap.startAddress = 0x380000
  most : s.heap.heap.maxAddress = 0xCFFFF000
  long : 0x388000 ≤ s.heap.heap.endAddress.toNat
  below : s.heap.heap.endAddress.toNat ≤ 0x400000
  pages : PagesMapped s.heap.paging s.heap.heap.endAddress.toNat

theorem createOk_main : CreateOk kheapStart (kheapStart + kheapInitialSize) 0xCFFFF000 :=
  ⟨by decide, by decide, by decide, by decide⟩

theorem mainHeap_spec (boot m : Mem) : ∃ s, mainHeap boot m = some s ∧
    KernelInv ⟨s, []⟩ [wholeHeap kheapStart (kheapStart + kheapInitialSize)] ∧
    s.heap.endAddress = 0x400000 := by
  obtain ⟨p, ran, pages⟩ := mainPaging_spec boot
  obtain ⟨m', heap, created, inv, stop, most, start⟩ := createHeap_spec createOk_main m
  refine ⟨⟨m', p, heap⟩, ?_, ⟨newSession_inv createOk_main created p, start.trans (by decide),
    most, ?_, ?_, ?_⟩, stop⟩
  · unfold mainHeap
    rw [ran, Option.bind_eq_bind, Option.bind_some, created]
    rfl
  · change 0x388000 ≤ heap.endAddress.toNat
    rw [stop]
    decide
  · change heap.endAddress.toNat ≤ 0x400000
    rw [stop]
    decide
  · change PagesMapped p heap.endAddress.toNat
    rw [stop]
    exact pages

section Steps

variable (behind : Paging → Mem) {s : Session Paging} {cells : List Cell} {n q : U32}

/-- A request for which the heap grows, up to the end of the boot's mapping. -/
theorem alloc_grown_pages (held : KernelInv s cells) (noWrap : n.toNat + 20 < 2 ^ 32)
    (misses : findSmallestHole (needed n) 0 s.heap = none) (last : LastHoleAtEnd s.heap)
    (space : s.heap.heap.startAddress.toNat + grownLength s.heap n ≤ 0x800000) :
    ∃ t cells', Step (kernelPager behind) s (.alloc n) t ∧ SessionInv t cells' ∧ SameRange s t ∧
      t.heap.heap.endAddress.toNat =
        s.heap.heap.startAddress.toNat + grownLength s.heap n ∧
      PagesMapped t.heap.paging t.heap.heap.endAddress.toNat := by
  obtain ⟨session, start, most, long, below, pages⟩ := held
  have bounds := session.inv.pages
  have begins : 0x300000 ≤ s.heap.heap.startAddress.toNat := by
    rw [start]
    decide
  obtain ⟨t, v, cells', returned, expanded, inv, live, range, stop, paging⟩ :=
    call_alloc_grown (kernelPager behind) session noWrap misses (by omega) last
  have value := expanded.stop
  rw [← stop] at value
  refine ⟨t, cells', returned, ⟨inv, live, ?_⟩, range, value, ?_⟩
  · rw [range.2, most, value]
    exact Nat.le_trans space (by decide)
  · rw [paging, stop]
    exact pages.grown_pages bounds begins noWrap space expanded

/-- A request that stays within the region of `main`. -/
theorem alloc_within (held : KernelInv s cells) (noWrap : n.toNat + 20 < 2 ^ 32)
    (sound : Sound s (.alloc n)) (within : WithinMain s (.alloc n)) :
    ∃ t cells', Step (kernelPager behind) s (.alloc n) t ∧ KernelInv t cells' := by
  cases found : findSmallestHole (needed n) 0 s.heap with
  | some i =>
    obtain ⟨t, cells', returned, session, range, stop, paging, -⟩ :=
      call_alloc_served (kernelPager behind) held.session noWrap found
    refine ⟨t, cells', returned, session, range.1.trans held.start, range.2.trans held.most, ?_, ?_, ?_⟩
    · rw [stop]
      exact held.long
    · rw [stop]
      exact held.below
    · rw [stop, paging]
      exact held.pages
  | none =>
    have room : _ ≤ 0x400000 := within found
    have bounds := held.session.inv.pages
    obtain ⟨t, cells', returned, session, range, stop, pages⟩ :=
      alloc_grown_pages behind held noWrap found (sound found) (by omega)
    have longer := Expanded.grownLength_ge (n := n) (Nat.le_of_lt bounds.proper)
    have long := held.long
    exact ⟨t, cells', returned, session, range.1.trans held.start, range.2.trans held.most,
      by omega, by omega, pages⟩

theorem free_within (held : KernelInv s cells) (admitted : Admitted s (.free q)) :
    ∃ t cells', Step (kernelPager behind) s (.free q) t ∧ KernelInv t cells' := by
  obtain ⟨t, cells', returned, session, range, -, moved⟩ :=
    call_free (kernelPager behind) held.session admitted
  have start : s.heap.heap.startAddress.toNat = 0x380000 := by
    rw [held.start]
    rfl
  have long := held.long
  obtain ⟨pages, below, long'⟩ := held.pages.freed_pages held.session.inv.pages (by omega)
    (by omega) held.below moved
  exact ⟨t, cells', returned, session, range.1.trans held.start, range.2.trans held.most,
    by omega, below, pages⟩

/-- Freeing `NULL` does nothing. -/
theorem free_null (held : KernelInv s cells) : Step (kernelPager behind) s (.free 0) s := by
  have kept : (s.live.filter fun block => block.1 ≠ 0) = s.live := by
    rw [List.filter_eq_self]
    intro block member
    obtain ⟨c, present, -, pointer⟩ := mem_payloads.mp (held.session.live.subset member)
    have bounds := held.session.inv.layout.bounds c present
    have wide := (held.session.inv.layout.ok c present).wide
    have below := held.below
    unfold Cell.hi Cell.lo at bounds
    rw [decide_eq_true_eq, pointer]
    unfold headerBytes
    bv_omega
  unfold Step call
  dsimp only
  rw [kept]
  rfl

/-- Every contained call returns and keeps the invariant. -/
theorem contained_spec (held : KernelInv s cells) {a : Call} (guard : Contained s a) :
    ∃ t cells', Step (kernelPager behind) s a t ∧ KernelInv t cells' := by
  rcases guard with rfl | ⟨admitted, within⟩
  · exact ⟨s, cells, free_null behind held, held⟩
  · cases a with
    | alloc n => exact alloc_within behind held admitted.1.1 admitted.2 within
    | free q => exact free_within behind held admitted

end Steps

section Runs

variable {behind : Paging → Mem} {boot : Mem} {s : HeapState Paging} {k : Kernel Paging}
  {calls : List Call} {t : Session Paging}

theorem kernel_inv (created : mainHeap boot m = some s)
    (run : GuardedRun (kernelStep (kernelPager behind) k) Contained ⟨s, []⟩ calls t) :
    ∃ cells, KernelInv t cells := by
  obtain ⟨s', created', held, -⟩ := mainHeap_spec boot m
  rw [created] at created'
  cases created'
  refine run.invariant (fun s => ∃ cells, KernelInv s cells) ?_ ⟨_, held⟩
  rintro s a t ⟨cells, held⟩ guard next
  obtain ⟨u, cells', returned, held'⟩ := contained_spec behind held guard
  have same : u = t := Option.some.inj (returned.symm.trans ((kernelStep_iff _ _ _ _ _).mp next))
  exact ⟨cells', same ▸ held'⟩

/-- On a sound heap, a request leaves the frames exclusive exactly when the heap does
not grow past the region of `main`. -/
theorem alloc_exclusive_iff (behind : Paging → Mem) {s : Session Paging} {cells : List Cell}
    (held : KernelInv s cells)
    {n : U32} (noWrap : n.toNat + 20 < 2 ^ 32) (sound : Sound s (.alloc n))
    (space : findSmallestHole (needed n) 0 s.heap = none →
      s.heap.heap.startAddress.toNat + grownLength s.heap n ≤ highMem.toNat) :
    ∃ t, Step (kernelPager behind) s (.alloc n) t ∧
      (FramesExclusive t.heap.paging t.heap.heap.endAddress ↔ WithinMain s (.alloc n)) := by
  by_cases within : WithinMain s (.alloc n)
  · obtain ⟨t, cells', returned, held'⟩ := alloc_within behind held noWrap sound within
    exact ⟨t, returned, iff_of_true (held'.pages.exclusive held'.below) within⟩
  · obtain ⟨misses, above⟩ := Classical.not_imp.mp within
    have above' : 0x400000 < s.heap.heap.startAddress.toNat + grownLength s.heap n :=
      Nat.lt_of_not_le above
    obtain ⟨t, cells', returned, -, -, stop, pages⟩ :=
      alloc_grown_pages behind held noWrap misses (sound misses) (space misses)
    exact ⟨t, returned, iff_of_false (pages.not_exclusive (by omega)) within⟩

/-- From the boot and the set-up of `main`, in every run of contained calls the pages of
the heap are on frames of their own that `mem_map` counts; the next request keeps them so
exactly when it is contained too. -/
theorem heap_frames_exclusive (created : mainHeap boot m = some s)
    (run : GuardedRun (kernelStep (kernelPager behind) k) Contained ⟨s, []⟩ calls t) :
    FramesExclusive t.heap.paging t.heap.heap.endAddress ∧
      ∀ n : U32, n.toNat + 20 < 2 ^ 32 → Sound t (.alloc n) →
        (findSmallestHole (needed n) 0 t.heap = none →
          t.heap.heap.startAddress.toNat + grownLength t.heap n ≤ highMem.toNat) →
        ∃ u, kernelStep (kernelPager behind) k t (.alloc n) u ∧
          (FramesExclusive u.heap.paging u.heap.heap.endAddress ↔ WithinMain t (.alloc n)) := by
  obtain ⟨cells, held⟩ := kernel_inv created run
  refine ⟨held.pages.exclusive held.below, fun n noWrap sound space => ?_⟩
  obtain ⟨u, returned, exact_when⟩ := alloc_exclusive_iff behind held noWrap sound space
  exact ⟨u, (kernelStep_iff _ _ _ _ _).mpr returned, exact_when⟩

end Runs

section Main

variable {s : HeapState Paging}
  (inv : KernelInv ⟨s, []⟩ [wholeHeap kheapStart (kheapStart + kheapInitialSize)])

include inv

/-- The one hole of the heap of `main`. -/
theorem items_main : items s.heap.index s.mem = [0x380000] ∧ blockSize s.mem 0x380000 = 0x80000 := by
  have listed := inv.session.inv.indexed.entries
  have header := (inv.session.inv.layout.ok _ List.mem_cons_self).header.size
  have base : (wholeHeap kheapStart (kheapStart + kheapInitialSize)).base = 0x380000 := by decide
  have size : (wholeHeap kheapStart (kheapStart + kheapInitialSize)).size = 0x80000 := by decide
  rw [base, size] at header
  have one : holes [wholeHeap kheapStart (kheapStart + kheapInitialSize)] = [0x380000] := by decide
  rw [one] at listed
  exact ⟨List.perm_singleton.mp listed, header⟩

/-- It serves small requests and no large ones. -/
theorem findSmallestHole_main (size : U32) :
    findSmallestHole size 0 s = none ↔ 0x80000 < size := by
  obtain ⟨listed, hole⟩ := items_main inv
  constructor
  · intro misses
    have small := findSmallestHole_none misses 0x380000 (by rw [listed]; exact List.mem_cons_self)
    rwa [hole] at small
  · intro large
    cases found : findSmallestHole size 0 s with
    | none => rfl
    | some i =>
      obtain ⟨inside, enough, -⟩ := findSmallestHole_some found
      have item : s.heap.index.item s.mem i = 0x380000 :=
        List.mem_singleton.mp (listed ▸ mem_items.mpr ⟨i, inside, rfl⟩)
      rw [item, hole] at enough
      exact absurd large (BitVec.not_lt.mpr enough)

theorem lastHoleAtEnd_main (stop : s.heap.endAddress = 0x400000) : LastHoleAtEnd s := by
  obtain ⟨listed, hole⟩ := items_main inv
  intro h member _
  rw [listed, List.mem_singleton] at member
  rw [member, hole, stop]
  rfl

theorem grownLength_main (stop : s.heap.endAddress = 0x400000) : grownLength s 0x100000 = 0x181000 := by
  have start : s.heap.startAddress = 0x380000 := inv.start
  unfold grownLength HeapState.length
  rw [start, stop]
  decide

end Main

/-- `main`'s first request is contained. -/
theorem heap_frames_exclusive_kmalloc : ∃ s k t, mainHeap (fun _ => 0) (fun _ => 0) = some s ∧
    GuardedRun (kernelStep (kernelPager fun _ _ => 0) k) Contained ⟨s, []⟩ [.alloc 8] t ∧
    FramesExclusive t.heap.paging t.heap.heap.endAddress := by
  obtain ⟨s, created, held, stop⟩ := mainHeap_spec (fun _ => 0) (fun _ => 0)
  have served : ¬ findSmallestHole (needed 8) 0 s = none :=
    fun misses => absurd ((findSmallestHole_main held _).mp misses) (by decide)
  have guard : Contained (⟨s, []⟩ : Session Paging) (.alloc 8) :=
    Or.inr ⟨⟨⟨by decide, fun misses => absurd misses served⟩, fun misses => absurd misses served⟩,
      fun misses => absurd misses served⟩
  obtain ⟨t, cells', returned, -⟩ := contained_spec (fun _ _ => 0) held guard
  let k : Kernel Paging := ⟨0, none, fun _ => 0, s.paging⟩
  have run : GuardedRun (kernelStep (kernelPager fun _ _ => 0) k) Contained ⟨s, []⟩ [.alloc 8] t :=
    .snoc (.nil _) guard ((kernelStep_iff _ _ _ _ _).mpr returned)
  exact ⟨s, k, t, created, run, (heap_frames_exclusive created run).1⟩

/-- The search of `get_free_page` ends at a free entry. -/
def FindsFree (s : Session Paging) : Prop :=
  s.heap.paging.memMap (searchDown s.heap.paging.memMap (pagingPages - 1)) = 0

theorem findsFree {s : Session Paging} {stop : Nat} (pages : PagesMapped s.heap.paging stop) :
    FindsFree s := by
  obtain ⟨held, owned⟩ := pages.owned
  have fresh := owned.tracks.next_not_held (owned.not_allHeld (mainPages_few (Nat.le_refl _)))
  have counted := owned.tracks.counted _ (nextEntry_lt ⟨s.heap.paging, held⟩)
  rw [if_neg fresh] at counted
  exact counted

/-- `main`'s last request leaves the heap with pages that are on frames of the boot. -/
theorem kmalloc_shares_frames : ∃ s k t, mainHeap (fun _ => 0) (fun _ => 0) = some s ∧
    GuardedRun (kernelStep (kernelPager fun _ _ => 0) k) (fun s _ => FindsFree s) ⟨s, []⟩
      [.alloc 0x100000] t ∧
    FindsFree t ∧ t.heap.heap.endAddress = 0x501000 ∧
    ¬ FramesExclusive t.heap.paging t.heap.heap.endAddress := by
  obtain ⟨s, created, held, stop⟩ := mainHeap_spec (fun _ => 0) (fun _ => 0)
  have misses : findSmallestHole (needed 0x100000) 0 s = none :=
    (findSmallestHole_main held _).mpr (by decide)
  have length := grownLength_main held stop
  have start : s.heap.startAddress.toNat = 0x380000 := by
    rw [show s.heap.startAddress = 0x380000 from held.start]
    rfl
  obtain ⟨t, cells', returned, -, -, stop', pages⟩ :=
    alloc_grown_pages (fun _ _ => 0) held (n := 0x100000) (by decide) misses
      (lastHoleAtEnd_main held stop) (by
        change s.heap.startAddress.toNat + grownLength s 0x100000 ≤ _
        omega)
  have value : t.heap.heap.endAddress.toNat = 0x501000 := by
    rw [stop']
    change s.heap.startAddress.toNat + grownLength s 0x100000 = _
    omega
  refine ⟨s, ⟨0, none, fun _ => 0, s.paging⟩, t, created, .snoc (.nil _) (findsFree held.pages)
    ((kernelStep_iff _ _ _ _ _).mpr returned), findsFree pages, BitVec.eq_of_toNat_eq value, ?_⟩
  exact pages.not_exclusive (by omega)

end BlessOS.Guarantees.HeapPages
