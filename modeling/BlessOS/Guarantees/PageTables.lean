import BlessOS.Source.Setup
import BlessOS.Guarantees.PageAllocator

/-!
# Pages of the first 8 MiB and the frames behind them

`setup_paging` leaves one entry for each page of the first 8 MiB, in two tables that
follow one another, and each page is its own frame. `Owned` describes what becomes
of this when some pages are put on frames of `get_free_page` or removed: the pages
are apart, `mem_map` counts exactly their frames, and all other pages stay where
they were.
-/

set_option autoImplicit false

namespace BlessOS.Guarantees.PageTables
open BlessOS.Lib.ByteMemory
open BlessOS.Source BlessOS.Source.Memory BlessOS.Source.Kheap BlessOS.Source.Setup
open BlessOS.Guarantees.PageAllocator

variable {m : Mem} {p : Paging} {own : Finset Nat} {held : List U32} {a page : U32} {i j k : Nat}

/-! ## Entries -/

/-- The number of pages of the first 8 MiB. -/
def mappedPages : Nat := 2048

/-- The address of the entry of page `i` in the tables of `setup_paging`. -/
def slot (i : Nat) : U32 := pg0 + 4 * BitVec.ofNat 32 i

def entry (m : Mem) (i : Nat) : U32 := load32 m (slot i)

/-- The entry that maps page `i` to itself. -/
def identity (i : Nat) : U32 := BitVec.ofNat 32 (i * 0x1000 + 7)

/-- The directory of `setup_paging`. -/
structure Directory (m : Mem) : Prop where
  first : load32 m pgDir = pg0 + 7
  second : load32 m (pgDir + 4) = pg1 + 7

theorem slot_toNat (inside : i < mappedPages) : (slot i).toNat = 0x1000 + 4 * i := by
  have bound : i < 2048 := inside
  unfold slot
  rw [BitVec.toNat_add, BitVec.toNat_mul, BitVec.toNat_ofNat]
  change (0x1000 + 4 * (i % 2 ^ 32) % 2 ^ 32) % 2 ^ 32 = _
  omega

/-- Writing the entry of a page changes that of no other page. -/
theorem entry_store (hi : i < mappedPages) (hj : j < mappedPages) (value : U32) :
    entry (store32 m (slot i) value) j = if j = i then value else entry m j := by
  have at_i := slot_toNat hi
  have at_j := slot_toNat hj
  unfold mappedPages at hi hj
  unfold entry
  split
  · next same =>
    rw [same, load32_store32_self]
  · next other =>
    exact load32_store32_of_disjoint m value (by omega) (by omega) (by omega)

theorem Directory.store (directory : Directory m) (inside : i < mappedPages) (value : U32) :
    Directory (store32 m (slot i) value) := by
  have at_i := slot_toNat inside
  have bound : i < 2048 := inside
  constructor
  · rw [load32_store32_of_disjoint m value (by omega) (by decide)
      (Or.inr (by rw [at_i]; show 4 ≤ _; omega))]
    exact directory.first
  · rw [load32_store32_of_disjoint m value (by omega) (by decide)
      (Or.inr (by rw [at_i]; show 8 ≤ _; omega))]
    exact directory.second

/-! ## Addresses -/

def pageIndex (a : U32) : Nat := a.toNat / 0x1000

theorem pageTableEntry_toNat (table : U32) (fits : table.toNat + 0x1000 ≤ 2 ^ 32) :
    (pageTableEntry table a).toNat = table.toNat + 4 * (pageIndex a % 1024) := by
  have mask : ((a >>> 12) &&& 0x3ff).toNat = pageIndex a % 1024 := by
    rw [BitVec.toNat_and, BitVec.toNat_ushiftRight, Nat.shiftRight_eq_div_pow]
    exact Nat.and_two_pow_sub_one_eq_mod _ 10
  unfold pageTableEntry
  rw [BitVec.toNat_add, BitVec.toNat_mul, mask]
  change (_ + 4 * _ % 2 ^ 32) % 2 ^ 32 = _
  omega

/-- The directory entry of the first 4 MiB and that of the second. -/
theorem pageDirEntry_low (low : a.toNat < 0x800000) :
    pageDirEntry a = if pageIndex a < 1024 then pgDir else pgDir + 4 := by
  have shifted : a >>> 20 = BitVec.ofNat 32 (a.toNat / 0x100000) := by
    apply BitVec.eq_of_toNat_eq
    rw [BitVec.toNat_ushiftRight, Nat.shiftRight_eq_div_pow, BitVec.toNat_ofNat]
    omega
  have quotient : a.toNat / 0x100000 < 8 := by omega
  have half : pageIndex a < 1024 ↔ a.toNat / 0x100000 < 4 := by
    unfold pageIndex
    omega
  have table : ∀ q, q < 8 →
      BitVec.ofNat 32 q &&& (0xffc : U32) = if q < 4 then pgDir else pgDir + 4 := by
    decide
  unfold pageDirEntry
  rw [shifted, table _ quotient]
  simp only [half]

/-- The directory leads from an address to the entry of its page. -/
theorem Directory.leads (directory : Directory m) (low : a.toNat < 0x800000) :
    load32 m (pageDirEntry a) &&& 1 ≠ 0 ∧
      pageTableEntry (0xfffff000 &&& load32 m (pageDirEntry a)) a = slot (pageIndex a) := by
  have index : pageIndex a < mappedPages := by
    unfold pageIndex mappedPages
    omega
  have place := slot_toNat index
  have bound : pageIndex a < 2048 := index
  rw [pageDirEntry_low low]
  split
  · rw [directory.first]
    refine ⟨by decide, BitVec.eq_of_toNat_eq ?_⟩
    rw [place, pageTableEntry_toNat _ (by decide)]
    change 0x1000 + _ = _
    omega
  · rw [directory.second]
    refine ⟨by decide, BitVec.eq_of_toNat_eq ?_⟩
    rw [place, pageTableEntry_toNat _ (by decide)]
    change 0x2000 + _ = _
    omega

section Operations

variable (directory : Directory p.mem) (low : a.toNat < 0x800000)

include directory low

theorem getPageAddr_eq : getPageAddr a p = entry p.mem (pageIndex a) &&& ~~~7 := by
  obtain ⟨present, place⟩ := directory.leads low
  unfold getPageAddr
  dsimp only
  rw [if_pos present, place]
  rfl

theorem putPage_eq (page : U32) :
    putPage page a p = (page, { p with mem := store32 p.mem (slot (pageIndex a)) (page ||| 7) }) := by
  obtain ⟨present, place⟩ := directory.leads low
  unfold putPage
  dsimp only
  rw [if_pos present, place]

theorem removePage_eq : removePage a p =
    if entry p.mem (pageIndex a) &&& 1 ≠ 0 then
      let p' := freePage (entry p.mem (pageIndex a) &&& ~~~7) p
      { p' with mem := store32 p'.mem (slot (pageIndex a)) 0 }
    else p := by
  obtain ⟨present, place⟩ := directory.leads low
  unfold removePage
  dsimp only
  rw [if_pos present, place, getPageAddr_eq directory low]
  rfl

end Operations

@[simp] theorem freePage_mem (a : U32) (p : Paging) : (freePage a p).mem = p.mem := by
  unfold freePage
  dsimp only
  split
  · rfl
  · split <;> rfl

@[simp] theorem getFreePage_mem (p : Paging) : (getFreePage p).2.mem = p.mem := by
  rw [getFreePage_eq ⟨p, []⟩]

theorem mapPage_paging (behind : Paging → Mem) {s : HeapState Paging} (a : U32) :
    (mapPage (kernelPager behind) a s).paging =
      if getPageAddr a s.paging = 0 then putFreePage a s.paging else s.paging := by
  unfold mapPage
  split
  · next absent => exact (if_pos absent).symm
  · next present => exact (if_neg present).symm

/-! ## Entries and frames -/

theorem frame_of_entry (aligned : page &&& 7 = 0) : (page ||| 7) &&& ~~~7 = page := by
  ext i inside
  have bit := congrArg (fun x : U32 => x[i]) aligned
  simp only [BitVec.getElem_and] at bit
  rw [BitVec.getElem_and, BitVec.getElem_or, BitVec.getElem_not]
  grind

theorem aligned_of_toNat (aligned : page.toNat % 8 = 0) : page &&& 7 = 0 := by
  apply BitVec.eq_of_toNat_eq
  rw [BitVec.toNat_and]
  exact (Nat.and_two_pow_sub_one_eq_mod _ 3).trans aligned

theorem entry_ne_zero (page : U32) : page ||| 7 ≠ 0 := by
  intro zero
  have bit : (page ||| 7)[0] = (0 : U32)[0] := by rw [zero]
  simp at bit

theorem entry_present (page : U32) : (page ||| 7) &&& 1 ≠ 0 := by
  intro zero
  have bit : ((page ||| 7) &&& 1)[0] = (0 : U32)[0] := by rw [zero]
  simp at bit

theorem identity_frame (inside : i < mappedPages) :
    identity i &&& ~~~7 = BitVec.ofNat 32 (i * 0x1000) := by
  have bound : i < 2048 := inside
  have aligned : BitVec.ofNat 32 (i * 0x1000) &&& 7 = 0 := by
    apply aligned_of_toNat
    rw [BitVec.toNat_ofNat]
    omega
  have sum : identity i = BitVec.ofNat 32 (i * 0x1000) ||| 7 := by
    rw [← BitVec.add_eq_or_of_and_eq_zero _ _ aligned]
    exact BitVec.ofNat_add _ _
  rw [sum, frame_of_entry aligned]

/-! ## Pages on frames of the allocator -/

/-- `own` are pages that were put on the frames in `held`, or removed. -/
structure Owned (own : Finset Nat) (p : Paging) (held : List U32) : Prop where
  directory : Directory p.mem
  range : ∀ i ∈ own, i < mappedPages
  tracks : Tracks ⟨p, held⟩
  backed : ∀ i ∈ own, entry p.mem i = 0 ∨ ∃ page ∈ held, entry p.mem i = page ||| 7
  apart : ∀ i ∈ own, ∀ j ∈ own, entry p.mem i = entry p.mem j → entry p.mem i ≠ 0 → i = j
  covered : ∀ page ∈ held, ∃ i ∈ own, entry p.mem i = page ||| 7
  others : ∀ i < mappedPages, i ∉ own → entry p.mem i = identity i

theorem pageOf_aligned (inside : k < pagingPages) : pageOf k &&& 7 = 0 := by
  apply aligned_of_toNat
  rw [pageOf_toNat inside]
  omega

namespace Owned

variable (owned : Owned own p held)

include owned

theorem frame_held (member : page ∈ held) : (page ||| 7) &&& ~~~7 = page := by
  obtain ⟨k, inside, rfl⟩ := owned.tracks.pages page member
  exact frame_of_entry (pageOf_aligned inside)

/-- There are no more frames than pages. -/
theorem length_le : held.length ≤ own.card := by
  have frames : held.toFinset ⊆ own.image fun i => entry p.mem i &&& ~~~7 := by
    intro page member
    obtain ⟨i, inside, value⟩ := owned.covered page (List.mem_toFinset.mp member)
    refine Finset.mem_image.mpr ⟨i, inside, ?_⟩
    rw [value, owned.frame_held (List.mem_toFinset.mp member)]
  calc held.length = held.toFinset.card := (List.toFinset_card_of_nodup owned.tracks.nodup).symm
    _ ≤ (own.image fun i => entry p.mem i &&& ~~~7).card := Finset.card_le_card frames
    _ ≤ own.card := Finset.card_image_le

theorem not_allHeld (few : own.card < pagingPages) : ¬ AllHeld ⟨p, held⟩ := by
  have length := owned.length_le
  rw [owned.tracks.allHeld_iff]
  change held.length ≠ _
  omega

/-- A frame is behind one page. -/
theorem entry_injective {page' : U32} (first : page ∈ held) (second : page' ∈ held)
    (same : page ||| 7 = page' ||| 7) : page = page' := by
  rw [← owned.frame_held first, ← owned.frame_held second, same]

/-- What holds after page `i` is put on a frame that was not held. -/
theorem of_put {p' : Paging} (inside : i < mappedPages) (absent : i ∈ own → entry p.mem i = 0)
    (fresh : page ∉ held) (directory : Directory p'.mem) (tracks : Tracks ⟨p', page :: held⟩)
    (entries : ∀ j < mappedPages,
      entry p'.mem j = if j = i then page ||| 7 else entry p.mem j) :
    Owned (insert i own) p' (page :: held) := by
  have aligned : (page ||| 7) &&& ~~~7 = page := by
    obtain ⟨k, bound, value⟩ := tracks.pages page List.mem_cons_self
    rw [value, frame_of_entry (pageOf_aligned bound)]
  have new : entry p'.mem i = page ||| 7 := by rw [entries i inside, if_pos rfl]
  have old : ∀ j ∈ own, j ≠ i → entry p'.mem j = entry p.mem j := by
    intro j member other
    rw [entries j (owned.range j member), if_neg other]
  have alone : ∀ j ∈ own, j ≠ i → entry p'.mem j ≠ page ||| 7 := by
    intro j member other same
    rw [old j member other] at same
    rcases owned.backed j member with zero | ⟨page', held', value⟩
    · exact entry_ne_zero page (same.symm.trans zero)
    · apply fresh
      rw [← aligned, ← same, value, owned.frame_held held']
      exact held'
  refine ⟨directory, ?_, tracks, ?_, ?_, ?_, ?_⟩
  · intro j member
    rcases Finset.mem_insert.mp member with rfl | early
    · exact inside
    · exact owned.range j early
  · intro j member
    by_cases same : j = i
    · exact Or.inr ⟨page, List.mem_cons_self, same ▸ new⟩
    · have present := Finset.mem_of_mem_insert_of_ne member same
      rw [old j present same]
      exact (owned.backed j present).imp_right fun ⟨page', held', value⟩ =>
        ⟨page', List.mem_cons_of_mem _ held', value⟩
  · intro j hj k hk same present
    by_cases first : j = i
    · subst first
      by_contra other
      have member := Finset.mem_of_mem_insert_of_ne hk (Ne.symm other)
      exact alone k member (Ne.symm other) (same.symm.trans new)
    · have member := Finset.mem_of_mem_insert_of_ne hj first
      by_cases second : k = i
      · subst second
        exact absurd (same.trans new) (alone j member first)
      · have member' := Finset.mem_of_mem_insert_of_ne hk second
        rw [old j member first] at same present
        rw [old k member' second] at same
        exact owned.apart j member k member' same present
  · intro page' member
    rcases List.mem_cons.mp member with rfl | early
    · exact ⟨i, Finset.mem_insert_self _ _, new⟩
    · obtain ⟨j, present, value⟩ := owned.covered page' early
      have other : j ≠ i := by
        rintro rfl
        exact entry_ne_zero page' (value.symm.trans (absent present))
      exact ⟨j, Finset.mem_insert_of_mem present, (old j present other).trans value⟩
  · intro j bound outside
    rw [Finset.mem_insert, not_or] at outside
    rw [entries j bound, if_neg outside.1]
    exact owned.others j bound outside.2

/-- What holds after page `i` is removed from its frame. -/
theorem of_remove {p' : Paging} (member : i ∈ own) (value : entry p.mem i = page ||| 7)
    (held_page : page ∈ held) (directory : Directory p'.mem)
    (tracks : Tracks ⟨p', held.erase page⟩)
    (entries : ∀ j < mappedPages, entry p'.mem j = if j = i then 0 else entry p.mem j) :
    Owned own p' (held.erase page) := by
  have gone : entry p'.mem i = 0 := by rw [entries i (owned.range i member), if_pos rfl]
  have old : ∀ j ∈ own, j ≠ i → entry p'.mem j = entry p.mem j := by
    intro j member other
    rw [entries j (owned.range j member), if_neg other]
  refine ⟨directory, owned.range, tracks, ?_, ?_, ?_, ?_⟩
  · intro j present
    by_cases same : j = i
    · exact Or.inl (same ▸ gone)
    · rw [old j present same]
      refine (owned.backed j present).imp_right fun ⟨page', held', value'⟩ => ⟨page', ?_, value'⟩
      have other : page' ≠ page := by
        rintro rfl
        exact same (owned.apart j present i member (value'.trans value.symm)
          (value' ▸ entry_ne_zero _))
      exact (List.mem_erase_of_ne other).mpr held'
  · intro j hj k hk same present
    have first : j ≠ i := by
      rintro rfl
      exact present gone
    have second : k ≠ i := by
      rintro rfl
      exact present (same.trans gone)
    rw [old j hj first] at same present
    rw [old k hk second] at same
    exact owned.apart j hj k hk same present
  · intro page' kept
    obtain ⟨j, present, value'⟩ := owned.covered page' (List.mem_of_mem_erase kept)
    have other : j ≠ i := by
      rintro rfl
      have same := owned.entry_injective (List.mem_of_mem_erase kept) held_page
        (value'.symm.trans value)
      subst same
      exact (List.Nodup.mem_erase_iff owned.tracks.nodup).mp kept |>.1 rfl
    exact ⟨j, present, (old j present other).trans value'⟩
  · intro j bound outside
    have other : j ≠ i := by
      rintro rfl
      exact outside member
    rw [entries j bound, if_neg other]
    exact owned.others j bound outside

/-- A page that is its own or absent can be put on a frame of `get_free_page`. -/
theorem put (few : own.card < pagingPages) (low : a.toNat < 0x800000)
    (absent : pageIndex a ∈ own → entry p.mem (pageIndex a) = 0) :
    ∃ page, page = pageOf (nextEntry ⟨p, held⟩) ∧
      Owned (insert (pageIndex a) own) (putFreePage a p) (page :: held) ∧
      ∀ j < mappedPages, entry (putFreePage a p).mem j =
        if j = pageIndex a then page ||| 7 else entry p.mem j := by
  have free := owned.not_allHeld few
  have inside : pageIndex a < mappedPages := by
    unfold pageIndex mappedPages
    omega
  obtain ⟨page, next⟩ : ∃ page, page = pageOf (nextEntry ⟨p, held⟩) := ⟨_, rfl⟩
  have found : getFreePage p =
      (page, { p with memMap := Function.update p.memMap (nextEntry ⟨p, held⟩) 1 }) := by
    rw [next]
    exact getFreePage_eq ⟨p, held⟩
  have fresh : page ∉ held := next ▸ owned.tracks.next_not_held free
  have nonzero : page ≠ 0 := next ▸ pageOf_ne_zero (nextEntry_lt _)
  have result : putFreePage a p =
      { memMap := Function.update p.memMap (nextEntry ⟨p, held⟩) 1,
        mem := store32 p.mem (slot (pageIndex a)) (page ||| 7) } := by
    unfold putFreePage
    dsimp only
    have directory : Directory (getFreePage p).2.mem := by
      rw [getFreePage_mem]
      exact owned.directory
    rw [putPage_eq directory low, found]
  have tracks : Tracks ⟨putFreePage a p, page :: held⟩ := by
    have kept := owned.tracks.getFreePage free
    simp only [found, hold, if_neg nonzero] at kept
    rw [result]
    exact ⟨kept.nodup, kept.pages, kept.counted⟩
  have entries : ∀ j < mappedPages, entry (putFreePage a p).mem j =
      if j = pageIndex a then page ||| 7 else entry p.mem j := by
    intro j bound
    rw [result]
    exact entry_store inside bound _
  have directory : Directory (putFreePage a p).mem := by
    rw [result]
    exact owned.directory.store inside _
  exact ⟨page, next, owned.of_put inside absent fresh directory tracks entries, entries⟩

/-- A page of these can be removed. -/
theorem remove (low : a.toNat < 0x800000) (member : pageIndex a ∈ own) :
    ∃ held', Owned own (removePage a p) held' ∧ ∀ j < mappedPages, j ≠ pageIndex a →
      entry (removePage a p).mem j = entry p.mem j := by
  have inside := owned.range _ member
  have result := removePage_eq owned.directory low
  rcases owned.backed _ member with zero | ⟨page, held_page, value⟩
  · rw [if_neg (by rw [zero]; decide)] at result
    rw [result]
    exact ⟨held, owned, fun _ _ _ => rfl⟩
  · rw [value, if_pos (entry_present page), owned.frame_held held_page] at result
    dsimp only at result
    rw [freePage_mem] at result
    have tracks : Tracks ⟨removePage a p, held.erase page⟩ := by
      have kept := owned.tracks.freePage held_page
      rw [result]
      exact ⟨kept.nodup, kept.pages, kept.counted⟩
    have entries : ∀ j < mappedPages, entry (removePage a p).mem j =
        if j = pageIndex a then 0 else entry p.mem j := by
      intro j bound
      rw [result]
      exact entry_store inside bound _
    have directory : Directory (removePage a p).mem := by
      rw [result]
      exact owned.directory.store inside _
    refine ⟨_, owned.of_remove member value held_page directory tracks entries, fun j bound other => ?_⟩
    rw [entries j bound, if_neg other]

/-- The test of `expand` finds a page absent exactly when its entry is zero. -/
theorem getPageAddr_zero_iff (low : a.toNat < 0x800000) (page : 0 < pageIndex a) :
    getPageAddr a p = 0 ↔ pageIndex a ∈ own ∧ entry p.mem (pageIndex a) = 0 := by
  rw [getPageAddr_eq owned.directory low]
  have inside : pageIndex a < mappedPages := by
    unfold pageIndex mappedPages
    omega
  by_cases member : pageIndex a ∈ own
  · rcases owned.backed _ member with zero | ⟨page, held_page, value⟩
    · rw [zero]
      exact iff_of_true (by decide) ⟨member, rfl⟩
    · rw [value, owned.frame_held held_page]
      obtain ⟨k, bound, rfl⟩ := owned.tracks.pages page held_page
      exact iff_of_false (pageOf_ne_zero bound) fun both => entry_ne_zero _ both.2
  · rw [owned.others _ inside member, identity_frame inside]
    refine iff_of_false (fun zero => ?_) fun both => member both.1
    have value := congrArg BitVec.toNat zero
    rw [BitVec.toNat_ofNat] at value
    unfold mappedPages at inside
    rw [Nat.mod_eq_of_lt (by omega)] at value
    change _ = 0 at value
    omega

end Owned

end BlessOS.Guarantees.PageTables
