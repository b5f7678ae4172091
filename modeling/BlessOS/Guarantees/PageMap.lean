import BlessOS.Guarantees.PageDirectory

/-!
# The page tables as a map

`get_page_addr` reads the map from pages to frames that `put_page` and `remove_page` write,
each decoding the address by itself. As long as the tables are apart, a call changes the map
at one page, and `remove_page` gives up at most the one frame that was behind it.
-/

set_option autoImplicit false

namespace BlessOS.Guarantees.PageMap
open BlessOS.Lib.ByteMemory
open BlessOS.Source BlessOS.Source.Memory
open BlessOS.Guarantees.HeapBounds BlessOS.Guarantees.PageAllocator
open BlessOS.Guarantees.PageTables BlessOS.Guarantees.PageDirectory

variable {p : Paging} {a b page : U32}

/-! ## Entries -/

/-- The page around an address; of a table entry, the frame. -/
def frameOf (address : U32) : U32 := address &&& 0xfffff000

/-- An entry is empty, or present with a frame of the memory there is; its other flags may
be anything. -/
def EntryOk (entry : U32) : Prop := entry = 0 ∨ Present entry ∧ frameOf entry < highMem

instance (entry : U32) : Decidable (EntryOk entry) := inferInstanceAs (Decidable (_ ∨ _ ∧ _))

/-- The tables are apart, and all their entries are empty or present. -/
structure MapOk (p : Paging) : Prop where
  tables : Tables p.mem
  entries : ∀ b, HasTable p.mem (region b) → EntryOk (pageEntry p.mem b)

/-- The entry of `mem_map` for the page around an address. -/
def mapEntry (address : U32) : Nat := ((address - lowMem) >>> 12).toNat

theorem samePage_iff (a b : U32) : b >>> 12 = a >>> 12 ↔ pageIndex b = pageIndex a := by
  have value : ∀ x : U32, (x >>> 12).toNat = pageIndex x := by
    intro x
    rw [BitVec.toNat_ushiftRight, Nat.shiftRight_eq_div_pow]
    rfl
  rw [← value a, ← value b]
  exact ⟨congrArg BitVec.toNat, BitVec.eq_of_toNat_eq⟩

theorem frameOf_toNat (address : U32) :
    (frameOf address).toNat = address.toNat / 0x1000 * 0x1000 := pageMask_toNat address

/-- An address and its page are on the same side of `LOW_MEM`. -/
theorem lowMem_le_frameOf (address : U32) : lowMem ≤ frameOf address ↔ lowMem ≤ address := by
  rw [BitVec.le_def, BitVec.le_def, frameOf_toNat]
  unfold lowMem
  change 0x100000 ≤ _ ↔ 0x100000 ≤ _
  omega

theorem mapEntry_frameOf (low : lowMem ≤ a) : mapEntry (frameOf a) = mapEntry a := by
  have low' := (lowMem_le_frameOf a).mpr low
  have page := frameOf_toNat a
  unfold mapEntry
  rw [BitVec.toNat_ushiftRight, BitVec.toNat_ushiftRight, BitVec.toNat_sub_of_le low',
    BitVec.toNat_sub_of_le low, page, Nat.shiftRight_eq_div_pow, Nat.shiftRight_eq_div_pow]
  unfold lowMem
  change (_ - 0x100000) / 2 ^ 12 = (_ - 0x100000) / 2 ^ 12
  omega

/-- Dropping the low three bits of an address does not leave its page. -/
theorem frameOf_mask (entry : U32) : frameOf (entry &&& ~~~7) = frameOf entry := by
  unfold frameOf
  rw [BitVec.and_assoc]
  rfl

/-! ## `mem_map` -/

/-- `free_page` counts the entry of a page down, and none below zero. -/
theorem freePage_of_above {address : U32} (low : lowMem ≤ address) (p : Paging) :
    (freePage address p).memMap = Function.update p.memMap (mapEntry address)
      (if 0 < p.memMap (mapEntry address) then p.memMap (mapEntry address) - 1
        else p.memMap (mapEntry address)) := by
  unfold freePage
  rw [if_neg (BitVec.not_lt.mpr low)]
  by_cases held : p.memMap (mapEntry address) = 0
  · have none : ¬ 0 < p.memMap (mapEntry address) := by rw [held]; decide
    rw [if_neg none, held]
    refine (congrArg Paging.memMap (if_neg (not_not.mpr held))).trans ?_
    exact Function.update_idem _ _ _
  · have counted : 0 < p.memMap (mapEntry address) := by
      rw [BitVec.lt_def]
      exact Nat.pos_of_ne_zero fun zero => held (BitVec.eq_of_toNat_eq zero)
    refine (congrArg Paging.memMap (if_pos held)).trans ?_
    rw [if_pos counted]
    rfl

theorem freePage_memMap (address : U32) (p : Paging) (i : Nat) : (freePage address p).memMap i =
    if i = mapEntry address ∧ lowMem ≤ address ∧ 0 < p.memMap i then p.memMap i - 1
    else p.memMap i := by
  by_cases low : lowMem ≤ address
  · rw [freePage_of_above low]
    by_cases here : i = mapEntry address
    · subst here
      rw [Function.update_self]
      simp only [low, true_and]
    · rw [Function.update_of_ne here, if_neg fun all => here all.1]
  · rw [if_neg fun all => low all.2.1]
    unfold freePage
    rw [if_pos (BitVec.not_le.mp low)]

/-! ## The map -/

/-- A page is put at all addresses of its page and nowhere else. -/
theorem getPageAddr_putPage (tables : Tables p.mem) (has : HasTable p.mem (region a))
    (aligned : page &&& 7 = 0) (b : U32) : getPageAddr b (putPage page a p).2 =
      if pageIndex b = pageIndex a then page else getPageAddr b p := by
  obtain ⟨directory, entries⟩ := tables.store has (page ||| 7)
  have same := table_congr (directory _ (region_lt b))
  rw [putPage_present has, getPageAddr_table, getPageAddr_table]
  dsimp only
  by_cases had : HasTable p.mem (region b)
  · rw [if_pos (same.2.mpr had), if_pos had, entries b had]
    split
    · exact frame_of_entry aligned
    · rfl
  · have other : pageIndex b ≠ pageIndex a := by
      intro equal
      rw [region_eq, equal, ← region_eq] at had
      exact had has
    rw [if_neg (mt same.2.mp had), if_neg had, if_neg other]

/-- A page that was removed is not mapped, whether it was mapped before or not. -/
theorem getPageAddr_removePage (ok : MapOk p) (has : HasTable p.mem (region a)) :
    getPageAddr a (removePage a p) = 0 := by
  rw [removePage_present has]
  split
  · obtain ⟨directory, entries⟩ := ok.tables.store has 0
    have same := table_congr (directory _ (region_lt a))
    have zero : (0 : U32) &&& ~~~7 = 0 := by decide
    rw [getPageAddr_table]
    dsimp only
    rw [if_pos (same.2.mpr has), entries a has, if_pos rfl, zero]
  · next absent =>
    have empty : pageEntry p.mem a = 0 := (ok.entries a has).resolve_right fun both => absent both.1
    rw [getPageAddr_present has, empty]
    decide

/-- `remove_page` gives up the frame behind the page, if there is one. -/
theorem removePage_memMap (has : HasTable p.mem (region a)) (i : Nat) :
    (removePage a p).memMap i =
      if i = mapEntry (frameOf (getPageAddr a p)) ∧ 0 < p.memMap i ∧
          Present (pageEntry p.mem a) ∧ lowMem ≤ frameOf (getPageAddr a p) then p.memMap i - 1
      else p.memMap i := by
  rw [removePage_present has]
  by_cases present : Present (pageEntry p.mem a)
  · rw [if_pos present]
    change (freePage _ _).memMap i = _
    rw [freePage_memMap]
    refine if_congr ?_ rfl rfl
    rw [lowMem_le_frameOf]
    constructor
    · rintro ⟨here, low, held⟩
      exact ⟨here.trans (mapEntry_frameOf low).symm, held, present, low⟩
    · rintro ⟨here, held, -, low⟩
      exact ⟨here.trans (mapEntry_frameOf low), low, held⟩
  · rw [if_neg present, if_neg fun all => present all.2.2.1]

/-- **Page map.** While the tables are apart and hold frames of the memory there is, for every
address with a table: `put_page` maps its page to the given one and nothing else anywhere;
`remove_page` unmaps its page and nothing else, and counts down at most the entry of the frame
that was behind it. The range of the page and its `mem_map` entry, which `put_page` tests, only
decide what it prints. -/
theorem pageMap_semantics (ok : MapOk p) (has : HasTable p.mem (region a)) :
    (∀ page : U32, page.toNat % 0x1000 = 0 → ∀ b : U32, getPageAddr b (putPage page a p).2 =
        if b >>> 12 = a >>> 12 then page else getPageAddr b p) ∧
      getPageAddr a (removePage a p) = 0 ∧
      (∀ b : U32, b >>> 12 ≠ a >>> 12 → getPageAddr b (removePage a p) = getPageAddr b p) ∧
      ∀ i, (removePage a p).memMap i =
        if i = mapEntry (frameOf (getPageAddr a p)) ∧ 0 < p.memMap i ∧
            Present (pageEntry p.mem a) ∧ lowMem ≤ frameOf (getPageAddr a p) ∧
            frameOf (getPageAddr a p) < highMem then p.memMap i - 1
        else p.memMap i := by
  refine ⟨fun page aligned b => ?_, getPageAddr_removePage ok has, fun b other => ?_,
    fun i => ?_⟩
  · rw [if_congr (samePage_iff a b) rfl rfl]
    exact getPageAddr_putPage ok.tables has (aligned_of_toNat (by omega)) b
  · exact (removePage_others ok.tables).2 b (mt (samePage_iff a b).mpr other)
  · rw [removePage_memMap has]
    refine if_congr ⟨?_, ?_⟩ rfl rfl
    · rintro ⟨here, held, present, low⟩
      have below : frameOf (pageEntry p.mem a) < highMem := by
        rcases ok.entries a has with empty | ⟨-, below⟩
        · exact absurd present (by rw [empty]; decide)
        · exact below
      rw [getPageAddr_present has, frameOf_mask] at low ⊢
      rw [getPageAddr_present has, frameOf_mask] at here
      exact ⟨here, held, present, low, below⟩
    · rintro ⟨here, held, present, low, -⟩
      exact ⟨here, held, present, low⟩

/-- One table behind the directory, with the first frame of the allocator in its first page. -/
def onePage : Paging where
  memMap := fun _ => 1
  mem := ofWords fun i => if i = 0 then 0x1007 else if i = 0x400 then 0x100007 else 0

theorem onePage_dirEntry {d : Nat} (inside : d < 1024) :
    dirEntry onePage.mem d = if d = 0 then 0x1007 else 0 := by
  have place := dirEntry_place inside
  unfold dirEntry onePage
  dsimp only
  rw [load32_ofWords _ (by omega), place, Nat.mul_div_cancel_left d (by decide)]
  refine if_congr Iff.rfl rfl (if_neg ?_)
  omega

theorem onePage_has {d : Nat} (inside : d < 1024) (has : HasTable onePage.mem d) : d = 0 := by
  unfold HasTable at has
  rw [onePage_dirEntry inside] at has
  by_contra other
  rw [if_neg other] at has
  exact has (by decide)

theorem onePage_entries (has : HasTable onePage.mem (region b)) :
    pageEntry onePage.mem b = 0x100007 ∨ pageEntry onePage.mem b = 0 := by
  have first := onePage_has (region_lt b) has
  have place : table onePage.mem (region b) = 0x1000 := by
    unfold table
    rw [onePage_dirEntry (region_lt b), if_pos first]
    decide
  have slot := pageTableEntry_toNat (a := b) 0x1000 (by decide)
  have start : (0x1000 : U32).toNat = 0x1000 := by decide
  unfold pageEntry
  rw [place]
  unfold onePage
  dsimp only
  rw [load32_ofWords _ (by omega), if_neg (by omega)]
  split
  · exact Or.inl rfl
  · exact Or.inr rfl

theorem onePage_ok : MapOk onePage where
  tables := by
    refine ⟨fun d inside has => ?_, fun d inside d' inside' has has' _ => ?_⟩
    · rw [onePage_has inside has]
      decide
    · rw [onePage_has inside has, onePage_has inside' has']
  entries b has := by
    rcases onePage_entries has with mapped | empty
    · rw [mapped]
      decide
    · exact Or.inl empty

/-- A page is put on the sixth page of the table, and the first is removed. -/
theorem pageMap_semantics_onePage :
    getPageAddr 0x5abc (putPage 0x200000 0x5000 onePage).2 = 0x200000 ∧
      getPageAddr 0 (removePage 0 onePage) = 0 ∧ (removePage 0 onePage).memMap 0 = 0 := by
  have put := (pageMap_semantics (a := 0x5000) onePage_ok (by decide)).1 0x200000 (by decide) 0x5abc
  obtain ⟨-, unmapped, -, counted⟩ := pageMap_semantics (a := 0) onePage_ok (by decide)
  refine ⟨put, unmapped, (counted 0).trans ?_⟩
  decide

end BlessOS.Guarantees.PageMap
