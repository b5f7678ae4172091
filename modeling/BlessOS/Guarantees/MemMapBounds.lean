import BlessOS.Guarantees.PageMap

/-!
# The entries of `mem_map` that are used

The functions of `mm/memory.c` compute an index of `mem_map` from an address and print a
message when the address is no page of the allocator; then they go on. The indices they use
are written down here next to the functions, and `UsesOnly` says that these are all.
-/

set_option autoImplicit false

namespace BlessOS.Guarantees.MemMapBounds
open BlessOS.Lib.ByteMemory
open BlessOS.Source BlessOS.Source.Memory
open BlessOS.Guarantees.PageAllocator BlessOS.Guarantees.PageTables
open BlessOS.Guarantees.PageDirectory BlessOS.Guarantees.PageMap

variable {p : Paging} {a page address : U32} {memMap memMap' : Nat → U16} {n i : Nat}

/-! ## Indices, in the order of their use -/

/-- `while (i > 0) { if (mem_map[i] == 0) break; --i; }`, from `i` on. -/
def searchEntries (memMap : Nat → U16) : Nat → List Nat
  | 0 => []
  | i + 1 => (i + 1) :: if memMap (i + 1) = 0 then [] else searchEntries memMap i

/-- The search, and `mem_map[i] = 1;`. -/
def getFreePageEntries (p : Paging) : List Nat :=
  searchEntries p.memMap (pagingPages - 1) ++ [searchDown p.memMap (pagingPages - 1)]

/-- `mem_map[(page - LOW_MEM) >> 12] != 1`, and what a new table needs. -/
def putPageEntries (page address : U32) (p : Paging) : List Nat :=
  mapEntry page ::
    if load32 p.mem (pageDirEntry address) &&& 1 ≠ 0 then [] else getFreePageEntries p

/-- `mem_map[address]--`, and `mem_map[address] = 0;` on the same entry. -/
def freePageEntries (address : U32) : List Nat :=
  if address < lowMem then [] else [mapEntry address]

def removePageEntries (addr : U32) (p : Paging) : List Nat :=
  let entry := load32 p.mem (pageDirEntry addr)
  if entry &&& 1 ≠ 0 then
    if load32 p.mem (pageTableEntry (0xfffff000 &&& entry) addr) &&& 1 ≠ 0 then
      freePageEntries (getPageAddr addr p)
    else []
  else []

/-- A function that looks at no other entry of `mem_map`, and changes no other. -/
structure UsesOnly (f : Paging → Paging) (entries : Paging → List Nat) : Prop where
  kept : ∀ p, ∀ i ∉ entries p, (f p).memMap i = p.memMap i
  stable : ∀ p memMap, (∀ i ∈ entries p, memMap i = p.memMap i) →
    (f { p with memMap := memMap }).mem = (f p).mem ∧
      ∀ i ∈ entries p, (f { p with memMap := memMap }).memMap i = (f p).memMap i

theorem searchDown_stable (same : ∀ i ∈ searchEntries memMap n, memMap' i = memMap i) :
    searchDown memMap' n = searchDown memMap n := by
  induction n with
  | zero => rfl
  | succ n ih =>
    unfold searchEntries at same
    unfold searchDown
    rw [same (n + 1) List.mem_cons_self]
    split
    · rfl
    · next taken =>
      rw [if_neg taken] at same
      exact ih fun i member => same i (List.mem_cons_of_mem _ member)

theorem getFreePage_stable (same : ∀ i ∈ getFreePageEntries p, memMap i = p.memMap i) :
    (getFreePage { p with memMap := memMap }).1 = (getFreePage p).1 ∧
      ∀ i, memMap i = p.memMap i → (getFreePage { p with memMap := memMap }).2.memMap i =
        (getFreePage p).2.memMap i := by
  have found : searchDown memMap (pagingPages - 1) = searchDown p.memMap (pagingPages - 1) :=
    searchDown_stable fun i member => same i (List.mem_append_left _ member)
  have next : nextEntry ⟨{ p with memMap := memMap }, []⟩ = nextEntry ⟨p, []⟩ := found
  rw [getFreePage_eq ⟨{ p with memMap := memMap }, []⟩, getFreePage_eq ⟨p, []⟩, next]
  refine ⟨rfl, fun i equal => ?_⟩
  dsimp only
  by_cases here : i = nextEntry ⟨p, []⟩
  · rw [here, Function.update_self, Function.update_self]
  · rw [Function.update_of_ne here, Function.update_of_ne here, equal]

theorem getFreePage_kept (outside : i ∉ getFreePageEntries p) :
    (getFreePage p).2.memMap i = p.memMap i := by
  rw [getFreePage_eq ⟨p, []⟩]
  refine Function.update_of_ne (fun here => outside ?_) _ _
  rw [here]
  exact List.mem_append_right _ (List.mem_singleton.mpr rfl)

theorem mapEntry_mem (low : lowMem ≤ address) : mapEntry address ∈ freePageEntries address := by
  unfold freePageEntries
  rw [if_neg (BitVec.not_lt.mpr low)]
  exact List.mem_singleton.mpr rfl

theorem freePage_usesOnly (address : U32) :
    UsesOnly (freePage address) fun _ => freePageEntries address := by
  refine ⟨fun p i outside => ?_, fun p memMap same => ⟨?_, fun i member => ?_⟩⟩
  · rw [freePage_memMap, if_neg]
    rintro ⟨rfl, low, -⟩
    exact outside (mapEntry_mem low)
  · rw [freePage_mem, freePage_mem]
  · rw [freePage_memMap, freePage_memMap]
    simp only [same i member]

theorem putPage_usesOnly (page a : U32) :
    UsesOnly (fun p => (putPage page a p).2) (putPageEntries page a) := by
  have entries : ∀ p : Paging, putPageEntries page a p =
      mapEntry page :: if HasTable p.mem (region a) then [] else getFreePageEntries p := by
    intro p
    unfold putPageEntries
    rw [pageDirEntry_eq]
    rfl
  refine ⟨fun p i outside => ?_, fun p memMap same => ?_⟩
  · rw [entries] at outside
    by_cases has : HasTable p.mem (region a)
    · rw [putPage_present has]
    · rw [if_neg has] at outside
      rw [putPage_absent has]
      dsimp only
      exact getFreePage_kept fun member => outside (List.mem_cons_of_mem _ member)
  · rw [entries] at same ⊢
    by_cases has : HasTable p.mem (region a)
    · rw [putPage_present has, putPage_present (p := { p with memMap := memMap }) has]
      exact ⟨rfl, same⟩
    · rw [if_neg has] at same ⊢
      obtain ⟨frame, counted⟩ := getFreePage_stable fun i member =>
        same i (List.mem_cons_of_mem _ member)
      rw [putPage_absent has, putPage_absent (p := { p with memMap := memMap }) has, frame]
      exact ⟨rfl, fun i member => counted i (same i member)⟩

/-- The page of an address is mapped. -/
def IsMapped (a : U32) (p : Paging) : Prop :=
  HasTable p.mem (region a) ∧ Present (pageEntry p.mem a)

instance (a : U32) (p : Paging) : Decidable (IsMapped a p) := inferInstanceAs (Decidable (_ ∧ _))

theorem removePage_mapped (mapped : IsMapped a p) :
    removePageEntries a p = freePageEntries (getPageAddr a p) ∧
      removePage a p = { freePage (getPageAddr a p) p with
        mem := store32 p.mem (pageTableEntry (table p.mem (region a)) a) 0 } := by
  obtain ⟨has, present⟩ := mapped
  constructor
  · unfold removePageEntries
    dsimp only
    rw [pageDirEntry_eq]
    exact (if_pos has).trans (if_pos present)
  · rw [removePage_present has, if_pos present]

theorem removePage_unmapped (unmapped : ¬ IsMapped a p) :
    removePageEntries a p = [] ∧ removePage a p = p := by
  by_cases has : HasTable p.mem (region a)
  · have absent : ¬ Present (pageEntry p.mem a) := fun present => unmapped ⟨has, present⟩
    constructor
    · unfold removePageEntries
      dsimp only
      rw [pageDirEntry_eq]
      exact (if_pos has).trans (if_neg absent)
    · rw [removePage_present has, if_neg absent]
  · refine ⟨?_, removePage_absent has⟩
    unfold removePageEntries
    dsimp only
    rw [pageDirEntry_eq]
    exact if_neg has

theorem removePage_usesOnly (a : U32) : UsesOnly (removePage a) (removePageEntries a) := by
  refine ⟨fun p i outside => ?_, fun p memMap same => ?_⟩
  · by_cases mapped : IsMapped a p
    · obtain ⟨entries, after⟩ := removePage_mapped mapped
      rw [entries] at outside
      rw [after]
      exact (freePage_usesOnly _).kept p i outside
    · rw [(removePage_unmapped mapped).2]
  · by_cases mapped : IsMapped a p
    · obtain ⟨entries, after⟩ := removePage_mapped mapped
      rw [entries] at same ⊢
      rw [after, (removePage_mapped (p := { p with memMap := memMap }) mapped).2]
      exact ⟨rfl, ((freePage_usesOnly _).stable p memMap same).2⟩
    · obtain ⟨entries, after⟩ := removePage_unmapped mapped
      rw [entries, after, (removePage_unmapped (p := { p with memMap := memMap }) mapped).2]
      exact ⟨rfl, fun i member => absurd member List.not_mem_nil⟩

/-! ## Addresses that are rejected -/

def OutOfRange (address : U32) : Prop := address < lowMem ∨ highMem ≤ address

instance (address : U32) : Decidable (OutOfRange address) :=
  inferInstanceAs (Decidable (_ ∨ _))

/-- All of them are entries of the array. -/
def InMap (entries : List Nat) : Prop := ∀ i ∈ entries, i < pagingPages

instance (entries : List Nat) : Decidable (InMap entries) := List.decidableBAll _ _

structure PutRejects (page a : U32) (p : Paging) : Prop where
  inMap : InMap (putPageEntries page a p)
  memMap : OutOfRange page → (putPage page a p).2.memMap = p.memMap
  map : OutOfRange page → ∀ b, getPageAddr b (putPage page a p).2 = getPageAddr b p

structure FreeRejects (address : U32) (p : Paging) : Prop where
  inMap : InMap (freePageEntries address)
  memMap : OutOfRange address → (freePage address p).memMap = p.memMap

structure RemoveRejects (a : U32) (p : Paging) : Prop where
  inMap : InMap (removePageEntries a p)
  memMap : OutOfRange (getPageAddr a p) → (removePage a p).memMap = p.memMap

theorem mapEntry_lt_iff (address : U32) :
    mapEntry address < pagingPages ↔ lowMem ≤ address ∧ address < highMem := by
  have pages : pagingPages = 1792 := by decide
  unfold mapEntry
  rw [pages, BitVec.toNat_ushiftRight, Nat.shiftRight_eq_div_pow, BitVec.le_def, BitVec.lt_def,
    BitVec.toNat_sub]
  have small := address.isLt
  unfold lowMem highMem
  change (2 ^ 32 - 0x100000 + _) % 2 ^ 32 / 2 ^ 12 < _ ↔ 0x100000 ≤ _ ∧ _ < 0x800000
  omega

theorem not_outOfRange_iff (address : U32) :
    ¬ OutOfRange address ↔ lowMem ≤ address ∧ address < highMem := by
  unfold OutOfRange
  rw [not_or, BitVec.not_lt, BitVec.not_le]

theorem searchEntries_inMap (n : Nat) (inside : n < pagingPages) :
    InMap (searchEntries memMap n) := by
  induction n with
  | zero => exact fun i member => absurd member List.not_mem_nil
  | succ n ih =>
    unfold searchEntries
    intro i member
    rcases List.mem_cons.mp member with rfl | later
    · exact inside
    · split at later
      · cases later
      · exact ih (by omega) i later

theorem getFreePageEntries_inMap (p : Paging) : InMap (getFreePageEntries p) := by
  intro i member
  rcases List.mem_append.mp member with searched | found
  · exact searchEntries_inMap _ (by decide) i searched
  · rw [List.mem_singleton.mp found]
    exact nextEntry_lt ⟨p, []⟩

/-! ## Exactly when -/

theorem putRejects_iff (page a : U32) (p : Paging) :
    PutRejects page a p ↔ lowMem ≤ page ∧ page < highMem := by
  constructor
  · intro rejects
    exact (mapEntry_lt_iff page).mp (rejects.inMap _ List.mem_cons_self)
  · intro range
    have inside := (not_outOfRange_iff page).mpr range
    refine ⟨fun i member => ?_, fun out => absurd out inside, fun out => absurd out inside⟩
    rcases List.mem_cons.mp member with rfl | later
    · exact (mapEntry_lt_iff page).mpr range
    · split at later
      · cases later
      · exact getFreePageEntries_inMap p i later

theorem freePage_below (below : address < lowMem) (p : Paging) :
    freePageEntries address = [] ∧ freePage address p = p := by
  unfold freePageEntries freePage
  exact ⟨if_pos below, if_pos below⟩

theorem freeRejects_iff (address : U32) (p : Paging) :
    FreeRejects address p ↔ address < highMem := by
  by_cases below : address < lowMem
  · obtain ⟨none, same⟩ := freePage_below below p
    refine iff_of_true ⟨?_, fun _ => by rw [same]⟩ (BitVec.lt_trans below (by decide))
    rw [none]
    exact fun i member => absurd member List.not_mem_nil
  · have low := BitVec.not_lt.mp below
    constructor
    · intro rejects
      exact ((mapEntry_lt_iff address).mp (rejects.inMap _ (mapEntry_mem low))).2
    · intro high
      have inside := (not_outOfRange_iff address).mpr ⟨low, high⟩
      refine ⟨fun i member => ?_, fun out => absurd out inside⟩
      unfold freePageEntries at member
      rw [if_neg below] at member
      rw [List.mem_singleton.mp member]
      exact (mapEntry_lt_iff address).mpr ⟨low, high⟩

theorem removeRejects_iff (a : U32) (p : Paging) : RemoveRejects a p ↔
    (IsMapped a p → getPageAddr a p < highMem) := by
  by_cases mapped : IsMapped a p
  · obtain ⟨entries, after⟩ := removePage_mapped mapped
    have same : RemoveRejects a p ↔ FreeRejects (getPageAddr a p) p := by
      constructor
      · rintro ⟨inMap, memMap⟩
        rw [entries] at inMap
        rw [after] at memMap
        exact ⟨inMap, memMap⟩
      · rintro ⟨inMap, memMap⟩
        constructor
        · rw [entries]
          exact inMap
        · rw [after]
          exact memMap
    rw [same, freeRejects_iff]
    simp only [mapped, true_implies]
  · obtain ⟨entries, after⟩ := removePage_unmapped mapped
    refine iff_of_true ⟨?_, fun _ => by rw [after]⟩ fun present => absurd present mapped
    rw [entries]
    exact fun i member => absurd member List.not_mem_nil

/-- **Rejected addresses.** Every function keeps to `mem_map` and refuses an address that is no
page of the allocator exactly when: `put_page` is given a page of the allocator; `free_page`
an address below `HIGH_MEM`; `remove_page` an address that is not mapped behind `HIGH_MEM`. -/
theorem outOfRange_rejected_iff (p : Paging) :
    (∀ page a, PutRejects page a p ↔ lowMem ≤ page ∧ page < highMem) ∧
      (∀ address, FreeRejects address p ↔ address < highMem) ∧
      ∀ a, RemoveRejects a p ↔ (IsMapped a p → getPageAddr a p < highMem) :=
  ⟨fun page a => putRejects_iff page a p, fun address => freeRejects_iff address p,
    fun a => removeRejects_iff a p⟩

/-- The address right behind the memory passes the test, is looked up behind the array and is
mapped; freed, it is counted there. -/
theorem highMem_not_rejected :
    pagingPages ∈ putPageEntries highMem 0x5000 onePage ∧
      getPageAddr 0x5000 onePage ≠ getPageAddr 0x5000 (putPage highMem 0x5000 onePage).2 ∧
      (freePage highMem onePage).memMap pagingPages ≠ onePage.memMap pagingPages ∧
      ¬ PutRejects highMem 0x5000 onePage ∧ ¬ FreeRejects highMem onePage := by
  have put : ¬ PutRejects highMem 0x5000 onePage := by
    rw [putRejects_iff]
    decide
  have free : ¬ FreeRejects highMem onePage := by
    rw [freeRejects_iff]
    decide
  have has : HasTable onePage.mem (region 0x5000) := by decide
  refine ⟨?_, ?_, ?_, put, free⟩
  · have entry : mapEntry highMem = pagingPages := by decide
    rw [← entry]
    exact List.mem_cons_self
  · rw [getPageAddr_putPage onePage_ok.tables has (by decide), if_pos rfl]
    decide
  · rw [freePage_memMap]
    decide

end BlessOS.Guarantees.MemMapBounds
