import BlessOS.Guarantees.PageMap

/-!
# New page tables

Where the directory has no entry for an address, `put_page` takes a frame for the table and
writes one entry of it. The other entries are what the frame held, so the rest of the 4 MiB
is mapped by whatever the last owner of the frame left there.
-/

set_option autoImplicit false

namespace BlessOS.Guarantees.NewPageTable
open BlessOS.Lib.ByteMemory
open BlessOS.Source BlessOS.Source.Memory
open BlessOS.Guarantees.PageAllocator BlessOS.Guarantees.PageTables
open BlessOS.Guarantees.PageDirectory BlessOS.Guarantees.PageMap

variable {p : Paging} {m : Mem} {a b f page : U32} {d : Nat}

/-- The page of the highest entry of `mem_map` that is zero; of entry 0 when there is none. -/
def nextFrame (p : Paging) : U32 := pageOf (searchDown p.memMap (pagingPages - 1))

/-- The address of the entry of a page, by the directory. -/
def slotOf (m : Mem) (b : U32) : U32 := pageTableEntry (table m (region b)) b

/-- What `get_page_addr` makes of an entry. -/
def addrOf (entry : U32) : U32 := entry &&& ~~~7

def directorySlot (d : Nat) : U32 := BitVec.ofNat 32 (4 * d)

/-- What a new table for `a` with `page` in it leaves of the map: the page is there, no other
page of its 4 MiB is present, and all other pages are where they were. -/
structure StartsEmpty (p p' : Paging) (page a : U32) : Prop where
  mapped : getPageAddr a p' = page
  siblings : ∀ b, region b = region a → pageIndex b ≠ pageIndex a →
    ¬ Present (pageEntry p'.mem b)
  others : ∀ b, region b ≠ region a → getPageAddr b p' = getPageAddr b p

/-- The frame `f` holds no present entries but perhaps that of `a`, and no other table reaches
the two words that are written, unless it tells the same before and after. -/
structure EmptyFrame (m : Mem) (f page a : U32) : Prop where
  siblings : ∀ b, region b = region a → pageIndex b ≠ pageIndex a →
    ¬ Present (load32 m (pageTableEntry f b))
  directory : ∀ b, region b ≠ region a → HasTable m (region b) →
    slotOf m b = directorySlot (region a) → addrOf (dirEntry m (region a)) = f
  frame : ∀ b, region b ≠ region a → HasTable m (region b) →
    slotOf m b = pageTableEntry f a → addrOf (load32 m (pageTableEntry f a)) = page

theorem getFreePage_fst (p : Paging) : (getFreePage p).1 = nextFrame p := by
  rw [getFreePage_eq ⟨p, []⟩]
  unfold nextFrame nextEntry
  rfl

theorem nextFrame_page (p : Paging) : ∃ k < pagingPages, nextFrame p = pageOf k :=
  ⟨_, nextEntry_lt ⟨p, []⟩, rfl⟩

/-! ## The words that are written -/

/-- The memory after a table in the frame `f` is entered, with `page` in it. -/
def entered (m : Mem) (f page a : U32) : Mem :=
  store32 (store32 m (directorySlot (region a)) (f ||| 7)) (pageTableEntry f a) (page ||| 7)

theorem directorySlot_toNat (inside : d < 1024) : (directorySlot d).toNat = 4 * d :=
  dirEntry_place inside

theorem slotOf_aligned (m : Mem) (b : U32) : (slotOf m b).toNat % 4 = 0 := by
  obtain ⟨page, top⟩ := table_page m (region b)
  unfold slotOf
  rw [pageTableEntry_toNat _ top]
  omega

section Entered

variable {k : Nat} (inside : k < pagingPages)

include inside

theorem frameSlot_toNat (b : U32) :
    (pageTableEntry (pageOf k) b).toNat = (pageOf k).toNat + 4 * (pageIndex b % 1024) := by
  have value := pageOf_toNat inside
  have bound : k < 1792 := inside
  exact pageTableEntry_toNat _ (by omega)

theorem frameSlot_aligned (b : U32) : (pageTableEntry (pageOf k) b).toNat % 4 = 0 := by
  have page := pageOf_page inside
  rw [frameSlot_toNat inside]
  omega

/-- A word of the memory afterwards. -/
theorem load32_entered {s : U32} (aligned : s.toNat % 4 = 0) :
    load32 (entered m (pageOf k) page a) s =
      if s = pageTableEntry (pageOf k) a then page ||| 7
      else if s = directorySlot (region a) then pageOf k ||| 7 else load32 m s := by
  have directory := directorySlot_toNat (region_lt a)
  unfold entered
  rw [load32_store32_aligned _ _ (frameSlot_aligned inside a) aligned]
  refine if_congr Iff.rfl rfl ?_
  exact load32_store32_aligned _ _ (by omega) aligned

theorem directorySlot_ne (inside' : d < 1024) (b : U32) :
    directorySlot d ≠ pageTableEntry (pageOf k) b := by
  intro same
  have value := congrArg BitVec.toNat same
  have page := pageOf_page inside
  rw [directorySlot_toNat inside', frameSlot_toNat inside] at value
  omega

variable (m a page)

theorem dirEntry_entered (inside' : d < 1024) : dirEntry (entered m (pageOf k) page a) d =
    if d = region a then pageOf k ||| 7 else dirEntry m d := by
  have here := directorySlot_toNat inside'
  have there := directorySlot_toNat (region_lt a)
  change load32 _ (directorySlot d) = _
  rw [load32_entered inside (by omega), if_neg (directorySlot_ne inside inside' a)]
  refine if_congr ⟨fun same => ?_, fun same => by rw [same]⟩ rfl rfl
  have value := congrArg BitVec.toNat same
  omega

/-- The table of the region is the frame. -/
theorem region_entered (same : region b = region a) :
    HasTable (entered m (pageOf k) page a) (region b) ∧
      slotOf (entered m (pageOf k) page a) b = pageTableEntry (pageOf k) b := by
  have entry := dirEntry_entered m a page inside (region_lt b)
  rw [if_pos same] at entry
  unfold slotOf HasTable table
  rw [entry, mask_present inside]
  exact ⟨entry_present _, rfl⟩

/-- The tables of the other regions are the ones they were. -/
theorem region_kept (other : region b ≠ region a) :
    (HasTable (entered m (pageOf k) page a) (region b) ↔ HasTable m (region b)) ∧
      slotOf (entered m (pageOf k) page a) b = slotOf m b := by
  have entry := dirEntry_entered m a page inside (region_lt b)
  rw [if_neg other] at entry
  obtain ⟨same, has⟩ := table_congr entry
  unfold slotOf
  rw [same]
  exact ⟨has, rfl⟩

end Entered

/-! ## Exactly when -/

theorem addrOf_entry (aligned : f &&& 7 = 0) : addrOf (f ||| 7) = f := frame_of_entry aligned

/-- What `get_page_addr` tells, by the address of the entry. -/
theorem getPageAddr_slot : getPageAddr b p =
    if HasTable p.mem (region b) then addrOf (load32 p.mem (slotOf p.mem b)) else 0 :=
  getPageAddr_table

section PutPage

variable {k : Nat} (inside : k < pagingPages) {p' : Paging}
  (written : p'.mem = entered p.mem (pageOf k) page a)

include inside written

theorem entered_addr : getPageAddr a p' = addrOf (page ||| 7) := by
  obtain ⟨has, slot⟩ := @region_entered p.mem a a page k inside rfl
  rw [getPageAddr_slot, written, if_pos has, slot,
    load32_entered inside (frameSlot_aligned inside a), if_pos rfl]

theorem entered_mapped (aligned : page &&& 7 = 0) : getPageAddr a p' = page :=
  (entered_addr inside written).trans (addrOf_entry aligned)

/-- The flags of the entry take the place of the low bits. -/
theorem aligned_of_mapped (mapped : getPageAddr a p' = page) : page &&& 7 = 0 := by
  have flags : (~~~7 : U32) &&& 7 = 0 := by decide
  rw [entered_addr inside written] at mapped
  rw [← mapped, addrOf, BitVec.and_assoc, flags]
  exact BitVec.and_zero

theorem entered_siblings (same : region b = region a) (other : pageIndex b ≠ pageIndex a) :
    pageEntry p'.mem b = load32 p.mem (pageTableEntry (pageOf k) b) := by
  obtain ⟨-, slot⟩ := region_entered p.mem a page inside same
  have apart : pageTableEntry (pageOf k) b ≠ pageTableEntry (pageOf k) a := by
    intro equal
    have value := congrArg BitVec.toNat equal
    rw [frameSlot_toNat inside, frameSlot_toNat inside] at value
    rw [region_eq, region_eq] at same
    omega
  change load32 _ (slotOf _ b) = _
  rw [written, slot, load32_entered inside (frameSlot_aligned inside b), if_neg apart,
    if_neg (directorySlot_ne inside (region_lt a) b).symm]

/-- A page of another region is where it was, unless its entry is one of the words written. -/
theorem entered_others (aligned : page &&& 7 = 0) (other : region b ≠ region a) :
    getPageAddr b p' = getPageAddr b p ↔ (HasTable p.mem (region b) →
      (slotOf p.mem b = directorySlot (region a) →
        addrOf (dirEntry p.mem (region a)) = pageOf k) ∧
      (slotOf p.mem b = pageTableEntry (pageOf k) a →
        addrOf (load32 p.mem (pageTableEntry (pageOf k) a)) = page)) := by
  obtain ⟨has, slot⟩ := region_kept p.mem a page inside other
  rw [getPageAddr_slot, getPageAddr_slot, written, slot, load32_entered inside (slotOf_aligned _ b)]
  by_cases had : HasTable p.mem (region b)
  · rw [if_pos (has.mpr had), if_pos had]
    have apart := directorySlot_ne inside (region_lt a) a
    by_cases first : slotOf p.mem b = pageTableEntry (pageOf k) a
    · rw [if_pos first, addrOf_entry aligned, first]
      simp only [had, apart.symm, true_implies, false_implies, true_and]
      exact eq_comm
    · rw [if_neg first]
      by_cases second : slotOf p.mem b = directorySlot (region a)
      · rw [if_pos second, addrOf_entry (pageOf_aligned inside), second]
        simp only [had, apart, true_implies, false_implies, and_true]
        exact eq_comm
      · rw [if_neg second]
        simp only [first, second, false_implies, and_self, implies_true]
  · rw [if_neg (mt has.mp had), if_neg had]
    exact iff_of_true rfl fun present => absurd present had

theorem startsEmpty_iff :
    StartsEmpty p p' page a ↔ page &&& 7 = 0 ∧ EmptyFrame p.mem (pageOf k) page a := by
  constructor
  · rintro ⟨mapped, siblings, others⟩
    have aligned := aligned_of_mapped inside written mapped
    refine ⟨aligned, fun b same other => ?_, fun b other has reached => ?_,
      fun b other has reached => ?_⟩
    · rw [← entered_siblings inside written same other]
      exact siblings b same other
    · exact ((entered_others inside written aligned other).mp (others b other) has).1 reached
    · exact ((entered_others inside written aligned other).mp (others b other) has).2 reached
  · rintro ⟨aligned, siblings, directory, frame⟩
    refine ⟨entered_mapped inside written aligned, fun b same other => ?_, fun b other => ?_⟩
    · rw [entered_siblings inside written same other]
      exact siblings b same other
    · exact (entered_others inside written aligned other).mpr fun has =>
        ⟨directory b other has, frame b other has⟩

end PutPage

theorem putPage_entered (absent : ¬ HasTable p.mem (region a)) (page : U32) :
    (putPage page a p).2.mem = entered p.mem (nextFrame p) page a := by
  rw [putPage_absent absent, getFreePage_fst]
  rfl

/-- The allocator after a frame was taken. -/
def afterFrame (p : Paging) : Paging := (getFreePage p).2

theorem noPage_eq (error : U32) (a : U32) (p : Paging) :
    noPage error a p = (putPage (nextFrame p) a (afterFrame p)).2 := by
  have proper : (getFreePage p).1 ≠ 0 := by
    rw [getFreePage_eq ⟨p, []⟩]
    exact pageOf_ne_zero (nextEntry_lt _)
  unfold noPage afterFrame
  rw [← getFreePage_fst]
  exact if_pos proper

/-- **New page tables.** For every memory and every address without a table, a table that
`put_page` or `no_page` makes starts empty, and leaves the rest of the map alone, exactly if the
frame it is made of holds no present entry in another place, and no other table reaches into the
two words that are written. The low bits of a page, which hold the flags, are 0. -/
theorem newTable_startsEmpty_iff (absent : ¬ HasTable p.mem (region a)) :
    (∀ page : U32, StartsEmpty p (putPage page a p).2 page a ↔
        page &&& 7 = 0 ∧ EmptyFrame p.mem (nextFrame p) page a) ∧
      ∀ error, StartsEmpty p (noPage error a p) (nextFrame p) a ↔
        EmptyFrame p.mem (nextFrame (afterFrame p)) (nextFrame p) a := by
  refine ⟨fun page => ?_, fun error => ?_⟩
  · obtain ⟨k, inside, frame⟩ := nextFrame_page p
    have written := putPage_entered absent page
    rw [frame] at written ⊢
    exact startsEmpty_iff inside written
  · obtain ⟨j, inside', page⟩ := nextFrame_page p
    obtain ⟨k, inside, frame⟩ := nextFrame_page (afterFrame p)
    have same : (afterFrame p).mem = p.mem := getFreePage_mem p
    have absent' : ¬ HasTable (afterFrame p).mem (region a) := by rwa [same]
    have written := putPage_entered absent' (nextFrame p)
    rw [same, frame] at written
    rw [noPage_eq, frame, page] at *
    exact (startsEmpty_iff inside written).trans (and_iff_right (pageOf_aligned inside'))

/-- The first frame is taken, and the memory is all zero. -/
def clean : Paging where
  memMap := fun i => if i = 0 then 1 else 0
  mem := ofWords fun _ => 0

theorem clean_word {s : U32} (aligned : s.toNat % 4 = 0) : load32 clean.mem s = 0 :=
  load32_ofWords _ aligned

theorem clean_absent (d : Nat) (inside : d < 1024) : ¬ HasTable clean.mem d := by
  have entry : dirEntry clean.mem d = 0 := by
    refine clean_word (s := directorySlot d) ?_
    rw [directorySlot_toNat inside]
    omega
  unfold HasTable
  rw [entry]
  decide

/-- The first table made of memory that is all zero. -/
theorem newTable_startsEmpty_clean :
    StartsEmpty clean (putPage 0x100000 0x800000 clean).2 0x100000 0x800000 := by
  refine ((newTable_startsEmpty_iff (clean_absent _ (region_lt _))).1 0x100000).mpr ?_
  refine ⟨by decide, fun b _ _ => ?_, fun b _ has => absurd has (clean_absent _ (region_lt b)),
    fun b _ has => absurd has (clean_absent _ (region_lt b))⟩
  obtain ⟨k, inside, frame⟩ := nextFrame_page clean
  rw [frame, clean_word (frameSlot_aligned inside b)]
  decide

/-- The first frame is taken, and all memory behind the directory is in use or was. -/
def stale : Paging where
  memMap := fun i => if i = 0 then 1 else 0
  mem := ofWords fun i => if i < 0x400 then 0 else 0x1001

/-- The page next to the one that is put is mapped as well, to what its new table held. -/
theorem newTable_keeps_stale :
    (putPage 0x100000 0x800000 stale).1 = 0x100000 ∧
      getPageAddr 0x801000 stale = 0 ∧
      getPageAddr 0x801000 (putPage 0x100000 0x800000 stale).2 = 0x1000 ∧
      ¬ StartsEmpty stale (putPage 0x100000 0x800000 stale).2 0x100000 0x800000 := by
  have absent : ¬ HasTable stale.mem (region 0x800000) := by decide
  have frame : nextFrame stale = pageOf 1791 := by
    unfold nextFrame
    rfl
  have written := putPage_entered absent 0x100000
  rw [frame] at written
  have inside : 1791 < pagingPages := by decide
  have word : load32 stale.mem (pageTableEntry (pageOf 1791) 0x801000) = 0x1001 := by decide
  have entry : pageEntry (putPage 0x100000 0x800000 stale).2.mem 0x801000 = 0x1001 :=
    (entered_siblings inside written (by decide) (by decide)).trans word
  refine ⟨by rw [putPage_absent absent], by rw [getPageAddr_table, if_neg (by decide)], ?_,
    fun empty => ?_⟩
  · have has := (@region_entered stale.mem 0x800000 0x801000 0x100000 1791 inside (by decide)).1
    rw [getPageAddr_table, written, if_pos has, ← written, entry]
    decide
  · have present := empty.siblings 0x801000 (by decide) (by decide)
    rw [entry] at present
    exact present (by decide)

end BlessOS.Guarantees.NewPageTable
