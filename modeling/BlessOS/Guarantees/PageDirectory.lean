import Mathlib.Data.Finset.Card
import BlessOS.Guarantees.HeapBounds
import BlessOS.Guarantees.PageTables

/-!
# Page tables anywhere

The page directory at address 0 has an entry for every 4 MiB of addresses, which may lead
to a page table. As long as the tables are apart, `put_page` changes the entry of one page,
and all entries of the table that it makes where there was none: those are whatever the
frame held.
-/

set_option autoImplicit false

namespace BlessOS.Guarantees.PageDirectory
open BlessOS.Lib.ByteMemory
open BlessOS.Source BlessOS.Source.Memory BlessOS.Source.Setup
open BlessOS.Guarantees.HeapBounds BlessOS.Guarantees.PageAllocator BlessOS.Guarantees.PageTables

variable {m : Mem} {p : Paging} {a b page : U32} {d k : Nat}

/-! ## The directory and its tables -/

/-- The number of the directory entry for an address. -/
def region (a : U32) : Nat := a.toNat / 0x400000

def dirEntry (m : Mem) (d : Nat) : U32 := load32 m (BitVec.ofNat 32 (4 * d))

def HasTable (m : Mem) (d : Nat) : Prop := dirEntry m d &&& 1 ≠ 0

instance (m : Mem) (d : Nat) : Decidable (HasTable m d) := inferInstanceAs (Decidable (_ ≠ _))

def Present (entry : U32) : Prop := entry &&& 1 ≠ 0

instance (entry : U32) : Decidable (Present entry) := inferInstanceAs (Decidable (_ ≠ _))

def table (m : Mem) (d : Nat) : U32 := 0xfffff000 &&& dirEntry m d

def pageEntry (m : Mem) (a : U32) : U32 := load32 m (pageTableEntry (table m (region a)) a)

/-- The page tables lie behind the directory and do not overlap. -/
structure Tables (m : Mem) : Prop where
  above : ∀ d < 1024, HasTable m d → 0x1000 ≤ (table m d).toNat
  apart : ∀ d < 1024, ∀ d' < 1024, HasTable m d → HasTable m d' → table m d = table m d' → d = d'

/-- What `get_page_addr` tells of a page. -/
def Mapped (a : U32) (p : Paging) : Prop := getPageAddr a p ≠ 0

/-- Where the entry lies. -/
theorem dirEntry_place (inside : d < 1024) : (BitVec.ofNat 32 (4 * d)).toNat = 4 * d := by
  rw [BitVec.toNat_ofNat]
  omega

theorem region_lt (a : U32) : region a < 1024 := by
  have small := a.isLt
  unfold region
  omega

theorem region_eq (a : U32) : region a = pageIndex a / 1024 := by
  unfold region pageIndex
  omega

theorem pageDirEntry_eq (a : U32) : pageDirEntry a = BitVec.ofNat 32 (4 * region a) := by
  have shifted : pageDirEntry a = (a >>> 22) <<< 2 := by
    have mask : (0xffc : U32) = (BitVec.allOnes 32 >>> 22) <<< 2 := by decide
    unfold pageDirEntry
    rw [mask]
    ext i inside
    simp only [BitVec.getElem_and, BitVec.getElem_shiftLeft, BitVec.getElem_ushiftRight,
      BitVec.getLsbD_allOnes]
    grind
  apply BitVec.eq_of_toNat_eq
  have small := a.isLt
  rw [shifted, BitVec.toNat_shiftLeft, BitVec.toNat_ushiftRight, Nat.shiftLeft_eq,
    Nat.shiftRight_eq_div_pow, BitVec.toNat_ofNat]
  unfold region
  omega

theorem table_toNat (m : Mem) (d : Nat) :
    (table m d).toNat = (dirEntry m d).toNat / 0x1000 * 0x1000 := by
  unfold table
  rw [BitVec.and_comm, pageMask_toNat]

theorem table_page (m : Mem) (d : Nat) :
    (table m d).toNat % 0x1000 = 0 ∧ (table m d).toNat + 0x1000 ≤ 2 ^ 32 := by
  have value := table_toNat m d
  have small := (dirEntry m d).isLt
  omega

theorem getPageAddr_table : getPageAddr a p =
    if HasTable p.mem (region a) then pageEntry p.mem a &&& ~~~7 else 0 := by
  unfold getPageAddr HasTable pageEntry table dirEntry
  rw [pageDirEntry_eq]
  rfl

theorem hasTable_of_mapped (mapped : Mapped a p) : HasTable p.mem (region a) := by
  by_contra absent
  exact mapped (getPageAddr_table.trans (if_neg absent))

theorem table_congr {m' : Mem} (same : dirEntry m' d = dirEntry m d) :
    table m' d = table m d ∧ (HasTable m' d ↔ HasTable m d) := by
  unfold table HasTable
  rw [same]
  exact ⟨rfl, Iff.rfl⟩

/-- Addresses in one page are mapped together. -/
theorem getPageAddr_congr (same : pageIndex a = pageIndex b) : getPageAddr a p = getPageAddr b p := by
  have place : region a = region b := by rw [region_eq, region_eq, same]
  have slots : ∀ t : U32, t.toNat + 0x1000 ≤ 2 ^ 32 → pageTableEntry t a = pageTableEntry t b := by
    intro t fits
    apply BitVec.eq_of_toNat_eq
    rw [pageTableEntry_toNat t fits, pageTableEntry_toNat t fits, same]
  rw [getPageAddr_table, getPageAddr_table]
  unfold pageEntry
  rw [place, slots _ (table_page p.mem (region b)).2]

/-! ## The three functions -/

section Table

variable (has : HasTable p.mem (region a))

include has

theorem getPageAddr_present : getPageAddr a p = pageEntry p.mem a &&& ~~~7 :=
  getPageAddr_table.trans (if_pos has)

theorem putPage_present (page : U32) : putPage page a p = (page,
    { p with mem := store32 p.mem (pageTableEntry (table p.mem (region a)) a) (page ||| 7) }) := by
  unfold putPage
  dsimp only
  rw [pageDirEntry_eq]
  exact if_pos has

theorem removePage_present : removePage a p =
    if Present (pageEntry p.mem a) then
      { freePage (getPageAddr a p) p with
        mem := store32 p.mem (pageTableEntry (table p.mem (region a)) a) 0 }
    else p := by
  unfold removePage
  dsimp only
  rw [pageDirEntry_eq, freePage_mem]
  exact if_pos has

end Table

theorem removePage_absent (absent : ¬ HasTable p.mem (region a)) : removePage a p = p := by
  unfold removePage
  dsimp only
  rw [pageDirEntry_eq]
  exact if_neg absent

/-- Where there is no table, the next free frame becomes one as it is. -/
theorem putPage_absent (absent : ¬ HasTable p.mem (region a)) (page : U32) : putPage page a p =
    (page, { (getFreePage p).2 with
      mem := store32 (store32 p.mem (BitVec.ofNat 32 (4 * region a)) ((getFreePage p).1 ||| 7))
        (pageTableEntry (getFreePage p).1 a) (page ||| 7) }) := by
  have proper : (getFreePage p).1 ≠ 0 := by
    rw [getFreePage_eq ⟨p, []⟩]
    exact pageOf_ne_zero (nextEntry_lt _)
  unfold putPage
  dsimp only
  rw [pageDirEntry_eq, if_neg proper, getFreePage_mem]
  exact if_neg absent

/-! ## Writing entries -/

/-- Entries of tables that do not overlap, or of different pages, are apart. -/
theorem slots_apart {t t' : U32} (page : t.toNat % 0x1000 = 0) (page' : t'.toNat % 0x1000 = 0)
    (other : t ≠ t' ∨ pageIndex a % 1024 ≠ pageIndex b % 1024) :
    (pageTableEntry t a).toNat + 4 ≤ 2 ^ 32 ∧ (pageTableEntry t' b).toNat + 4 ≤ 2 ^ 32 ∧
      ((pageTableEntry t a).toNat + 4 ≤ (pageTableEntry t' b).toNat ∨
        (pageTableEntry t' b).toNat + 4 ≤ (pageTableEntry t a).toNat) := by
  have small := t.isLt
  have small' := t'.isLt
  rw [pageTableEntry_toNat t (by omega), pageTableEntry_toNat t' (by omega)]
  have different : t.toNat ≠ t'.toNat ∨ pageIndex a % 1024 ≠ pageIndex b % 1024 :=
    other.imp_left fun ne same => ne (BitVec.eq_of_toNat_eq same)
  omega

/-- What is written behind the directory does not change it. -/
theorem dirEntry_store {s value : U32} (behind : 0x1000 ≤ s.toNat) (bound : s.toNat + 4 ≤ 2 ^ 32)
    (inside : d < 1024) : dirEntry (store32 m s value) d = dirEntry m d := by
  have place := dirEntry_place inside
  exact load32_store32_of_disjoint m value bound (by omega) (by omega)

/-- A directory entry, written. -/
theorem dirEntry_store_self {d' : Nat} {value : U32} (inside : d < 1024) (inside' : d' < 1024) :
    dirEntry (store32 m (BitVec.ofNat 32 (4 * d)) value) d' =
      if d' = d then value else dirEntry m d' := by
  have here := dirEntry_place inside
  have there := dirEntry_place inside'
  unfold dirEntry
  split
  · next same => rw [same, load32_store32_self]
  · next other => exact load32_store32_of_disjoint m value (by omega) (by omega) (by omega)

theorem Tables.congr {m' : Mem} (tables : Tables m)
    (same : ∀ d < 1024, dirEntry m' d = dirEntry m d) : Tables m' := by
  have kept := fun d inside => table_congr (same d inside)
  refine ⟨fun d inside has => ?_, fun d inside d' inside' has has' equal => ?_⟩
  · rw [(kept d inside).1]
    exact tables.above d inside ((kept d inside).2.mp has)
  · rw [(kept d inside).1, (kept d' inside').1] at equal
    exact tables.apart d inside d' inside' ((kept d inside).2.mp has)
      ((kept d' inside').2.mp has') equal

section Tables

variable (tables : Tables m)

include tables in
/-- Where there is a table, its entries lie behind the directory. -/
theorem Tables.behind (has : HasTable m (region a)) :
    0x1000 ≤ (pageTableEntry (table m (region a)) a).toNat ∧
      (pageTableEntry (table m (region a)) a).toNat + 4 ≤ 2 ^ 32 := by
  have above := tables.above _ (region_lt a) has
  obtain ⟨page, top⟩ := table_page m (region a)
  rw [pageTableEntry_toNat _ top]
  omega

include tables in
/-- The entry of a page, written. -/
theorem Tables.store (has : HasTable m (region a)) (value : U32) :
    (∀ d < 1024, dirEntry (store32 m (pageTableEntry (table m (region a)) a) value) d =
        dirEntry m d) ∧
      ∀ b, HasTable m (region b) →
        pageEntry (store32 m (pageTableEntry (table m (region a)) a) value) b =
          if pageIndex b = pageIndex a then value else pageEntry m b := by
  obtain ⟨above, top⟩ := tables.behind has
  have directory : ∀ d < 1024,
      dirEntry (store32 m (pageTableEntry (table m (region a)) a) value) d = dirEntry m d :=
    fun d inside => dirEntry_store above top inside
  refine ⟨directory, fun b has' => ?_⟩
  have same : table (store32 m (pageTableEntry (table m (region a)) a) value) (region b) =
      table m (region b) := (table_congr (directory _ (region_lt b))).1
  unfold pageEntry
  rw [same]
  split
  · next here =>
    have place : region b = region a := by rw [region_eq, region_eq, here]
    have slot : pageTableEntry (table m (region b)) b = pageTableEntry (table m (region a)) a := by
      have fits := (table_page m (region a)).2
      apply BitVec.eq_of_toNat_eq
      rw [place, pageTableEntry_toNat _ fits, pageTableEntry_toNat _ fits, here]
    rw [slot, load32_store32_self]
  · next elsewhere =>
    have other : table m (region a) ≠ table m (region b) ∨
        pageIndex a % 1024 ≠ pageIndex b % 1024 := by
      by_contra both
      obtain ⟨tableSame, indexSame⟩ := not_or.mp both
      have place := tables.apart _ (region_lt a) _ (region_lt b) has has' (not_not.mp tableSame)
      rw [region_eq, region_eq] at place
      omega
    obtain ⟨bound, bound', apart⟩ :=
      slots_apart (table_page m (region a)).1 (table_page m (region b)).1 other
    exact load32_store32_of_disjoint m value bound bound' apart

end Tables

/-! ## Frames -/

/-- The entries of `mem_map` that count as free. -/
def freeFrames (p : Paging) : Finset Nat := (Finset.range pagingPages).filter fun k => p.memMap k = 0

theorem mem_freeFrames : k ∈ freeFrames p ↔ k < pagingPages ∧ p.memMap k = 0 := by
  unfold freeFrames
  rw [Finset.mem_filter, Finset.mem_range]

/-- While a frame is free, the next one is. -/
theorem getFreePage_serves (some : (freeFrames p).Nonempty) : ∃ k ∈ freeFrames p,
    getFreePage p = (pageOf k, { p with memMap := Function.update p.memMap k 1 }) ∧
      ∀ m, freeFrames ⟨Function.update p.memMap k 1, m⟩ = (freeFrames p).erase k := by
  have inside := nextEntry_lt ⟨p, []⟩
  have free : p.memMap (nextEntry ⟨p, []⟩) = 0 := by
    rcases searchDown_free p.memMap (pagingPages - 1) with zero | found
    · obtain ⟨k, member⟩ := some
      obtain ⟨bound, free⟩ := mem_freeFrames.mp member
      have first : k = 0 := by
        by_contra later
        exact searchDown_above p.memMap (pagingPages - 1) k (by omega) (by omega) free
      have same : nextEntry ⟨p, []⟩ = k := zero.trans first.symm
      rw [same]
      exact free
    · exact found
  refine ⟨_, mem_freeFrames.mpr ⟨inside, free⟩, getFreePage_eq ⟨p, []⟩, fun m => ?_⟩
  ext j
  rw [Finset.mem_erase, mem_freeFrames, mem_freeFrames]
  by_cases same : j = nextEntry ⟨p, []⟩
  · rw [same]
    simp
  · simp only [Function.update_of_ne same, ne_eq, same, not_false_eq_true, true_and]

theorem pageOf_page (inside : k < pagingPages) :
    (pageOf k).toNat % 0x1000 = 0 ∧ 0x1000 ≤ (pageOf k).toNat := by
  have value := pageOf_toNat inside
  omega

/-- A word of a frame. -/
def frameWord (m : Mem) (k : Nat) (b : U32) : U32 := load32 m (pageTableEntry (pageOf k) b)

/-- The directory entry for a table in a frame leads there. -/
theorem mask_present (inside : k < pagingPages) : 0xfffff000 &&& (pageOf k ||| 7) = pageOf k := by
  have aligned := pageOf_aligned inside
  have value := pageOf_toNat inside
  have bound : k < 1792 := inside
  apply BitVec.eq_of_toNat_eq
  rw [← BitVec.add_eq_or_of_and_eq_zero _ _ aligned, BitVec.and_comm, pageMask_toNat,
    BitVec.toNat_add, value]
  change (k * 4096 + 0x100000 + 7) % 2 ^ 32 / 0x1000 * 0x1000 = _
  omega

/-- What lies behind the directory stays when the directory is written. -/
theorem load32_store_dirEntry {s value : U32} (inside : d < 1024) (behind : 0x1000 ≤ s.toNat)
    (bound : s.toNat + 4 ≤ 2 ^ 32) :
    load32 (store32 m (BitVec.ofNat 32 (4 * d)) value) s = load32 m s := by
  have place := dirEntry_place inside
  exact load32_store32_of_disjoint m value (by omega) bound (by omega)

theorem frameWord_behind (inside : k < pagingPages) (b : U32) :
    0x1000 ≤ (pageTableEntry (pageOf k) b).toNat ∧ (pageTableEntry (pageOf k) b).toNat + 4 ≤ 2 ^ 32 := by
  have value := pageOf_toNat inside
  have bound : k < 1792 := inside
  rw [pageTableEntry_toNat _ (by omega)]
  omega

/-- No frame that counts as free is a page table. -/
def Clear (p : Paging) : Prop :=
  ∀ d < 1024, HasTable p.mem d → ∀ k ∈ freeFrames p, table p.mem d ≠ pageOf k

/-- A table in a free frame, entered into the directory. -/
theorem enter_table (tables : Tables m) (inside : d < 1024) (frame : k < pagingPages)
    (clear : ∀ e < 1024, HasTable m e → table m e ≠ pageOf k) {after : Mem}
    (entered : after = store32 m (BitVec.ofNat 32 (4 * d)) (pageOf k ||| 7)) :
    Tables after ∧ HasTable after d ∧ table after d = pageOf k ∧
      (∀ e < 1024, e ≠ d → dirEntry after e = dirEntry m e) := by
  have written : ∀ e < 1024, dirEntry after e = if e = d then pageOf k ||| 7 else dirEntry m e := by
    intro e bound
    rw [entered]
    exact dirEntry_store_self inside bound
  have others : ∀ e < 1024, e ≠ d → dirEntry after e = dirEntry m e := by
    intro e bound other
    rw [written e bound, if_neg other]
  have new : HasTable after d ∧ table after d = pageOf k := by
    unfold HasTable table
    rw [written d inside, if_pos rfl]
    exact ⟨entry_present _, mask_present frame⟩
  have old : ∀ e < 1024, e ≠ d → HasTable after e → HasTable m e ∧ table after e = table m e := by
    intro e bound other has
    obtain ⟨same, iff⟩ := table_congr (others e bound other)
    exact ⟨iff.mp has, same⟩
  refine ⟨⟨fun e bound has => ?_, fun e bound e' bound' has has' same => ?_⟩, new.1, new.2, others⟩
  · by_cases this : e = d
    · rw [this, new.2]
      exact (pageOf_page frame).2
    · obtain ⟨had, kept⟩ := old e bound this has
      rw [kept]
      exact tables.above e bound had
  · by_cases first : e = d
    · by_contra differ
      have second : e' ≠ d := fun equal => differ (first.trans equal.symm)
      obtain ⟨had, kept⟩ := old e' bound' second has'
      rw [first, new.2, kept] at same
      exact clear e' bound' had same.symm
    · obtain ⟨had, kept⟩ := old e bound first has
      by_cases second : e' = d
      · rw [second, new.2, kept] at same
        exact absurd same (clear e bound had)
      · obtain ⟨had', kept'⟩ := old e' bound' second has'
        rw [kept, kept'] at same
        exact tables.apart e bound e' bound' had had' same

section Put

variable (tables : Tables p.mem)

include tables in
/-- A page is put where there is a table. -/
theorem putFreePage_present (has : HasTable p.mem (region a)) (some : (freeFrames p).Nonempty) :
    ∃ k ∈ freeFrames p, freeFrames (putFreePage a p) = (freeFrames p).erase k ∧
      (∀ d < 1024, dirEntry (putFreePage a p).mem d = dirEntry p.mem d) ∧
      (∀ b, HasTable p.mem (region b) → pageEntry (putFreePage a p).mem b =
        if pageIndex b = pageIndex a then pageOf k ||| 7 else pageEntry p.mem b) ∧
      ∀ j < pagingPages, pageOf j ≠ table p.mem (region a) →
        ∀ b, frameWord (putFreePage a p).mem j b = frameWord p.mem j b := by
  obtain ⟨k, member, found, frames⟩ := getFreePage_serves some
  obtain ⟨directory, entries⟩ := tables.store has (pageOf k ||| 7)
  have result : putFreePage a p = ⟨Function.update p.memMap k 1,
      store32 p.mem (pageTableEntry (table p.mem (region a)) a) (pageOf k ||| 7)⟩ := by
    unfold putFreePage
    rw [found]
    dsimp only
    rw [putPage_present (p := { p with memMap := Function.update p.memMap k 1 }) has]
  rw [result]
  refine ⟨k, member, frames _, directory, entries, fun j inside other b => ?_⟩
  obtain ⟨bound, bound', apart⟩ := slots_apart (a := a) (b := b) (table_page p.mem (region a)).1
    (pageOf_page inside).1 (Or.inl (Ne.symm other))
  exact load32_store32_of_disjoint _ _ bound bound' apart

/-- Where a table has to be made, two frames are taken: for the page, and for its table. -/
theorem putFreePage_takes (absent : ¬ HasTable p.mem (region a)) (two : 2 ≤ (freeFrames p).card) :
    ∃ k ∈ freeFrames p, ∃ f ∈ (freeFrames p).erase k,
      freeFrames (putFreePage a p) = ((freeFrames p).erase k).erase f ∧
      (putFreePage a p).mem = store32 (store32 p.mem (BitVec.ofNat 32 (4 * region a)) (pageOf f ||| 7))
        (pageTableEntry (pageOf f) a) (pageOf k ||| 7) := by
  have some : (freeFrames p).Nonempty := Finset.card_pos.mp (by omega)
  obtain ⟨k, member, found, frames⟩ := getFreePage_serves some
  have left : (freeFrames { p with memMap := Function.update p.memMap k 1 }).Nonempty := by
    rw [frames]
    apply Finset.card_pos.mp
    rw [Finset.card_erase_of_mem member]
    omega
  obtain ⟨f, member', found', frames'⟩ := getFreePage_serves left
  rw [frames] at member' frames'
  have result : putFreePage a p = ⟨Function.update (Function.update p.memMap k 1) f 1,
      store32 (store32 p.mem (BitVec.ofNat 32 (4 * region a)) (pageOf f ||| 7))
        (pageTableEntry (pageOf f) a) (pageOf k ||| 7)⟩ := by
    unfold putFreePage
    rw [found]
    dsimp only
    rw [putPage_absent (p := { p with memMap := Function.update p.memMap k 1 }) absent, found']
  rw [result]
  exact ⟨k, member, f, member', frames' _, rfl⟩

include tables in
/-- A page is put where a table has to be made: the other entries of the table are what its
frame held. -/
theorem putFreePage_absent (absent : ¬ HasTable p.mem (region a)) (two : 2 ≤ (freeFrames p).card)
    (clear : Clear p) :
    ∃ k ∈ freeFrames p, ∃ f ∈ (freeFrames p).erase k,
      freeFrames (putFreePage a p) = ((freeFrames p).erase k).erase f ∧
      Tables (putFreePage a p).mem ∧
      (∀ d < 1024, d ≠ region a → dirEntry (putFreePage a p).mem d = dirEntry p.mem d) ∧
      HasTable (putFreePage a p).mem (region a) ∧
      table (putFreePage a p).mem (region a) = pageOf f ∧
      (∀ b, region b = region a → pageEntry (putFreePage a p).mem b =
        if pageIndex b = pageIndex a then pageOf k ||| 7 else frameWord p.mem f b) ∧
      (∀ b, region b ≠ region a → HasTable p.mem (region b) →
        pageEntry (putFreePage a p).mem b = pageEntry p.mem b) ∧
      ∀ j < pagingPages, j ≠ f →
        ∀ b, frameWord (putFreePage a p).mem j b = frameWord p.mem j b := by
  obtain ⟨k, member, f, member', left, result⟩ := putFreePage_takes absent two
  have free := Finset.mem_of_mem_erase member'
  have inside : f < pagingPages := (mem_freeFrames.mp free).1
  generalize entered :
    store32 p.mem (BitVec.ofNat 32 (4 * region a)) (pageOf f ||| 7) = after at result
  obtain ⟨tables', has, place, others⟩ := enter_table tables (region_lt a) inside
    (fun e bound had => clear e bound had f free) entered.symm
  obtain ⟨directory, entries⟩ := tables'.store has (pageOf k ||| 7)
  rw [place] at directory entries
  have kept : ∀ b, 0x1000 ≤ b.toNat → b.toNat + 4 ≤ 2 ^ 32 → load32 after b = load32 p.mem b := by
    intro b behind bound
    rw [← entered]
    exact load32_store_dirEntry (region_lt a) behind bound
  rw [result]
  refine ⟨k, member, f, member', left, tables'.congr directory, fun d bound other => ?_,
    (table_congr (directory _ (region_lt a))).2.mpr has,
    (table_congr (directory _ (region_lt a))).1.trans place, fun b here => ?_, fun b other had => ?_,
    fun j bound other b => ?_⟩
  · exact (directory d bound).trans (others d bound other)
  · obtain ⟨behind, bound⟩ := frameWord_behind inside b
    rw [entries b (here ▸ has)]
    split
    · rfl
    · unfold pageEntry
      rw [here, place]
      exact kept _ behind bound
  · obtain ⟨behind, bound⟩ := tables.behind had
    obtain ⟨same, iff⟩ := table_congr (others _ (region_lt b) other)
    have elsewhere : pageIndex b ≠ pageIndex a := by
      intro equal
      exact other (by rw [region_eq, region_eq, equal])
    rw [entries b (iff.mpr had), if_neg elsewhere]
    unfold pageEntry
    rw [same]
    exact kept _ behind bound
  · obtain ⟨low, high⟩ := frameWord_behind bound b
    obtain ⟨fits, fits', apart⟩ := slots_apart (a := a) (b := b) (pageOf_page inside).1
      (pageOf_page bound).1 (Or.inl fun equal => other (pageOf_injective bound inside equal.symm))
    exact (load32_store32_of_disjoint _ _ fits fits' apart).trans (kept _ low high)

end Put

/-- The mapping of an address follows from its directory entry and its own. -/
theorem getPageAddr_of_entries {p' : Paging}
    (same : dirEntry p'.mem (region b) = dirEntry p.mem (region b))
    (entry : HasTable p.mem (region b) → pageEntry p'.mem b = pageEntry p.mem b) :
    getPageAddr b p' = getPageAddr b p := by
  rw [getPageAddr_table, getPageAddr_table]
  by_cases has : HasTable p.mem (region b)
  · rw [if_pos has, if_pos ((table_congr same).2.mpr has), entry has]
  · rw [if_neg has, if_neg (mt (table_congr same).2.mp has)]

/-- `remove_page` takes away one page and leaves the directory. -/
theorem removePage_others (tables : Tables p.mem) :
    (∀ d < 1024, dirEntry (removePage a p).mem d = dirEntry p.mem d) ∧
      ∀ b, pageIndex b ≠ pageIndex a → getPageAddr b (removePage a p) = getPageAddr b p := by
  by_cases has : HasTable p.mem (region a)
  · obtain ⟨directory, entries⟩ := tables.store has 0
    have written : (removePage a p).mem = p.mem ∨
        (removePage a p).mem = store32 p.mem (pageTableEntry (table p.mem (region a)) a) 0 := by
      rw [removePage_present has]
      split
      · exact Or.inr rfl
      · exact Or.inl rfl
    rcases written with same | stored
    · refine ⟨fun d _ => by rw [same], fun b _ => getPageAddr_of_entries (by rw [same]) fun _ => by
        rw [same]⟩
    · refine ⟨fun d inside => by rw [stored]; exact directory d inside, fun b other => ?_⟩
      refine getPageAddr_of_entries (by rw [stored]; exact directory _ (region_lt b)) fun had => ?_
      rw [stored, entries b had, if_neg other]
  · rw [removePage_absent has]
    exact ⟨fun _ _ => rfl, fun _ _ => rfl⟩

end BlessOS.Guarantees.PageDirectory
