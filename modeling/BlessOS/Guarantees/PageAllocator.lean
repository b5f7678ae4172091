import Mathlib.Data.Finset.Card
import Mathlib.Data.Finset.Image
import BlessOS.Lib.Transition
import BlessOS.Source.Memory

/-!
# Exclusivity of `get_free_page`

The search of `get_free_page` ends at entry 0 without looking at it, so the test
for exhaustion is dead and entry 0 is handed out again once every page is held.
`getFreePage_exclusive_iff` is the exact statement over runs: in every state
reached by calls made while some page was free, the next call is exclusive and
reports exhaustion correctly if and only if some page is still free.
-/

set_option autoImplicit false

namespace BlessOS.Guarantees.PageAllocator
open BlessOS.Lib.ByteMemory BlessOS.Lib.Transition
open BlessOS.Source BlessOS.Source.Memory

inductive PageCall where
  | getFreePage
  | freePage (page : U32)
  deriving DecidableEq, Repr

/-- The allocator together with the pages its clients hold. -/
structure PageUse where
  paging : Paging
  held : List U32

/-- `NULL` is not a page. -/
def hold (page : U32) (held : List U32) : List U32 :=
  if page = 0 then held else page :: held

/-- One call; only held pages are freed. -/
def pageStep (s : PageUse) : PageCall → PageUse → Prop
  | .getFreePage, t =>
    t = ⟨(getFreePage s.paging).2, hold (getFreePage s.paging).1 s.held⟩
  | .freePage page, t => page ∈ s.held ∧ t = ⟨freePage page s.paging, s.held.erase page⟩

def AllHeld (s : PageUse) : Prop := ∀ i < pagingPages, pageOf i ∈ s.held

/-- A page is asked for only while one is free. -/
def whileFree (s : PageUse) : PageCall → Prop
  | .getFreePage => ¬ AllHeld s
  | .freePage _ => True

/-- The next page handed out is not held, and `NULL` means that all are. -/
def Exclusive (s : PageUse) : Prop :=
  (getFreePage s.paging).1 ∉ s.held ∧ ((getFreePage s.paging).1 = 0 ↔ AllHeld s)

/-- The all-zero `mem_map`, nothing held. -/
def initial (mem : Mem) : PageUse := ⟨⟨fun _ => 0, mem⟩, []⟩

theorem pageOf_toNat {i : Nat} (inside : i < pagingPages) :
    (pageOf i).toNat = i * 4096 + 0x100000 := by
  have bound : i < 1792 := inside
  have shifted : (BitVec.ofNat 32 i <<< 12).toNat = i * 4096 := by
    rw [BitVec.toNat_shiftLeft, BitVec.toNat_ofNat, Nat.shiftLeft_eq]
    omega
  rw [pageOf, BitVec.toNat_add, shifted]
  exact Nat.mod_eq_of_lt (by simp only [lowMem, BitVec.reduceToNat]; omega)

theorem pageOf_injective {i j : Nat} (hi : i < pagingPages) (hj : j < pagingPages)
    (same : pageOf i = pageOf j) : i = j := by
  have eq := congrArg BitVec.toNat same
  rw [pageOf_toNat hi, pageOf_toNat hj] at eq
  omega

theorem pageOf_ne_zero {i : Nat} (inside : i < pagingPages) : pageOf i ≠ 0 := by
  intro zero
  have eq := congrArg BitVec.toNat zero
  rw [pageOf_toNat inside] at eq
  simp at eq

/-- `free_page` computes the entry back from the address. -/
theorem entry_of_pageOf {i : Nat} (inside : i < pagingPages) :
    ((pageOf i - lowMem) >>> 12).toNat = i := by
  have bound : i < 1792 := inside
  rw [BitVec.toNat_ushiftRight, BitVec.toNat_sub, pageOf_toNat inside, Nat.shiftRight_eq_div_pow]
  simp only [lowMem, BitVec.reduceToNat]
  omega

theorem searchDown_le (memMap : Nat → U16) (n : Nat) : searchDown memMap n ≤ n := by
  induction n with
  | zero => exact Nat.le_refl 0
  | succ n ih =>
    unfold searchDown
    split
    · exact Nat.le_refl _
    · exact Nat.le_succ_of_le ih

/-- The search stops at a free entry unless it runs down to entry 0. -/
theorem searchDown_free (memMap : Nat → U16) (n : Nat) :
    searchDown memMap n = 0 ∨ memMap (searchDown memMap n) = 0 := by
  induction n with
  | zero => exact Or.inl rfl
  | succ n ih =>
    unfold searchDown
    split
    · next free => exact Or.inr free
    · exact ih

/-- The entries above the one the search stops at are taken. -/
theorem searchDown_above (memMap : Nat → U16) (n j : Nat) (above : searchDown memMap n < j)
    (inside : j ≤ n) : memMap j ≠ 0 := by
  induction n with
  | zero => omega
  | succ n ih =>
    unfold searchDown at above
    split at above
    · omega
    · next taken =>
      rcases Nat.lt_or_eq_of_le inside with below | rfl
      · exact ih above (Nat.lt_succ_iff.mp below)
      · exact taken

/-- Held pages are distinct pages of the allocator, and `mem_map` counts each once. -/
structure Tracks (s : PageUse) : Prop where
  nodup : s.held.Nodup
  pages : ∀ page ∈ s.held, ∃ i < pagingPages, page = pageOf i
  counted : ∀ i < pagingPages, s.paging.memMap i = if pageOf i ∈ s.held then 1 else 0

/-- The entry the next call of `get_free_page` hands out. -/
def nextEntry (s : PageUse) : Nat := searchDown s.paging.memMap (pagingPages - 1)

theorem nextEntry_lt (s : PageUse) : nextEntry s < pagingPages :=
  Nat.lt_of_le_of_lt (searchDown_le _ _) (by decide)

/-- The exhaustion test never fires. -/
theorem getFreePage_eq (s : PageUse) :
    getFreePage s.paging =
      (pageOf (nextEntry s),
        { s.paging with memMap := Function.update s.paging.memMap (nextEntry s) 1 }) := by
  have not_negative : ¬ ((nextEntry s : Int) < 0) := by omega
  simp only [getFreePage]
  exact if_neg not_negative

theorem Tracks.next_not_held {s : PageUse} (tracks : Tracks s) (free : ¬ AllHeld s) :
    pageOf (nextEntry s) ∉ s.held := by
  intro held
  have counted := tracks.counted (nextEntry s) (nextEntry_lt s)
  rw [if_pos held] at counted
  rcases searchDown_free s.paging.memMap (pagingPages - 1) with zero | zero
  · apply free
    intro i inside
    by_cases first : i = 0
    · subst first
      have at_zero : nextEntry s = 0 := zero
      rwa [at_zero] at held
    · have taken : s.paging.memMap i ≠ 0 :=
        searchDown_above _ (pagingPages - 1) i (by omega) (by omega)
      by_contra absent
      exact taken (by rw [tracks.counted i inside, if_neg absent])
  · rw [show s.paging.memMap (nextEntry s) = 0 from zero] at counted
    exact absurd counted (by decide)

theorem Tracks.getFreePage {s : PageUse} (tracks : Tracks s) (free : ¬ AllHeld s) :
    Tracks ⟨(Memory.getFreePage s.paging).2, hold (Memory.getFreePage s.paging).1 s.held⟩ := by
  have fresh := tracks.next_not_held free
  have inside := nextEntry_lt s
  rw [getFreePage_eq]
  simp only [hold, if_neg (pageOf_ne_zero inside)]
  refine ⟨List.nodup_cons.mpr ⟨fresh, tracks.nodup⟩, ?_, ?_⟩
  · intro page member
    rcases List.mem_cons.mp member with rfl | old
    · exact ⟨_, inside, rfl⟩
    · exact tracks.pages page old
  · intro i hi
    by_cases same : i = nextEntry s
    · subst same
      simp
    · have other : pageOf i ≠ pageOf (nextEntry s) := fun eq => same (pageOf_injective hi inside eq)
      simp only [Function.update_of_ne same, List.mem_cons, other, false_or]
      exact tracks.counted i hi

theorem Tracks.freePage {s : PageUse} (tracks : Tracks s) {page : U32} (held : page ∈ s.held) :
    Tracks ⟨Memory.freePage page s.paging, s.held.erase page⟩ := by
  obtain ⟨i, inside, rfl⟩ := tracks.pages page held
  have counted := tracks.counted i inside
  rw [if_pos held] at counted
  have in_range : ¬ pageOf i < lowMem := by
    rw [BitVec.lt_def, pageOf_toNat inside]
    simp [lowMem]
  have freed : Memory.freePage (pageOf i) s.paging =
      { s.paging with memMap := Function.update s.paging.memMap i 0 } := by
    simp only [Memory.freePage, if_neg in_range, entry_of_pageOf inside, counted]
    rw [if_pos (by decide)]
    rfl
  rw [freed]
  refine ⟨tracks.nodup.erase _, fun q member => tracks.pages q (List.mem_of_mem_erase member), ?_⟩
  intro j hj
  by_cases same : j = i
  · subst same
    simp [tracks.nodup.mem_erase_iff]
  · have other : pageOf j ≠ pageOf i := fun eq => same (pageOf_injective hj inside eq)
    simp only [Function.update_of_ne same, tracks.nodup.mem_erase_iff, ne_eq, other,
      not_false_eq_true, true_and]
    exact tracks.counted j hj

theorem initial_tracks (mem : Mem) : Tracks (initial mem) where
  nodup := List.nodup_nil
  pages page member := absurd member List.not_mem_nil
  counted i _ := by simp [initial]

theorem tracks_step (s : PageUse) (call : PageCall) (t : PageUse) (tracks : Tracks s)
    (guard : whileFree s call) (step : pageStep s call t) : Tracks t := by
  cases call with
  | getFreePage =>
    rw [show t = _ from step]
    exact tracks.getFreePage guard
  | freePage page =>
    obtain ⟨held, rfl⟩ := step
    exact tracks.freePage held

/-- In a state reached while pages were free, the next call is exclusive exactly
when some page is still free. -/
theorem Tracks.exclusive_iff {s : PageUse} (tracks : Tracks s) : Exclusive s ↔ ¬ AllHeld s := by
  have page_eq : (Memory.getFreePage s.paging).1 = pageOf (nextEntry s) := by
    rw [getFreePage_eq]
  have not_null := pageOf_ne_zero (nextEntry_lt s)
  constructor
  · intro exclusive all
    rw [Exclusive, page_eq] at exclusive
    exact exclusive.1 (all _ (nextEntry_lt s))
  · intro free
    rw [Exclusive, page_eq]
    exact ⟨tracks.next_not_held free, by simp only [not_null, free]⟩

theorem getFreePage_exclusive_iff (mem : Mem) (calls : List PageCall) (s : PageUse)
    (run : GuardedRun pageStep whileFree (initial mem) calls s) : Exclusive s ↔ ¬ AllHeld s :=
  (run.invariant Tracks tracks_step (initial_tracks mem)).exclusive_iff

/-- The guard is met by the first call. -/
theorem getFreePage_exclusive_iff_second :
    ∃ s, GuardedRun pageStep whileFree (initial fun _ => 0) [.getFreePage] s ∧
      (Exclusive s ↔ ¬ AllHeld s) := by
  have free : ¬ AllHeld (initial fun _ => 0) := fun all => List.not_mem_nil (all 0 (by decide))
  have run : GuardedRun pageStep whileFree (initial fun _ => 0) [.getFreePage] _ :=
    .snoc (.nil _) free rfl
  exact ⟨_, run, getFreePage_exclusive_iff (fun _ => 0) [.getFreePage] _ run⟩

/-- The pages of the allocator, as a set. -/
def allPages : Finset U32 := (Finset.range pagingPages).image pageOf

theorem allPages_card : allPages.card = pagingPages := by
  rw [allPages, Finset.card_image_of_injOn, Finset.card_range]
  intro i hi j hj same
  exact pageOf_injective (Finset.mem_range.mp hi) (Finset.mem_range.mp hj) same

theorem Tracks.held_subset {s : PageUse} (tracks : Tracks s) : s.held.toFinset ⊆ allPages := by
  intro page member
  obtain ⟨i, inside, rfl⟩ := tracks.pages page (List.mem_toFinset.mp member)
  exact Finset.mem_image_of_mem _ (Finset.mem_range.mpr inside)

/-- All pages are held exactly when as many are held as there are. -/
theorem Tracks.allHeld_iff {s : PageUse} (tracks : Tracks s) :
    AllHeld s ↔ s.held.length = pagingPages := by
  have card := List.toFinset_card_of_nodup tracks.nodup
  constructor
  · intro all
    have all_subset : allPages ⊆ s.held.toFinset := by
      intro page member
      obtain ⟨i, inside, rfl⟩ := Finset.mem_image.mp member
      exact List.mem_toFinset.mpr (all i (Finset.mem_range.mp inside))
    have same := Finset.Subset.antisymm tracks.held_subset all_subset
    rw [← card, same, allPages_card]
  · intro full i inside
    have same : s.held.toFinset = allPages :=
      Finset.eq_of_subset_of_card_le tracks.held_subset (by rw [card, full, allPages_card])
    rw [← List.mem_toFinset, same]
    exact Finset.mem_image_of_mem _ (Finset.mem_range.mpr inside)

/-- Asking for `n` pages in a row hands out `n` pages, as long as there are that many. -/
theorem take_pages (mem : Mem) (n : Nat) (enough : n ≤ pagingPages) :
    ∃ s, GuardedRun pageStep always (initial mem) (List.replicate n .getFreePage) s ∧
      Tracks s ∧ s.held.length = n := by
  induction n with
  | zero => exact ⟨_, .nil _, initial_tracks mem, rfl⟩
  | succ n ih =>
    obtain ⟨s, run, tracks, length⟩ := ih (by omega)
    have free : ¬ AllHeld s := by
      rw [tracks.allHeld_iff]
      omega
    refine ⟨⟨(Memory.getFreePage s.paging).2, hold (Memory.getFreePage s.paging).1 s.held⟩,
      ?_, tracks.getFreePage free, ?_⟩
    · rw [List.replicate_succ']
      exact .snoc run trivial rfl
    · rw [getFreePage_eq]
      simp only [hold, if_neg (pageOf_ne_zero (nextEntry_lt s)), List.length_cons, length]

/-- After as many calls as there are pages, all of them are held and the next
call hands out the lowest one a second time. -/
theorem getFreePage_reuses_lowMem :
    ∃ s, GuardedRun pageStep always (initial fun _ => 0)
        (List.replicate pagingPages .getFreePage) s ∧
      AllHeld s ∧ (Memory.getFreePage s.paging).1 = lowMem ∧ lowMem ∈ s.held ∧ ¬ Exclusive s := by
  obtain ⟨s, run, tracks, length⟩ := take_pages (fun _ => 0) pagingPages (Nat.le_refl _)
  have all : AllHeld s := tracks.allHeld_iff.mpr length
  have at_zero : nextEntry s = 0 := by
    rcases searchDown_free s.paging.memMap (pagingPages - 1) with zero | zero
    · exact zero
    · have counted := tracks.counted _ (nextEntry_lt s)
      rw [if_pos (all _ (nextEntry_lt s)), show s.paging.memMap (nextEntry s) = 0 from zero] at counted
      exact absurd counted (by decide)
  have low : pageOf 0 = lowMem := by decide
  refine ⟨s, run, all, ?_, ?_, fun exclusive => tracks.exclusive_iff.mp exclusive all⟩
  · rw [getFreePage_eq, at_zero, low]
  · rw [← low]
    exact all 0 (by decide)

end BlessOS.Guarantees.PageAllocator
