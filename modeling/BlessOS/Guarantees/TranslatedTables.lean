import BlessOS.Guarantees.HeapPages
import BlessOS.Guarantees.NewPageTable
import BlessOS.Lib.Transition
import BlessOS.Source.VirtualMemory

/-!
# The page tables through themselves

With paging on, the functions of `mm/memory.c` reach the directory and the tables through the
addresses that these map, and through what the processor has kept of them. As long as the pages
of the directory and of the tables stay their own frames, this makes no difference but for the
flags that the processor sets in the entries.
-/

set_option autoImplicit false

namespace BlessOS.Guarantees.TranslatedTables
open BlessOS.Lib.ByteMemory BlessOS.Lib.PageWalk BlessOS.Lib.Transition
open BlessOS.Source BlessOS.Source.Memory BlessOS.Source.Setup BlessOS.Source.VirtualMemory
open BlessOS.Guarantees.PageAllocator BlessOS.Guarantees.PageTables
open BlessOS.Guarantees.PageDirectory BlessOS.Guarantees.NewPageTable

variable {m m' : Mem} {p : Paging} {s t : Paged} {a b page : U32} {d k : Nat}

/-! ## What the processor finds -/

theorem directoryPlace_eq (a : U32) : directoryPlace 0 a = directorySlot (region a) := by
  have low := dirEntry_place (region_lt a)
  have small := region_lt a
  apply BitVec.eq_of_toNat_eq
  rw [directorySlot, low, directoryPlace, BitVec.toNat_add, BitVec.toNat_mul,
    BitVec.toNat_ushiftRight, Nat.shiftRight_eq_div_pow]
  change (0 + 4 * region a % 2 ^ 32) % 2 ^ 32 = _
  omega

theorem directoryEntry_eq (m : Mem) (a : U32) : directoryEntry 0 m a = dirEntry m (region a) :=
  congrArg (load32 m) (directoryPlace_eq a)

theorem tablePlace_eq (m : Mem) (a : U32) :
    tablePlace (dirEntry m (region a)) a = pageTableEntry (table m (region a)) a := by
  unfold tablePlace pageTableEntry table frameOf
  rw [BitVec.and_comm]

theorem tableEntry_eq (m : Mem) (a : U32) :
    tableEntry (dirEntry m (region a)) m a = pageEntry m a :=
  congrArg (load32 m) (tablePlace_eq m a)

/-- The entries of the directory and of the tables, as the functions of `memory.c` take them. -/
theorem walk_eq (m : Mem) (a : U32) : walk 0 m a =
    if HasTable m (region a) ∧ Present (pageEntry m a) then some (frameOf (pageEntry m a))
    else none := by
  unfold walk
  dsimp only
  rw [directoryEntry_eq, tableEntry_eq]
  by_cases has : HasTable m (region a)
  · by_cases present : Present (pageEntry m a)
    · rw [if_neg has, if_neg present, if_pos ⟨has, present⟩]
    · rw [if_neg has, if_pos (not_not.mp present), if_neg fun both => present both.2]
  · rw [if_pos (not_not.mp has), if_neg fun both => has both.1]

theorem walk_of_entries {m' : Mem} (same : dirEntry m' (region a) = dirEntry m (region a))
    (entry : HasTable m (region a) → pageEntry m' a = pageEntry m a) :
    walk 0 m' a = walk 0 m a := by
  obtain ⟨-, iff⟩ := table_congr same
  rw [walk_eq, walk_eq]
  by_cases has : HasTable m (region a)
  · have entries := entry has
    refine if_congr ?_ (by rw [entries]) rfl
    rw [entries, iff]
  · rw [if_neg fun both => has (iff.mp both.1), if_neg fun both => has both.1]

theorem hasTable_of_walk {f : U32} (found : walk 0 m a = some f) : HasTable m (region a) := by
  rw [walk_eq] at found
  by_contra absent
  rw [if_neg fun both => absent both.1] at found
  cases found

theorem pageNumber_eq_iff : pageNumber b = pageNumber a ↔ pageIndex b = pageIndex a := by
  have left := pageNumber_toNat a
  have right := pageNumber_toNat b
  unfold pageIndex
  constructor
  · intro same
    rw [same] at right
    exact right.symm.trans left
  · intro same
    apply BitVec.eq_of_toNat_eq
    rw [left, right, same]

/-- The entries stay entries as long as the directory keeps the tables that it has. -/
theorem isEntry_of_directory {x : U32}
    (kept : ∀ d < 1024, HasTable m d → dirEntry m' d = dirEntry m d) (entry : IsEntry 0 m x) :
    IsEntry 0 m' x := by
  rcases entry with directory | ⟨a, has, place⟩
  · exact .inl directory
  · have had : HasTable m (region a) := by
      rw [directoryEntry_eq] at has
      exact has
    have same : directoryEntry 0 m' a = directoryEntry 0 m a := by
      rw [directoryEntry_eq, directoryEntry_eq, kept _ (region_lt a) had]
    exact .inr ⟨a, same ▸ has, same ▸ place⟩

/-! ## The invariant -/

/-- The pages of the directory and of the page tables. -/
def Structural (m : Mem) (a : U32) : Prop :=
  pageIndex a = 0 ∨ ∃ d < 1024, HasTable m d ∧ pageIndex a = pageIndex (table m d)

/-- The tables do not overlap, and these pages are their own frames. -/
structure Sound (s : Paged) : Prop where
  cr3 : s.mmu.cr3 = 0
  tables : Tables s.mmu.mem
  direct : ∀ a, Structural s.mmu.mem a → Direct s.mmu a

section Flags
variable (same : SameButFlags 0 m m')

include same

/-- The flags do not matter for where the tables are. -/
theorem tables_same (inside : d < 1024) :
    (HasTable m' d ↔ HasTable m d) ∧ table m' d = table m d := by
  have place := dirEntry_place inside
  have entries : SameWord (dirEntry m d) (dirEntry m' d) := same.word (by omega)
  have masked : ∀ v : U32, 0xfffff000 &&& v = frameOf v := fun v => BitVec.and_comm _ _
  constructor
  · unfold HasTable
    rw [entries.present]
  · rw [table, table, masked, masked, entries.frameOf]

theorem structural_same : Structural m' a ↔ Structural m a := by
  unfold Structural
  refine or_congr Iff.rfl (exists_congr fun d => and_congr_right fun inside => ?_)
  obtain ⟨has, place⟩ := tables_same same inside
  rw [has, place]

theorem tables_of_same (tables : Tables m) : Tables m' := by
  refine ⟨fun d inside has => ?_, fun d inside d' inside' has has' equal => ?_⟩
  · obtain ⟨iff, place⟩ := tables_same same inside
    rw [place]
    exact tables.above d inside (iff.mp has)
  · obtain ⟨iff, place⟩ := tables_same same inside
    obtain ⟨iff', place'⟩ := tables_same same inside'
    rw [place, place'] at equal
    exact tables.apart d inside d' inside' (iff.mp has) (iff'.mp has') equal

end Flags

theorem Sound.of_same (sound : Sound s) (cr3 : t.mmu.cr3 = s.mmu.cr3)
    (same : SameButFlags 0 s.mmu.mem t.mmu.mem)
    (direct : ∀ a, Direct s.mmu a → Direct t.mmu a) : Sound t where
  cr3 := cr3.trans sound.cr3
  tables := tables_of_same same sound.tables
  direct := fun a structural => direct a (sound.direct a ((structural_same same).mp structural))

theorem Sound.of_mmu (sound : Sound s) (same : t.mmu = s.mmu) : Sound t :=
  sound.of_same (by rw [same]) (same ▸ .refl _ _) fun _ direct => same ▸ direct

/-- The paging `p`, but for the flags that the processor has set on the way. -/
structure Follows (p : Paging) (s : Paged) : Prop where
  sound : Sound s
  memMap : s.memMap = p.memMap
  mem : SameButFlags 0 p.mem s.mmu.mem

theorem Sound.follows (sound : Sound s) : Follows s.physical s := ⟨sound, rfl, .refl _ _⟩

/-! ## Accesses -/

/-- What the processor does by itself in front of an access. -/
def beforeAccess (s : Paged) : Paged := { s with mmu := meanwhile s.mmu }

/-- A word of the physical memory, written. -/
def write (a value : U32) (s : Paged) : Paged :=
  { s with mmu := { s.mmu with mem := store32 s.mmu.mem a value } }

/-- The frame that becomes a table is its own page, and no table yet. -/
structure Usable (s : Paged) (f : U32) : Prop where
  direct : Direct s.mmu f
  clear : ∀ d < 1024, HasTable s.mmu.mem d → table s.mmu.mem d ≠ f

theorem directory_structural (inside : d < 1024) : Structural m (directorySlot d) := by
  have place := directorySlot_toNat inside
  left
  unfold pageIndex
  omega

theorem table_structural (has : HasTable m (region a)) :
    Structural m (pageTableEntry (table m (region a)) a) := by
  obtain ⟨aligned, top⟩ := table_page m (region a)
  right
  refine ⟨region a, region_lt a, has, ?_⟩
  unfold pageIndex
  rw [pageTableEntry_toNat _ top]
  omega

section Accesses
variable (follows : Follows p s)

include follows

theorem Follows.before_same : SameButFlags 0 s.mmu.mem (beforeAccess s).mmu.mem := by
  have same := (meanwhile_same s.mmu).2
  rw [follows.sound.cr3] at same
  exact same

theorem Follows.before : Follows p (beforeAccess s) := by
  have same := follows.before_same
  refine ⟨?_, follows.memMap, follows.mem.trans same⟩
  exact follows.sound.of_same (meanwhile_same s.mmu).1 same fun _ direct => direct.meanwhile

theorem Follows.usable_before {f : U32} (usable : Usable s f) : Usable (beforeAccess s) f := by
  refine ⟨usable.direct.meanwhile, fun d inside has => ?_⟩
  obtain ⟨iff, place⟩ := tables_same follows.before_same inside
  rw [place]
  exact usable.clear d inside (iff.mp has)

/-- Reading the entry of the directory tells if there is a table and where. -/
theorem Follows.loadDirectory (a : U32) : ∃ entry,
    load (pageDirEntry a) s = some (entry, beforeAccess s) ∧
      (entry &&& 1 ≠ 0 ↔ HasTable p.mem (region a)) ∧
      0xfffff000 &&& entry = table p.mem (region a) := by
  obtain ⟨iff, place⟩ := tables_same follows.before.mem (region_lt a)
  have structural : Structural s.mmu.mem (directorySlot (region a)) :=
    directory_structural (region_lt a)
  have slot : pageDirEntry a = directorySlot (region a) := pageDirEntry_eq a
  have aligned := directorySlot_toNat (region_lt a)
  refine ⟨dirEntry (beforeAccess s).mmu.mem (region a), ?_, iff, place⟩
  rw [slot, load, (follows.sound.direct _ structural).loadWord (by omega)]
  rfl

theorem Follows.loadEntry (has : HasTable p.mem (region a)) : ∃ entry,
    load (pageTableEntry (table p.mem (region a)) a) s = some (entry, beforeAccess s) ∧
      SameWord (pageEntry p.mem a) entry := by
  have structural := (structural_same follows.mem).mpr (table_structural has)
  have aligned : (pageTableEntry (table p.mem (region a)) a).toNat % 4 = 0 := slotOf_aligned _ a
  refine ⟨_, ?_, follows.before.mem.word aligned⟩
  rw [load, (follows.sound.direct _ structural).loadWord aligned]
  rfl

theorem Follows.storeWord {place : U32} (structural : Structural p.mem place)
    (aligned : place.toNat % 4 = 0) (value : U32) :
    store place value s = some (write place value (beforeAccess s)) := by
  have structural_s := (structural_same follows.mem).mpr structural
  rw [store, (follows.sound.direct _ structural_s).storeWord aligned]
  rfl

end Accesses

/-! ## What is written -/

/-- Writing the entry of a page that is not one of these leaves them alone. -/
theorem Sound.write_entry (sound : Sound s) (has : HasTable s.mmu.mem (region a))
    (other : ¬ Structural s.mmu.mem a) (value : U32) :
    Sound (write (pageTableEntry (table s.mmu.mem (region a)) a) value s) := by
  obtain ⟨directory, entries⟩ := sound.tables.store has value
  refine ⟨sound.cr3, sound.tables.congr directory, fun b structural => ?_⟩
  have before : Structural s.mmu.mem b := by
    rcases structural with first | ⟨d, inside, table_d, page⟩
    · exact .inl first
    · obtain ⟨same, iff⟩ := table_congr (directory d inside)
      exact .inr ⟨d, inside, iff.mp table_d, same ▸ page⟩
  have elsewhere : pageIndex b ≠ pageIndex a := by
    intro same
    rw [Structural, same] at before
    exact other before
  have direct := sound.direct b before
  refine ⟨?_, direct.kept⟩
  have walked := direct.walk
  change walk s.mmu.cr3 _ b = _
  rw [sound.cr3] at walked ⊢
  rw [← walked]
  refine walk_of_entries (directory _ (region_lt b)) fun had => ?_
  exact (entries b had).trans (if_neg elsewhere)

theorem Follows.storeEntry (follows : Follows p s) (has : HasTable p.mem (region a))
    (other : ¬ Structural p.mem a) (value : U32) :
    ∃ t, store (pageTableEntry (table p.mem (region a)) a) value s = some t ∧
      Follows { p with mem := store32 p.mem (pageTableEntry (table p.mem (region a)) a) value }
        t := by
  have before := follows.before
  obtain ⟨iff, place⟩ := tables_same before.mem (region_lt a)
  have written := before.sound.write_entry (iff.mpr has)
    (fun structural => other ((structural_same before.mem).mp structural)) value
  have above := before.sound.tables.behind (iff.mpr has)
  rw [place] at written above
  refine ⟨_, follows.storeWord (table_structural has) (slotOf_aligned _ a) value,
    written, before.memMap, before.mem.store _ _ fun x entry => ?_⟩
  exact isEntry_of_directory (fun d inside _ => dirEntry_store above.1 above.2 inside) entry

/-! ## A new table -/

/-- Entering a table into the directory leaves what was mapped. -/
theorem walk_directory (tables : Tables m) (absent : ¬ HasTable m (region a))
    (has : HasTable m (region b)) (value : U32) :
    walk 0 (store32 m (directorySlot (region a)) value) b = walk 0 m b := by
  have other : region b ≠ region a := fun same => absent (same ▸ has)
  have directory : dirEntry (store32 m (directorySlot (region a)) value) (region b) =
      dirEntry m (region b) := by
    exact (dirEntry_store_self (region_lt a) (region_lt b)).trans (if_neg other)
  refine walk_of_entries directory fun _ => ?_
  obtain ⟨behind, top⟩ := tables.behind has
  unfold pageEntry
  rw [(table_congr directory).1]
  exact load32_store_dirEntry (region_lt a) behind top

/-- The new table is one of the pages that are their own frames. -/
theorem Sound.enter (sound : Sound s) (absent : ¬ HasTable s.mmu.mem (region a))
    (inside : k < pagingPages) (usable : Usable s (pageOf k)) :
    Sound (write (directorySlot (region a)) (pageOf k ||| 7) s) ∧
      ∀ b, Structural (write (directorySlot (region a)) (pageOf k ||| 7) s).mmu.mem b →
        Structural s.mmu.mem b ∨ pageIndex b = pageIndex (pageOf k) := by
  obtain ⟨tables, has, place, others⟩ :=
    enter_table sound.tables (region_lt a) inside usable.clear rfl
  have old : ∀ b, Structural (write (directorySlot (region a)) (pageOf k ||| 7) s).mmu.mem b →
      Structural s.mmu.mem b ∨ pageIndex b = pageIndex (pageOf k) := by
    rintro b (first | ⟨d, inside_d, has_d, page_d⟩)
    · exact .inl (.inl first)
    · by_cases here : d = region a
      · rw [here] at page_d
        exact .inr (page_d.trans (congrArg pageIndex place))
      · obtain ⟨same, iff⟩ := table_congr (others d inside_d here)
        exact .inl (.inr ⟨d, inside_d, iff.mp has_d, page_d.trans (congrArg pageIndex same)⟩)
  refine ⟨⟨sound.cr3, tables, fun b structural => ?_⟩, old⟩
  have before : Direct s.mmu b := by
    rcases old b structural with known | new
    · exact sound.direct b known
    · exact usable.direct.samePage (pageNumber_eq_iff.mpr new)
  refine ⟨?_, before.kept⟩
  have walked := before.walk
  change walk s.mmu.cr3 _ b = _
  rw [sound.cr3] at walked ⊢
  exact (walk_directory sound.tables absent (hasTable_of_walk walked) _).trans walked

/-- A frame is entered into the directory; it is not the page that is put. -/
theorem Follows.enter (follows : Follows p s) (absent : ¬ HasTable p.mem (region a))
    (other : ¬ Structural p.mem a) (inside : k < pagingPages) (usable : Usable s (pageOf k))
    {after : Mem} (entered : after = store32 p.mem (directorySlot (region a)) (pageOf k ||| 7)) :
    ∃ t, store (pageDirEntry a) (pageOf k ||| 7) s = some t ∧ Follows { p with mem := after } t ∧
      ¬ Structural after a ∧ HasTable after (region a) ∧ table after (region a) = pageOf k := by
  have before := follows.before
  have absent_s : ¬ HasTable (beforeAccess s).mmu.mem (region a) := fun has =>
    absent ((tables_same before.mem (region_lt a)).1.mp has)
  obtain ⟨sound, structural⟩ :=
    before.sound.enter absent_s inside (follows.usable_before usable)
  have kept : ∀ d < 1024, HasTable p.mem d → dirEntry after d = dirEntry p.mem d := by
    intro d inside_d has
    rw [entered]
    refine (dirEntry_store_self (region_lt a) inside_d).trans (if_neg ?_)
    rintro rfl
    exact absent has
  have mem : SameButFlags 0 after
      (write (directorySlot (region a)) (pageOf k ||| 7) (beforeAccess s)).mmu.mem := by
    have stored := before.mem.store (directorySlot (region a)) (pageOf k ||| 7)
      fun x entry => isEntry_of_directory (fun d inside_d has => entered ▸ kept d inside_d has) entry
    rw [entered]
    exact stored
  have new : dirEntry after (region a) = pageOf k ||| 7 := by
    rw [entered]
    exact (dirEntry_store_self (region_lt a) (region_lt a)).trans (if_pos rfl)
  have place := directorySlot_toNat (region_lt a)
  refine ⟨_, ?_, ⟨sound, before.memMap, mem⟩, fun now => ?_, ?_, ?_⟩
  · rw [pageDirEntry_eq]
    exact follows.storeWord (directory_structural (region_lt a)) (by omega) _
  · rcases structural a ((structural_same mem).mpr now) with old | same
    · exact other ((structural_same before.mem).mp old)
    · -- The frame has an entry, and the page that is put has none.
      have walked := (follows.usable_before usable).direct.walk
      rw [before.sound.cr3] at walked
      have has := hasTable_of_walk walked
      rw [region_eq, ← same, ← region_eq] at has
      exact absent_s has
  · rw [HasTable, new]
    exact entry_present _
  · rw [table, new]
    exact mask_present inside

/-! ## The functions -/

theorem onMap_getFreePage (follows : Follows p s) : onMap getFreePage s =
    (nextFrame p, { s with memMap := (afterFrame p).memMap }) := by
  unfold onMap afterFrame
  dsimp only
  rw [← getFreePage_fst, getFreePage_eq ⟨p, []⟩, getFreePage_eq ⟨s.physical, []⟩]
  unfold nextEntry Paged.physical
  dsimp only
  rw [follows.memMap]

theorem Follows.withMap (follows : Follows p s) (f : Nat → U16) :
    Follows { p with memMap := f } { s with memMap := f } :=
  ⟨follows.sound.of_mmu rfl, rfl, follows.mem⟩

theorem SameWord.masked {v w : U32} (same : SameWord v w) (keep : U32) :
    SameWord (v &&& keep) (w &&& keep) := by
  unfold SameWord at same ⊢
  rw [BitVec.and_assoc, BitVec.and_comm keep, ← BitVec.and_assoc, same, BitVec.and_assoc,
    BitVec.and_comm _ keep, ← BitVec.and_assoc]

theorem Follows.getPageAddr (follows : Follows p s) (a : U32) :
    ∃ answer t, VirtualMemory.getPageAddr a s = some (answer, t) ∧
      SameWord (Memory.getPageAddr a p) answer ∧ Follows p t := by
  obtain ⟨entry, loaded, present, place⟩ := follows.loadDirectory a
  rw [VirtualMemory.getPageAddr, loaded, getPageAddr_table]
  simp only [Option.bind_eq_bind, Option.bind_some, place]
  by_cases has : HasTable p.mem (region a)
  · obtain ⟨found, read, same⟩ := follows.before.loadEntry has
    refine ⟨found &&& ~~~7, _, ?_, ?_, follows.before.before⟩
    · rw [if_pos (present.mpr has), read]
      rfl
    · rw [if_pos has]
      exact SameWord.masked same (~~~7)
  · refine ⟨0, _, if_neg fun now => has (present.mp now), ?_, follows.before⟩
    rw [if_neg has]
    rfl

/-- With a table, one entry is written. -/
theorem Follows.putPage_present (follows : Follows p s) (has : HasTable p.mem (region a))
    (other : ¬ Structural p.mem a) (page : U32) :
    ∃ t, VirtualMemory.putPage page a s = some ((Memory.putPage page a p).1, t) ∧
      Follows (Memory.putPage page a p).2 t := by
  obtain ⟨entry, loaded, present, place⟩ := follows.loadDirectory a
  obtain ⟨t, stored, after⟩ := follows.before.storeEntry has other (page ||| 7)
  rw [PageDirectory.putPage_present has]
  refine ⟨t, ?_, after⟩
  rw [VirtualMemory.putPage, loaded]
  simp only [Option.bind_eq_bind, Option.bind_some, place]
  rw [if_pos (present.mpr has), stored]
  rfl

/-- Without a table, two words are written. -/
theorem Follows.putPage_absent (follows : Follows p s) (absent : ¬ HasTable p.mem (region a))
    (other : ¬ Structural p.mem a) (usable : Usable s (nextFrame p)) (page : U32) :
    ∃ t, VirtualMemory.putPage page a s = some ((Memory.putPage page a p).1, t) ∧
      Follows (Memory.putPage page a p).2 t := by
  obtain ⟨k, inside, frame⟩ := nextFrame_page p
  rw [frame] at usable
  obtain ⟨entry, loaded, present, place⟩ := follows.loadDirectory a
  have first := follows.before
  have taken := first.withMap (afterFrame p).memMap
  have still : Usable { beforeAccess s with memMap := (afterFrame p).memMap } (pageOf k) :=
    ⟨(follows.usable_before usable).direct, (follows.usable_before usable).clear⟩
  obtain ⟨u, directory, second, other', has, new⟩ := taken.enter absent other inside still rfl
  obtain ⟨t, stored, third⟩ := second.storeEntry has other' (page ||| 7)
  rw [new] at stored third
  rw [PageDirectory.putPage_absent absent, getFreePage_fst, frame]
  refine ⟨t, ?_, third⟩
  rw [VirtualMemory.putPage, loaded]
  simp only [Option.bind_eq_bind, Option.bind_some]
  rw [if_neg fun now => absent (present.mp now), onMap_getFreePage first, frame]
  dsimp only
  rw [if_neg (pageOf_ne_zero inside), directory, Option.bind_some, stored]
  rfl

/-- The flags do not matter for which entry of `mem_map` an address belongs to. -/
theorem freePage_congr {v w : U32} (same : SameWord v w) (p : Paging) :
    Memory.freePage w p = Memory.freePage v p := by
  have pages : w.toNat / 0x1000 = v.toNat / 0x1000 := by
    have frames := congrArg BitVec.toNat same.frameOf
    unfold frameOf at frames
    rw [HeapBounds.pageMask_toNat, HeapBounds.pageMask_toNat] at frames
    omega
  have low : lowMem.toNat = 0x100000 := rfl
  have order : w < lowMem ↔ v < lowMem := by
    rw [BitVec.lt_def, BitVec.lt_def, low]
    omega
  unfold Memory.freePage
  by_cases below : v < lowMem
  · rw [if_pos below, if_pos (order.mpr below)]
  · have entries : ((w - lowMem) >>> 12).toNat = ((v - lowMem) >>> 12).toNat := by
      have above : ¬ w < lowMem := fun less => below (order.mp less)
      rw [BitVec.lt_def, low] at below above
      rw [BitVec.toNat_ushiftRight, BitVec.toNat_ushiftRight, BitVec.toNat_sub, BitVec.toNat_sub,
        low, Nat.shiftRight_eq_div_pow, Nat.shiftRight_eq_div_pow]
      omega
    rw [if_neg below, if_neg fun less => below (order.mp less), entries]

theorem Follows.freePage (follows : Follows p s) {v w : U32} (same : SameWord v w) :
    Follows (Memory.freePage v p) (VirtualMemory.freePage w s) := by
  refine ⟨follows.sound.of_mmu rfl, ?_, ?_⟩
  · change (Memory.freePage w ⟨s.memMap, s.mmu.mem⟩).memMap = _
    rw [freePage_congr same, follows.memMap]
    unfold Memory.freePage
    split
    · rfl
    · dsimp only
      split <;> rfl
  · rw [freePage_mem]
    exact follows.mem

theorem Follows.removePage (follows : Follows p s) (other : ¬ Structural p.mem a) :
    ∃ t, VirtualMemory.removePage a s = some t ∧ Follows (Memory.removePage a p) t := by
  obtain ⟨entry, loaded, present, place⟩ := follows.loadDirectory a
  rw [VirtualMemory.removePage, loaded]
  simp only [Option.bind_eq_bind, Option.bind_some, place]
  by_cases has : HasTable p.mem (region a)
  · obtain ⟨found, read, same⟩ := follows.before.loadEntry has
    have second := follows.before.before
    rw [if_pos (present.mpr has), read, removePage_present has, Option.bind_some]
    dsimp only
    rw [same.present]
    by_cases mapped : Present (pageEntry p.mem a)
    · obtain ⟨answer, u, told, alike, third⟩ := second.getPageAddr a
      have mem : (Memory.freePage (Memory.getPageAddr a p) p).mem = p.mem := freePage_mem _ p
      have freed := third.freePage alike
      obtain ⟨t, stored, fourth⟩ := freed.storeEntry (mem.symm ▸ has) (mem.symm ▸ other) 0
      rw [mem] at stored fourth
      refine ⟨t, ?_, ?_⟩
      · refine (if_pos mapped).trans ?_
        rw [told, Option.bind_some]
        exact stored
      · rw [if_pos mapped]
        exact fourth
    · refine ⟨_, if_neg mapped, ?_⟩
      rw [if_neg mapped]
      exact second
  · refine ⟨_, if_neg fun now => has (present.mp now), ?_⟩
    rw [removePage_absent has]
    exact follows.before

/-! ## Runs -/

inductive Call where
  | take
  | put (page address : U32)
  | free (page : U32)
  | remove (address : U32)
  | find (address : U32)
  | fault (error address : U32)
  | hardware (event : Hardware)

/-- What a call answers, 0 when that is nothing, and what it leaves. -/
def exec : Call → Paged → Option (U32 × Paged)
  | .take, s => some (onMap getFreePage s)
  | .put page address, s => VirtualMemory.putPage page address s
  | .free page, s => some (0, VirtualMemory.freePage page s)
  | .remove address, s => (VirtualMemory.removePage address s).map fun t => (0, t)
  | .find address, s => VirtualMemory.getPageAddr address s
  | .fault error address, s => (VirtualMemory.noPage error address s).map fun t => (0, t)
  | .hardware event, s => some (0, { s with mmu := event.run s.mmu })

/-- The same without paging. -/
def physically : Call → Paging → U32 × Paging
  | .take, p => getFreePage p
  | .put page address, p => Memory.putPage page address p
  | .free page, p => (0, Memory.freePage page p)
  | .remove address, p => (0, Memory.removePage address p)
  | .find address, p => (Memory.getPageAddr address p, p)
  | .fault error address, p => (0, Memory.noPage error address p)
  | .hardware _, p => (0, p)

/-- `get_page_addr` answers with an entry, so its flags show. -/
def SameAnswer : Call → U32 → U32 → Prop
  | .find _, v, w => SameWord v w
  | _, v, w => w = v

/-- A page may be put there: not over the tables, and when there is no table yet, the next
frame can be one. -/
def MayPut (s : Paged) (a : U32) : Prop :=
  ¬ Structural s.mmu.mem a ∧
    (¬ HasTable s.mmu.mem (region a) → Usable s (nextFrame s.physical))

def Safe (s : Paged) : Call → Prop
  | .put _ address => MayPut s address
  | .remove address => ¬ Structural s.mmu.mem address
  | .fault _ address => MayPut { s with memMap := (afterFrame s.physical).memMap } address
  | .take | .free _ | .find _ | .hardware _ => True

theorem nextFrame_follows (follows : Follows p s) : nextFrame s.physical = nextFrame p := by
  unfold nextFrame Paged.physical
  dsimp only
  rw [follows.memMap]

theorem Follows.putPage (follows : Follows p s) (may : MayPut s a) (page : U32) :
    ∃ t, VirtualMemory.putPage page a s = some ((Memory.putPage page a p).1, t) ∧
      Follows (Memory.putPage page a p).2 t := by
  obtain ⟨apart, fresh⟩ := may
  have other : ¬ Structural p.mem a := fun now => apart ((structural_same follows.mem).mpr now)
  by_cases has : HasTable p.mem (region a)
  · exact follows.putPage_present has other page
  · have usable := fresh fun now => has ((tables_same follows.mem (region_lt a)).1.mp now)
    rw [nextFrame_follows follows] at usable
    exact follows.putPage_absent has other usable page

/-- A safe call meets no fault, answers as without paging and leaves what it would leave then. -/
theorem Follows.exec (follows : Follows p s) {call : Call} (safe : Safe s call) :
    ∃ answer t, TranslatedTables.exec call s = some (answer, t) ∧
      SameAnswer call (physically call p).1 answer ∧ Follows (physically call p).2 t := by
  have taken := follows.withMap (afterFrame p).memMap
  have map : { p with memMap := (afterFrame p).memMap } = afterFrame p := by
    unfold afterFrame
    rw [getFreePage_eq ⟨p, []⟩]
  rw [map] at taken
  cases call with
  | take =>
    refine ⟨_, _, congrArg some (onMap_getFreePage follows), ?_, taken⟩
    exact (getFreePage_fst p).symm
  | put page address =>
    obtain ⟨t, put, after⟩ := follows.putPage safe page
    exact ⟨_, t, put, rfl, after⟩
  | free page => exact ⟨_, _, rfl, rfl, follows.freePage rfl⟩
  | remove address =>
    obtain ⟨t, removed, after⟩ :=
      follows.removePage fun now => safe ((structural_same follows.mem).mpr now)
    exact ⟨0, t, by rw [TranslatedTables.exec, removed]; rfl, rfl, after⟩
  | find address => exact follows.getPageAddr address
  | fault error address =>
    have may : MayPut { s with memMap := (afterFrame p).memMap } address := by
      have same : (afterFrame s.physical).memMap = (afterFrame p).memMap := by
        have states := (Prod.mk.inj (onMap_getFreePage follows)).2
        exact congrArg Paged.memMap states
      exact same ▸ safe
    obtain ⟨t, put, after⟩ := taken.putPage may (nextFrame p)
    obtain ⟨k, inside, frame⟩ := nextFrame_page p
    have proper : nextFrame p ≠ 0 := frame ▸ pageOf_ne_zero inside
    refine ⟨0, t, ?_, rfl, ?_⟩
    · rw [TranslatedTables.exec, VirtualMemory.noPage, onMap_getFreePage follows]
      dsimp only
      rw [if_pos proper, put]
      rfl
    · rw [physically, noPage_eq]
      exact after
  | hardware event =>
    obtain ⟨cr3, same⟩ := event.run_same s.mmu
    rw [follows.sound.cr3] at same
    refine ⟨0, _, rfl, rfl, ?_, follows.memMap, follows.mem.trans same⟩
    exact follows.sound.of_same cr3 same fun _ direct => direct.hardware event

def step (s : Paged) (call : Call) (t : Paged) : Prop := ∃ answer, exec call s = some (answer, t)

theorem load32_repStosl (eax : U32) (n : Nat) {edi x : U32} (m : Mem)
    (room : edi.toNat + 4 * n < 2 ^ 32) (start : edi.toNat % 4 = 0) (aligned : x.toNat % 4 = 0) :
    load32 (repStosl eax n edi m) x =
      if edi.toNat ≤ x.toNat ∧ x.toNat < edi.toNat + 4 * n then eax else load32 m x := by
  induction n generalizing edi m with
  | zero => exact (if_neg (by omega)).symm
  | succ n ih =>
    have next : (edi + 4).toNat = edi.toNat + 4 := by
      rw [BitVec.toNat_add]
      change (_ + 4) % 2 ^ 32 = _
      omega
    rw [repStosl, ih _ (by omega) (by omega), next, load32_store32_aligned _ _ start aligned]
    by_cases later : edi.toNat + 4 ≤ x.toNat ∧ x.toNat < edi.toNat + 4 + 4 * n
    · rw [if_pos later, if_pos (by omega)]
    · rw [if_neg later]
      by_cases here : x = edi
      · rw [if_pos here, if_pos (by rw [here]; omega)]
      · have apart : x.toNat ≠ edi.toNat := fun same => here (BitVec.eq_of_toNat_eq same)
        rw [if_neg here, if_neg (by omega)]

/-- The loop of `setup_paging` writes behind the directory. -/
theorem fillTables_directory (i left : Nat) (bound : i < mappedPages) {m m' : Mem}
    (filled : fillTables left (slot i) (identity i) m = some m') :
    ∀ d < 1024, dirEntry m' d = dirEntry m d := by
  have behind : ∀ {i : Nat} (value : U32) (m : Mem), i < mappedPages → ∀ d < 1024,
      dirEntry (store32 m (slot i) value) d = dirEntry m d := by
    intro i value m bound d inside
    have place := slot_toNat bound
    have small : i < 2048 := bound
    exact dirEntry_store (by omega) (by omega) inside
  induction i generalizing left m with
  | zero =>
    cases left with
    | zero => cases filled
    | succ left =>
      have last : ¬ (0x1000 : U32).sle (identity 0) := by decide
      unfold fillTables at filled
      dsimp only at filled
      rw [if_neg last] at filled
      rw [← Option.some.inj filled]
      exact behind _ m bound
  | succ i ih =>
    cases left with
    | zero => cases filled
    | succ left =>
      obtain ⟨more, lower, next⟩ := HeapPages.identity_succ bound
      unfold fillTables at filled
      dsimp only at filled
      rw [if_pos more, lower, next] at filled
      intro d inside
      rw [ih left (Nat.lt_of_succ_lt bound) filled d inside]
      exact behind _ m bound d inside

/-- The whole directory. -/
theorem setupPaging_directory {boot m : Mem} (ran : setupPaging boot = some m) :
    ∀ d < 1024, dirEntry m d = if d = 0 then pg0 + 7 else if d = 1 then pg1 + 7 else 0 := by
  have top : pg1 + 4092 = slot 2047 := by decide
  have value : (0x7ff007 : U32) = identity 2047 := by decide
  unfold setupPaging at ran
  dsimp only at ran
  rw [top, value] at ran
  intro d inside
  rw [fillTables_directory 2047 _ (by decide) ran d inside]
  have zero : pgDir = BitVec.ofNat 32 (4 * 0) := rfl
  have one : pgDir + 4 = BitVec.ofNat 32 (4 * 1) := rfl
  rw [one, dirEntry_store_self (by decide) inside, zero, dirEntry_store_self (by decide) inside]
  by_cases second : d = 1
  · rw [if_pos second, if_neg (by omega), if_pos second]
  · rw [if_neg second]
    by_cases first : d = 0
    · rw [if_pos first, if_pos first]
    · rw [if_neg first, if_neg first, if_neg second]
      have place := dirEntry_place inside
      have cleared : load32 (repStosl 0 (1024 * 3) 0 boot) (BitVec.ofNat 32 (4 * d)) = _ :=
        load32_repStosl 0 (1024 * 3) boot (by decide) (by decide) (by omega)
      have within : (0 : U32).toNat ≤ (BitVec.ofNat 32 (4 * d)).toNat ∧
          (BitVec.ofNat 32 (4 * d)).toNat < (0 : U32).toNat + 4 * (1024 * 3) := by
        rw [place]
        change 0 ≤ _ ∧ _ < 0 + _
        omega
      rw [if_pos within] at cleared
      exact cleared

section Booted
variable {boot : Mem} (ran : setupPaging boot = some m)

include ran

/-- A page of the first 8 MiB has the entry that maps it to itself. -/
theorem walk_low (low : a.toNat < 0x800000) : walk 0 m a = some (frameOf a) := by
  obtain ⟨m', ran', directory, entries⟩ := HeapPages.setupPaging_spec boot
  obtain rfl : m = m' := Option.some.inj (ran.symm.trans ran')
  obtain ⟨has, slot⟩ := directory.leads low
  rw [pageDirEntry_eq] at has slot
  have index : pageIndex a < mappedPages := by
    unfold pageIndex mappedPages
    omega
  have value : (identity (pageIndex a)).toNat = pageIndex a * 0x1000 + 7 := by
    have bound : pageIndex a < 2048 := index
    unfold identity
    rw [BitVec.toNat_ofNat]
    omega
  have found : pageEntry m a = identity (pageIndex a) := by
    rw [← entries _ index]
    unfold pageEntry
    change load32 m (pageTableEntry (0xfffff000 &&& load32 m (BitVec.ofNat 32 (4 * region a))) a) = _
    rw [slot]
    rfl
  have present : Present (pageEntry m a) := by
    intro zero
    have bit := congrArg BitVec.toNat zero
    rw [found, BitVec.toNat_and, value] at bit
    change (_ + 7) &&& 1 = 0 at bit
    rw [Nat.and_one_is_mod] at bit
    omega
  have both : HasTable m (region a) ∧ Present (pageEntry m a) := ⟨has, present⟩
  rw [walk_eq, if_pos both, found, Option.some_inj]
  apply BitVec.eq_of_toNat_eq
  unfold frameOf
  rw [HeapBounds.pageMask_toNat, HeapBounds.pageMask_toNat, value]
  unfold pageIndex
  omega

theorem hasTable_booted (inside : d < 1024) : HasTable m d ↔ d < 2 := by
  unfold HasTable
  rw [setupPaging_directory ran d inside]
  by_cases first : d = 0
  · rw [if_pos first]
    exact iff_of_true (by decide) (by omega)
  · by_cases second : d = 1
    · rw [if_neg first, if_pos second]
      exact iff_of_true (by decide) (by omega)
    · rw [if_neg first, if_neg second]
      exact iff_of_false (by decide) (by omega)

end Booted

/-- **The first translation.** After `setup_paging`, whatever the memory held, an address below
8 MiB is translated to itself, and every other one faults. -/
theorem boot_translation (boot : Mem) : ∃ m, setupPaging boot = some m ∧
    ∀ a : U32, walk 0 m a = if a < 0x800000 then some (frameOf a) else none := by
  obtain ⟨m, ran, -⟩ := HeapPages.setupPaging_spec boot
  refine ⟨m, ran, fun a => ?_⟩
  by_cases low : a < 0x800000
  · rw [if_pos low]
    exact walk_low ran low
  · have high : ¬ a.toNat < 0x800000 := low
    have beyond : ¬ region a < 2 := by
      unfold region
      omega
    rw [if_neg low, walk_eq, if_neg fun both => beyond ((hasTable_booted ran (region_lt a)).mp both.1)]

end BlessOS.Guarantees.TranslatedTables
