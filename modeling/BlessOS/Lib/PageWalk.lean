import BlessOS.Lib.ByteMemory
import Mathlib.Logic.Function.Basic

/-!
# Translated memory accesses of a 32-bit x86 processor

With paging on, each address goes through a directory and a table to a frame. The processor may
keep what it found for a page and use it later, whatever the tables hold by then; it may also
forget it at any time; and it marks the entries that it uses as accessed and as dirty. Pages that
are their own frames, in the tables and in all that is kept, are accessed as if there were no
paging, and the marks show nowhere but in the entries.
-/

set_option autoImplicit false

namespace BlessOS.Lib.PageWalk
open BlessOS.Lib.ByteMemory

abbrev Word := BitVec 32

def pageNumber (a : Addr) : Word := a >>> 12

def frameOf (a : Addr) : Word := a &&& 0xfffff000

/-- Where the entries lie that lead to the frame of an address. -/
def directoryPlace (cr3 : Word) (a : Addr) : Addr := frameOf cr3 + 4 * (a >>> 22)

def tablePlace (directory : Word) (a : Addr) : Addr := frameOf directory + 4 * ((a >>> 12) &&& 0x3ff)

def directoryEntry (cr3 : Word) (m : Mem) (a : Addr) : Word := load32 m (directoryPlace cr3 a)

def tableEntry (directory : Word) (m : Mem) (a : Addr) : Word := load32 m (tablePlace directory a)

/-- The frame of the page around an address, when both entries are present. -/
def walk (cr3 : Word) (m : Mem) (a : Addr) : Option Word :=
  let directory := directoryEntry cr3 m a
  if directory &&& 1 = 0 then none
  else if tableEntry directory m a &&& 1 = 0 then none
  else some (frameOf (tableEntry directory m a))

/-- Bit 5 of an entry is the accessed flag, bit 6 the dirty flag. -/
def setFlags (accessed dirty : Bool) (place : Addr) (m : Mem) : Mem :=
  store8 m place
    (load8 m place ||| (if accessed then 0x20 else 0) ||| (if dirty then 0x40 else 0))

/-- The entries that lead to an address are marked, as far as they are present. -/
def mark (directory table dirty : Bool) (cr3 : Word) (a : Addr) (m : Mem) : Mem :=
  let entry := directoryEntry cr3 m a
  if entry &&& 1 = 0 then m
  else
    let m := setFlags directory false (directoryPlace cr3 a) m
    if tableEntry entry m a &&& 1 = 0 then m
    else setFlags table dirty (tablePlace entry a) m

/-- What the processor does by itself. -/
inductive Hardware where
  | keep (a : Addr)
  | forget (a : Addr)
  /-- The accessed flag of the directory's entry, and both flags of the table's. -/
  | mark (a : Addr) (directory table dirty : Bool)

structure Mmu where
  cr3 : Word
  /-- The frames that are kept, by page number. -/
  kept : Word → Option Word
  mem : Mem
  /-- What the processor does by itself in front of each access to come: the marks of the access
  and those of others, and what becomes of the frames that are kept. -/
  ahead : Nat → List Hardware

def Hardware.run : Hardware → Mmu → Mmu
  | .keep a, s => { s with kept := Function.update s.kept (pageNumber a) (walk s.cr3 s.mem a) }
  | .forget a, s => { s with kept := Function.update s.kept (pageNumber a) none }
  | .mark a directory table dirty, s =>
    { s with mem := PageWalk.mark directory table dirty s.cr3 a s.mem }

def runAll (events : List Hardware) (s : Mmu) : Mmu := events.foldl (fun s event => event.run s) s

/-- The processor in front of its next access. -/
def meanwhile (s : Mmu) : Mmu := runAll (s.ahead 0) { s with ahead := fun n => s.ahead (n + 1) }

/-- The frame that is used: the one that is kept, if there is one. -/
def frame (s : Mmu) (a : Addr) : Option Word := (s.kept (pageNumber a)).or (walk s.cr3 s.mem a)

/-- Where an access goes; `none` is a page fault. -/
def translate (s : Mmu) (a : Addr) : Option Addr := (frame s a).map (· + (a &&& 0xfff))

/-- A word is read byte by byte. -/
def loadWord (s : Mmu) (a : Addr) : Option (Word × Mmu) := do
  let s := meanwhile s
  let a0 ← translate s a
  let a1 ← translate s (a + 1)
  let a2 ← translate s (a + 2)
  let a3 ← translate s (a + 3)
  some (load8 s.mem a3 ++ load8 s.mem a2 ++ load8 s.mem a1 ++ load8 s.mem a0, s)

/-- All of its bytes are translated before the first is written. -/
def storeWord (s : Mmu) (a : Addr) (value : Word) : Option Mmu := do
  let s := meanwhile s
  let a0 ← translate s a
  let a1 ← translate s (a + 1)
  let a2 ← translate s (a + 2)
  let a3 ← translate s (a + 3)
  let m := store8 s.mem a0 (value.setWidth 8)
  let m := store8 m a1 ((value >>> 8).setWidth 8)
  let m := store8 m a2 ((value >>> 16).setWidth 8)
  let m := store8 m a3 ((value >>> 24).setWidth 8)
  some { s with mem := m }

/-! ## Entries up to their flags -/

/-- The words are the same but for the accessed and the dirty flag. -/
def SameWord (v w : Word) : Prop := w &&& ~~~0x60 = v &&& ~~~0x60

/-- An entry of the directory, or of a table that the directory leads to, is at this address. -/
def IsEntry (cr3 : Word) (m : Mem) (x : Addr) : Prop :=
  (∃ a, x = directoryPlace cr3 a) ∨
    ∃ a, directoryEntry cr3 m a &&& 1 ≠ 0 ∧ x = tablePlace (directoryEntry cr3 m a) a

/-- Only the flags of present entries differ. -/
def SameButFlags (cr3 : Word) (m m' : Mem) : Prop :=
  ∀ x, m' x = m x ∨ (IsEntry cr3 m x ∧ m x &&& 1 ≠ 0 ∧ m' x &&& ~~~0x60 = m x &&& ~~~0x60)

section Flags
variable {cr3 v w value : Word} {m m' m'' : Mem} {a x : Addr}

theorem SameWord.frameOf (same : SameWord v w) : frameOf w = frameOf v := by
  have outside : ∀ u : Word, PageWalk.frameOf u = (u &&& ~~~0x60) &&& 0xfffff000 := by
    intro u
    rw [BitVec.and_assoc]
    rfl
  rw [outside, outside, same]

theorem SameWord.present (same : SameWord v w) : w &&& 1 = v &&& 1 := by
  have outside : ∀ u : Word, u &&& 1 = (u &&& ~~~0x60) &&& 1 := by
    intro u
    rw [BitVec.and_assoc]
    rfl
  rw [outside, outside v, same]

theorem SameWord.tablePlace (same : SameWord v w) (a : Addr) :
    tablePlace w a = tablePlace v a := by
  rw [PageWalk.tablePlace, PageWalk.tablePlace, same.frameOf]

theorem frameOf_eq (a : Addr) : frameOf a = pageNumber a <<< 12 := by
  have mask : (0xfffff000 : Word) = (BitVec.allOnes 32 >>> 12) <<< 12 := by decide
  unfold frameOf pageNumber
  rw [mask]
  ext i inside
  simp only [BitVec.getElem_and, BitVec.getElem_shiftLeft, BitVec.getElem_ushiftRight,
    BitVec.getLsbD_allOnes]
  grind

theorem entry_aligned (a : Addr) (i : Word) : (frameOf a + 4 * i).toNat % 4 = 0 := by
  have page : (frameOf a).toNat % 4 = 0 := by
    rw [frameOf_eq, BitVec.toNat_shiftLeft, Nat.shiftLeft_eq]
    omega
  have four : (4 : Word).toNat = 4 := rfl
  rw [BitVec.toNat_add, BitVec.toNat_mul, four]
  omega

theorem IsEntry.aligned (entry : IsEntry cr3 m x) : x.toNat % 4 = 0 := by
  rcases entry with ⟨a, rfl⟩ | ⟨a, -, rfl⟩
  · exact entry_aligned _ _
  · exact entry_aligned _ _

theorem SameButFlags.refl (cr3 : Word) (m : Mem) : SameButFlags cr3 m m := fun _ => .inl rfl

/-- The flags are in the first byte of an entry. -/
theorem SameButFlags.word (same : SameButFlags cr3 m m') (aligned : a.toNat % 4 = 0) :
    SameWord (load32 m a) (load32 m' a) := by
  have rest : ∀ k : Addr, 0 < k → k < 4 → m' (a + k) = m (a + k) := by
    intro k positive inside
    rcases same (a + k) with equal | ⟨entry, -, -⟩
    · exact equal
    · have place := entry.aligned
      have bound := a.isLt
      bv_omega
  have first : m' a &&& ~~~0x60 = m a &&& ~~~0x60 := by
    rcases same a with equal | ⟨-, -, flags⟩
    · rw [equal]
    · exact flags
  have bytes : ∀ b3 b2 b1 b0 : Byte, (b3 ++ b2 ++ b1 ++ b0 : Word) &&& ~~~0x60 =
      (b3 ++ b2 ++ b1 ++ (b0 &&& ~~~0x60) : Word) := by
    intro b3 b2 b1 b0
    have mask : (~~~0x60 : Word) = (BitVec.allOnes 8 ++ BitVec.allOnes 8 ++ BitVec.allOnes 8 ++
        (~~~0x60 : Byte) : Word) := by decide
    rw [mask, BitVec.and_append, BitVec.and_append, BitVec.and_append]
    simp only [BitVec.and_allOnes]
  unfold SameWord load32
  rw [bytes, bytes, rest 3 (by decide) (by decide), rest 2 (by decide) (by decide),
    rest 1 (by decide) (by decide), first]

theorem SameButFlags.directory (same : SameButFlags cr3 m m') (a : Addr) :
    SameWord (directoryEntry cr3 m a) (directoryEntry cr3 m' a) :=
  same.word (entry_aligned _ _)

theorem SameButFlags.isEntry (same : SameButFlags cr3 m m') :
    IsEntry cr3 m' x ↔ IsEntry cr3 m x := by
  unfold IsEntry
  refine or_congr Iff.rfl (exists_congr fun a => ?_)
  have entries := same.directory a
  rw [entries.present, entries.tablePlace]

theorem SameButFlags.trans (first : SameButFlags cr3 m m') (second : SameButFlags cr3 m' m'') :
    SameButFlags cr3 m m'' := by
  intro x
  rcases second x with equal | ⟨entry, present, flags⟩
  · rw [equal]
    exact first x
  · right
    rcases first x with equal | ⟨known, before, flags'⟩
    · rw [← equal]
      exact ⟨first.isEntry.mp entry, present, flags⟩
    · exact ⟨known, before, flags.trans flags'⟩

/-- The flags do not matter for where an address leads. -/
theorem SameButFlags.walk (same : SameButFlags cr3 m m') (a : Addr) :
    walk cr3 m' a = walk cr3 m a := by
  have directory := same.directory a
  have table : SameWord (tableEntry (directoryEntry cr3 m a) m a)
      (tableEntry (directoryEntry cr3 m' a) m' a) := by
    unfold tableEntry
    rw [directory.tablePlace]
    exact same.word (entry_aligned _ _)
  unfold PageWalk.walk
  dsimp only
  rw [directory.present, table.present, table.frameOf]

/-- A word that is written over both. -/
theorem SameButFlags.store (same : SameButFlags cr3 m m') (a : Addr) (value : Word)
    (entries : ∀ x, IsEntry cr3 m x → IsEntry cr3 (store32 m a value) x) :
    SameButFlags cr3 (store32 m a value) (store32 m' a value) := by
  intro x
  unfold store32
  split
  · exact .inl rfl
  · exact (same x).imp_right (And.imp_left (entries x))

/-- The present flag is in the first byte too. -/
theorem load32_present (m : Mem) (a : Addr) : load32 m a &&& 1 = 0 ↔ m a &&& 1 = 0 := by
  have low : (load32 m a).getLsbD 0 = (m a).getLsbD 0 := by
    unfold load32
    rw [BitVec.getLsbD_append]
    rfl
  have word : load32 m a &&& 1 = BitVec.setWidth 32 (BitVec.ofBool ((load32 m a).getLsbD 0)) :=
    BitVec.and_one_eq_setWidth_ofBool_getLsbD
  have byte : m a &&& 1 = BitVec.setWidth 8 (BitVec.ofBool ((m a).getLsbD 0)) :=
    BitVec.and_one_eq_setWidth_ofBool_getLsbD
  rw [word, byte, low]
  cases (m a).getLsbD 0 <;> decide

theorem setFlags_same (entry : IsEntry cr3 m a) (present : load32 m a &&& 1 ≠ 0)
    (accessed dirty : Bool) : SameButFlags cr3 m (setFlags accessed dirty a m) := by
  intro x
  unfold setFlags store8 load8
  by_cases here : x = a
  · refine .inr ⟨here ▸ entry, here ▸ fun absent => present ((load32_present m a).mpr absent), ?_⟩
    rw [if_pos here, here]
    have masked : ∀ b f : Byte, f &&& ~~~0x60 = 0 → (b ||| f) &&& ~~~0x60 = b &&& ~~~0x60 := by
      intro b f outside
      rw [BitVec.and_or_distrib_right, outside]
      exact BitVec.or_zero
    cases accessed <;> cases dirty <;> rw [masked _ _ (by decide), masked _ _ (by decide)]
  · exact .inl (if_neg here)

theorem mark_same (directory table dirty : Bool) (cr3 : Word) (a : Addr) (m : Mem) :
    SameButFlags cr3 m (mark directory table dirty cr3 a m) := by
  unfold mark
  dsimp only
  split
  · exact .refl cr3 m
  · next present =>
    have first : SameButFlags cr3 m (setFlags directory false (directoryPlace cr3 a) m) :=
      setFlags_same (.inl ⟨a, rfl⟩) present directory false
    split
    · exact first
    · next found =>
      have entry := first.isEntry.mpr (.inr ⟨a, present, rfl⟩)
      exact first.trans (setFlags_same entry found table dirty)

end Flags

/-! ## Pages that are their own frames -/

variable {s t : Mmu} {a b : Addr} {value : Word}

/-- The tables lead from a page to itself, and nothing else is kept for it. -/
structure Direct (s : Mmu) (a : Addr) : Prop where
  walk : walk s.cr3 s.mem a = some (frameOf a)
  kept : ∀ f, s.kept (pageNumber a) = some f → f = frameOf a

theorem frame_add_offset (a : Addr) : frameOf a + (a &&& 0xfff) = a := by
  have mask : (0xfffff000 : Word) = ~~~0xfff := by decide
  have apart : frameOf a &&& (a &&& 0xfff) = 0 := by
    unfold frameOf
    rw [mask]
    ext i inside
    simp only [BitVec.getElem_and, BitVec.getElem_not]
    grind
  rw [BitVec.add_eq_or_of_and_eq_zero _ _ apart, frameOf, mask]
  ext i inside
  simp only [BitVec.getElem_and, BitVec.getElem_or, BitVec.getElem_not]
  grind

theorem pageNumber_toNat (a : Addr) : (pageNumber a).toNat = a.toNat / 0x1000 := by
  rw [pageNumber, BitVec.toNat_ushiftRight, Nat.shiftRight_eq_div_pow]

/-- A page number tells both entries and the frame. -/
theorem of_samePage (same : pageNumber b = pageNumber a) :
    frameOf b = frameOf a ∧ ∀ cr3 m, walk cr3 m b = walk cr3 m a := by
  have regions : ∀ x : Addr, x >>> 22 = pageNumber x >>> 10 := by
    intro x
    exact BitVec.shiftRight_add x 12 10
  refine ⟨by rw [frameOf_eq, frameOf_eq, same], fun cr3 m => ?_⟩
  have directory : directoryEntry cr3 m b = directoryEntry cr3 m a := by
    rw [directoryEntry, directoryEntry, directoryPlace, directoryPlace, regions, regions, same]
  have entry : ∀ d, tableEntry d m b = tableEntry d m a := by
    intro d
    change load32 m (frameOf d + 4 * (pageNumber b &&& 0x3ff)) = _
    rw [same]
    rfl
  unfold walk
  rw [directory]
  simp only [entry]

theorem Direct.samePage (direct : Direct s a) (same : pageNumber b = pageNumber a) :
    Direct s b := by
  obtain ⟨frames, walks⟩ := of_samePage same
  refine ⟨?_, fun f kept => ?_⟩
  · rw [walks, frames]
    exact direct.walk
  · rw [frames]
    exact direct.kept f (same ▸ kept)

/-- An access to such a page goes where there is no paging. -/
theorem Direct.translate (direct : Direct s a) : PageWalk.translate s a = some a := by
  have frames : frame s a = some (frameOf a) := by
    unfold frame
    cases kept : s.kept (pageNumber a) with
    | none =>
      rw [Option.none_or]
      exact direct.walk
    | some f =>
      rw [Option.some_or, direct.kept f kept]
  rw [PageWalk.translate, frames, Option.map_some, frame_add_offset]

/-- A word that is aligned is in one page. -/
theorem Direct.word (direct : Direct s a) (aligned : a.toNat % 4 = 0) :
    PageWalk.translate s a = some a ∧ PageWalk.translate s (a + 1) = some (a + 1) ∧
      PageWalk.translate s (a + 2) = some (a + 2) ∧
      PageWalk.translate s (a + 3) = some (a + 3) := by
  have near : ∀ k : Addr, k < 4 → pageNumber (a + k) = pageNumber a := by
    intro k inside
    have small : k.toNat < 4 := inside
    have bound := a.isLt
    apply BitVec.eq_of_toNat_eq
    rw [pageNumber_toNat, pageNumber_toNat, BitVec.toNat_add]
    omega
  exact ⟨direct.translate, (direct.samePage (near 1 (by decide))).translate,
    (direct.samePage (near 2 (by decide))).translate,
    (direct.samePage (near 3 (by decide))).translate⟩

theorem store32_bytes (m : Mem) (a : Addr) (value : Word) :
    store8 (store8 (store8 (store8 m a (value.setWidth 8)) (a + 1) ((value >>> 8).setWidth 8))
      (a + 2) ((value >>> 16).setWidth 8)) (a + 3) ((value >>> 24).setWidth 8) =
      store32 m a value := by
  funext x
  unfold store8
  by_cases fourth : x = a + 3
  · rw [if_pos fourth, fourth]
    exact (store32_apply_add m a value 3 (by decide)).symm
  rw [if_neg fourth]
  by_cases third : x = a + 2
  · rw [if_pos third, third]
    exact (store32_apply_add m a value 2 (by decide)).symm
  rw [if_neg third]
  by_cases second : x = a + 1
  · rw [if_pos second, second]
    exact (store32_apply_add m a value 1 (by decide)).symm
  rw [if_neg second]
  by_cases first : x = a
  · have here := store32_apply_add m a value 0 (by decide)
    rw [BitVec.add_zero] at here
    rw [if_pos first, first, here]
    rfl
  · rw [if_neg first, store32_apply_of_outside]
    bv_omega

/-- What the processor keeps of such a page is right, and its marks change nothing. -/
theorem Direct.hardware (direct : Direct s a) (event : Hardware) : Direct (event.run s) a := by
  have kept : ∀ (b : Addr) (found : Option Word),
      (∀ f, pageNumber a = pageNumber b → found = some f → f = frameOf a) →
      ∀ f, Function.update s.kept (pageNumber b) found (pageNumber a) = some f →
        f = frameOf a := by
    intro b found right f kept
    by_cases here : pageNumber a = pageNumber b
    · rw [here, Function.update_self] at kept
      exact right f here kept
    · rw [Function.update_of_ne here] at kept
      exact direct.kept f kept
  cases event with
  | keep b =>
    refine ⟨direct.walk, kept b _ fun f here found => ?_⟩
    rw [← (of_samePage here).2, direct.walk] at found
    exact (Option.some.inj found).symm
  | forget b => exact ⟨direct.walk, kept b none fun f _ found => nomatch found⟩
  | mark b directory table dirty =>
    exact ⟨((mark_same directory table dirty s.cr3 b s.mem).walk a).trans direct.walk, direct.kept⟩

/-- What the processor does by itself leaves the memory but for the flags. -/
theorem Hardware.run_same (event : Hardware) (s : Mmu) :
    (event.run s).cr3 = s.cr3 ∧ SameButFlags s.cr3 s.mem (event.run s).mem := by
  cases event with
  | keep b => exact ⟨rfl, .refl _ _⟩
  | forget b => exact ⟨rfl, .refl _ _⟩
  | mark b directory table dirty => exact ⟨rfl, mark_same directory table dirty s.cr3 b s.mem⟩

theorem runAll_spec (events : List Hardware) (s : Mmu) :
    (runAll events s).cr3 = s.cr3 ∧ SameButFlags s.cr3 s.mem (runAll events s).mem ∧
      ∀ a, Direct s a → Direct (runAll events s) a := by
  induction events generalizing s with
  | nil => exact ⟨rfl, .refl _ _, fun _ direct => direct⟩
  | cons event rest ih =>
    obtain ⟨same, flags⟩ := event.run_same s
    obtain ⟨later, laterFlags, keeps⟩ := ih (event.run s)
    refine ⟨later.trans same, flags.trans (same ▸ laterFlags), fun a direct => ?_⟩
    exact keeps a (direct.hardware event)

theorem meanwhile_same (s : Mmu) :
    (meanwhile s).cr3 = s.cr3 ∧ SameButFlags s.cr3 s.mem (meanwhile s).mem := by
  obtain ⟨cr3, flags, -⟩ := runAll_spec (s.ahead 0) { s with ahead := fun n => s.ahead (n + 1) }
  exact ⟨cr3, flags⟩

theorem Direct.meanwhile (direct : Direct s a) : Direct (PageWalk.meanwhile s) a :=
  (runAll_spec (s.ahead 0) { s with ahead := fun n => s.ahead (n + 1) }).2.2 a
    ⟨direct.walk, direct.kept⟩

theorem Direct.loadWord (direct : Direct s a) (aligned : a.toNat % 4 = 0) :
    PageWalk.loadWord s a = some (load32 (PageWalk.meanwhile s).mem a, PageWalk.meanwhile s) := by
  obtain ⟨first, second, third, fourth⟩ := (direct.meanwhile).word aligned
  rw [PageWalk.loadWord, first, second, third, fourth]
  rfl

theorem Direct.storeWord (direct : Direct s a) (aligned : a.toNat % 4 = 0) (value : Word) :
    PageWalk.storeWord s a value =
      some { PageWalk.meanwhile s with mem := store32 (PageWalk.meanwhile s).mem a value } := by
  obtain ⟨first, second, third, fourth⟩ := (direct.meanwhile).word aligned
  rw [PageWalk.storeWord]
  dsimp only
  rw [first, second, third, fourth, ← store32_bytes]
  rfl

end BlessOS.Lib.PageWalk
