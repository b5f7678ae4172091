import BlessOS.Guarantees.ConsoleText
import BlessOS.Guarantees.MemCopy
import BlessOS.Source.ScrollUp

/-!
# The window of the CRT controller

The controller shows the cells from its start address on. Scrolling the whole screen moves that
address by a line, or to the start of the video memory with the lines copied there; scrolling a
region copies its lines. In each case the picture is the old one with the lines of the region one
up, and the window stays in the video memory.
-/

set_option autoImplicit false

namespace BlessOS.Guarantees.HardwareScroll
open BlessOS.Lib.ByteMemory BlessOS.Lib.BlockCopy BlessOS.Lib.ScrollWindow
open BlessOS.Source BlessOS.Source.Console BlessOS.Source.ScrollUp
open BlessOS.Guarantees.MemCopy BlessOS.Guarantees.ConsoleText

/-! ## The controller -/

/-- The index register and the registers behind it. -/
structure Registers where
  index : U8
  value : U8 → U8

def portWrite (regs : Registers) (w : U8 × U16) : Registers :=
  if w.2 = 0x3d4 then { regs with index := w.1 }
  else if w.2 = 0x3d5 then { regs with value := Function.update regs.value regs.index w.1 }
  else regs

/-- The registers after the writes; they are clear at first. -/
def registers (ports : List (U8 × U16)) : Registers :=
  ports.foldl portWrite ⟨0, fun _ => 0⟩

/-- The start address, in cells. -/
def startAddress (ports : List (U8 × U16)) : U16 :=
  (registers ports).value 0x0c ++ (registers ports).value 0x0d

/-- The cell of a row and a column of the lines from an address on. -/
def cellFrom (base : Addr) (m : Mem) (r c : Nat) : U16 :=
  m (base + BitVec.ofNat 32 (2 * (r * 80 + c) + 1)) ++ m (base + BitVec.ofNat 32 (2 * (r * 80 + c)))

/-- What is on the screen. -/
def picture (s : Crt) : Nat → Nat → U16 :=
  cellFrom (vramStart + 2 * (startAddress s.console.ports).setWidth 32) s.console.mem

/-- The lines of a region one up; its last one is blank. -/
def scrollRegion (top bottom : Nat) (blank : U16) (cells : Nat → Nat → U16) (r c : Nat) : U16 :=
  if top ≤ r ∧ r + 1 < bottom then cells (r + 1) c
  else if r + 1 = bottom then blank
  else cells r c

/-- The window is a number of lines into the video memory, and shown. -/
structure Sound (s : Crt) : Prop where
  origin : ∃ k, s.origin.toNat = 0xB8000 + 160 * k ∧ 160 * k + 4000 ≤ 0x8000
  scrEnd : s.scrEnd = s.origin + 4000
  top : s.top.toNat < s.bottom.toNat
  bottom : s.bottom.toNat ≤ 25
  shown : vramStart + 2 * (startAddress s.console.ports).setWidth 32 = s.origin

/-- Nothing but the video memory has been written to since. -/
def WritesVideo (s t : Console) : Prop :=
  ∀ a ∈ t.written, a ∈ s.written ∨ 0xB8000 ≤ a.toNat ∧ a.toNat < 0xC0000

/-- What scrolling leaves: the region, the cursor's place in the window and the memory that is
not for the screen. -/
structure Kept (s t : Crt) : Prop where
  sound : Sound t
  top : t.top = s.top
  bottom : t.bottom = s.bottom
  cursor : t.position - t.origin = s.position - s.origin
  video : WritesVideo s.console t.console

/-! ## The string instructions -/

section Strings
variable {a x esi edi : Addr} {n : Nat} {s : Console}

theorem pokel_mem (a : Addr) (value : U32) (s : Console) :
    (pokel a value s).mem = store32 s.mem a value := by
  funext x
  have inside : x - a < 4 ↔ x = a ∨ x = a + 1 ∨ x = a + 2 ∨ x = a + 3 := by
    constructor
    · intro small
      bv_omega
    · intro places
      bv_omega
  unfold store32
  change (if x = a + 3 then _ else if x = a + 2 then _ else if x = a + 1 then _ else
    if x = a then _ else s.mem x) = _
  by_cases among : x - a < 4
  · rw [if_pos among]
    rcases inside.mp among with rfl | rfl | rfl | rfl
    · have place : x - x = 0 := by bv_omega
      rw [if_neg (by bv_omega), if_neg (by bv_omega), if_neg (by bv_omega), if_pos rfl, place]
      rfl
    · have place : a + 1 - a = 1 := by bv_omega
      rw [if_neg (by bv_omega), if_neg (by bv_omega), if_pos rfl, place]
      rfl
    · have place : a + 2 - a = 2 := by bv_omega
      rw [if_neg (by bv_omega), if_pos rfl, place]
      rfl
    · have place : a + 3 - a = 3 := by bv_omega
      rw [if_pos rfl, place]
      rfl
  · have other := not_or.mp (mt inside.mpr among)
    have more := not_or.mp other.2
    have last := not_or.mp more.2
    rw [if_neg among, if_neg last.2, if_neg last.1, if_neg more.1, if_neg other.1]

theorem repMovsl_mem (n : Nat) (esi edi : Addr) (s : Console) :
    (repMovsl n esi edi s).mem = moves 4 n esi edi s.mem := by
  induction n generalizing esi edi s with
  | zero => rfl
  | succ n ih =>
    rw [repMovsl, ih, pokel_mem, store32_load32]
    rfl

theorem pokew_mem (a : Addr) (value : U16) (s : Console) :
    (pokew a value s).mem = Mem.store16 s.mem a value := rfl

theorem repStosw_mem (ax : U16) (n : Nat) (edi : Addr) (s : Console) :
    (repStosw ax n edi s).mem = fills 2 (wordBytes ax) n edi s.mem := by
  induction n generalizing edi s with
  | zero => rfl
  | succ n ih =>
    rw [repStosw, ih, pokew_mem, store16_eq_filled]
    rfl

theorem repStosl_mem (eax : U32) (n : Nat) (edi : Addr) (s : Console) :
    (repStosl eax n edi s).mem =
      fills 4 (fun i => (eax >>> (8 * i)).setWidth 8) n edi s.mem := by
  induction n generalizing edi s with
  | zero => rfl
  | succ n ih =>
    rw [repStosl, ih, pokel_mem, store32_eq_filled]
    rfl

/-! The stores are to the elements, and the ports are left alone. -/

theorem pokel_written (value : U32) (member : x ∈ (pokel a value s).written) :
    x ∈ s.written ∨ (x - a).toNat < 4 := by
  have places : x ∈ s.written ++ [a] ++ [a + 1] ++ [a + 2] ++ [a + 3] := member
  simp only [List.mem_append, List.mem_singleton] at places
  rcases places with (((old | rfl) | rfl) | rfl) | rfl
  · exact .inl old
  · exact .inr (by bv_omega)
  · exact .inr (by bv_omega)
  · exact .inr (by bv_omega)
  · exact .inr (by bv_omega)

theorem pokew_written (value : U16) (member : x ∈ (pokew a value s).written) :
    x ∈ s.written ∨ (x - a).toNat < 2 := by
  have places : x ∈ s.written ++ [a] ++ [a + 1] := member
  simp only [List.mem_append, List.mem_singleton] at places
  rcases places with (old | rfl) | rfl
  · exact .inl old
  · exact .inr (by bv_omega)
  · exact .inr (by bv_omega)

theorem repMovsl_written (room : 4 * n ≤ 2 ^ 32) (member : x ∈ (repMovsl n esi edi s).written) :
    x ∈ s.written ∨ (x - edi).toNat < 4 * n := by
  induction n generalizing esi edi s with
  | zero => exact .inl member
  | succ n ih =>
    rcases ih (by omega) member with old | new
    · exact (pokel_written _ old).imp_right fun first => by omega
    · exact .inr (by bv_omega)

theorem repStosw_written (ax : U16) (room : 2 * n ≤ 2 ^ 32)
    (member : x ∈ (repStosw ax n edi s).written) :
    x ∈ s.written ∨ (x - edi).toNat < 2 * n := by
  induction n generalizing edi s with
  | zero => exact .inl member
  | succ n ih =>
    rcases ih (by omega) member with old | new
    · exact (pokew_written _ old).imp_right fun first => by omega
    · exact .inr (by bv_omega)

theorem repStosl_written (eax : U32) (room : 4 * n ≤ 2 ^ 32)
    (member : x ∈ (repStosl eax n edi s).written) :
    x ∈ s.written ∨ (x - edi).toNat < 4 * n := by
  induction n generalizing edi s with
  | zero => exact .inl member
  | succ n ih =>
    rcases ih (by omega) member with old | new
    · exact (pokel_written _ old).imp_right fun first => by omega
    · exact .inr (by bv_omega)

end Strings

/-! ## Lines -/

section Lines
variable {base base' : Addr} {top bottom r c : Nat} {m : Mem}

/-- The memory after the lines of a region were copied one up, to another place or onto
themselves, and the last one was blanked. -/
def movedLines (top bottom : Nat) (base base' : Addr) (m : Mem) : Mem :=
  fills 2 (wordBytes 0x0720) 80 (base' + BitVec.ofNat 32 (160 * (bottom - 1)))
    (copied (160 * (bottom - top - 1)) (base + BitVec.ofNat 32 (160 * (top + 1)))
      (base' + BitVec.ofNat 32 (160 * top)) m)

theorem movedLines_byte (low : base'.toNat ≤ base.toNat) (high : base.toNat + 4160 ≤ 2 ^ 32)
    (some : top < bottom) (last : bottom ≤ 25) {j : Nat} (inside : j < 4000) :
    movedLines top bottom base base' m (base' + BitVec.ofNat 32 j) =
      if 160 * top ≤ j ∧ j < 160 * (bottom - 1) then m (base + BitVec.ofNat 32 (j + 160))
      else if 160 * (bottom - 1) ≤ j ∧ j < 160 * bottom then wordBytes 0x0720 (j % 2)
      else m (base' + BitVec.ofNat 32 j) := by
  have blank : (base' + BitVec.ofNat 32 j -
      (base' + BitVec.ofNat 32 (160 * (bottom - 1)))).toNat < 160 ↔
        160 * (bottom - 1) ≤ j ∧ j < 160 * bottom := by
    constructor
    · intro small
      bv_omega
    · intro bounds
      bv_omega
  have moved : (base' + BitVec.ofNat 32 j - (base' + BitVec.ofNat 32 (160 * top))).toNat <
      160 * (bottom - top - 1) ↔ 160 * top ≤ j ∧ j < 160 * (bottom - 1) := by
    constructor
    · intro small
      bv_omega
    · intro bounds
      bv_omega
  rw [movedLines, fills_apply (by decide) (by decide)]
  by_cases isMoved : 160 * top ≤ j ∧ j < 160 * (bottom - 1)
  · have notBlank : ¬ (160 * (bottom - 1) ≤ j ∧ j < 160 * bottom) := by omega
    rw [if_pos isMoved, if_neg (mt blank.mp notBlank), copied_inside (moved.mpr isMoved)]
    exact congrArg m (by bv_omega)
  · rw [if_neg isMoved]
    by_cases isBlank : 160 * (bottom - 1) ≤ j ∧ j < 160 * bottom
    · have even : (base' + BitVec.ofNat 32 j -
          (base' + BitVec.ofNat 32 (160 * (bottom - 1)))).toNat % 2 = j % 2 := by bv_omega
      rw [if_pos isBlank, if_pos (blank.mpr isBlank), even]
    · rw [if_neg isBlank, if_neg (mt blank.mp isBlank),
        copied_outside (Nat.le_of_not_lt (mt moved.mp isMoved))]

/-- The cells after that. -/
theorem movedLines_cell (low : base'.toNat ≤ base.toNat) (high : base.toNat + 4160 ≤ 2 ^ 32)
    (some : top < bottom) (last : bottom ≤ 25) (hr : r < 25) (hc : c < 80) :
    cellFrom base' (movedLines top bottom base base' m) r c =
      if top ≤ r ∧ r + 1 < bottom then cellFrom base m (r + 1) c
      else if r + 1 = bottom then 0x0720
      else cellFrom base' m r c := by
  unfold cellFrom
  rw [movedLines_byte low high some last (by omega), movedLines_byte low high some last (by omega)]
  by_cases isMoved : top ≤ r ∧ r + 1 < bottom
  · have next : 2 * (r * 80 + c) + 160 = 2 * ((r + 1) * 80 + c) := by omega
    have next' : 2 * (r * 80 + c) + 1 + 160 = 2 * ((r + 1) * 80 + c) + 1 := by omega
    rw [if_pos isMoved, if_pos (by omega), if_pos (by omega), next, next']
  · rw [if_neg isMoved]
    by_cases isBlank : r + 1 = bottom
    · have odd : (2 * (r * 80 + c) + 1) % 2 = 1 := by omega
      have even : 2 * (r * 80 + c) % 2 = 0 := by omega
      rw [if_pos isBlank, if_neg (by omega), if_pos (by omega), if_neg (by omega),
        if_pos (by omega), odd, even]
      rfl
    · rw [if_neg isBlank, if_neg (by omega), if_neg (by omega), if_neg (by omega),
        if_neg (by omega)]

/-- An address behind a place that is not at the end of the memory. -/
theorem place_toNat {a : Addr} {k : Nat} (room : a.toNat + k < 2 ^ 32) :
    (a + BitVec.ofNat 32 k).toNat = a.toNat + k := by
  rw [BitVec.toNat_add, BitVec.toNat_ofNat]
  omega

/-- The instructions that move lines, on any two places. -/
theorem moveLines_mem {first last : U32} (low : base'.toNat ≤ base.toNat)
    (high : base.toNat + 4160 ≤ 2 ^ 32) (some : first.toNat < last.toNat) (bound : last.toNat ≤ 25)
    {edi esi : Addr} (target : edi = base' + BitVec.ofNat 32 (160 * first.toNat))
    (source : esi = base + BitVec.ofNat 32 (160 * (first.toNat + 1))) (s : Console) :
    (moveLines (((last - first - 1) * screenColumns) >>> 1) edi esi s).mem =
        movedLines first.toNat last.toNat base base' s.mem ∧
      ∀ x ∈ (moveLines (((last - first - 1) * screenColumns) >>> 1) edi esi s).written,
        x ∈ s.written ∨ (x - base').toNat < 4000 := by
  have count : (((last - first - 1) * screenColumns) >>> 1).toNat =
      40 * (last.toNat - first.toNat - 1) := by
    have lines : (last - first - 1).toNat = last.toNat - first.toNat - 1 := by bv_omega
    have eighty : screenColumns.toNat = 80 := rfl
    rw [BitVec.toNat_ushiftRight, Nat.shiftRight_eq_div_pow, BitVec.toNat_mul, lines, eighty]
    omega
  have columns : screenColumns.toNat = 80 := rfl
  generalize ((last - first - 1) * screenColumns) >>> 1 = ecx at count ⊢
  have from_place : esi.toNat = base.toNat + 160 * (first.toNat + 1) := by
    rw [source, place_toNat (by omega)]
  have to_place : edi.toNat = base'.toNat + 160 * first.toNat := by
    rw [target, place_toNat (by omega)]
  have last_place : (base' + BitVec.ofNat 32 (160 * (last.toNat - 1))).toNat =
      base'.toNat + 160 * (last.toNat - 1) := place_toNat (by omega)
  have behind : edi + 4 * ecx = base' + BitVec.ofNat 32 (160 * (last.toNat - 1)) := by
    apply BitVec.eq_of_toNat_eq
    have four : (4 : U32).toNat = 4 := rfl
    rw [BitVec.toNat_add, BitVec.toNat_mul, four, count, to_place, last_place]
    omega
  have distance : (esi - edi).toNat + 40 * (last.toNat - first.toNat - 1) * 4 ≤ 2 ^ 32 := by
    have apart : (esi - edi).toNat = base.toNat - base'.toNat + 160 := by
      rw [BitVec.toNat_sub_of_le (BitVec.le_def.mpr (by omega)), from_place, to_place]
      omega
    omega
  have bytes : 40 * (last.toNat - first.toNat - 1) * 4 =
      160 * (last.toNat - first.toNat - 1) := by omega
  constructor
  · rw [moveLines, repStosw_mem, repMovsl_mem, count, columns, behind,
      moves_eq_copied distance (by decide), movedLines, target, source, bytes]
  · intro x member
    rw [moveLines, count, columns, behind] at member
    have distance_of : ∀ {a : Addr} {k n : Nat}, a.toNat = base'.toNat + k → k + n ≤ 4000 →
        (x - a).toNat < n → (x - base').toNat < 4000 := by
      intro a k n place room near
      bv_omega
    rcases repStosw_written 0x0720 (by decide) member with old | blank
    · rcases repMovsl_written (by omega) old with older | moved
      · exact .inl older
      · exact .inr (distance_of to_place (by omega) moved)
    · exact .inr (distance_of last_place (by omega) blank)

end Lines

/-! ## One call -/

section Calls
variable {s : Crt} {r c : Nat}

theorem repMovsl_ports (n : Nat) (esi edi : Addr) (s : Console) :
    (repMovsl n esi edi s).ports = s.ports := by
  induction n generalizing esi edi s with
  | zero => rfl
  | succ n ih => exact ih _ _ _

theorem repStosw_ports (ax : U16) (n : Nat) (edi : Addr) (s : Console) :
    (repStosw ax n edi s).ports = s.ports := by
  induction n generalizing edi s with
  | zero => rfl
  | succ n ih => exact ih _ _

theorem moveLines_ports (ecx : U32) (edi esi : Addr) (s : Console) :
    (moveLines ecx edi esi s).ports = s.ports := by
  rw [moveLines, repStosw_ports, repMovsl_ports]

/-- The line behind the window is blanked. -/
theorem blankLine_cell {base : Addr} {m : Mem} (high : base.toNat + 4160 ≤ 2 ^ 32) (hr : r < 25)
    (hc : c < 80) :
    cellFrom (base + 160)
        (fills 4 (fun i => ((0x07200720 : U32) >>> (8 * i)).setWidth 8) 40
          (base + BitVec.ofNat 32 4000) m) r c =
      if r + 1 < 25 then cellFrom base m (r + 1) c else 0x0720 := by
  have start : base + 160 = base + BitVec.ofNat 32 160 := rfl
  have place : ∀ j, j < 4000 → base + 160 + BitVec.ofNat 32 j - (base + BitVec.ofNat 32 4000) =
      BitVec.ofNat 32 j - BitVec.ofNat 32 3840 := by
    intro j inside
    bv_omega
  have offset : ∀ j, j < 4000 → (BitVec.ofNat 32 j - BitVec.ofNat 32 3840).toNat =
      if j < 3840 then 2 ^ 32 + j - 3840 else j - 3840 := by
    intro j inside
    split <;> bv_omega
  unfold cellFrom
  rw [fills_apply (by decide) (by decide), fills_apply (by decide) (by decide),
    place _ (by omega), place _ (by omega), offset _ (by omega), offset _ (by omega)]
  by_cases more : r + 1 < 25
  · have next : base + 160 + BitVec.ofNat 32 (2 * (r * 80 + c)) =
        base + BitVec.ofNat 32 (2 * ((r + 1) * 80 + c)) := by bv_omega
    have next' : base + 160 + BitVec.ofNat 32 (2 * (r * 80 + c) + 1) =
        base + BitVec.ofNat 32 (2 * ((r + 1) * 80 + c) + 1) := by bv_omega
    rw [if_pos (show 2 * (r * 80 + c) + 1 < 3840 by omega),
      if_pos (show 2 * (r * 80 + c) < 3840 by omega), if_neg (by omega), if_neg (by omega),
      if_pos more, next, next']
  · rw [if_neg (show ¬ 2 * (r * 80 + c) + 1 < 3840 by omega),
      if_neg (show ¬ 2 * (r * 80 + c) < 3840 by omega), if_pos (by omega), if_pos (by omega),
      if_neg more]
    -- The four bytes of the word are two blank cells.
    obtain ⟨i, first⟩ : ∃ i, 2 * (r * 80 + c) = 3840 + 2 * i := ⟨c, by omega⟩
    have low : 3840 + 2 * i - 3840 = 2 * i := Nat.add_sub_cancel_left ..
    have high : 3840 + 2 * i + 1 - 3840 = 2 * i + 1 := by
      rw [Nat.add_assoc, Nat.add_sub_cancel_left]
    rw [first, low, high]
    obtain even | odd : i % 2 = 0 ∨ i % 2 = 1 := by omega
    · have low_byte : 2 * i % 4 = 0 := by omega
      have high_byte : (2 * i + 1) % 4 = 1 := by omega
      rw [low_byte, high_byte]
      rfl
    · have low_byte : 2 * i % 4 = 2 := by omega
      have high_byte : (2 * i + 1) % 4 = 3 := by omega
      rw [low_byte, high_byte]
      rfl

/-- The two bytes that are sent put the window where `origin` is. -/
theorem setOrigin_shown {k : Nat} (origin : s.origin.toNat = 0xB8000 + 160 * k)
    (small : 160 * k < 0x8000) :
    vramStart + 2 * (startAddress (setOrigin s).console.ports).setWidth 32 = s.origin := by
  have start : startAddress (setOrigin s).console.ports =
      ((0xff : U32) &&& ((s.origin - vramStart) >>> 9)).setWidth 8 ++
        ((0xff : U32) &&& ((s.origin - vramStart) >>> 1)).setWidth 8 := by
    simp [startAddress, registers, setOrigin, outb, portWrite, List.foldl_append]
  have offset : (s.origin - vramStart).toNat = 160 * k := by
    unfold vramStart
    bv_omega
  generalize s.origin - vramStart = distance at start offset
  have high : (((0xff : U32) &&& (distance >>> 9)).setWidth 8 : U8).toNat = 160 * k / 512 := by
    have mask : (0xff : U32).toNat = 2 ^ 8 - 1 := rfl
    rw [BitVec.toNat_setWidth, BitVec.toNat_and, mask, Nat.and_comm,
      Nat.and_two_pow_sub_one_eq_mod, BitVec.toNat_ushiftRight, Nat.shiftRight_eq_div_pow, offset]
    omega
  have low : (((0xff : U32) &&& (distance >>> 1)).setWidth 8 : U8).toNat = 160 * k / 2 % 256 := by
    have mask : (0xff : U32).toNat = 2 ^ 8 - 1 := rfl
    rw [BitVec.toNat_setWidth, BitVec.toNat_and, mask, Nat.and_comm,
      Nat.and_two_pow_sub_one_eq_mod, BitVec.toNat_ushiftRight, Nat.shiftRight_eq_div_pow, offset]
    omega
  have cells : (startAddress (setOrigin s).console.ports).toNat = 80 * k := by
    have byte := (((0xff : U32) &&& (distance >>> 1)).setWidth 8 : U8).isLt
    rw [start, BitVec.toNat_append, ← Nat.shiftLeft_add_eq_or_of_lt byte, Nat.shiftLeft_eq, high,
      low]
    omega
  generalize startAddress (setOrigin s).console.ports = address at cells
  unfold vramStart
  bv_omega

/-- The full screen, moved by a line. -/
theorem scrollUp_moves (whole : s.top = 0 ∧ s.bottom = screenLines)
    (room : ¬ s.scrEnd + screenColumns * 2 > vramEnd) :
    scrollUp s = setOrigin { s with
      position := s.position + screenColumns * 2
      origin := s.origin + screenColumns * 2
      scrEnd := s.scrEnd + screenColumns * 2
      console := repStosl 0x07200720 (screenColumns >>> 1).toNat
        (s.scrEnd + screenColumns * (2 : U32) - (screenColumns <<< 1)) s.console } := by
  unfold scrollUp
  rw [if_pos whole]
  dsimp only
  rw [if_neg room]

/-- The full screen, copied to the start. -/
theorem scrollUp_restarts (whole : s.top = 0 ∧ s.bottom = screenLines)
    (full : s.scrEnd + screenColumns * 2 > vramEnd) :
    scrollUp s = setOrigin { s with
      position := s.position + screenColumns * 2 - (s.origin + screenColumns * 2 - vramStart)
      origin := vramStart
      scrEnd := s.scrEnd + screenColumns * 2 - (s.origin + screenColumns * 2 - vramStart)
      console := moveLines (((screenLines - 1) * screenColumns) >>> 1) vramStart
        (s.origin + screenColumns * 2) s.console } := by
  unfold scrollUp
  rw [if_pos whole]
  dsimp only
  rw [if_pos full]

/-- A region, copied in the window. -/
theorem scrollUp_region (part : ¬ (s.top = 0 ∧ s.bottom = screenLines)) :
    scrollUp s = { s with
      console := moveLines (((s.bottom - s.top - 1) * screenColumns) >>> 1)
        (s.origin + (screenColumns <<< 1) * s.top)
        (s.origin + (screenColumns <<< 1) * (s.top + 1)) s.console } := by
  unfold scrollUp
  rw [if_neg part]

theorem picture_eq (sound : Sound s) : picture s = cellFrom s.origin s.console.mem := by
  rw [picture, sound.shown]

/-- What one call leaves; the lines of the picture have moved. -/
structure Scrolled (s t : Crt) : Prop extends Kept s t where
  shows : ∀ r, r < 25 → ∀ c, c < 80 →
    picture t r c = scrollRegion s.top.toNat s.bottom.toNat 0x0720 (picture s) r c

theorem inside_video {a base : Addr} {n : Nat} (low : 0xB8000 ≤ base.toNat)
    (high : base.toNat + n ≤ 0xC0000) (near : (a - base).toNat < n) :
    0xB8000 ≤ a.toNat ∧ a.toNat < 0xC0000 := by
  bv_omega

/-- A new window, sent to the controller. -/
theorem scrolled_setOrigin (sound : Sound s) (whole : s.top = 0 ∧ s.bottom = screenLines)
    {position origin scrEnd : U32} {console : Console} {k : Nat}
    (place : origin.toNat = 0xB8000 + 160 * k) (fits : 160 * k + 4000 ≤ 0x8000)
    (behind : scrEnd = origin + 4000) (cursor : position - origin = s.position - s.origin)
    (video : WritesVideo s.console console)
    (shows : ∀ r, r < 25 → ∀ c, c < 80 → cellFrom origin console.mem r c =
      if r + 1 < 25 then cellFrom s.origin s.console.mem (r + 1) c else 0x0720) :
    Scrolled s (setOrigin { s with
      position := position, origin := origin, scrEnd := scrEnd, console := console }) := by
  have shown := setOrigin_shown (s := { s with
    position := position, origin := origin, scrEnd := scrEnd, console := console }) place (by omega)
  generalize sent : setOrigin { s with
    position := position, origin := origin, scrEnd := scrEnd, console := console } = t at shown ⊢
  have fields : t.origin = origin ∧ t.scrEnd = scrEnd ∧ t.top = s.top ∧ t.bottom = s.bottom ∧
      t.position = position ∧ t.console.mem = console.mem ∧ t.console.written = console.written := by
    rw [← sent]
    exact ⟨rfl, rfl, rfl, rfl, rfl, rfl, rfl⟩
  obtain ⟨origin_eq, scrEnd_eq, top_eq, bottom_eq, position_eq, mem_eq, written_eq⟩ := fields
  constructor
  case toKept =>
    constructor
    case sound =>
      constructor
      case origin => exact ⟨k, by rw [origin_eq, place], fits⟩
      case scrEnd => rw [scrEnd_eq, origin_eq, behind]
      case top =>
        rw [top_eq, bottom_eq]
        exact sound.top
      case bottom =>
        rw [bottom_eq]
        exact sound.bottom
      case shown => rw [shown, origin_eq]
    case top => exact top_eq
    case bottom => exact bottom_eq
    case cursor => rw [position_eq, origin_eq, cursor]
    case video =>
      intro a member
      rw [written_eq] at member
      exact video a member
  case shows =>
    intro r hr c hc
    have lines : s.bottom.toNat = 25 := by
      rw [whole.2]
      rfl
    have first : s.top.toNat = 0 := by
      rw [whole.1]
      rfl
    rw [picture_eq sound, picture, shown, mem_eq, shows r hr c hc, scrollRegion, lines, first]
    by_cases more : r + 1 < 25
    · rw [if_pos more, if_pos ⟨Nat.zero_le r, more⟩]
    · rw [if_neg more, if_neg (mt And.right more), if_pos (by omega)]

theorem scrolled_moves (sound : Sound s) (whole : s.top = 0 ∧ s.bottom = screenLines)
    (room : ¬ s.scrEnd + screenColumns * 2 > vramEnd) : Scrolled s (scrollUp s) := by
  obtain ⟨k, origin, small⟩ := sound.origin
  have line : screenColumns * (2 : U32) = 160 := rfl
  have shifted : screenColumns <<< 1 = (160 : U32) := rfl
  have forty : (screenColumns >>> 1).toNat = 40 := rfl
  have behind : s.origin + 4000 + 160 - 160 = s.origin + BitVec.ofNat 32 4000 := by bv_omega
  rw [scrollUp_moves whole room, line, shifted, forty, sound.scrEnd, behind]
  rw [line, sound.scrEnd] at room
  have fits : 160 * (k + 1) + 4000 ≤ 0x8000 := by
    unfold vramEnd at room
    bv_omega
  have next : (s.origin + 160).toNat = 0xB8000 + 160 * (k + 1) := by bv_omega
  have room_toNat : s.origin.toNat + 4160 ≤ 0xC0000 := by omega
  apply scrolled_setOrigin sound whole next fits
  case behind => bv_omega
  case cursor => bv_omega
  case video =>
    intro a member
    have last : (s.origin + BitVec.ofNat 32 4000).toNat = s.origin.toNat + 4000 :=
      place_toNat (by omega)
    exact (repStosl_written 0x07200720 (by decide) member).imp_right
      (inside_video (by omega) (by omega))
  case shows =>
    intro r hr c hc
    rw [repStosl_mem, blankLine_cell (by omega) hr hc]

theorem scrolled_restarts (sound : Sound s) (whole : s.top = 0 ∧ s.bottom = screenLines)
    (full : s.scrEnd + screenColumns * 2 > vramEnd) : Scrolled s (scrollUp s) := by
  obtain ⟨k, origin, small⟩ := sound.origin
  have line : screenColumns * (2 : U32) = 160 := rfl
  have lines : screenLines - 1 = screenLines - 0 - 1 := rfl
  have start : vramStart.toNat = 0xB8000 := rfl
  have high : s.origin.toNat + 4160 ≤ 2 ^ 32 := by omega
  obtain ⟨mem, written⟩ := @moveLines_mem s.origin vramStart 0 screenLines (by omega) high
    (by decide) (by decide) vramStart (s.origin + 160) rfl rfl s.console
  rw [scrollUp_restarts whole full, line, lines]
  apply scrolled_setOrigin sound whole (k := 0) start (by decide)
  case behind =>
    rw [sound.scrEnd]
    bv_omega
  case cursor => bv_omega
  case video =>
    intro a member
    exact (written a member).imp_right (inside_video (by omega) (by omega))
  case shows =>
    intro r hr c hc
    rw [mem, movedLines_cell (by omega) high (by decide) (by decide) hr hc]
    change (if 0 ≤ r ∧ r + 1 < 25 then _ else if r + 1 = 25 then _ else _) = _
    by_cases more : r + 1 < 25
    · rw [if_pos more, if_pos ⟨Nat.zero_le r, more⟩]
    · rw [if_neg more, if_neg (mt And.right more), if_pos (by omega)]

theorem scrolled_region (sound : Sound s) (part : ¬ (s.top = 0 ∧ s.bottom = screenLines)) :
    Scrolled s (scrollUp s) := by
  obtain ⟨k, origin, small⟩ := sound.origin
  have top := sound.top
  have bottom := sound.bottom
  have line : screenColumns <<< 1 = (160 : U32) := rfl
  have target : s.origin + 160 * s.top = s.origin + BitVec.ofNat 32 (160 * s.top.toNat) := by
    bv_omega
  have source : s.origin + 160 * (s.top + 1) =
      s.origin + BitVec.ofNat 32 (160 * (s.top.toNat + 1)) := by bv_omega
  obtain ⟨mem, written⟩ := @moveLines_mem s.origin s.origin s.top s.bottom (Nat.le_refl _)
    (by omega) top bottom _ _ target source s.console
  rw [scrollUp_region part, line]
  constructor
  case toKept =>
    constructor
    case sound =>
      refine ⟨sound.origin, sound.scrEnd, top, bottom, ?_⟩
      dsimp only
      rw [moveLines_ports]
      exact sound.shown
    case top => rfl
    case bottom => rfl
    case cursor => rfl
    case video =>
      intro a member
      exact (written a member).imp_right (inside_video (by omega) (by omega))
  case shows =>
    intro r hr c hc
    rw [picture_eq sound, picture]
    dsimp only
    rw [moveLines_ports, sound.shown, mem,
      movedLines_cell (Nat.le_refl _) (by omega) top bottom hr hc, scrollRegion]

/-- One call. -/
theorem scrollUp_scrolled (sound : Sound s) : Scrolled s (scrollUp s) := by
  by_cases whole : s.top = 0 ∧ s.bottom = screenLines
  · by_cases full : s.scrEnd + screenColumns * 2 > vramEnd
    · exact scrolled_restarts sound whole full
    · exact scrolled_moves sound whole full
  · exact scrolled_region sound whole

end Calls

/-! ## Runs -/

section Runs
variable {s : Crt}

theorem Kept.trans {t u : Crt} (first : Kept s t) (second : Kept t u) : Kept s u where
  sound := second.sound
  top := second.top.trans first.top
  bottom := second.bottom.trans first.bottom
  cursor := second.cursor.trans first.cursor
  video := by
    intro a member
    rcases second.video a member with old | video
    · exact first.video a old
    · exact .inr video

theorem scrollUp_kept (n : Nat) (sound : Sound s) : Kept s (scrollUp^[n] s) := by
  induction n generalizing s with
  | zero => exact ⟨sound, rfl, rfl, rfl, fun a member => .inl member⟩
  | succ n ih =>
    have step := (scrollUp_scrolled sound).toKept
    rw [Function.iterate_succ_apply]
    exact step.trans (ih step.sound)

/-- The picture after a number of calls. -/
theorem picture_scrollUp (n : Nat) (sound : Sound s) {r c : Nat} (hr : r < 25) (hc : c < 80) :
    picture (scrollUp^[n] s) r c =
      if s.top.toNat ≤ r ∧ r < s.bottom.toNat then
        if r + n < s.bottom.toNat then picture s (r + n) c else 0x0720
      else picture s r c := by
  induction n generalizing s with
  | zero =>
    by_cases inside : s.top.toNat ≤ r ∧ r < s.bottom.toNat
    · rw [if_pos inside, if_pos (show r + 0 < s.bottom.toNat from inside.2)]
      rfl
    · rw [if_neg inside]
      rfl
  | succ n ih =>
    have step := scrollUp_scrolled sound
    have bound := sound.bottom
    rw [Function.iterate_succ_apply, ih step.sound, step.top, step.bottom, ← Nat.add_assoc]
    by_cases inside : s.top.toNat ≤ r ∧ r < s.bottom.toNat
    · rw [if_pos inside, if_pos inside]
      by_cases near : r + n < s.bottom.toNat
      · rw [if_pos near, step.shows _ (by omega) c hc, scrollRegion]
        by_cases more : r + n + 1 < s.bottom.toNat
        · rw [if_pos ⟨by omega, more⟩, if_pos more]
        · rw [if_neg (mt And.right more), if_pos (by omega), if_neg (by omega)]
      · rw [if_neg near, if_neg (by omega)]
    · rw [if_neg inside, if_neg inside, step.shows r hr c hc, scrollRegion]
      have notMoved : ¬ (s.top.toNat ≤ r ∧ r + 1 < s.bottom.toNat) := by omega
      have top := sound.top
      rw [if_neg notMoved, if_neg (by omega)]

/-- The variables as they are initialised put the window at the start. -/
theorem crtInit_sound {console : Console} (fresh : console.ports = []) :
    Sound (crtInit console) where
  origin := ⟨0, rfl, by decide⟩
  scrEnd := rfl
  top := show 0 < 25 by decide
  bottom := show 25 ≤ 25 by decide
  shown := by
    change vramStart + 2 * (startAddress console.ports).setWidth 32 = vramStart
    rw [fresh]
    rfl

/-- **Hardware scroll.** After any number of calls the region is the old one that many lines up,
with blank lines behind it, and the rest of the picture is the old one; the controller shows a
window of the video memory, the cursor keeps its place in it and nothing else is written. -/
theorem scrollUp_runs (sound : Sound s) (n : Nat) :
    Kept s (scrollUp^[n] s) ∧
      ∀ r, r < 25 → ∀ c, c < 80 →
        picture (scrollUp^[n] s) r c =
          if s.top.toNat ≤ r ∧ r < s.bottom.toNat then
            if r + n < s.bottom.toNat then picture s (r + n) c else 0x0720
          else picture s r c := by
  constructor
  · exact scrollUp_kept n sound
  · intro r hr c hc
    exact picture_scrollUp n sound hr hc

theorem scrollUp_runs_boot :
    picture (scrollUp^[200] (crtInit (Console.boot fun _ => 0x41))) 24 3 = 0x0720 :=
  (scrollUp_runs (crtInit_sound rfl) 200).2 24 (by decide) 3 (by decide)

/-- The lines after a number of calls of `scroll_down`. -/
theorem cell_scrollDown_iterate (n : Nat) (t : Console) {r c : Nat} (hr : r < 25) (hc : c < 80) :
    cell (scrollDown^[n] t) r c = if r + n < 25 then cell t (r + n) c else 0x0f20 := by
  induction n generalizing t with
  | zero => rw [if_pos (show r + 0 < 25 from hr)]; rfl
  | succ n ih =>
    rw [Function.iterate_succ_apply, ih, ← Nat.add_assoc]
    by_cases near : r + n < 25
    · rw [if_pos near, cell_scrollDown _ near hc, scroll]
    · rw [if_neg near, if_neg (by omega)]

/-- **Two ways to scroll.** The controller's window shows the characters that copying the screen
gives, however often either is done; only the colour of the blank lines differs. -/
theorem scrollUp_scrollDown {t : Console} (sound : Sound s)
    (whole : s.top = 0 ∧ s.bottom = screenLines)
    (same : ∀ r, r < 25 → ∀ c, c < 80 →
      (picture s r c).setWidth 8 = (cell t r c).setWidth 8) (n : Nat) :
    ∀ r, r < 25 → ∀ c, c < 80 →
      (picture (scrollUp^[n] s) r c).setWidth 8 = (cell (scrollDown^[n] t) r c).setWidth 8 := by
  intro r hr c hc
  have lines : s.bottom.toNat = 25 := by
    rw [whole.2]
    rfl
  have first : s.top.toNat = 0 := by
    rw [whole.1]
    rfl
  rw [picture_scrollUp n sound hr hc, cell_scrollDown_iterate n t hr hc, lines, first,
    if_pos ⟨Nat.zero_le r, hr⟩]
  by_cases near : r + n < 25
  · rw [if_pos near, if_pos near, same _ near c hc]
  · rw [if_neg near, if_neg near]
    rfl

/-- At first both show the start of the video memory. -/
theorem picture_crtInit (m : Mem) (r c : Nat) :
    picture (crtInit (Console.boot m)) r c = cell (Console.boot m) r c := by
  have place : ∀ i, videoAddr i = vramStart + BitVec.ofNat 32 i := by
    intro i
    rw [videoAddr, BitVec.ofInt_add, BitVec.ofInt_natCast]
    rfl
  rw [picture_eq (crtInit_sound rfl), cell_eq, cellFrom, byteAt, byteAt, place, place]
  rfl

theorem scrollUp_scrollDown_boot :
    (picture (scrollUp^[30] (crtInit (Console.boot fun a => a.setWidth 8))) 24 3).setWidth 8 =
      (cell (scrollDown^[30] (Console.boot fun a => a.setWidth 8)) 24 3).setWidth 8 :=
  scrollUp_scrollDown (crtInit_sound rfl) ⟨rfl, rfl⟩
    (fun r _ c _ => congrArg _ (picture_crtInit _ r c)) 30 24 (by decide) 3 (by decide)

end Runs

end BlessOS.Guarantees.HardwareScroll
