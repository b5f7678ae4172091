import BlessOS.Source.Kheap
import BlessOS.Guarantees.OrderedArrayItems

/-!
# The end of the heap

`expand` and `contract` move the end by whole pages. Their loops end, and all they
do besides is to map the pages that were added and to remove the ones given up.
-/

set_option autoImplicit false

namespace BlessOS.Guarantees.HeapBounds
open BlessOS.Lib.ByteMemory
open BlessOS.Source BlessOS.Source.Kheap

variable {ε : Type} {s : HeapState ε}

/-! ## Rounding to pages -/

theorem and_pageMask (x : U32) : x &&& (0xfffff000 : U32) = (x >>> 12) <<< 12 := by
  have mask : (0xfffff000 : U32) = BitVec.allOnes 32 <<< 12 := by decide
  rw [mask]
  ext i inside
  rw [BitVec.getElem_and, BitVec.getElem_shiftLeft, BitVec.getElem_shiftLeft, BitVec.getElem_allOnes]
  grind

theorem pageMask_toNat (x : U32) : (x &&& 0xfffff000).toNat = x.toNat / 0x1000 * 0x1000 := by
  have small := x.isLt
  rw [and_pageMask, BitVec.toNat_shiftLeft, BitVec.toNat_ushiftRight, Nat.shiftLeft_eq,
    Nat.shiftRight_eq_div_pow]
  omega

/-- What `pageRound` computes when nothing wraps. -/
def roundedLength (bytes : Nat) : Nat :=
  if bytes < 0x1000 then bytes else (bytes / 0x1000 + 1) * 0x1000

theorem pageRound_toNat {x : U32} (noWrap : roundedLength x.toNat < 2 ^ 32) :
    (pageRound x).toNat = roundedLength x.toNat := by
  have masked := pageMask_toNat x
  unfold roundedLength at noWrap ⊢
  unfold pageRound
  split
  · next pages =>
    have large : ¬ x.toNat < 0x1000 := by bv_omega
    rw [if_neg large] at noWrap ⊢
    rw [BitVec.toNat_add, masked]
    change (_ + 0x1000) % 2 ^ 32 = _
    omega
  · next none =>
    have little : x.toNat < 0x1000 := by bv_omega
    rw [if_pos little]

theorem le_roundedLength (bytes : Nat) : bytes ≤ roundedLength bytes := by
  unfold roundedLength
  split <;> omega

theorem roundedLength_le (bytes : Nat) : roundedLength bytes ≤ bytes + 0x1000 := by
  unfold roundedLength
  split <;> omega

theorem roundedLength_mod {bytes : Nat} (large : 0x1000 ≤ bytes) :
    roundedLength bytes % 0x1000 = 0 := by
  unfold roundedLength
  rw [if_neg (by omega)]
  omega

/-- Where the heap ends after it is contracted to a header at this offset. -/
def contractedLength (offset : Nat) : Nat := max 0x8000 (roundedLength offset)

theorem contractedSize_toNat {x : U32} (noWrap : roundedLength x.toNat < 2 ^ 32) :
    (contractedSize x).toNat = contractedLength x.toNat := by
  have rounded := pageRound_toNat noWrap
  unfold contractedSize contractedLength
  split
  · next short =>
    have below : roundedLength x.toNat < 0x8000 := by
      rw [← rounded]
      exact short
    rw [Nat.max_eq_left (Nat.le_of_lt below)]
    rfl
  · next long =>
    have above : 0x8000 ≤ roundedLength x.toNat := by
      rw [← rounded]
      exact BitVec.not_lt.mp long
    rw [Nat.max_eq_right above, rounded]

theorem contractedLength_mod (offset : Nat) : contractedLength offset % 0x1000 = 0 := by
  unfold contractedLength roundedLength
  split <;> omega

theorem lt_contractedLength (offset : Nat) : offset < contractedLength offset := by
  unfold contractedLength roundedLength
  split <;> omega

theorem contractedLength_bound (offset : Nat) : contractedLength offset ≤ max 0x8000 (offset + 0x1000) :=
  max_le_max_left _ (roundedLength_le offset)

/-- A length in pages behind the offset is never exceeded, but for the minimum. -/
theorem contractedLength_le {offset length : Nat} (behind : offset < length)
    (pages : length % 0x1000 = 0) : contractedLength offset ≤ max 0x8000 length := by
  unfold contractedLength roundedLength
  split <;> omega

/-- The new length for a header inside a heap of whole pages. -/
theorem contractedSize_spec {offset length : U32} (inside : offset.toNat < length.toNat)
    (pages : length.toNat % 0x1000 = 0) :
    (contractedSize offset).toNat = contractedLength offset.toNat ∧
      contractedLength offset.toNat % 0x1000 = 0 ∧ 0x8000 ≤ contractedLength offset.toNat ∧
      offset.toNat < contractedLength offset.toNat ∧
      contractedLength offset.toNat ≤ max 0x8000 length.toNat := by
  have small := length.isLt
  have limit := contractedLength_le inside pages
  have rounded : roundedLength offset.toNat ≤ contractedLength offset.toNat := Nat.le_max_right _ _
  exact ⟨contractedSize_toNat (by omega), contractedLength_mod _, Nat.le_max_left _ _,
    lt_contractedLength _, limit⟩

/-! ## The loops -/

@[simp] theorem mapPage_heap (pager : Pager ε) (address : U32) :
    (mapPage pager address s).heap = s.heap := by
  unfold mapPage
  split <;> rfl

/-- Mapping a page changes no byte of another page. -/
theorem mapPage_agreeOff (pager : Pager ε) {address : U32} {lo hi : Nat}
    (low : lo ≤ address.toNat / 0x1000 * 0x1000)
    (high : address.toNat / 0x1000 * 0x1000 + 0x1000 ≤ hi) :
    AgreeOff lo hi s.mem (mapPage pager address s).mem := by
  have page := pageMask_toNat address
  have small := address.isLt
  unfold mapPage
  split
  · refine overlay_agreeOff _ _ (by omega) ?_ ?_ <;> rw [page] <;>
      change _ + 0x1000 ≤ _ <;> omega
  · exact AgreeOff.refl _ _ _

/-- The loop of `expand` ends, and writes nothing below the pages it maps. -/
theorem expandLoop_agreeOff (pager : Pager ε) (newSize : U32) (lo left : Nat) (i : U32)
    (s : HeapState ε) (far : lo + 0xfff ≤ s.heap.startAddress.toNat + i.toNat)
    (space : s.heap.startAddress.toNat + newSize.toNat ≤ 2 ^ 32)
    (step : newSize.toNat + 0x1000 ≤ 2 ^ 32)
    (enough : newSize.toNat ≤ i.toNat + left * 0x1000) :
    ∃ t, expandLoop pager newSize (left + 1) i s = some t ∧ t.heap = s.heap ∧
      AgreeOff lo (2 ^ 32) s.mem t.mem := by
  induction left generalizing i s with
  | zero =>
    have done : ¬ i < newSize := by bv_omega
    exact ⟨s, if_neg done, rfl, AgreeOff.refl _ _ _⟩
  | succ left ih =>
    unfold expandLoop
    split
    · next more =>
      have below : i.toNat < newSize.toNat := more
      have next : (i + 0x1000).toNat = i.toNat + 0x1000 := by bv_omega
      have address : (s.heap.startAddress + i).toNat = s.heap.startAddress.toNat + i.toNat := by
        rw [BitVec.toNat_add]
        omega
      obtain ⟨t, ran, same, agree⟩ := ih (i + 0x1000) (mapPage pager (s.heap.startAddress + i) s)
        (by rw [mapPage_heap]; omega) (by rw [mapPage_heap]; exact space) (by omega)
      rw [mapPage_heap] at same
      refine ⟨t, ran, same, (mapPage_agreeOff pager ?_ ?_).trans agree⟩ <;> rw [address] <;> omega
    · exact ⟨s, rfl, rfl, AgreeOff.refl _ _ _⟩

/-- The rule for the loop of `expand`: what holds of the first page, and after a page
is mapped of the next one, holds at the end, and the loop ends. -/
theorem expandLoop_rule (pager : Pager ε) (newSize : U32) (P : U32 → HeapState ε → Prop)
    (pages : newSize.toNat % 0x1000 = 0)
    (turn : ∀ i s, i.toNat % 0x1000 = 0 → i < newSize → P i s →
      P (i + 0x1000) (mapPage pager (s.heap.startAddress + i) s))
    (left : Nat) (i : U32) (s : HeapState ε) (aligned : i.toNat % 0x1000 = 0)
    (begins : i.toNat ≤ newSize.toNat) (enough : newSize.toNat - i.toNat < left * 0x1000)
    (first : P i s) : ∃ t, expandLoop pager newSize left i s = some t ∧ P newSize t := by
  induction left generalizing i s with
  | zero => omega
  | succ left ih =>
    unfold expandLoop
    split
    · next more =>
      have next : (i + 0x1000).toNat = i.toNat + 0x1000 := by bv_omega
      have below : i.toNat < newSize.toNat := more
      exact ih (i + 0x1000) _ (by omega) (by omega) (by omega) (turn i s aligned more first)
    · next done =>
      have ends : i = newSize := by bv_omega
      exact ⟨s, rfl, ends ▸ first⟩

/-- The rule for the loop of `contract`. -/
theorem contractLoop_rule (pager : Pager ε) (P : HeapState ε → Prop) {newSize : U32} {top : Nat}
    (pages : newSize.toNat % 0x1000 = 0)
    (turn : ∀ i s, i.toNat % 0x1000 = 0 → newSize < i → i.toNat < top → P s →
      P { s with paging := pager.removePage (s.heap.startAddress + i) s.paging })
    (left : Nat) (i : U32) (s : HeapState ε) (aligned : i.toNat % 0x1000 = 0) (most : i.toNat < top)
    (enough : i.toNat - newSize.toNat < left * 0x1000)
    (first : P s) : ∃ t, contractLoop pager newSize left i s = some t ∧ P t := by
  induction left generalizing i s with
  | zero => omega
  | succ left ih =>
    unfold contractLoop
    split
    · next more =>
      have below : newSize.toNat < i.toNat := more
      have next : (i - 0x1000).toNat = i.toNat - 0x1000 := by bv_omega
      exact ih (i - 0x1000) _ (by omega) (by omega) (by omega) (turn i s aligned more most first)
    · exact ⟨s, rfl, first⟩

/-- The loop of `contract` ends and changes the paging alone. -/
theorem contractLoop_total (pager : Pager ε) (newSize : U32) (large : 0x1000 ≤ newSize.toNat)
    (heap : Heap) (left : Nat) (i : U32) (paging : ε)
    (enough : i.toNat ≤ newSize.toNat + left * 0x1000) :
    ∃ paging' : ε, ∀ m : Mem,
      contractLoop pager newSize (left + 1) i { mem := m, paging := paging, heap := heap } =
        some { mem := m, paging := paging', heap := heap } := by
  induction left generalizing i paging with
  | zero =>
    have done : ¬ newSize < i := by bv_omega
    exact ⟨paging, fun m => if_neg done⟩
  | succ left ih =>
    unfold contractLoop
    split
    · next more =>
      have below : newSize.toNat < i.toNat := more
      have next : (i - 0x1000).toNat = i.toNat - 0x1000 := by bv_omega
      exact ih (i - 0x1000) (pager.removePage (heap.startAddress + i) paging) (by omega)
    · exact ⟨paging, fun m => rfl⟩

/-! ## The operations -/

/-- A heap of whole pages. -/
structure PageBounds (heap : Heap) : Prop where
  startPage : heap.startAddress.toNat % 0x1000 = 0
  endPage : heap.endAddress.toNat % 0x1000 = 0
  proper : heap.startAddress.toNat < heap.endAddress.toNat

theorem length_toNat_of_le (proper : s.heap.startAddress.toNat ≤ s.heap.endAddress.toNat) :
    s.length.toNat = s.heap.endAddress.toNat - s.heap.startAddress.toNat := by
  unfold HeapState.length
  bv_omega

/-- How much longer a heap has become. -/
theorem grown_toNat {t : HeapState ε} (start : t.heap.startAddress = s.heap.startAddress)
    (proper : s.heap.startAddress.toNat ≤ s.heap.endAddress.toNat)
    (longer : s.heap.endAddress.toNat ≤ t.heap.endAddress.toNat) :
    s.heap.endAddress.toNat + (t.length - s.length).toNat = t.heap.endAddress.toNat := by
  have old := length_toNat_of_le proper
  have new := length_toNat_of_le (s := t) (by rw [start]; omega)
  rw [start] at new
  bv_omega

theorem length_toNat (bounds : PageBounds s.heap) :
    s.length.toNat = s.heap.endAddress.toNat - s.heap.startAddress.toNat :=
  length_toNat_of_le (Nat.le_of_lt bounds.proper)

theorem length_mod (bounds : PageBounds s.heap) : s.length.toNat % 0x1000 = 0 := by
  obtain ⟨startPage, endPage, proper⟩ := bounds
  have length := length_toNat ⟨startPage, endPage, proper⟩
  omega

theorem length_large (bounds : PageBounds s.heap) : 0x1000 ≤ s.length.toNat := by
  have pages := length_mod bounds
  have length := length_toNat bounds
  have proper := bounds.proper
  omega

/-- The rule for `expand`, with what its loop keeps at each page. -/
theorem expand_rule (pager : Pager ε) (P : U32 → HeapState ε → Prop) (bytes : U32)
    (bounds : PageBounds s.heap) (longer : s.length.toNat ≤ bytes.toNat)
    (space : s.heap.startAddress.toNat + roundedLength bytes.toNat < 2 ^ 32)
    (turn : ∀ i t, i.toNat % 0x1000 = 0 → s.length ≤ i → i < pageRound bytes → t.heap = s.heap →
      P i t → P (i + 0x1000) (mapPage pager (s.heap.startAddress + i) t))
    (first : P s.length s) :
    ∃ t, expand pager bytes s = some (t.setEnd (s.heap.startAddress + pageRound bytes)) ∧
      t.heap = s.heap ∧ P (pageRound bytes) t := by
  have large := length_large bounds
  have rounded := pageRound_toNat (x := bytes) (by omega)
  have pages := roundedLength_mod (Nat.le_trans large longer)
  have covered := le_roundedLength bytes.toNat
  obtain ⟨t, looped, same, last⟩ := expandLoop_rule pager (pageRound bytes)
    (fun i t => t.heap = s.heap ∧ s.length ≤ i ∧ P i t) (by omega)
    (fun i t aligned below ⟨same, behind, held⟩ => by
      have step : i ≤ i + 0x1000 := by
        have roundedMod : (pageRound bytes).toNat % 0x1000 = 0 := by omega
        bv_omega
      refine ⟨by rw [mapPage_heap, same], BitVec.le_trans behind step, ?_⟩
      rw [same]
      exact turn i t aligned behind below same held)
    pageBound s.length s (length_mod bounds) (by omega) (by unfold pageBound; omega)
    ⟨rfl, BitVec.le_refl _, first⟩
  refine ⟨t, ?_, same, last.2⟩
  unfold expand
  dsimp only
  rw [looped]
  change some (t.setEnd (t.heap.startAddress + pageRound bytes)) = _
  rw [same]

/-- The page that the heap ends in, if it begins in the heap, is mapped. -/
def EndMapped (pager : Pager ε) (s : HeapState ε) : Prop :=
  s.heap.endAddress.toNat % 0x1000 = 0 ∨ pager.getPageAddr s.heap.endAddress s.paging ≠ 0

/-- `expand` returns and writes nothing below the old end. -/
theorem expand_spec (pager : Pager ε) (bytes : U32)
    (proper : s.heap.startAddress.toNat ≤ s.heap.endAddress.toNat) (mapped : EndMapped pager s)
    (space : s.heap.startAddress.toNat + roundedLength bytes.toNat < 2 ^ 32) :
    ∃ t : HeapState ε,
      expand pager bytes s = some (t.setEnd (s.heap.startAddress + pageRound bytes)) ∧
      t.heap = s.heap ∧ AgreeOff s.heap.endAddress.toNat (2 ^ 32) s.mem t.mem := by
  have length := length_toNat_of_le proper
  have rounded := pageRound_toNat (x := bytes) (by omega)
  have covered := le_roundedLength bytes.toNat
  have step : roundedLength bytes.toNat + 0x1000 ≤ 2 ^ 32 := by
    have small := bytes.isLt
    unfold roundedLength at space ⊢
    split at space <;> split <;> omega
  have ends : s.heap.startAddress + s.length = s.heap.endAddress := by
    unfold HeapState.length
    bv_omega
  -- the first page may begin in the heap, and is mapped then
  have first : AgreeOff s.heap.endAddress.toNat (2 ^ 32) s.mem
      (mapPage pager s.heap.endAddress s).mem := by
    have small := s.heap.endAddress.isLt
    rcases mapped with aligned | present
    · exact mapPage_agreeOff pager (by omega) (by omega)
    · unfold mapPage
      rw [if_neg present]
      exact AgreeOff.refl _ _ _
  obtain ⟨t, looped, same, agree⟩ : ∃ t, expandLoop pager (pageRound bytes) pageBound s.length s =
      some t ∧ t.heap = s.heap ∧ AgreeOff s.heap.endAddress.toNat (2 ^ 32) s.mem t.mem := by
    have turns : pageBound = (2 ^ 20 - 1 + 1) + 1 := rfl
    rw [turns, expandLoop]
    split
    · next more =>
      have next : (s.length + 0x1000).toNat = s.length.toNat + 0x1000 := by bv_omega
      rw [ends]
      obtain ⟨t, ran, same, agree⟩ := expandLoop_agreeOff pager (pageRound bytes)
        s.heap.endAddress.toNat (2 ^ 20 - 1) (s.length + 0x1000)
        (mapPage pager s.heap.endAddress s) (by rw [mapPage_heap]; omega)
        (by rw [mapPage_heap]; omega) (by omega) (by omega)
      rw [mapPage_heap] at same
      exact ⟨t, ran, same, first.trans agree⟩
    · exact ⟨s, rfl, rfl, AgreeOff.refl _ _ _⟩
  refine ⟨t, ?_, same, agree⟩
  unfold expand
  dsimp only
  rw [looped]
  change some (t.setEnd (t.heap.startAddress + pageRound bytes)) = _
  rw [same]

/-- The heap that `expand` leaves when it is to grow by this many bytes. -/
theorem expand_grows (pager : Pager ε) (size : U32)
    (proper : s.heap.startAddress.toNat ≤ s.heap.endAddress.toNat) (mapped : EndMapped pager s)
    (space : s.heap.startAddress.toNat + roundedLength (s.length.toNat + size.toNat) < 2 ^ 32) :
    ∃ t, expand pager (s.length + size) s = some t ∧
      t.heap = { s.heap with endAddress := t.heap.endAddress } ∧
      t.heap.endAddress.toNat =
        s.heap.startAddress.toNat + roundedLength (s.length.toNat + size.toNat) ∧
      AgreeOff s.heap.endAddress.toNat (2 ^ 32) s.mem t.mem := by
  have covered := le_roundedLength (s.length.toNat + size.toNat)
  have bytes : (s.length + size).toNat = s.length.toNat + size.toNat := by
    rw [BitVec.toNat_add]
    omega
  have rounded := pageRound_toNat (x := s.length + size)
  obtain ⟨t, ran, same, agree⟩ := expand_spec pager (s.length + size) proper mapped
    (by rw [bytes]; exact space)
  refine ⟨_, ran, by unfold HeapState.setEnd; rw [same], ?_, agree⟩
  change (s.heap.startAddress + pageRound (s.length + size)).toNat = _
  rw [BitVec.toNat_add, rounded (by rw [bytes]; omega), bytes]
  exact Nat.mod_eq_of_lt space

theorem contractedSize_ge (offset : U32) : 0x8000 ≤ (contractedSize offset).toNat := by
  unfold contractedSize
  split
  · decide
  · next long => exact BitVec.not_lt.mp long

/-- `contract` returns for every length and changes the paging and the end of the heap alone. -/
theorem contract_total (pager : Pager ε) (offset : U32) (heap : Heap) (paging : ε) :
    ∃ paging' : ε, ∀ m : Mem,
      contract pager offset { mem := m, paging := paging, heap := heap } =
        some (contractedSize offset, { mem := m, paging := paging', heap :=
          { heap with endAddress := heap.startAddress + contractedSize offset } }) := by
  have large := contractedSize_ge offset
  have small := (heap.endAddress - heap.startAddress - 0x1000 : U32).isLt
  obtain ⟨paging', looped⟩ := contractLoop_total pager (contractedSize offset) (by omega)
    heap (2 ^ 20) (heap.endAddress - heap.startAddress - 0x1000) paging (by omega)
  refine ⟨paging', fun m => ?_⟩
  unfold contract
  dsimp only
  change (contractLoop pager (contractedSize offset) (2 ^ 20 + 1)
    (heap.endAddress - heap.startAddress - 0x1000) _).bind _ = _
  rw [looped m]
  rfl

/-- The rule for `contract`, with what its loop keeps at each page. -/
theorem contract_rule (pager : Pager ε) (P : HeapState ε → Prop) (offset : U32)
    (pages : s.length.toNat % 0x1000 = 0) (inside : offset.toNat < s.length.toNat)
    (turn : ∀ i t, i.toNat % 0x1000 = 0 → contractedSize offset < i → i.toNat < s.length.toNat →
      t.heap = s.heap → P t →
        P { t with paging := pager.removePage (s.heap.startAddress + i) t.paging })
    (first : P s) :
    ∃ paging, contract pager offset s = some (contractedSize offset,
        { s with paging := paging }.setEnd (s.heap.startAddress + contractedSize offset)) ∧
      P { s with paging := paging } := by
  obtain ⟨size, sizeMod, -, -, limit⟩ := contractedSize_spec inside pages
  have begins : (s.length - 0x1000).toNat = s.length.toNat - 0x1000 := by bv_omega
  have kept : ∀ i t, i.toNat % 0x1000 = 0 → contractedSize offset < i → i.toNat < s.length.toNat →
      (∃ paging, t = { s with paging := paging }) ∧ P t →
      (∃ paging, { t with paging := pager.removePage (t.heap.startAddress + i) t.paging } =
        { s with paging := paging }) ∧
      P { t with paging := pager.removePage (t.heap.startAddress + i) t.paging } := by
    rintro i t aligned below most ⟨⟨paging, rfl⟩, held⟩
    exact ⟨⟨_, rfl⟩, turn i _ aligned below most rfl held⟩
  obtain ⟨t, looped, ⟨paging, rfl⟩, last⟩ := contractLoop_rule pager _ (by omega) kept
    pageBound (s.length - 0x1000) s (by omega) (by omega) (by unfold pageBound; omega)
    ⟨⟨s.paging, rfl⟩, first⟩
  refine ⟨paging, ?_, last⟩
  unfold contract
  dsimp only
  rw [looped]
  rfl

end BlessOS.Guarantees.HeapBounds
