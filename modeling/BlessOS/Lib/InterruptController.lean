import Mathlib.Data.Finset.Basic
import Mathlib.Data.Fintype.Basic
import Mathlib.Data.List.MinMax

/-!
# Interrupt controllers

A controller with eight edge-triggered lines: it remembers what was requested, hands the line of
the highest priority to the processor unless one of the same or a higher priority is in service,
and takes a line out of service when it is told so. Two of them are cascaded over line 2 of the
first. The priorities are those of the lines in order, from behind the lowest one on.
-/

set_option autoImplicit false

namespace BlessOS.Lib.InterruptController

abbrev Line := Fin 8

theorem lineNeZero : @NeZero Nat Zero.ofOfNat0 8 := ⟨by decide⟩

attribute [local instance] lineNeZero

/-- The word that a controller expects next at its second port; during the initialisation it
knows if it is `cascaded` and if a fourth word follows. -/
inductive Stage where
  | ready
  | second (cascaded fourth : Bool)
  | third (fourth : Bool)
  | last
deriving DecidableEq

structure Controller where
  base : BitVec 8
  mask : BitVec 8
  requests : Finset Line
  inService : Finset Line
  lowest : Line
  stage : Stage
deriving DecidableEq

namespace Controller

/-- Zero is the highest priority. -/
def rank (c : Controller) (l : Line) : Nat := (l.val + 7 - c.lowest.val) % 8

def highest (c : Controller) (lines : Finset Line) : Option Line :=
  ((List.finRange 8).filter (· ∈ lines)).argmin c.rank

def pending (c : Controller) : Finset Line := c.requests.filter fun l => c.mask.getLsbD l = false

/-- The line that is handed to the processor, once the initialisation is complete. -/
def request (c : Controller) : Option Line :=
  if c.stage = .ready then
    (c.highest c.pending).filter fun l => ∀ k ∈ c.inService, c.rank l < c.rank k
  else none

def raise (l : Line) (c : Controller) : Controller := { c with requests := insert l c.requests }

def acknowledge (l : Line) (c : Controller) : Controller :=
  { c with requests := c.requests.erase l, inService := insert l c.inService }

/-- The line in service with the highest priority is done. -/
def endOfInterrupt (c : Controller) : Controller :=
  match c.highest c.inService with
  | none => c
  | some l => { c with inService := c.inService.erase l }

/-- It also gets the lowest priority. -/
def rotateOnEnd (c : Controller) : Controller :=
  match c.highest c.inService with
  | none => c
  | some l => { c with inService := c.inService.erase l, lowest := l }

/-- The line that a command word names. -/
def named (value : BitVec 8) : Line := ⟨value.toNat % 8, Nat.mod_lt _ (by decide)⟩

/-- A word at the first port: the start of the initialisation, or one of the commands by its
three upper bits. -/
def command (value : BitVec 8) (c : Controller) : Controller :=
  if value.getLsbD 4 then
    { c with
      mask := 0, requests := ∅, inService := ∅, lowest := 7
      stage := .second (!value.getLsbD 1) (value.getLsbD 0) }
  else if value.getLsbD 3 then c
  else if value >>> 5 = 1 then c.endOfInterrupt
  else if value >>> 5 = 3 then { c with inService := c.inService.erase (named value) }
  else if value >>> 5 = 5 then c.rotateOnEnd
  else if value >>> 5 = 6 then { c with lowest := named value }
  else if value >>> 5 = 7 then
    { c with inService := c.inService.erase (named value), lowest := named value }
  else c

def afterThird (fourth : Bool) : Stage := if fourth then .last else .ready

/-- A word at the second port. -/
def data (value : BitVec 8) (c : Controller) : Controller :=
  match c.stage with
  | .ready => { c with mask := value }
  | .second cascaded fourth =>
    { c with
      base := value &&& 0xf8
      stage := if cascaded then .third fourth else afterThird fourth }
  | .third fourth => { c with stage := afterThird fourth }
  | .last => { c with stage := .ready }

end Controller

/-- The second controller requests over line 2 of the first one. -/
structure Cascade where
  master : Controller
  slave : Controller
deriving DecidableEq

namespace Cascade

/-- The first controller with the request of the second. -/
def wired (c : Cascade) : Controller :=
  { c.master with
    requests := if c.slave.request.isSome then insert 2 c.master.requests
      else c.master.requests.erase 2 }

def vector (c : Controller) (l : Line) : BitVec 8 := c.base + BitVec.ofNat 8 l

/-- The processor takes a request: it reads the vector. -/
def accept (c : Cascade) : Option (BitVec 8 × Cascade) :=
  c.wired.request.bind fun l =>
    if l = 2 then
      c.slave.request.map fun k =>
        (vector c.slave k, ⟨c.master.acknowledge 2, c.slave.acknowledge k⟩)
    else some (vector c.master l, { c with master := c.master.acknowledge l })

def outb (value : BitVec 8) (port : BitVec 16) (c : Cascade) : Cascade :=
  if port = 0x20 then { c with master := c.master.command value }
  else if port = 0x21 then { c with master := c.master.data value }
  else if port = 0xa0 then { c with slave := c.slave.command value }
  else if port = 0xa1 then { c with slave := c.slave.data value }
  else c

/-- What is read at the second ports is the mask. -/
def inb (port : BitVec 16) (c : Cascade) : BitVec 8 :=
  if port = 0x21 then c.master.mask else if port = 0xa1 then c.slave.mask else 0

end Cascade

/-! ## Priorities -/

namespace Controller
variable {c : Controller} {lines : Finset Line} {l k : Line}

theorem rank_injective (c : Controller) : Function.Injective c.rank := by
  intro l k same
  unfold rank at same
  have bound := c.lowest.isLt
  apply Fin.ext
  omega

theorem mem_candidates : l ∈ (List.finRange 8).filter (· ∈ lines) ↔ l ∈ lines := by
  rw [List.mem_filter, decide_eq_true_iff]
  exact and_iff_right (List.mem_finRange l)

theorem highest_eq_none : c.highest lines = none ↔ lines = ∅ := by
  rw [highest, List.argmin_eq_none, List.filter_eq_nil_iff, Finset.eq_empty_iff_forall_notMem]
  constructor
  · intro none_listed l
    exact fun member => none_listed l (List.mem_finRange l) (decide_eq_true member)
  · intro empty l _ member
    exact empty l (of_decide_eq_true member)

theorem highest_eq_some :
    c.highest lines = some l ↔ l ∈ lines ∧ ∀ k ∈ lines, c.rank l ≤ c.rank k := by
  constructor
  · intro found
    constructor
    · exact mem_candidates.mp (List.argmin_mem found)
    · intro k member
      exact List.le_of_mem_argmin (mem_candidates.mpr member) found
  · rintro ⟨member, least⟩
    cases found : c.highest lines with
    | none =>
      rw [highest_eq_none.mp found] at member
      exact absurd member (Finset.notMem_empty l)
    | some k =>
      have other := mem_candidates.mp (List.argmin_mem found)
      have le := List.le_of_mem_argmin (mem_candidates.mpr member) found
      exact congrArg some (c.rank_injective (Nat.le_antisymm le (least k other)))

theorem mem_pending : l ∈ c.pending ↔ l ∈ c.requests ∧ c.mask.getLsbD l = false :=
  Finset.mem_filter

theorem request_eq_some : c.request = some l ↔
    c.stage = .ready ∧ (l ∈ c.pending ∧ ∀ k ∈ c.pending, c.rank l ≤ c.rank k) ∧
      ∀ k ∈ c.inService, c.rank l < c.rank k := by
  by_cases ready : c.stage = .ready
  · rw [request, if_pos ready, Option.filter_eq_some_iff, highest_eq_some, decide_eq_true_iff]
    exact (and_iff_right ready).symm
  · rw [request, if_neg ready]
    constructor
    · intro found
      cases found
    · intro found
      exact absurd found.1 ready

/-- Something is handed over as soon as a line is pending that nothing in service blocks. -/
theorem request_isSome (ready : c.stage = .ready) (member : l ∈ c.pending)
    (free : ∀ k ∈ c.inService, c.rank l < c.rank k) : c.request.isSome := by
  cases found : c.highest c.pending with
  | none =>
    rw [highest_eq_none.mp found] at member
    exact absurd member (Finset.notMem_empty l)
  | some k =>
    have first := highest_eq_some.mp found
    have taken : c.request = some k :=
      request_eq_some.mpr
        ⟨ready, first, fun j served => (first.2 l member).trans_lt (free j served)⟩
    rw [taken]
    rfl

theorem request_eq_none (blocked : ∀ l ∈ c.pending, ∃ k ∈ c.inService, c.rank k ≤ c.rank l) :
    c.request = none := by
  apply Option.eq_none_iff_forall_ne_some.mpr
  intro l found
  obtain ⟨-, first, free⟩ := request_eq_some.mp found
  obtain ⟨k, served, le⟩ := blocked l first.1
  exact absurd (free k served) (Nat.not_lt.mpr le)

/-- A line that everything else comes after. -/
theorem highest_insert (free : ∀ k ∈ lines, c.rank l < c.rank k) :
    c.highest (insert l lines) = some l := by
  refine highest_eq_some.mpr ⟨Finset.mem_insert_self l lines, fun k member => ?_⟩
  rcases Finset.mem_insert.mp member with rfl | other
  · exact Nat.le_refl _
  · exact Nat.le_of_lt (free k other)

theorem endOfInterrupt_of_highest (first : c.highest c.inService = some l) :
    c.endOfInterrupt = { c with inService := c.inService.erase l } := by
  rw [endOfInterrupt, first]

/-- The end of an interrupt takes at most one line out of service, and nothing else changes. -/
theorem endOfInterrupt_shape (c : Controller) :
    ∃ lines ⊆ c.inService, c.endOfInterrupt = { c with inService := lines } := by
  cases first : c.highest c.inService with
  | none => exact ⟨c.inService, Finset.Subset.refl _, by rw [endOfInterrupt, first]⟩
  | some l =>
    exact ⟨c.inService.erase l, Finset.erase_subset l c.inService, endOfInterrupt_of_highest first⟩

theorem rotateOnEnd_of_highest (first : c.highest c.inService = some l) :
    c.rotateOnEnd = { c with inService := c.inService.erase l, lowest := l } := by
  rw [rotateOnEnd, first]

end Controller

end BlessOS.Lib.InterruptController
