import BlessOS.Source.Boot
import Mathlib.Data.List.Range
import Mathlib.Data.Set.Finite.Lattice

/-!
# Loading the kernel

The state of the loop is a function of the number of sectors that were loaded: the place on the
disk counts them in tracks of 18 and cylinders of two tracks, the buffer in segments of 128. A
read takes what is left of both, and a read that failed leaves nothing behind but its record.
-/

set_option autoImplicit false

namespace BlessOS.Guarantees.BootLoad
open BlessOS.Source BlessOS.Source.Boot

/-! ## Reads -/

/-- The arguments of a read, as the BIOS takes them: the upper two bits of the cylinder are
those of `cl`. -/
def count (r : Read) : Nat := (low r.ax).toNat
def sector (r : Read) : Nat := (r.cx &&& 0x3f).toNat
def cylinder (r : Read) : Nat := (r.cx >>> 8).toNat + 256 * ((r.cx >>> 6) &&& 0x3).toNat
def headOf (r : Read) : Nat := (r.dx >>> 8).toNat
def drive (r : Read) : Nat := (low r.dx).toNat
def address (r : Read) : Nat := r.es.toNat * 16 + r.bx.toNat

/-- The number of the first sector on a disk of 18 sectors and two heads. -/
def logical (r : Read) : Nat := (cylinder r * 2 + headOf r) * 18 + (sector r - 1)

/-- The sectors of a read and where they go. -/
def placed (r : Read) : List (Nat × Nat) :=
  (List.range (count r)).map fun j => (logical r + j, address r + 512 * j)

/-- The first `n` sectors behind the boot sector, each at its place. -/
def located (n : Nat) : List (Nat × Nat) :=
  (List.range n).map fun k => (k + 1, 0x10000 + 512 * k)

/-- A read of one track of one head of the first drive, into one segment. -/
structure Proper (r : Read) : Prop where
  function : r.ax >>> 8 = 2
  drive : drive r = 0
  head : headOf r < 2
  first : 1 ≤ sector r
  some : 1 ≤ count r
  track : sector r + count r ≤ 19
  segment : r.bx.toNat + 512 * count r ≤ 0x10000

def succeeded (reads : List Read) : List Read := reads.filter fun r => !r.failed

/-! ## Registers -/

section Registers

variable {r : U16} {value : U8}

theorem low_setHigh (r : U16) (value : U8) : low (setHigh r value) = low r :=
  BitVec.setWidth_append_eq_right

theorem setHigh_toNat (r : U16) (value : U8) :
    (setHigh r value).toNat = 256 * value.toNat + r.toNat % 256 := by
  have small : (low r).toNat < 2 ^ 8 := (low r).isLt
  have byte : (low r).toNat = r.toNat % 256 := BitVec.toNat_setWidth 8 r
  unfold setHigh
  rw [BitVec.toNat_append, ← Nat.shiftLeft_add_eq_or_of_lt small, Nat.shiftLeft_eq, byte]
  omega

theorem low_toNat (r : U16) : (low r).toNat = r.toNat % 256 := BitVec.toNat_setWidth 8 r

theorem shiftRight_toNat (r : U16) (k : Nat) : (r >>> k).toNat = r.toNat / 2 ^ k := by
  rw [BitVec.toNat_ushiftRight, Nat.shiftRight_eq_div_pow]

theorem sector_eq (r : Read) : sector r = r.cx.toNat % 64 := by
  have mask : (0x3f : U16).toNat = 2 ^ 6 - 1 := rfl
  rw [sector, BitVec.toNat_and, mask, Nat.and_two_pow_sub_one_eq_mod]

theorem cylinder_eq (r : Read) :
    cylinder r = r.cx.toNat / 256 + 256 * (r.cx.toNat / 64 % 4) := by
  have mask : (0x3 : U16).toNat = 2 ^ 2 - 1 := rfl
  rw [cylinder, BitVec.toNat_and, mask, Nat.and_two_pow_sub_one_eq_mod, shiftRight_toNat,
    shiftRight_toNat]
  rfl

/-- The head goes to `dh`, and `dl` is cleared. -/
theorem head_bits {head : U16} (two : head.toNat < 2) :
    (setLow (setHigh head (low head)) 0 &&& 0x0100) >>> 8 = head ∧
      low (setLow (setHigh head (low head)) 0 &&& 0x0100) = 0 := by
  have cases : head = 0 ∨ head = 1 := by
    obtain zero | one : head.toNat = 0 ∨ head.toNat = 1 := by omega
    · exact .inl (BitVec.eq_of_toNat_eq zero)
    · exact .inr (BitVec.eq_of_toNat_eq one)
  obtain rfl | rfl := cases
  · decide
  · decide

end Registers

/-! ## Reading with retries -/

section Retries

variable {bios : Bios} {s : Loader} {tries N : Nat}

/-- The read that `read_sectors` asks for. -/
def request (s : Loader) (failed : Bool) : Read where
  ax := setHigh s.ax 2
  bx := s.bx
  cx := setHigh (s.sectors + 1) (low s.track)
  dx := setLow (setHigh s.head (low s.head)) 0 &&& 0x0100
  es := s.es
  failed := failed

/-- What a call of the BIOS leaves behind once the registers are popped. -/
def recorded (s : Loader) (carry : Bool) (reads : List Read) (resets : Nat) : Loader :=
  { s with carry := carry, reads := reads, resets := resets }

/-- The registers are on the stack while the BIOS reads. -/
theorem attempt_eq (bios : Bios) (s : Loader) :
    attempt bios s = { answered (bios.read s.reads.length) s with
      reads := s.reads ++ [request s (bios.read s.reads.length).carry]
      stack := s.dx :: s.cx :: s.bx :: s.ax :: s.stack } := by
  unfold attempt int13Read answered push
  dsimp only
  rfl

/-- One try. The registers that the BIOS left are popped, so only the records change. -/
theorem readSectors_step (bios : Bios) (tries : Nat) (s : Loader) :
    readSectors bios (tries + 1) s =
      let carry := (bios.read s.reads.length).carry
      let reads := s.reads ++ [request s carry]
      if carry then
        readSectors bios tries
          (recorded s (bios.reset s.resets).carry reads (s.resets + 1))
      else some (recorded s carry reads s.resets) := by
  rw [readSectors, attempt_eq]
  unfold int13Reset answered popRegisters recorded
  rfl

theorem succeeded_append (reads more : List Read) :
    succeeded (reads ++ more) = succeeded reads ++ succeeded more :=
  List.filter_append reads more

theorem succeeded_failed (s : Loader) : succeeded [request s true] = [] := rfl

/-- The request is repeated until it succeeds. -/
theorem readSectors_spec (later : ∀ k, N ≤ k → (bios.read k).carry = false)
    (enough : N ≤ s.reads.length + tries) :
    ∃ carry reads resets, readSectors bios (tries + 1) s = some (recorded s carry reads resets) ∧
      succeeded reads = succeeded s.reads ++ [request s false] := by
  induction tries generalizing s with
  | zero =>
    have success := later s.reads.length enough
    refine ⟨false, s.reads ++ [request s false], s.resets, ?_, succeeded_append _ _⟩
    rw [readSectors_step, success]
    rfl
  | succ tries ih =>
    rw [readSectors_step]
    cases failed : (bios.read s.reads.length).carry with
    | false =>
      exact ⟨false, s.reads ++ [request s false], s.resets, rfl, succeeded_append _ _⟩
    | true =>
      -- The state before the next try differs in the records only.
      obtain ⟨carry, reads, resets, ran, log⟩ := ih (s := recorded s
        (bios.reset s.resets).carry (s.reads ++ [request s true]) (s.resets + 1)) (by
          change N ≤ (s.reads ++ [request s true]).length + tries
          rw [List.length_append, List.length_singleton]
          omega)
      refine ⟨carry, reads, resets, ran, log.trans ?_⟩
      change succeeded (s.reads ++ [request s true]) ++ [request s false] = _
      rw [succeeded_append, succeeded_failed, List.append_nil]

end Retries

/-! ## The loop -/

section Loop

variable {bios : Bios} {s : Loader} {ax bx cx : U16} {n m : Nat}

/-- What the variables count and where the buffer is, when `n` sectors have been loaded. -/
structure Placed (n : Nat) (s : Loader) : Prop where
  sectors : s.sectors.toNat = (n + 1) % 18
  head : s.head.toNat = (n + 1) / 18 % 2
  track : s.track.toNat = (n + 1) / 36
  es : s.es.toNat = 0x1000 * (1 + n / 128)
  bx : s.bx.toNat = 512 * (n % 128)

/-- The state when `n` sectors have been loaded. -/
structure Loading (n : Nat) (s : Loader) : Prop where
  place : Placed n s
  placed : (succeeded s.reads).flatMap placed = located n
  proper : ∀ r ∈ succeeded s.reads, Proper r

/-- What is left of the track or of the segment, whichever is less. -/
def chunk (n : Nat) : Nat := min (18 - (n + 1) % 18) (128 - n % 128)

theorem chunk_pos (n : Nat) : 0 < chunk n := by
  unfold chunk
  omega

/-- The byte count is clipped where it would reach beyond the segment. -/
theorem calcSectors_spec (place : Placed n s) :
    ∃ ax cx, calcSectors s = { s with ax := ax, cx := cx } ∧ ax.toNat = chunk n := by
  have left : (totalSectors - s.sectors).toNat = 18 - (n + 1) % 18 := by
    have sectors := place.sectors
    unfold totalSectors
    bv_omega
  have bytes : ((totalSectors - s.sectors) <<< 9).toNat = 512 * (18 - (n + 1) % 18) := by
    rw [BitVec.toNat_shiftLeft, left, Nat.shiftLeft_eq]
    omega
  have bx := place.bx
  have clipped : ((0 - s.bx) >>> 9).toNat = (2 ^ 16 - s.bx.toNat) % 2 ^ 16 / 2 ^ 9 := by
    rw [shiftRight_toNat, BitVec.toNat_sub]
    simp
  unfold calcSectors addCarry chunk
  dsimp only
  split
  · next inside =>
    refine ⟨_, _, rfl, ?_⟩
    rw [decide_eq_false_iff_not, bytes, bx] at inside
    omega
  · next beyond =>
    rw [Bool.not_eq_false, decide_eq_true_iff, bytes, bx] at beyond
    split
    · next exactly =>
      refine ⟨_, _, rfl, ?_⟩
      have sum := congrArg BitVec.toNat exactly
      rw [BitVec.toNat_add, bytes, bx] at sum
      have zero : (0 : U16).toNat = 0 := rfl
      omega
    · next more =>
      refine ⟨_, _, rfl, ?_⟩
      rw [clipped, bx]
      omega

/-- The arguments of the read that is asked for. -/
theorem request_arguments (place : Placed n s) (small : n < 1024) (size : ax.toNat = chunk n) :
    count (request { s with ax := ax, cx := cx } false) = chunk n ∧
      sector (request { s with ax := ax, cx := cx } false) = (n + 1) % 18 + 1 ∧
      cylinder (request { s with ax := ax, cx := cx } false) = (n + 1) / 36 ∧
      headOf (request { s with ax := ax, cx := cx } false) = (n + 1) / 18 % 2 ∧
      drive (request { s with ax := ax, cx := cx } false) = 0 := by
  obtain ⟨sectors, head, track, -, -⟩ := place
  have few : chunk n ≤ 18 := by
    unfold chunk
    omega
  have bytes : (setHigh (s.sectors + 1) (low s.track)).toNat =
      256 * ((n + 1) / 36) + ((n + 1) % 18 + 1) := by
    have one : (1 : U16).toNat = 1 := rfl
    rw [setHigh_toNat, low_toNat, BitVec.toNat_add, sectors, track, one]
    omega
  have two : s.head.toNat < 2 := by omega
  obtain ⟨high, dl⟩ := head_bits two
  refine ⟨?_, ?_, ?_, ?_, ?_⟩
  · rw [count, request, low_setHigh, low_toNat, size]
    omega
  · rw [sector_eq, request, bytes]
    omega
  · rw [cylinder_eq, request, bytes]
    omega
  · rw [headOf, request, high, head]
  · rw [drive, request, dl]
    rfl

/-- It is proper, and it reads the sectors that are next in order. -/
theorem request_spec (place : Placed n s) (small : n < 1024) (size : ax.toNat = chunk n) :
    Proper (request { s with ax := ax, cx := cx } false) ∧
      placed (request { s with ax := ax, cx := cx } false) =
        (List.range (chunk n)).map fun j => (n + j + 1, 0x10000 + 512 * (n + j)) := by
  obtain ⟨counted, first, track, head, unit⟩ := request_arguments place small size
  have segment : (request { s with ax := ax, cx := cx } false).bx.toNat = 512 * (n % 128) :=
    place.bx
  have number : logical (request { s with ax := ax, cx := cx } false) = n + 1 := by
    rw [logical, track, head, first]
    omega
  have buffer : address (request { s with ax := ax, cx := cx } false) = 0x10000 + 512 * n := by
    have es : (request { s with ax := ax, cx := cx } false).es.toNat = 0x1000 * (1 + n / 128) :=
      place.es
    rw [address, es, segment]
    omega
  constructor
  · have positive := chunk_pos n
    refine ⟨?_, unit, ?_, ?_, ?_, ?_, ?_⟩
    · apply BitVec.eq_of_toNat_eq
      rw [request, shiftRight_toNat, setHigh_toNat]
      have function : (2 : U8).toNat = 2 ∧ (2 : U16).toNat = 2 := ⟨rfl, rfl⟩
      omega
    · omega
    · omega
    · omega
    · rw [first, counted, chunk]
      omega
    · rw [segment, counted, chunk]
      omega
  · rw [placed, counted, number, buffer]
    exact List.map_congr_left fun j _ => Prod.ext (by omega) (by omega)

/-- The sectors after a read. -/
theorem located_add (n c : Nat) :
    located (n + c) = located n ++
      (List.range c).map fun j => (n + j + 1, 0x10000 + 512 * (n + j)) := by
  rw [located, List.range_add, List.map_append, List.map_map]
  rfl

/-- The variables after a read of a chunk. -/
theorem countSectors_spec (place : Placed n s) (small : n < 1024) (size : s.ax.toNat = chunk n) :
    ∃ ax sectors head track, countSectors s =
        { s with ax := ax, cx := s.ax, sectors := sectors, head := head, track := track } ∧
      sectors.toNat = (n + chunk n + 1) % 18 ∧ head.toNat = (n + chunk n + 1) / 18 % 2 ∧
      track.toNat = (n + chunk n + 1) / 36 := by
  obtain ⟨sectors, head, track, -, -⟩ := place
  have few : chunk n ≤ 18 - (n + 1) % 18 := Nat.min_le_left _ _
  have positive := chunk_pos n
  have sum : (s.ax + s.sectors).toNat = chunk n + (n + 1) % 18 := by
    rw [BitVec.toNat_add, size, sectors]
    omega
  have total : totalSectors.toNat = 18 := rfl
  unfold countSectors
  dsimp only
  by_cases full : s.ax + s.sectors = totalSectors
  · -- The track is done: the other head is next, and after head 1 the next track.
    have whole : chunk n + (n + 1) % 18 = 18 := by rw [← sum, full, total]
    have zero : (0 : U16).toNat = 0 := rfl
    have other : (1 - s.head).toNat = 1 - (n + 1) / 18 % 2 := by
      have one : (1 : U16).toNat = 1 := rfl
      rw [BitVec.toNat_sub, head, one]
      omega
    rw [if_neg (not_not.mpr full)]
    by_cases last : 1 - s.head = 0
    · rw [if_neg (not_not.mpr last)]
      rw [last, zero] at other
      refine ⟨0, 0, 1 - s.head, s.track + 1, rfl, by omega, ?_, ?_⟩
      · rw [last, zero]
        omega
      · have one : (1 : U16).toNat = 1 := rfl
        rw [BitVec.toNat_add, track, one]
        omega
    · rw [if_pos last]
      have more : (1 - s.head).toNat ≠ 0 := fun same => last (BitVec.eq_of_toNat_eq same)
      refine ⟨0, 0, 1 - s.head, s.track, rfl, by omega, ?_, ?_⟩
      · rw [other]
        omega
      · rw [track]
        omega
  · rw [if_pos full]
    have part : chunk n + (n + 1) % 18 ≠ 18 := by
      intro same
      exact full (BitVec.eq_of_toNat_eq (by rw [sum, same, total]))
    refine ⟨s.ax + s.sectors, s.ax + s.sectors, s.head, s.track, rfl, ?_, ?_, ?_⟩
    · rw [sum]
      omega
    · rw [head]
      omega
    · rw [track]
      omega

/-- The buffer after a read of a chunk. -/
theorem moveBuffer_spec (es : s.es.toNat = 0x1000 * (1 + n / 128))
    (bx : s.bx.toNat = 512 * (n % 128)) (small : n < 1024) (size : s.cx.toNat = chunk n) :
    ∃ ax cx es bx, moveBuffer s = { s with ax := ax, cx := cx, es := es, bx := bx } ∧
      es.toNat = 0x1000 * (1 + (n + chunk n) / 128) ∧ bx.toNat = 512 * ((n + chunk n) % 128) := by
  have few : chunk n ≤ 128 - n % 128 := Nat.min_le_right _ _
  have bytes : (s.cx <<< 9).toNat = 512 * chunk n := by
    have track : chunk n ≤ 18 - (n + 1) % 18 := Nat.min_le_left _ _
    rw [BitVec.toNat_shiftLeft, size, Nat.shiftLeft_eq]
    omega
  unfold moveBuffer addCarry
  dsimp only
  split
  · next inside =>
    rw [decide_eq_false_iff_not, bytes, bx] at inside
    refine ⟨s.ax, _, s.es, s.bx + (s.cx <<< 9), rfl, ?_, ?_⟩
    · rw [es]
      omega
    · rw [BitVec.toNat_add, bytes, bx]
      omega
  · next beyond =>
    -- The segment is full, so the offset is back at its start.
    rw [Bool.not_eq_false, decide_eq_true_iff, bytes, bx] at beyond
    refine ⟨s.es + 0x1000, _, s.es + 0x1000, 0, rfl, ?_, ?_⟩
    · have segment : (0x1000 : U16).toNat = 0x1000 := rfl
      rw [BitVec.toNat_add, es, segment]
      omega
    · have zero : (0 : U16).toNat = 0 := rfl
      rw [zero]
      omega

/-- Both together. -/
theorem Placed.step (place : Placed n s) (small : n < 1024) (size : s.ax.toNat = chunk n) :
    Placed (n + chunk n) (moveBuffer (countSectors s)) ∧
      (moveBuffer (countSectors s)).reads = s.reads := by
  obtain ⟨ax, sectors, head, track, counted, hSectors, hHead, hTrack⟩ :=
    countSectors_spec place small size
  rw [counted]
  obtain ⟨ax', cx, es, bx, moved, hEs, hBx⟩ := moveBuffer_spec
    (s := { s with ax := ax, cx := s.ax, sectors := sectors, head := head, track := track })
    place.es place.bx small size
  rw [moved]
  exact ⟨⟨hSectors, hHead, hTrack, hEs, hBx⟩, rfl⟩

variable {N tries turns : Nat} {endSeg : U16}

/-- One turn of the loop. -/
theorem turn_loading (loading : Loading n s) (small : n < 1024)
    (later : ∀ k, N ≤ k → (bios.read k).carry = false) (enough : N < tries) :
    ∃ s', readSectors bios tries (calcSectors s) = some s' ∧
      Loading (n + chunk n) (moveBuffer (countSectors s')) ∧
      (moveBuffer (countSectors s')).reads = s'.reads := by
  obtain ⟨ax, cx, calculated, size⟩ := calcSectors_spec loading.place
  obtain ⟨tries, rfl⟩ := Nat.exists_eq_succ_of_ne_zero (Nat.ne_zero_of_lt enough)
  have more : N ≤ s.reads.length + tries := by omega
  obtain ⟨carry, reads, resets, ran, log⟩ :=
    readSectors_spec (s := { s with ax := ax, cx := cx }) later more
  obtain ⟨proper, next⟩ := request_spec loading.place small size
  rw [calculated]
  refine ⟨_, ran, ?_⟩
  obtain ⟨sectors, head, track, es, bx⟩ := loading.place
  have place : Placed n (recorded { s with ax := ax, cx := cx } carry reads resets) :=
    ⟨sectors, head, track, es, bx⟩
  obtain ⟨after, same⟩ := place.step small size
  refine ⟨⟨after, ?_, ?_⟩, same⟩
  · rw [same]
    change (succeeded reads).flatMap placed = located (n + chunk n)
    rw [log, List.flatMap_append, loading.placed, located_add, List.flatMap_singleton, next]
  · intro r member
    rw [same] at member
    have member : r ∈ succeeded reads := member
    rw [log] at member
    obtain old | new := List.mem_append.mp member
    · exact loading.proper r old
    · rw [List.mem_singleton.mp new]
      exact proper

/-- A property of the log that every turn of the loop keeps. -/
def Kept (bios : Bios) (tries : Nat) (P : Nat → List Read → Prop) : Prop :=
  ∀ n s s', Loading n s → n < 1024 → P n s.reads →
    readSectors bios tries (calcSectors s) = some s' → P (n + chunk n) s'.reads

/-- The loop ends at the segment where the kernel does. -/
theorem repeatRead_loading {P : Nat → List Read → Prop} (kept : Kept bios tries P)
    (loading : Loading n s) (holds : P n s.reads) (inside : n ≤ 128 * m) (fits : m ≤ 8)
    (ends : endSeg.toNat = 0x1000 * (1 + m)) (later : ∀ k, N ≤ k → (bios.read k).carry = false)
    (enough : N < tries) (more : 128 * m - n < turns) :
    ∃ s', repeatRead bios endSeg tries turns s = some s' ∧ Loading (128 * m) s' ∧
      P (128 * m) s'.reads := by
  induction turns generalizing n s with
  | zero => exact absurd more (Nat.not_lt_zero _)
  | succ turns ih =>
    have es := loading.place.es
    -- `ax` is only a copy here.
    have copied : Loading n { s with ax := s.es } := by
      obtain ⟨⟨sectors, head, track, es, bx⟩, placed, proper⟩ := loading
      exact ⟨⟨sectors, head, track, es, bx⟩, placed, proper⟩
    rw [repeatRead]
    dsimp only
    by_cases before : s.es < endSeg
    · have below : s.es.toNat < endSeg.toNat := before
      have small : n < 1024 := by omega
      have positive := chunk_pos n
      have few : chunk n ≤ 128 - n % 128 := Nat.min_le_right _ _
      obtain ⟨s₁, ran, next, reads⟩ := turn_loading copied small later enough
      have after := kept n _ s₁ copied small holds ran
      rw [← reads] at after
      rw [if_pos before, ran, Option.bind_some]
      exact ih next after (by omega) (by omega)
    · have above : endSeg.toNat ≤ s.es.toNat := Nat.not_lt.mp before
      have done : n = 128 * m := by omega
      subst done
      rw [if_neg before]
      exact ⟨_, rfl, copied, holds⟩

end Loop

/-! ## The whole load -/

/-- The variables as the boot sector holds them, before any read. -/
structure Fresh (s : Loader) : Prop where
  sectors : s.sectors = 1
  head : s.head = 0
  track : s.track = 0
  reads : s.reads = []

/-- With a large enough bound the whole load ends, and keeps what every turn keeps. -/
theorem loadSystem_loading {bios : Bios} {sysSize : U16} {s : Loader} {P : Nat → List Read → Prop}
    (kept : ∀ tries, Kept bios tries P) (holds : P 0 [])
    (whole : sysSize.toNat % 0x1000 = 0) (fits : 0x1000 + sysSize.toNat ≤ 0x9000)
    (finite : {k | (bios.read k).carry = true}.Finite) (fresh : Fresh s) :
    ∃ enough, ∀ bound, enough ≤ bound → ∃ s', loadSystem bios sysSize bound s = some s' ∧
      Loading (128 * (sysSize.toNat / 0x1000)) s' ∧
      P (128 * (sysSize.toNat / 0x1000)) s'.reads := by
  obtain ⟨N, last⟩ := finite.bddAbove
  have later : ∀ k, N + 1 ≤ k → (bios.read k).carry = false := by
    intro k beyond
    refine Bool.eq_false_of_not_eq_true fun fails => ?_
    exact absurd (last fails) (Nat.not_le.mpr beyond)
  have ends : (sysSeg + sysSize).toNat = 0x1000 * (1 + sysSize.toNat / 0x1000) := by
    have segment : sysSeg.toNat = 0x1000 := rfl
    rw [BitVec.toNat_add, segment]
    omega
  obtain ⟨sectors, head, track, reads⟩ := fresh
  have begins : Loading 0 { s with ax := sysSeg, es := sysSeg, bx := 0 } := by
    refine ⟨⟨congrArg BitVec.toNat sectors, congrArg BitVec.toNat head,
      congrArg BitVec.toNat track, rfl, rfl⟩, ?_, ?_⟩
    · simp [reads, succeeded, located]
    · simp [reads, succeeded]
  refine ⟨N + 2 + 1024, fun bound large => ?_⟩
  obtain ⟨s', ran, loading, holds'⟩ := repeatRead_loading (kept bound) begins (reads ▸ holds)
    (Nat.zero_le _) (show sysSize.toNat / 0x1000 ≤ 8 by omega) ends later
    (show N + 1 < bound by omega) (show 128 * (sysSize.toNat / 0x1000) - 0 < bound by omega)
  refine ⟨s', ?_, loading, holds'⟩
  have boundary : ¬ (sysSeg &&& 0x0fff ≠ 0) := by decide
  rw [← ran]
  exact if_neg boundary

/-- **load_kernel.** Whatever finitely many reads fail, with a large enough bound the load
comes to an end; the reads that succeeded, in order, cover the sectors from 1 on, each at its
place, and each of them is a proper one. -/
theorem loadSystem_reads {bios : Bios} {sysSize : U16} {s : Loader}
    (whole : sysSize.toNat % 0x1000 = 0) (fits : 0x1000 + sysSize.toNat ≤ 0x9000)
    (finite : {k | (bios.read k).carry = true}.Finite) (fresh : Fresh s) :
    ∃ enough, ∀ bound, enough ≤ bound → ∃ s', loadSystem bios sysSize bound s = some s' ∧
      (succeeded s'.reads).flatMap placed = located (sysSize.toNat * 16 / 512) ∧
      ∀ r ∈ succeeded s'.reads, Proper r := by
  obtain ⟨enough, loads⟩ := loadSystem_loading (P := fun _ _ => True)
    (fun _ _ _ _ _ _ _ _ => trivial) trivial whole fits finite fresh
  refine ⟨enough, fun bound large => ?_⟩
  obtain ⟨s', ran, loading, -⟩ := loads bound large
  have total : sysSize.toNat * 16 / 512 = 128 * (sysSize.toNat / 0x1000) := by omega
  refine ⟨s', ran, ?_, loading.proper⟩
  rw [total]
  exact loading.placed

/-- A drive whose first read fails, and a BIOS that leaves the registers cleared. -/
def slowDrive : Bios where
  read k := { carry := k == 0, ax := 0, bx := 0, cx := 0, dx := 0 }
  reset _ := { carry := true, ax := 0, bx := 0, cx := 0, dx := 0 }

def powerOn : Loader where
  ax := 0
  bx := 0
  cx := 0
  dx := 0
  es := 0
  carry := false
  sectors := 1
  head := 0
  track := 0
  stack := []
  reads := []
  resets := 0

theorem loadSystem_reads_slowDrive :
    ∃ enough, ∀ bound, enough ≤ bound → ∃ s', loadSystem slowDrive 0x7000 bound powerOn = some s' ∧
      (succeeded s'.reads).flatMap placed = located 896 ∧ ∀ r ∈ succeeded s'.reads, Proper r := by
  have finite : {k | (slowDrive.read k).carry = true}.Finite :=
    (Set.finite_singleton 0).subset fun k fails => beq_iff_eq.mp fails
  exact loadSystem_reads (by decide) (by decide) finite ⟨rfl, rfl, rfl, rfl⟩

end BlessOS.Guarantees.BootLoad
