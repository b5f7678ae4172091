import BlessOS.Guarantees.BootLoad
import BlessOS.Guarantees.MemCopy
import BlessOS.Source.MoveKernel

/-!
# From the disk to address zero

The reads of the loader fill the memory from `0x10000` on, and a read that fails may leave
anything in its buffer: the next one that succeeds has the same buffer. The segments are then
moved down one after another, each to where the one before it was, so the kernel ends up at
address zero as it is on the disk.
-/

set_option autoImplicit false

namespace BlessOS.Guarantees.KernelImage
open BlessOS.Lib.ByteMemory BlessOS.Lib.BlockCopy
open BlessOS.Source BlessOS.Source.Mem BlessOS.Source.Boot BlessOS.Source.MoveKernel
open BlessOS.Guarantees.MemCopy BlessOS.Guarantees.BootLoad

/-! ## Moving words and segments -/

section Moving
variable {s : RealMode} {turns : Nat}

theorem store16_load16 (src dst : Addr) (m : Mem) :
    store16 m dst (load16 m src) = copied 2 src dst m := by
  have high : ((load16 m src) >>> 8).setWidth 8 = m (src + 1) := by
    unfold load16 load8
    generalize m (src + 1) = byte1
    generalize m src = byte0
    grind
  have low : (load16 m src).setWidth 8 = m src := BitVec.setWidth_append_eq_right
  rw [store16_eq_filled]
  funext x
  unfold filled copied wordBytes
  rw [high, low]
  by_cases inside : (x - dst).toNat < 2
  · rw [if_pos inside, if_pos inside]
    rcases Nat.lt_succ_iff_lt_or_eq.mp inside with first | second
    · have zero : x - dst = 0 := by bv_omega
      rw [if_pos (by omega), zero]
      exact congrArg m (by bv_omega)
    · have one : x - dst = 1 := by bv_omega
      rw [if_neg (by omega), one]
  · rw [if_neg inside, if_neg inside]

theorem linear_succ (segment offset : U16) (inside : offset.toNat + 2 < 2 ^ 16) :
    linear segment (offset + 2) = linear segment offset + 2 := by
  have wide : (offset + 2).setWidth 32 = offset.setWidth 32 + 2 := by bv_omega
  rw [linear, linear, wide, BitVec.add_assoc]

/-- The words of one segment, while the offsets stay inside. -/
theorem repMovsw_mem (up : s.df = false) (source : s.si.toNat + 2 * turns ≤ 2 ^ 16)
    (target : s.di.toNat + 2 * turns ≤ 2 ^ 16) :
    (repMovsw turns s).mem = moves 2 turns (linear s.ds s.si) (linear s.es s.di) s.mem := by
  induction turns generalizing s with
  | zero => rfl
  | succ turns ih =>
    have moved : movsw s = { s with
        mem := copied 2 (linear s.ds s.si) (linear s.es s.di) s.mem
        si := s.si + 2
        di := s.di + 2 } := by
      simp only [movsw, up, store16_load16]
      rfl
    rw [repMovsw, moved, moves]
    cases turns with
    | zero => rfl
    | succ turns =>
      have si : (s.si + 2).toNat = s.si.toNat + 2 := by bv_omega
      have di : (s.di + 2).toNat = s.di.toNat + 2 := by bv_omega
      have rest := @ih { s with
        mem := copied 2 (linear s.ds s.si) (linear s.es s.di) s.mem
        si := s.si + 2
        di := s.di + 2 } up (by dsimp only; omega) (by dsimp only; omega)
      rw [rest]
      dsimp only
      rw [linear_succ _ _ (by omega), linear_succ _ _ (by omega)]
      rfl

/-- The registers that tell where the next segment is. -/
theorem repMovsw_registers (turns : Nat) (s : RealMode) :
    (repMovsw turns s).ax = s.ax ∧ (repMovsw turns s).df = s.df := by
  induction turns generalizing s with
  | zero => exact ⟨rfl, rfl⟩
  | succ turns ih => exact ih (movsw s)

/-- Where a segment starts. -/
theorem linear_segment {segment : U16} {k : Nat} (at_k : segment.toNat = 0x1000 * k) :
    linear segment 0 = BitVec.ofNat 32 (0x10000 * k) := by
  apply BitVec.eq_of_toNat_eq
  have wide : (segment.setWidth 32).toNat = 0x1000 * k := by
    have bound := segment.isLt
    rw [BitVec.toNat_setWidth, at_k]
    omega
  have sixteen : (16 : Addr).toNat = 16 := rfl
  have start : linear segment 0 = 16 * segment.setWidth 32 := BitVec.add_zero _
  rw [start, BitVec.toNat_mul, wide, sixteen, BitVec.toNat_ofNat]
  congr 1
  omega

/-- The registers in front of `rep movsw`. -/
def ready (s : RealMode) : RealMode := { s with
  es := s.ax
  ax := s.ax + 0x1000
  ds := s.ax + 0x1000
  si := 0
  di := 0
  cx := 0x8000 }

theorem ready_df (s : RealMode) : (ready s).df = s.df := by
  unfold ready
  dsimp only

theorem ready_mem (s : RealMode) : (ready s).mem = s.mem := by
  unfold ready
  dsimp only

theorem moveSegments_last (turns : Nat) (s : RealMode) (last : s.ax + 0x1000 = 0x9000) :
    ∃ t, moveSegments (turns + 1) s = some t ∧ t.mem = s.mem := by
  refine ⟨{ s with es := s.ax, ax := s.ax + 0x1000 }, ?_, rfl⟩
  unfold moveSegments
  dsimp only
  rw [if_pos last]

/-- The number of words is kept a variable; only its double matters. -/
theorem moveSegments_next (turns : Nat) (s : RealMode) (more : s.ax + 0x1000 ≠ 0x9000) :
    ∃ words, words * 2 = 0x10000 ∧
      moveSegments (turns + 1) s = moveSegments turns (repMovsw words (ready s)) := by
  refine ⟨(0x8000 : U16).toNat, rfl, ?_⟩
  unfold ready
  rw [moveSegments]
  dsimp only
  rw [if_neg more]

/-- One segment is moved as a whole. -/
theorem repMovsw_segment {words k : Nat} (full : words * 2 = 0x10000)
    (at_k : s.ax.toNat = 0x1000 * k) (next : (s.ax + 0x1000).toNat = 0x1000 * (k + 1))
    (up : s.df = false) :
    (repMovsw words (ready s)).mem = copied 0x10000
      (BitVec.ofNat 32 (0x10000 * (k + 1))) (BitVec.ofNat 32 (0x10000 * k)) s.mem := by
  have zero : (0 : U16).toNat = 0 := rfl
  have segment := @repMovsw_mem (ready s) words ((ready_df s).trans up) (by unfold ready; dsimp only; omega)
    (by unfold ready; dsimp only; omega)
  have source : linear (ready s).ds (ready s).si = BitVec.ofNat 32 (0x10000 * (k + 1)) :=
    linear_segment next
  have target : linear (ready s).es (ready s).di = BitVec.ofNat 32 (0x10000 * k) :=
    linear_segment at_k
  have apart : BitVec.ofNat 32 (0x10000 * (k + 1)) - BitVec.ofNat 32 (0x10000 * k) =
      BitVec.ofNat 32 0x10000 := by
    bv_omega
  rw [segment, source, target, moves_eq_copied (by rw [apart, full]; simp) (by decide), full,
    ready_mem]

/-- With `n` segments to go, each one is moved as a whole. -/
theorem moveSegments_mem {n k : Nat} (eight : k + n = 8) (enough : n < turns)
    (at_k : s.ax.toNat = 0x1000 * k) (up : s.df = false) :
    ∃ t, moveSegments turns s = some t ∧
      t.mem = moves 0x10000 n (BitVec.ofNat 32 (0x10000 * (k + 1)))
        (BitVec.ofNat 32 (0x10000 * k)) s.mem := by
  induction n generalizing k s turns with
  | zero =>
    obtain ⟨turns, rfl⟩ := Nat.exists_eq_succ_of_ne_zero (Nat.ne_zero_of_lt enough)
    exact moveSegments_last turns s (by bv_omega)
  | succ n ih =>
    obtain ⟨turns, rfl⟩ := Nat.exists_eq_succ_of_ne_zero (Nat.ne_zero_of_lt enough)
    have next : (s.ax + 0x1000).toNat = 0x1000 * (k + 1) := by bv_omega
    have more : s.ax + 0x1000 ≠ 0x9000 := by bv_omega
    obtain ⟨words, full, step⟩ := moveSegments_next turns s more
    obtain ⟨ax, df⟩ := repMovsw_registers words (ready s)
    obtain ⟨t, ran, mem⟩ := ih (s := repMovsw words (ready s)) (k := k + 1) (by omega)
      (Nat.lt_of_succ_lt_succ enough) (by rw [ax]; exact next)
      (df.trans ((ready_df s).trans up))
    refine ⟨t, step.trans ran, ?_⟩
    rw [mem, repMovsw_segment full at_k next up, moves, ← BitVec.ofNat_add, ← BitVec.ofNat_add]
    rfl

/-- The whole of `move_kernel`. -/
theorem moveKernel_mem (s : RealMode) :
    ∃ t, moveKernel s = some t ∧ t.mem = copied 0x80000 0x10000 0 s.mem := by
  obtain ⟨t, ran, mem⟩ := @moveSegments_mem { s with ax := 0x0000, df := false } segmentBound 8 0
    rfl (by decide) rfl rfl
  refine ⟨t, ran, ?_⟩
  rw [mem]
  exact moves_eq_copied (by simp) (by decide)

/-- The boot sector goes to its new segment, when the BIOS left the direction flag clear. -/
theorem moveBoot_mem (up : s.df = false) : (moveBoot s).mem = copied 512 0x7c00 0x90000 s.mem := by
  let started : RealMode :=
    { s with ax := initSeg, ds := bootSeg, es := initSeg, si := 0, di := 0, cx := 256 }
  have room : (0 : U16).toNat + 2 * 256 ≤ 2 ^ 16 := by decide
  have words := @repMovsw_mem started 256 up room room
  have source : linear started.ds started.si = 0x7c00 := rfl
  have target : linear started.es started.di = 0x90000 := rfl
  rw [source, target, moves_eq_copied (by simp) (by decide)] at words
  exact words

/-- **The moves of the boot sector.** After both, each segment is one lower, and the code that
moves them stands where it was moved to before. -/
theorem moves_exact (up : s.df = false) :
    ∃ t, moveKernel (moveBoot s) = some t ∧ ∀ x : Addr, t.mem x =
      if x.toNat < 0x80000 then s.mem (x + 0x10000)
      else if 0x90000 ≤ x.toNat ∧ x.toNat < 0x90200 then s.mem (x - 0x90000 + 0x7c00)
      else s.mem x := by
  obtain ⟨t, ran, mem⟩ := moveKernel_mem (moveBoot s)
  refine ⟨t, ran, fun x => ?_⟩
  rw [mem, moveBoot_mem up]
  by_cases kernel : x.toNat < 0x80000
  · have source : (0x10000 : Addr) + (x - 0) = x + 0x10000 := by bv_omega
    rw [if_pos kernel, copied_inside (by bv_omega), source, copied_outside (by bv_omega)]
  · rw [if_neg kernel, copied_outside (by bv_omega)]
    by_cases sector : 0x90000 ≤ x.toNat ∧ x.toNat < 0x90200
    · rw [if_pos sector, copied_inside (by bv_omega), BitVec.add_comm]
    · rw [if_neg sector, copied_outside (by bv_omega)]

/-- A memory that shows where its bytes come from. -/
theorem moves_exact_numbered :
    ∃ t, moveKernel (moveBoot
        { ax := 0, cx := 0, si := 0, di := 0, ds := 0, es := 0, df := false
          mem := fun x => if x.toNat < 0x8000 then 1 else if x.toNat < 0x20000 then 2 else 3 }) =
        some t ∧ t.mem 0xffff = 2 ∧ t.mem 0x10000 = 3 ∧ t.mem 0x90000 = 1 ∧ t.mem 0x90200 = 3 := by
  obtain ⟨t, ran, mem⟩ := @moves_exact
    { ax := 0, cx := 0, si := 0, di := 0, ds := 0, es := 0, df := false
      mem := fun x => if x.toNat < 0x8000 then 1 else if x.toNat < 0x20000 then 2 else 3 } rfl
  refine ⟨t, ran, ?_, ?_, ?_, ?_⟩ <;> rw [mem] <;> simp

end Moving

/-! ## Reads into memory -/

section Reading
variable {bios : Bios} {disk : Nat → Byte} {s s' : Loader} {m m' : Mem} {r : Read} {n : Nat}

/-- The place of a byte in the buffer of a read. -/
def bufferOffset (r : Read) (x : Addr) : Nat := (x - BitVec.ofNat 32 (address r)).toNat

/-- What one read does to the memory: the sectors are in the buffer, or it failed and anything
may be there. Nothing else changes. -/
structure Effect (disk : Nat → Byte) (r : Read) (m m' : Mem) : Prop where
  sectors : r.failed = false → ∀ x, bufferOffset r x < 512 * count r →
    m' x = disk (512 * logical r + bufferOffset r x)
  others : ∀ x, 512 * count r ≤ bufferOffset r x → m' x = m x

/-- The reads of a log, one after another. -/
def Filled (disk : Nat → Byte) : List Read → Mem → Mem → Prop
  | [], m, m' => m' = m
  | r :: rest, m, m' => ∃ m₁, Effect disk r m m₁ ∧ Filled disk rest m₁ m'

/-- The first `n` sectors of the kernel are in place. -/
def Loaded (disk : Nat → Byte) (n : Nat) (m : Mem) : Prop :=
  ∀ k < 512 * n, m (BitVec.ofNat 32 (0x10000 + k)) = disk (512 + k)

theorem filled_append (reads more : List Read) (m m' : Mem) :
    Filled disk (reads ++ more) m m' ↔
      ∃ m₁, Filled disk reads m m₁ ∧ Filled disk more m₁ m' := by
  induction reads generalizing m with
  | nil => exact ⟨fun filled => ⟨m, rfl, filled⟩, fun ⟨_, same, filled⟩ => same ▸ filled⟩
  | cons r rest ih =>
    constructor
    · rintro ⟨m₁, effect, filled⟩
      obtain ⟨m₂, first, last⟩ := (ih m₁).mp filled
      exact ⟨m₂, ⟨m₁, effect, first⟩, last⟩
    · rintro ⟨m₂, ⟨m₁, effect, first⟩, last⟩
      exact ⟨m₁, effect, (ih m₁).mpr ⟨m₂, first, last⟩⟩

/-- A read whose buffer lies behind the sectors that are in place keeps them. -/
theorem Loaded.keep (loaded : Loaded disk n m) (effect : Effect disk r m m')
    (behind : address r = 0x10000 + 512 * n) (room : address r + 512 * count r ≤ 0x100000) :
    Loaded disk n m' := by
  intro k inside
  rw [effect.others _ ?_]
  · exact loaded k inside
  · unfold bufferOffset
    rw [behind] at room ⊢
    bv_omega

/-- A read that succeeds adds its sectors. -/
theorem Loaded.extend (loaded : Loaded disk n m) (effect : Effect disk r m m')
    (done : r.failed = false) (behind : address r = 0x10000 + 512 * n)
    (next : logical r = n + 1) (room : address r + 512 * count r ≤ 0x100000) :
    Loaded disk (n + count r) m' := by
  intro k inside
  by_cases old : k < 512 * n
  · exact loaded.keep effect behind room k old
  · have place : bufferOffset r (BitVec.ofNat 32 (0x10000 + k)) = k - 512 * n := by
      unfold bufferOffset
      rw [behind] at room ⊢
      bv_omega
    rw [effect.sectors done _ (by rw [place]; omega), place, next]
    congr 1
    omega

/-- The same request, failing any number of times before it succeeds. -/
theorem readSectors_log {tries : Nat} (ran : readSectors bios tries s = some s') :
    ∃ failures, s'.reads =
      s.reads ++ List.replicate failures (request s true) ++ [request s false] := by
  induction tries generalizing s with
  | zero => cases ran
  | succ tries ih =>
    rw [readSectors_step] at ran
    cases failed : (bios.read s.reads.length).carry with
    | false =>
      rw [failed] at ran
      cases ran
      exact ⟨0, by rw [List.replicate_zero, List.append_nil]; rfl⟩
    | true =>
      rw [failed] at ran
      obtain ⟨failures, log⟩ := ih ran
      refine ⟨failures + 1, log.trans ?_⟩
      change s.reads ++ [request s true] ++ List.replicate failures (request s true) ++ _ = _
      rw [List.append_assoc s.reads, List.singleton_append, ← List.replicate_succ]
      rfl

/-- Whatever the failed ones leave behind, the last one puts its sectors there. -/
theorem Loaded.retry {failures : Nat} {r : Bool → Read} (loaded : Loaded disk n m)
    (filled : Filled disk (List.replicate failures (r true) ++ [r false]) m m')
    (done : (r false).failed = false)
    (same : address (r true) = address (r false) ∧ count (r true) = count (r false))
    (behind : address (r false) = 0x10000 + 512 * n) (next : logical (r false) = n + 1)
    (room : address (r false) + 512 * count (r false) ≤ 0x100000) :
    Loaded disk (n + count (r false)) m' := by
  induction failures generalizing m with
  | zero =>
    obtain ⟨m₁, effect, rfl⟩ := filled
    exact loaded.extend effect done behind next room
  | succ failures ih =>
    obtain ⟨m₁, effect, filled⟩ := filled
    refine ih (loaded.keep effect (same.1.trans behind) ?_) filled
    rw [same.1, same.2]
    exact room

end Reading

/-! ## The load -/

section Loading
variable {bios : Bios} {disk : Nat → Byte} {s : Loader} {n tries : Nat}

/-- Whatever the reads so far did to the memory, the first `n` sectors are there. -/
def Traced (disk : Nat → Byte) (n : Nat) (reads : List Read) : Prop :=
  ∀ before after, Filled disk reads before after → Loaded disk n after

/-- Where the read goes that is asked for, and what it brings. -/
theorem request_place {ax : U16} (cx : U16) (place : Placed n s) (small : n < 1024)
    (size : ax.toNat = chunk n) (failed : Bool) :
    count (request { s with ax := ax, cx := cx } failed) = chunk n ∧
      address (request { s with ax := ax, cx := cx } failed) = 0x10000 + 512 * n ∧
      logical (request { s with ax := ax, cx := cx } failed) = n + 1 := by
  obtain ⟨counted, first, track, head, -⟩ := @request_arguments s ax cx n place small size
  have es : (request { s with ax := ax, cx := cx } failed).es.toNat = 0x1000 * (1 + n / 128) :=
    place.es
  have bx : (request { s with ax := ax, cx := cx } failed).bx.toNat = 512 * (n % 128) :=
    place.bx
  refine ⟨counted, ?_, ?_⟩
  · rw [address, es, bx]
    omega
  · change logical (request { s with ax := ax, cx := cx } false) = n + 1
    rw [logical, track, head, first]
    omega

/-- One turn of the loop. -/
theorem traced_kept (disk : Nat → Byte) : Kept bios tries (Traced disk) := by
  intro n s s' loading small traced ran before final filled
  obtain ⟨ax, cx, calculated, size⟩ := calcSectors_spec loading.place
  obtain ⟨failures, log⟩ := readSectors_log ran
  rw [log, List.append_assoc, filled_append, calculated] at filled
  obtain ⟨middle, first, last⟩ := filled
  obtain ⟨counted, behind, next⟩ := request_place cx loading.place small size false
  obtain ⟨counted', behind', -⟩ := request_place cx loading.place small size true
  have few : chunk n ≤ 18 := by
    unfold chunk
    omega
  rw [← counted]
  exact (traced before middle first).retry last rfl
    ⟨behind'.trans behind.symm, counted'.trans counted.symm⟩ behind next (by omega)

end Loading

/-! ## The whole way -/

/-- The cursor's position goes into the boot sector's own segment, behind the kernel. -/
theorem storeCursor_kernel (dx : U16) (s : RealMode) (own : s.ds = initSeg) {x : Addr}
    (kernel : x.toNat < 0x90000) : (storeCursor dx s).mem x = s.mem x := by
  have place : linear s.ds 510 = 0x901fe := by
    rw [own]
    rfl
  have outside : ¬ (x - 0x901fe).toNat < 2 := by bv_omega
  rw [storeCursor, place, store16_eq_filled]
  exact if_neg outside

/-- **The kernel's image.** Whatever finitely many reads fail and whatever they leave behind,
the load ends, and moved down, the kernel's bytes stand from address zero on as they follow the
boot sector on the disk. -/
theorem kernel_at_zero {bios : Bios} {sysSize : U16} {s : Loader}
    (whole : sysSize.toNat % 0x1000 = 0) (fits : 0x1000 + sysSize.toNat ≤ 0x9000)
    (finite : {k | (bios.read k).carry = true}.Finite) (fresh : Fresh s) (disk : Nat → Byte) :
    ∃ enough, ∀ bound, enough ≤ bound → ∃ s', loadSystem bios sysSize bound s = some s' ∧
      ∀ (before : Mem) (real : RealMode) (cursor : U16),
        Filled disk s'.reads before real.mem → real.ds = initSeg →
        ∃ moved, moveKernel (storeCursor cursor real) = some moved ∧
          ∀ k < 16 * sysSize.toNat, moved.mem (BitVec.ofNat 32 k) = disk (512 + k) := by
  have starts : Traced disk 0 [] := fun _ _ _ k inside => absurd inside (Nat.not_lt_zero k)
  obtain ⟨enough, loads⟩ :=
    loadSystem_loading (fun _ => traced_kept disk) starts whole fits finite fresh
  refine ⟨enough, fun bound large => ?_⟩
  obtain ⟨s', ran, -, traced⟩ := loads bound large
  refine ⟨s', ran, fun before real cursor filled own => ?_⟩
  obtain ⟨moved, moves, mem⟩ := moveKernel_mem (storeCursor cursor real)
  refine ⟨moved, moves, fun k inside => ?_⟩
  have sectors : k < 512 * (128 * (sysSize.toNat / 0x1000)) := by omega
  have source : (0x10000 : Addr) + (BitVec.ofNat 32 k - 0) = BitVec.ofNat 32 (0x10000 + k) := by
    bv_omega
  rw [mem, copied_inside (by bv_omega), source, storeCursor_kernel cursor real own (by bv_omega)]
  exact traced before real.mem filled k sectors

/-- Every log of reads can be carried out. -/
theorem filled_exists (disk : Nat → Byte) (reads : List Read) (m : Mem) :
    ∃ m', Filled disk reads m m' := by
  induction reads generalizing m with
  | nil => exact ⟨m, rfl⟩
  | cons r rest ih =>
    let read : Mem := fun x =>
      if bufferOffset r x < 512 * count r then disk (512 * logical r + bufferOffset r x) else m x
    have effect : Effect disk r m read :=
      ⟨fun _ x inside => if_pos inside, fun x outside => if_neg (Nat.not_lt.mpr outside)⟩
    obtain ⟨m', filled⟩ := ih read
    exact ⟨m', read, effect, filled⟩

/-- A disk that numbers its bytes, read by the slow drive. -/
theorem kernel_at_zero_slowDrive :
    ∃ bound s' moved, loadSystem slowDrive 0x7000 bound powerOn = some s' ∧
      moved.mem 0 = 0 ∧ moved.mem 5 = 5 ∧
      ∃ real, Filled (BitVec.ofNat 8) s'.reads (fun _ => 0xff) real.mem ∧
        moveKernel (storeCursor 0x0a00 real) = some moved := by
  have finite : {k | (slowDrive.read k).carry = true}.Finite :=
    (Set.finite_singleton 0).subset fun k fails => beq_iff_eq.mp fails
  obtain ⟨enough, loads⟩ := @kernel_at_zero slowDrive 0x7000 powerOn (by decide) (by decide)
    finite ⟨rfl, rfl, rfl, rfl⟩ (BitVec.ofNat 8)
  obtain ⟨s', ran, places⟩ := loads enough (Nat.le_refl _)
  obtain ⟨m', filled⟩ := filled_exists (BitVec.ofNat 8) s'.reads fun _ => 0xff
  let real : RealMode :=
    { ax := 0, cx := 0, si := 0, di := 0, ds := initSeg, es := 0, df := false, mem := m' }
  obtain ⟨moved, moves, bytes⟩ := places (fun _ => 0xff) real 0x0a00 filled rfl
  exact ⟨enough, s', moved, ran, bytes 0 (by decide), bytes 5 (by decide), real, filled, moves⟩

end BlessOS.Guarantees.KernelImage
