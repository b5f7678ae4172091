import BlessOS.Source.Printk
import BlessOS.Lib.Numeral

/-!
# What `printk` prints

A format is a list of directives, some of which take an argument; its expansion is what they
print, one after another. The scan has printed a part of the expansion after every turn, and
the rest of the format and of the arguments stand for the rest of it.
-/

set_option autoImplicit false

namespace BlessOS.Guarantees.PrintkFormat
open BlessOS.Lib.ByteMemory BlessOS.Lib.Numeral BlessOS.Source BlessOS.Source.Console
  BlessOS.Source.Printk

/-! ## Formats and expansions -/

/-- How a word is printed. -/
inductive Conversion where
  | lowByte | hex | decimal
deriving DecidableEq, Repr

inductive Directive where
  | char (c : U8)
  | nothing
  | string
  | convert (conversion : Conversion)
deriving DecidableEq, Repr

/-- The letters of the control characters. -/
def controls : List (U8 × U8) :=
  [(0x61, 0x07), (0x62, 0x08), (0x74, 0x09), (0x6e, 0x0a), (0x72, 0x0d), (0x5c, 0x5c)]

def afterBackslash (c : U8) : Directive :=
  match controls.lookup c with
  | some control => .char control
  | none => .nothing

def afterPercent (c : U8) : Directive :=
  if c = 0x73 then .string
  else if c = 0x63 then .convert .lowByte
  else if c = 0x78 ∨ c = 0x70 then .convert .hex
  else if c = 0x64 then .convert .decimal
  else .char c

/-- A character that begins an escape. -/
def Escape (c : U8) : Prop := c = 0x25 ∨ c = 0x5c

instance (c : U8) : Decidable (Escape c) := inferInstanceAs (Decidable (_ ∨ _))

/-- The directives of a format, without an escape that it ends in the middle of. -/
def directives : List U8 → List Directive
  | [] => []
  | [c] => if Escape c then [] else [.char c]
  | c :: d :: rest =>
    if c = 0x25 then afterPercent d :: directives rest
    else if c = 0x5c then afterBackslash d :: directives rest
    else .char c :: directives (d :: rest)

def endsInEscape : List U8 → Bool
  | [] => false
  | [c] => decide (Escape c)
  | c :: d :: rest => if Escape c then endsInEscape rest else endsInEscape (d :: rest)

/-- An argument: a word, or the string at the address that is passed. -/
inductive Argument where
  | word (value : U32)
  | text (string : List U8)

def byte (c : Char) : U8 := BitVec.ofNat 8 c.toNat

def hexNumeral (value : U32) : List U8 :=
  (List.leftpad 8 '0' (Nat.toDigits 16 value.toNat)).map byte

def decimalNumeral (value : U32) : List U8 := (Nat.toDigits 10 value.toNat).map byte

def Conversion.text : Conversion → U32 → List U8
  | .lowByte, value => [value.setWidth 8]
  | .hex, value => hexNumeral value
  | .decimal, value => decimalNumeral value

/-- What the directives print; `none` when an argument is missing or of the other kind. -/
def expansion : List Directive → List Argument → Option (List U8)
  | [], _ => some []
  | .char c :: ds, args => (expansion ds args).map (c :: ·)
  | .nothing :: ds, args => expansion ds args
  | .string :: ds, .text string :: args => (expansion ds args).map (string ++ ·)
  | .convert conversion :: ds, .word value :: args =>
    (expansion ds args).map (conversion.text value ++ ·)
  | _, _ => none

/-- The characters at an address, up to a NUL. -/
def Stored (m : Mem) : Addr → List U8 → Prop
  | a, [] => load8 m a = 0
  | a, c :: rest => load8 m a = c ∧ c ≠ 0 ∧ Stored m (a + 1) rest

/-- The arguments in the words from an address on. -/
def Passed (m : Mem) : Addr → List Argument → Prop
  | _, [] => True
  | a, .word value :: rest => load32 m a = value ∧ Passed m (a + 4) rest
  | a, .text string :: rest => Stored m (load32 m a) string ∧ Passed m (a + 4) rest

section Formats

variable {c d : U8} {rest : List U8}

theorem directives_plain (plain : ¬ Escape c) :
    directives (c :: rest) = .char c :: directives rest := by
  obtain ⟨percent, backslash⟩ := not_or.mp plain
  cases rest with
  | nil => simp [directives, plain]
  | cons d rest => rw [directives, if_neg percent, if_neg backslash]

theorem endsInEscape_plain (plain : ¬ Escape c) : endsInEscape (c :: rest) = endsInEscape rest := by
  cases rest with
  | nil => simp [endsInEscape, plain]
  | cons d rest => rw [endsInEscape, if_neg plain]

theorem endsInEscape_escape (escape : Escape c) :
    endsInEscape (c :: d :: rest) = endsInEscape rest := by
  rw [endsInEscape, if_pos escape]

end Formats

/-! ## Output -/

section Output

variable {m : Mem} {s : Scan} {out : List U8}

/-- What is in the buffer. -/
def sent (s : Scan) : List U8 := (List.range s.ptr).map s.buffer

def puts (out : List U8) (s : Scan) : Scan := out.foldl (fun s c => put c s) s

/-- The records stay behind the indices. -/
structure Bounded (s : Scan) : Prop where
  examined : ∀ i ∈ s.examined, i ≤ s.i
  written : ∀ j ∈ s.written, j < s.ptr

theorem sent_put (c : U8) (s : Scan) : sent (put c s) = sent s ++ [c] := by
  unfold sent put
  dsimp only
  rw [List.range_succ, List.map_append, List.map_singleton, Function.update_self]
  congr 1
  refine List.map_congr_left fun j member => Function.update_of_ne ?_ _ _
  exact (List.mem_range.mp member).ne

theorem bounded_put (c : U8) (bounded : Bounded s) : Bounded (put c s) where
  examined := bounded.examined
  written j member := by
    obtain old | new := List.mem_append.mp member
    · exact Nat.lt_succ_of_lt (bounded.written j old)
    · rw [List.mem_singleton.mp new]
      exact Nat.lt_succ_self s.ptr

theorem bounded_advance (bounded : Bounded s) : Bounded (advance s) where
  examined i member := by
    obtain old | new := List.mem_append.mp member
    · exact Nat.le_succ_of_le (bounded.examined i old)
    · exact (List.mem_singleton.mp new).le
  written := bounded.written

@[simp] theorem puts_nil (s : Scan) : puts [] s = s := rfl
@[simp] theorem puts_cons (c : U8) (out : List U8) (s : Scan) :
    puts (c :: out) s = puts out (put c s) := rfl

@[simp] theorem puts_i (out : List U8) (s : Scan) : (puts out s).i = s.i := by
  induction out generalizing s with
  | nil => rfl
  | cons c out ih => exact ih (put c s)

@[simp] theorem puts_args (out : List U8) (s : Scan) : (puts out s).args = s.args := by
  induction out generalizing s with
  | nil => rfl
  | cons c out ih => exact ih (put c s)

theorem puts_append (out more : List U8) (s : Scan) :
    puts (out ++ more) s = puts more (puts out s) :=
  List.foldl_append

theorem sent_puts (out : List U8) (s : Scan) : sent (puts out s) = sent s ++ out := by
  induction out generalizing s with
  | nil => rw [puts_nil, List.append_nil]
  | cons c out ih => rw [puts_cons, ih, sent_put, List.append_assoc, List.singleton_append]

theorem bounded_puts (out : List U8) (bounded : Bounded s) : Bounded (puts out s) := by
  induction out generalizing s with
  | nil => exact bounded
  | cons c out ih => exact ih (bounded_put c bounded)

theorem sent_length (s : Scan) : (sent s).length = s.ptr := by simp [sent]

theorem hexDigit {d : Nat} (digit : d < 16) : hexDigits.getD d 0 = byte (Nat.digitChar d) := by
  revert d
  decide

theorem decDigit {d : Nat} (digit : d < 10) : decDigits.getD d 0 = byte (Nat.digitChar d) := by
  revert d
  decide

/-- Four bits of a word are a digit of its number. -/
theorem nibble (value : U32) (i : Nat) :
    ((value >>> (i * 4)) &&& 0x0f).toNat = value.toNat / 16 ^ i % 16 := by
  have mask : (0x0f : U32).toNat = 2 ^ 4 - 1 := rfl
  have power : 2 ^ (i * 4) = 16 ^ i := by rw [Nat.mul_comm, Nat.pow_mul]
  rw [BitVec.toNat_and, mask, Nat.and_two_pow_sub_one_eq_mod, BitVec.toNat_ushiftRight,
    Nat.shiftRight_eq_div_pow, power]

theorem hexLoop_puts (value : U32) (i : Nat) (s : Scan) :
    hexLoop value i s = puts ((places 16 i value.toNat).map byte) s := by
  induction i generalizing s with
  | zero => rfl
  | succ i ih =>
    have digit := hexDigit (Nat.mod_lt (value.toNat / 16 ^ i) (show 0 < 16 by decide))
    rw [hexLoop, ih, places_high, List.map_cons, puts_cons, nibble, digit]

theorem parseHex_puts (value : U32) (s : Scan) : parseHex value s = puts (hexNumeral value) s := by
  unfold parseHex hexNumeral
  have fits : value.toNat < 16 ^ (7 + 1) := value.isLt
  rw [hexLoop_puts, leftpad_toDigits (by decide) fits]

/-- One level of the recursion: the remainder is not negative as an `int`. -/
theorem parseNum_level (depth : Nat) (value : U32) (s : Scan) :
    parseNum (depth + 1) value 10 s =
      (if 10 ≤ value.toNat then parseNum depth (value / 10) 10 s else some s).map
        (put (byte (Nat.digitChar (value.toNat % 10)))) := by
  have remainder : (value % 10).toNat = value.toNat % 10 := BitVec.toNat_umod
  have small : value.toNat % 10 < 10 := Nat.mod_lt _ (by decide)
  have positive : (value % 10).slt 0 = false := by
    have zero : (0 : U32) = 0#32 := rfl
    rw [zero, BitVec.slt_zero_eq_msb, BitVec.msb_eq_false_iff_two_mul_lt, remainder]
    omega
  have larger : value ≥ 10 ↔ 10 ≤ value.toNat := BitVec.le_def
  rw [parseNum]
  simp only [positive, larger, Bool.false_eq_true, if_false]
  rw [remainder, decDigit small]

/-- Deep enough, the recursion leaves the decimal numeral. -/
theorem parseNum_puts {depth : Nat} {value : U32} (deep : value.toNat < 10 ^ (depth + 1))
    (s : Scan) : parseNum (depth + 1) value 10 s = some (puts (decimalNumeral value) s) := by
  induction depth generalizing value s with
  | zero =>
    have digit : value.toNat < 10 := by simpa using deep
    rw [parseNum_level, if_neg (Nat.not_le.mpr digit), decimalNumeral,
      Nat.toDigits_of_lt_base digit, Nat.mod_eq_of_lt digit]
    rfl
  | succ depth ih =>
    rw [parseNum_level, decimalNumeral, Nat.toDigits_eq_if (by decide)]
    by_cases digit : value.toNat < 10
    · rw [if_neg (Nat.not_le.mpr digit), if_pos digit, Nat.mod_eq_of_lt digit]
      rfl
    · have quotient : (value / 10).toNat = value.toNat / 10 := BitVec.toNat_udiv
      have less : (value / 10).toNat < 10 ^ (depth + 1) := by
        rw [quotient, Nat.div_lt_iff_lt_mul (by decide)]
        rwa [Nat.pow_succ] at deep
      rw [if_pos (Nat.not_lt.mp digit), if_neg digit, ih less, Option.map_some, decimalNumeral,
        quotient, List.map_append, puts_append]
      rfl

theorem copyString_puts {string : List U8} {a : Addr} {bound : Nat}
    (stored : Stored m a string) (short : string.length < bound) (s : Scan) :
    copyString m bound a s = some (puts string s) := by
  induction string generalizing a bound s with
  | nil =>
    obtain ⟨bound, rfl⟩ := Nat.exists_eq_succ_of_ne_zero (Nat.ne_zero_of_lt short)
    exact if_pos stored
  | cons c string ih =>
    obtain ⟨bound, rfl⟩ := Nat.exists_eq_succ_of_ne_zero (Nat.ne_zero_of_lt short)
    obtain ⟨here, proper, rest⟩ := stored
    rw [copyString, here, if_neg proper, puts_cons]
    exact ih rest (Nat.lt_of_succ_lt_succ short) (put c s)

end Output

/-! ## The directives -/

section Directives

variable {m : Mem} {a : Addr} {s : Scan} {c : U8} {ds : List Directive} {text : List U8}

/-- What the directives print of the arguments from an address on. -/
def Pending (m : Mem) (a : Addr) (ds : List Directive) (text : List U8) : Prop :=
  ∃ args, Passed m a args ∧ expansion ds args = some text

theorem pending_char (pending : Pending m a (.char c :: ds) text) :
    ∃ rest, text = [c] ++ rest ∧ Pending m a ds rest := by
  obtain ⟨args, passed, expands⟩ := pending
  obtain ⟨rest, remaining, rfl⟩ := Option.map_eq_some_iff.mp expands
  exact ⟨rest, rfl, args, passed, remaining⟩

theorem pending_string (pending : Pending m a (.string :: ds) text) :
    ∃ string rest, text = string ++ rest ∧ Stored m (load32 m a) string ∧
      Pending m (a + 4) ds rest := by
  obtain ⟨args, passed, expands⟩ := pending
  match args with
  | .text string :: args =>
    obtain ⟨rest, remaining, rfl⟩ := Option.map_eq_some_iff.mp expands
    exact ⟨string, rest, rfl, passed.1, args, passed.2, remaining⟩

theorem pending_convert {conversion : Conversion}
    (pending : Pending m a (.convert conversion :: ds) text) :
    ∃ rest, text = conversion.text (load32 m a) ++ rest ∧ Pending m (a + 4) ds rest := by
  obtain ⟨args, passed, expands⟩ := pending
  match args with
  | .word value :: args =>
    obtain ⟨rest, remaining, rfl⟩ := Option.map_eq_some_iff.mp expands
    exact ⟨rest, by rw [passed.1], args, passed.2, remaining⟩

theorem next_address (a : Addr) (k : Nat) :
    a + 1 + BitVec.ofNat 32 k = a + BitVec.ofNat 32 (k + 1) := by
  rw [BitVec.add_assoc, BitVec.add_comm 1, BitVec.ofNat_add]
  rfl

theorem address_next (a : Addr) (k : Nat) :
    a + BitVec.ofNat 32 k + 1 = a + BitVec.ofNat 32 (k + 1) := by
  rw [BitVec.add_assoc, BitVec.ofNat_add]
  rfl

theorem stored_zero_iff {string : List U8} (stored : Stored m a string) {k : Nat}
    (inside : k ≤ string.length) : load8 m (a + BitVec.ofNat 32 k) = 0 ↔ k = string.length := by
  induction string generalizing a k with
  | nil =>
    obtain rfl := Nat.le_zero.mp inside
    exact iff_of_true (by simpa [Stored] using stored) rfl
  | cons c string ih =>
    obtain ⟨here, proper, rest⟩ := stored
    cases k with
    | zero =>
      rw [BitVec.add_zero, here]
      exact iff_of_false proper (Nat.succ_ne_zero _).symm
    | succ k =>
      rw [← next_address, ih rest (Nat.le_of_succ_le_succ inside)]
      simp

/-- The NUL of a string is found before the addresses come round. -/
theorem stored_length {string : List U8} (stored : Stored m a string) :
    string.length < addressSpace := by
  by_contra long
  unfold addressSpace at long
  have round : BitVec.ofNat 32 (string.length - 2 ^ 32) = BitVec.ofNat 32 string.length := by
    apply BitVec.eq_of_toNat_eq
    rw [BitVec.toNat_ofNat, BitVec.toNat_ofNat]
    omega
  have last := (stored_zero_iff stored (Nat.le_refl _)).mpr rfl
  rw [← round, stored_zero_iff stored (Nat.sub_le _ _)] at last
  omega

/-- The byte of a `char` argument is the low byte of its word. -/
theorem load8_low (m : Mem) (a : Addr) : load8 m a = (load32 m a).setWidth 8 :=
  BitVec.setWidth_append_eq_right.symm

theorem lookup_step (a d c : U8) (table : List (U8 × U8)) :
    List.lookup c ((a, d) :: table) = if c = a then some d else List.lookup c table := by
  by_cases here : c = a
  · rw [here, List.lookup_cons_self, if_pos rfl]
  · have other : (c == a) = false := beq_false_of_ne here
    rw [if_neg here, List.lookup_cons, other]

/-- What is done behind a backslash. -/
theorem backslash_prints (pending : Pending m a (afterBackslash c :: ds) text) (s : Scan) :
    ∃ out rest, backslashCase c s = puts out s ∧ text = out ++ rest ∧ Pending m a ds rest := by
  have agree : (∃ d, afterBackslash c = .char d ∧ backslashCase c s = put d s) ∨
      (afterBackslash c = .nothing ∧ backslashCase c s = s) := by
    unfold afterBackslash backslashCase controls
    simp only [lookup_step, List.lookup_nil]
    split_ifs <;> simp
  obtain ⟨d, directive, does⟩ | ⟨directive, does⟩ := agree
  · rw [directive] at pending
    obtain ⟨rest, output, remaining⟩ := pending_char pending
    exact ⟨[d], rest, does, output, remaining⟩
  · rw [directive] at pending
    exact ⟨[], text, does, rfl, pending⟩

/-- What is done behind a percent sign. -/
theorem percent_prints (pending : Pending m s.args (afterPercent c :: ds) text) :
    ∃ out rest next, percentCase m c s = some (puts out { s with args := next }) ∧
      text = out ++ rest ∧ Pending m next ds rest := by
  unfold afterPercent at pending
  unfold percentCase
  by_cases isString : c = 0x73
  · rw [if_pos isString] at pending ⊢
    obtain ⟨string, rest, output, stored, remaining⟩ := pending_string pending
    exact ⟨string, rest, s.args + 4, copyString_puts stored (stored_length stored) _, output,
      remaining⟩
  rw [if_neg isString] at pending ⊢
  by_cases isByte : c = 0x63
  · rw [if_pos isByte] at pending ⊢
    obtain ⟨rest, output, remaining⟩ := pending_convert pending
    exact ⟨_, rest, s.args + 4, by rw [load8_low]; rfl, output, remaining⟩
  rw [if_neg isByte] at pending ⊢
  by_cases isHex : c = 0x78 ∨ c = 0x70
  · rw [if_pos isHex] at pending
    obtain ⟨rest, output, remaining⟩ := pending_convert pending
    refine ⟨_, rest, s.args + 4, ?_, output, remaining⟩
    obtain rfl | rfl := isHex
    · exact congrArg some (parseHex_puts _ _)
    · exact congrArg some (parseHex_puts _ _)
  obtain ⟨noX, noP⟩ := not_or.mp isHex
  rw [if_neg isHex] at pending
  rw [if_neg noX, if_neg noP]
  by_cases isDecimal : c = 0x64
  · rw [if_pos isDecimal] at pending ⊢
    obtain ⟨rest, output, remaining⟩ := pending_convert pending
    have deep : (load32 m s.args).toNat < 10 ^ (9 + 1) :=
      Nat.lt_trans (load32 m s.args).isLt (by decide)
    exact ⟨_, rest, s.args + 4, parseNum_puts deep _, output, remaining⟩
  rw [if_neg isDecimal] at pending ⊢
  obtain ⟨rest, output, remaining⟩ := pending_char pending
  refine ⟨[c], rest, s.args, ?_, output, remaining⟩
  by_cases isPercent : c = 0x25
  · rw [if_pos isPercent, isPercent]
    rfl
  · rw [if_neg isPercent]
    rfl

end Directives

/-! ## The scan -/

section Run

variable {m : Mem} {fmt : Addr} {n : Nat} {total text rest : List U8} {s s' : Scan} {c : U8}

/-- What is true of the state when `rest` is left of a format of length `n`. -/
structure Reached (m : Mem) (fmt : Addr) (n : Nat) (total : List U8) (s : Scan)
    (rest : List U8) : Prop where
  place : s.i + rest.length = n
  stored : Stored m (fmt + BitVec.ofNat 32 s.i) rest
  bounded : Bounded s
  output : ∃ text, Pending m s.args (directives rest) text ∧ sent s ++ text = total

theorem reached_start {stack : Addr} (buffer : Nat → U8) {format : List U8}
    (stored : Stored m fmt format) (pending : Pending m (stack + 4) (directives format) text) :
    Reached m fmt format.length text (start stack buffer) format where
  place := Nat.zero_add _
  stored := by
    rw [start, BitVec.add_zero]
    exact stored
  bounded := ⟨fun i member => (List.mem_singleton.mp member).le, fun j member => by cases member⟩
  output := ⟨text, pending, rfl⟩

/-- The last character that was looked at leads on to the rest. -/
theorem reached_advance {out : List U8} {next : Addr} (place : s.i + (c :: rest).length = n)
    (stored : Stored m (fmt + BitVec.ofNat 32 s.i) (c :: rest)) (bounded : Bounded s)
    (pending : Pending m next (directives rest) text) (output : sent s ++ (out ++ text) = total) :
    Reached m fmt n total (advance (puts out { s with args := next })) rest where
  place := by
    rw [← place, List.length_cons]
    change (puts out { s with args := next }).i + 1 + rest.length = s.i + (rest.length + 1)
    rw [puts_i]
    exact Nat.add_right_comm s.i 1 rest.length
  stored := by
    change Stored m (fmt + BitVec.ofNat 32 ((puts out { s with args := next }).i + 1)) rest
    rw [puts_i, ← address_next]
    exact stored.2.2
  bounded := bounded_advance (bounded_puts out ⟨bounded.examined, bounded.written⟩)
  output := by
    refine ⟨text, ?_, ?_⟩
    · change Pending m (puts out { s with args := next }).args (directives rest) text
      rw [puts_args]
      exact pending
    · change sent (puts out { s with args := next }) ++ text = total
      rw [sent_puts, List.append_assoc]
      exact output

/-- At the end of the format nothing happens any more. -/
theorem turn_end (reached : Reached m fmt n total s []) : turn m fmt s = some s :=
  if_pos reached.stored

/-- A plain character is printed. -/
theorem turn_plain (reached : Reached m fmt n total s (c :: rest)) (plain : ¬ Escape c) :
    ∃ s', turn m fmt s = some s' ∧ Reached m fmt n total s' rest := by
  obtain ⟨place, stored, bounded, text, pending, output⟩ := reached
  have here : fmtAt m fmt s.i = c := stored.1
  have proper := stored.2.1
  rw [directives_plain plain] at pending
  obtain ⟨remaining, rfl, later⟩ := pending_char pending
  refine ⟨advance (puts [c] s), ?_, reached_advance place stored bounded later output⟩
  rw [turn, body, here, if_neg proper, if_pos (not_or.mp plain)]
  rfl

/-- An escape and the character behind it. -/
theorem turn_escape {d : U8} (reached : Reached m fmt n total s (c :: d :: rest))
    (escape : Escape c) : ∃ s', turn m fmt s = some s' ∧ Reached m fmt n total s' rest := by
  obtain ⟨place, stored, bounded, text, pending, output⟩ := reached
  have here : fmtAt m fmt s.i = c := stored.1
  have proper := stored.2.1
  have special : ¬ (c ≠ 0x25 ∧ c ≠ 0x5c) := fun plain => escape.elim plain.1 plain.2
  -- The state at the look at the second character.
  have place : (advance s).i + (d :: rest).length = n := by
    rw [← place]
    exact Nat.add_right_comm s.i 1 (rest.length + 1)
  have stored : Stored m (fmt + BitVec.ofNat 32 (advance s).i) (d :: rest) := by
    rw [advance, ← address_next]
    exact stored.2.2
  have second : fmtAt m fmt (advance s).i = d := stored.1
  rw [turn, if_neg (here ▸ proper), body, here, if_neg special]
  dsimp only
  rw [second]
  by_cases backslash : c = 0x5c
  · rw [if_pos backslash]
    rw [directives, if_neg (by rw [backslash]; decide), if_pos backslash] at pending
    obtain ⟨out, remaining, does, rfl, later⟩ := backslash_prints pending (advance s)
    rw [does]
    exact ⟨_, rfl, reached_advance place stored (bounded_advance bounded) later output⟩
  · rw [if_neg backslash]
    rw [directives, if_pos (escape.resolve_right backslash)] at pending
    obtain ⟨out, remaining, next, does, rfl, later⟩ := percent_prints (s := advance s) pending
    rw [does]
    exact ⟨_, rfl, reached_advance place stored (bounded_advance bounded) later output⟩

/-- One turn, when more is left than the first half of an escape. -/
theorem turn_reached (reached : Reached m fmt n total s rest)
    (whole : ∀ c, Escape c → rest ≠ [c]) :
    ∃ s' rest', turn m fmt s = some s' ∧ Reached m fmt n total s' rest' ∧
      endsInEscape rest' = endsInEscape rest ∧ rest'.length ≤ rest.length - 1 ∧
      (rest ≠ [] → rest'.length < rest.length) := by
  match rest with
  | [] => exact ⟨s, [], turn_end reached, reached, rfl, Nat.le_refl _, fun some => absurd rfl some⟩
  | c :: rest =>
    by_cases escape : Escape c
    · match rest with
      | [] => exact absurd rfl (whole c escape)
      | d :: rest =>
        obtain ⟨s', step, after⟩ := turn_escape reached escape
        exact ⟨s', rest, step, after, (endsInEscape_escape escape).symm, Nat.le_succ _,
          fun _ => Nat.lt_succ_of_lt (Nat.lt_succ_self _)⟩
    · obtain ⟨s', step, after⟩ := turn_plain reached escape
      exact ⟨s', rest, step, after, (endsInEscape_plain escape).symm, Nat.le_refl _,
        fun _ => Nat.lt_succ_self _⟩

/-- A format that does not end in an escape is scanned to its end. -/
theorem scan_reached (turns : Nat) (reached : Reached m fmt n total s rest)
    (complete : endsInEscape rest = false) :
    ∃ s' rest', scan m fmt turns s = some s' ∧ Reached m fmt n total s' rest' ∧
      rest'.length ≤ rest.length - turns := by
  induction turns generalizing s rest with
  | zero => exact ⟨s, rest, rfl, reached, Nat.le_refl _⟩
  | succ turns ih =>
    have whole : ∀ c, Escape c → rest ≠ [c] := by
      rintro c escape rfl
      simp [endsInEscape, escape] at complete
    obtain ⟨s₁, rest₁, first, reached, same, less, -⟩ := turn_reached reached whole
    obtain ⟨s₂, rest₂, others, reached, fewer⟩ := ih reached (same.trans complete)
    refine ⟨s₂, rest₂, ?_, reached, by omega⟩
    rw [scan, first, Option.bind_some, others]

/-- The characters that are sent are those in the buffer. -/
theorem printLoop_sends (buffer : Nat → U8) (fg bg : Colour) (k : Nat) (console : Console) :
    printLoop buffer fg bg k { sent := [], console := console } =
      { sent := (List.range k).map buffer
        console := ((List.range k).map buffer).foldl (fun s c => printC c fg bg s) console } := by
  induction k with
  | zero => rfl
  | succ k ih =>
    rw [printLoop, ih, sendC, List.range_succ, List.map_append, List.foldl_append]
    rfl

/-- The NUL behind the output does not change it. -/
theorem sent_terminate (s : Scan) : sent (terminate s) = sent s := by
  unfold sent terminate
  refine List.map_congr_left fun j member => Function.update_of_ne ?_ _ _
  exact (List.mem_range.mp member).ne

end Run

/-- **printk.** For a format that does not end in the middle of an escape, and arguments that
match it, the characters sent to `print_c` are those of the expansion; while there are at most
1023 of them, the buffer is written at its own indices only. -/
theorem printk_expands {kl : KpLevel} {stack : Addr} {buffer : Nat → U8} {console : Console}
    {format text : List U8} {args : List Argument}
    (stored : Stored console.mem (load32 console.mem stack) format)
    (complete : endsInEscape format = false) (passed : Passed console.mem (stack + 4) args)
    (expands : expansion (directives format) args = some text) (short : text.length ≤ 1023) :
    printk kl stack buffer console =
        some { sent := text
               console := text.foldl (fun s c => printC c (kpl kl).1 (kpl kl).2 s) console } ∧
      ∃ s, scan console.mem (load32 console.mem stack) addressSpace (start stack buffer) = some s ∧
        ∀ j ∈ (terminate s).written, j < 1024 := by
  have begins := reached_start buffer stored ⟨args, passed, expands⟩
  obtain ⟨s, rest, ran, reached, none⟩ := scan_reached addressSpace begins complete
  have bound := stored_length stored
  obtain rfl : rest = [] := List.length_eq_zero_iff.mp (by omega)
  obtain ⟨-, ended, bounded, left, ⟨args', -, nothing⟩, output⟩ := reached
  obtain rfl : [] = left := Option.some.inj nothing
  rw [List.append_nil] at output
  refine ⟨?_, s, ran, fun j member => ?_⟩
  · have last : fmtAt console.mem (load32 console.mem stack) s.i = 0 := ended
    have text : (List.range (terminate s).ptr).map (terminate s).buffer = text :=
      (sent_terminate s).trans output
    rw [printk, ran, Option.bind_some, if_pos last]
    dsimp only
    rw [printLoop_sends, text]
  · have length := sent_length s
    rw [output] at length
    obtain old | new := List.mem_append.mp member
    · have inside := bounded.written j old
      omega
    · rw [List.mem_singleton.mp new]
      omega

/-- `printk(KPL_DUMP, "%d\\n", 42)`, with the call's arguments at `0x200`. -/
def answer : Mem := fun a =>
  ([(0x100, 0x25), (0x101, 0x64), (0x102, 0x5c), (0x103, 0x6e), (0x201, 0x01), (0x204, 42)].lookup
    a).getD 0

theorem printk_expands_answer :
    (printk .dump 0x200 (fun _ => 0) (boot answer)).map Printed.sent =
      some [0x34, 0x32, 0x0a] := by
  have stored : Stored answer (load32 answer 0x200) [0x25, 0x64, 0x5c, 0x6e] :=
    ⟨by decide, by decide, by decide, by decide, by decide, by decide, by decide, by decide, rfl⟩
  have passed : Passed answer (0x200 + 4) [.word 42] := ⟨by decide, trivial⟩
  have expands : expansion (directives [0x25, 0x64, 0x5c, 0x6e]) [.word 42] =
      some [0x34, 0x32, 0x0a] := by
    decide
  exact congrArg (Option.map Printed.sent)
    (printk_expands stored rfl passed expands (by decide)).1

end BlessOS.Guarantees.PrintkFormat
