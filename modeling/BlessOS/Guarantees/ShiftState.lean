import BlessOS.Guarantees.EchoPipeline
import BlessOS.Source.Keyboard

/-!
# The shift state and the keyboard

What a keyboard sends for its keys, and `KM_LSHIFT` after it. The release of the right
shift key is not decoded, and both keys share the bit, so the bit follows the keys in
exactly the sequences whose events all meet `Tracked`.
-/

set_option autoImplicit false

namespace BlessOS.Guarantees.ShiftState
open BlessOS.Source BlessOS.Source.CyclicBuffer BlessOS.Source.Tty BlessOS.Source.Console
open BlessOS.Source.Keyboard
open BlessOS.Guarantees.CyclicBufferFifo BlessOS.Guarantees.EchoPipeline

/-! ## The keyboard -/

/-- A key sends one code, a code after `0xE0`, or, the pause key, a fixed sequence. The
extended codes include those that are sent around other keys as if shift had changed. -/
inductive Key where
  | plain (code : BitVec 7)
  | extended (code : BitVec 7)
  | pause
deriving DecidableEq

/-- A key that stays down is pressed again and again. -/
inductive Event where
  | press (key : Key)
  | release (key : Key)

def makeCode (code : BitVec 7) : U8 := code.setWidth 8
def breakCode (code : BitVec 7) : U8 := 0x80 ||| code.setWidth 8

def Event.bytes : Event → List U8
  | .press (.plain code) => [makeCode code]
  | .press (.extended code) => [0xE0, makeCode code]
  | .press .pause => [0xE1, 0x1D, 0x45, 0xE1, 0x9D, 0xC5]
  | .release (.plain code) => [breakCode code]
  | .release (.extended code) => [0xE0, breakCode code]
  | .release .pause => []

abbrev Keys := Key → Bool

def Event.hold (keys : Keys) : Event → Keys
  | .press key => Function.update keys key true
  | .release key => Function.update keys key false

/-- The keys that are down after the events. -/
def held (events : List Event) : Keys := events.foldl Event.hold fun _ => false

def leftShift : Key := .plain 0x2a
def rightShift : Key := .plain 0x36

def ShiftHeld (keys : Keys) : Prop := keys leftShift = true ∨ keys rightShift = true

instance (keys : Keys) : Decidable (ShiftHeld keys) := inferInstanceAs (Decidable (_ ∨ _))

/-! ## The interrupts -/

/-- The bytes of the events, one interrupt for each. -/
def deliver (events : List Event) (s : Keyboard) : Option Keyboard :=
  (events.flatMap Event.bytes).foldlM (fun s scancode => doKb scancode s) s

/-- The queues have in-range indices and nothing is left to print. -/
def Serviceable (s : Keyboard) : Prop :=
  InRange s.mainTty.readQueue ∧ InRange s.mainTty.writeQueue ∧
    cbIsEmpty (some s.mainTty.writeQueue) = 1

def shiftBit (s : Keyboard) : Bool := decide (s.keyMode &&& kmLshift ≠ 0)

/-- What a byte does to the bit. -/
def byteShift (scancode : U8) (shift : Bool) : Bool :=
  if scancode = 0x2a ∨ scancode = 0x36 then true
  else if scancode = 0xaa then false
  else shift

/-- What an event does to the bit. -/
def eventShift (event : Event) (shift : Bool) : Bool :=
  event.bytes.foldl (fun shift scancode => byteShift scancode shift) shift

/-- The events that change the bit as they change the keys. The release of the left shift
key may not leave the right one down, that of the right one has to leave the left one down,
and no code that looks like a shift key may contradict the keys. -/
def Tracked (keys : Keys) : Event → Prop
  | .release (.plain code) =>
    (code = 0x2a → keys rightShift = false) ∧
      (code = 0x36 → keys rightShift = true → keys leftShift = true)
  | .press (.extended code) => code = 0x2a ∨ code = 0x36 → ShiftHeld keys
  | .release (.extended code) => code = 0x2a → ¬ ShiftHeld keys
  | _ => True

/-! ## One interrupt -/

theorem shiftBit_eq (s : Keyboard) : shiftBit s = s.keyMode[0] := by
  have bit : s.keyMode &&& kmLshift ≠ 0 ↔ s.keyMode[0] = true := by
    constructor
    · intro set
      by_contra clear
      apply set
      apply BitVec.eq_of_getElem_eq
      intro i inside
      by_cases zero : i = 0
      · subst zero
        simp [clear]
      · simp [kmLshift, zero]
    · intro set zero
      have low := congrArg (fun word => word[0]) zero
      simp [set, kmLshift] at low
  rw [shiftBit, Bool.eq_iff_iff, decide_eq_true_iff, bit]

/-- The codes of the two shift keys in the table. -/
theorem keytable_shift (scancode : U8) :
    (keytable scancode = .lshift ↔ scancode = 0x2a) ∧
      (keytable scancode = .rshift ↔ scancode = 0x36) := by
  revert scancode
  decide

/-- A byte for a key that stands for a character leaves the modifiers alone. -/
theorem input_spec (c : U8) {s : Keyboard} (ready : Serviceable s) :
    ∃ t, input c s = some t ∧ Serviceable t ∧ t.keyMode = s.keyMode := by
  obtain ⟨read, write, empty⟩ := ready
  have held := represents_contents read
  have write' := represents_nil_of_isEmpty write empty
  obtain ⟨q, pushed⟩ : ∃ q, Represents (cbPush c s.mainTty.readQueue).2 q := by
    by_cases room : (contents s.mainTty.readQueue).length < capacity
    · exact ⟨_, (held.push room c).2⟩
    · have full := Nat.le_antisymm held.length_le (Nat.le_of_not_lt room)
      rw [held.push_full full]
      exact ⟨_, held⟩
  obtain ⟨t, printed, ran, read_empty, write_empty⟩ :=
    parseKey_drains (fun c => printC c .brightWhite .black)
      { s.mainTty with readQueue := (cbPush c s.mainTty.readQueue).2 } s.console pushed write'
  refine ⟨{ s with mainTty := t, console := printed }, ?_, ⟨?_, ?_, ?_⟩, rfl⟩
  · exact Option.bind_eq_some_iff.mpr ⟨(t, printed), ran, rfl⟩
  · exact ⟨read_empty.head_lt, read_empty.tail_lt⟩
  · exact ⟨write_empty.head_lt, write_empty.tail_lt⟩
  · exact write_empty.isEmpty

theorem released_spec (scancode : U8) {s : Keyboard} (ready : Serviceable s) :
    Serviceable (released scancode s) ∧
      shiftBit (released scancode s) = if scancode = 0x2a then false else shiftBit s := by
  have code := keytable_shift scancode
  simp only [shiftBit_eq]
  unfold released
  split
  next left =>
    refine ⟨ready, ?_⟩
    rw [if_pos (code.1.mp left)]
    simp [kmLshift]
  next ctrl =>
    have other : scancode ≠ 0x2a := fun same => by simp [code.1.mpr same] at ctrl
    refine ⟨ready, ?_⟩
    rw [if_neg other]
    simp [kmCtrl]
  next alt =>
    have other : scancode ≠ 0x2a := fun same => by simp [code.1.mpr same] at alt
    refine ⟨ready, ?_⟩
    rw [if_neg other]
    simp [kmAlt]
  next none _ _ =>
    exact ⟨ready, by rw [if_neg fun same => none (code.1.mpr same)]⟩

theorem pressed_spec (scancode : U8) {s : Keyboard} (ready : Serviceable s) :
    ∃ t, pressed scancode s = some t ∧ Serviceable t ∧
      shiftBit t = if scancode = 0x2a ∨ scancode = 0x36 then true else shiftBit s := by
  obtain ⟨left, right⟩ := keytable_shift scancode
  have other : keytable scancode ≠ .lshift → keytable scancode ≠ .rshift →
      ¬ (scancode = 0x2a ∨ scancode = 0x36) := fun notLeft notRight same =>
    same.elim (fun h => notLeft (left.mpr h)) (fun h => notRight (right.mpr h))
  simp only [shiftBit_eq]
  unfold pressed
  cases type : keytable scancode with
  | normal =>
    obtain ⟨t, ran, ready', same⟩ :=
      input_spec (if s.keyMode &&& kmLshift ≠ 0 then shiftKbdus scancode else kbdus scancode) ready
    refine ⟨t, ran, ready', ?_⟩
    rw [if_neg (other (by simp [type]) (by simp [type])), same]
  | lshift =>
    refine ⟨_, rfl, ready, ?_⟩
    rw [if_pos (Or.inl (left.mp type))]
    simp [kmLshift]
  | rshift =>
    refine ⟨_, rfl, ready, ?_⟩
    rw [if_pos (Or.inr (right.mp type))]
    simp [kmLshift]
  | lctrl =>
    refine ⟨_, rfl, ready, ?_⟩
    rw [if_neg (other (by simp [type]) (by simp [type]))]
    simp [kmCtrl]
  | alt =>
    refine ⟨_, rfl, ready, ?_⟩
    rw [if_neg (other (by simp [type]) (by simp [type]))]
    simp [kmAlt]
  | _ =>
    refine ⟨_, rfl, ready, ?_⟩
    rw [if_neg (other (by simp [type]) (by simp [type]))]

/-- The break codes and the codes they release. -/
theorem breakCode_shift (scancode : U8) (breaks : scancode &&& 0x80 ≠ 0) :
    (scancode &&& ~~~0x80 = 0x2a ↔ scancode = 0xaa) ∧ ¬ (scancode = 0x2a ∨ scancode = 0x36) := by
  revert scancode
  decide

theorem makeCode_shift (scancode : U8) (makes : ¬ scancode &&& 0x80 ≠ 0) : scancode ≠ 0xaa := by
  revert scancode
  decide

/-- One interrupt ends and leaves the queues as it needs them. -/
theorem doKb_spec (scancode : U8) {s : Keyboard} (ready : Serviceable s) :
    ∃ t, doKb scancode s = some t ∧ Serviceable t ∧
      shiftBit t = byteShift scancode (shiftBit s) := by
  unfold doKb byteShift
  by_cases breaks : scancode &&& 0x80 ≠ 0
  · obtain ⟨left, make⟩ := breakCode_shift scancode breaks
    obtain ⟨ready', bit⟩ := released_spec (scancode &&& ~~~0x80) ready
    refine ⟨_, if_pos breaks, ready', ?_⟩
    rw [if_neg make]
    simp only [left] at bit
    exact bit
  · obtain ⟨t, ran, ready', bit⟩ := pressed_spec scancode ready
    refine ⟨endOfInterrupt t, ?_, ready', ?_⟩
    · rw [if_neg breaks, ran]
      rfl
    · rw [if_neg (makeCode_shift scancode breaks)]
      exact bit

/-! ## The events -/

theorem deliver_bytes (bytes : List U8) {s : Keyboard} (ready : Serviceable s) :
    ∃ t, bytes.foldlM (fun s scancode => doKb scancode s) s = some t ∧ Serviceable t ∧
      shiftBit t = bytes.foldl (fun shift scancode => byteShift scancode shift) (shiftBit s) := by
  induction bytes generalizing s with
  | nil => exact ⟨s, rfl, ready, rfl⟩
  | cons scancode rest ih =>
    obtain ⟨t, ran, ready', bit⟩ := doKb_spec scancode ready
    obtain ⟨u, rest_ran, ready'', final⟩ := ih ready'
    refine ⟨u, ?_, ready'', ?_⟩
    · rw [List.foldlM_cons, ran]
      exact rest_ran
    · rw [List.foldl_cons, ← bit]
      exact final

/-- The bit after a list of events. -/
def bitAfter (events : List Event) (shift : Bool) : Bool :=
  events.foldl (fun shift event => eventShift event shift) shift

theorem bitAfter_eq (events : List Event) (shift : Bool) :
    (events.flatMap Event.bytes).foldl (fun shift scancode => byteShift scancode shift) shift =
      bitAfter events shift := by
  induction events generalizing shift with
  | nil => rfl
  | cons event rest ih =>
    rw [List.flatMap_cons, List.foldl_append, ih]
    rfl

theorem deliver_spec (events : List Event) {s : Keyboard} (ready : Serviceable s) :
    ∃ t, deliver events s = some t ∧ Serviceable t ∧ shiftBit t = bitAfter events (shiftBit s) := by
  obtain ⟨t, ran, ready', bit⟩ := deliver_bytes (events.flatMap Event.bytes) ready
  rw [bitAfter_eq] at bit
  exact ⟨t, ran, ready', bit⟩

theorem byteShift_makeCode (code : BitVec 7) (shift : Bool) :
    byteShift (makeCode code) shift = if code = 0x2a ∨ code = 0x36 then true else shift := by
  revert code shift
  decide

theorem byteShift_breakCode (code : BitVec 7) (shift : Bool) :
    byteShift (breakCode code) shift = if code = 0x2a then false else shift := by
  revert code shift
  decide

theorem byteShift_extended (shift : Bool) : byteShift 0xE0 shift = shift := rfl

theorem held_snoc (before : List Event) (event : Event) :
    held (before ++ [event]) = event.hold (held before) :=
  List.foldl_append

theorem bitAfter_snoc (before : List Event) (event : Event) (shift : Bool) :
    bitAfter (before ++ [event]) shift = eventShift event (bitAfter before shift) :=
  List.foldl_append

theorem shiftHeld_press (keys : Keys) (key : Key) :
    ShiftHeld ((Event.press key).hold keys) ↔
      key = leftShift ∨ key = rightShift ∨ ShiftHeld keys := by
  simp only [ShiftHeld, Event.hold, Function.update_apply]
  grind

theorem shiftHeld_release (keys : Keys) (key : Key) :
    ShiftHeld ((Event.release key).hold keys) ↔
      (key ≠ leftShift ∧ keys leftShift = true) ∨ (key ≠ rightShift ∧ keys rightShift = true) := by
  simp only [ShiftHeld, Event.hold, Function.update_apply]
  grind

theorem eventShift_press (code : BitVec 7) (shift : Bool) :
    eventShift (.press (.plain code)) shift = eventShift (.press (.extended code)) shift ∧
      (eventShift (.press (.plain code)) shift = true ↔
        code = 0x2a ∨ code = 0x36 ∨ shift = true) := by
  simp only [eventShift, Event.bytes, List.foldl_cons, List.foldl_nil, byteShift_makeCode,
    byteShift_extended]
  grind

theorem eventShift_release (code : BitVec 7) (shift : Bool) :
    eventShift (.release (.plain code)) shift = eventShift (.release (.extended code)) shift ∧
      (eventShift (.release (.plain code)) shift = true ↔ code ≠ 0x2a ∧ shift = true) := by
  simp only [eventShift, Event.bytes, List.foldl_cons, List.foldl_nil, byteShift_breakCode,
    byteShift_extended]
  grind

theorem eventShift_pause (shift : Bool) :
    eventShift (.press .pause) shift = shift ∧ eventShift (.release .pause) shift = shift :=
  ⟨rfl, rfl⟩

/-- From a bit that agrees with the keys, `Tracked` is exactly that it agrees again. -/
theorem tracked_iff (keys : Keys) (event : Event) :
    eventShift event (decide (ShiftHeld keys)) = decide (ShiftHeld (event.hold keys)) ↔
      Tracked keys event := by
  rw [Bool.eq_iff_iff, decide_eq_true_iff]
  cases event with
  | press key =>
    rw [shiftHeld_press]
    cases key with
    | plain code =>
      rw [(eventShift_press code _).2, decide_eq_true_iff]
      simp only [Tracked, leftShift, rightShift, Key.plain.injEq]
    | extended code =>
      rw [← (eventShift_press code _).1, (eventShift_press code _).2, decide_eq_true_iff]
      simp only [Tracked, leftShift, rightShift, reduceCtorEq, false_or]
      grind
    | pause => simp [(eventShift_pause _).1, Tracked, leftShift, rightShift]
  | release key =>
    rw [shiftHeld_release]
    cases key with
    | plain code =>
      rw [(eventShift_release code _).2, decide_eq_true_iff]
      simp only [Tracked, ShiftHeld, leftShift, rightShift, ne_eq, Key.plain.injEq]
      grind
    | extended code =>
      rw [← (eventShift_release code _).1, (eventShift_release code _).2, decide_eq_true_iff]
      simp only [Tracked, ShiftHeld, leftShift, rightShift, ne_eq, reduceCtorEq, not_false_eq_true,
        true_and]
      grind
    | pause =>
      rw [(eventShift_pause _).2, decide_eq_true_iff]
      simp [Tracked, ShiftHeld, leftShift, rightShift]

/-! ## Runs -/

/-- The bit agrees with the keys, and with no shift key down a letter is the unshifted one. -/
def ShiftFollows (keys : Keys) (s : Keyboard) : Prop :=
  (s.keyMode &&& kmLshift ≠ 0 ↔ ShiftHeld keys) ∧
    (¬ ShiftHeld keys → ∀ scancode, keytable scancode = .normal →
      doKb scancode s = (input (kbdus scancode) s).map endOfInterrupt)

theorem makes_of_normal (scancode : U8) (normal : keytable scancode = .normal) :
    ¬ scancode &&& 0x80 ≠ 0 := by
  revert scancode
  decide

theorem shiftFollows_iff (keys : Keys) (s : Keyboard) :
    ShiftFollows keys s ↔ shiftBit s = decide (ShiftHeld keys) := by
  have bit : shiftBit s = decide (ShiftHeld keys) ↔
      (s.keyMode &&& kmLshift ≠ 0 ↔ ShiftHeld keys) := by
    rw [Bool.eq_iff_iff, shiftBit, decide_eq_true_iff, decide_eq_true_iff]
  rw [bit]
  refine ⟨fun follows => follows.1, fun agrees => ⟨agrees, fun up scancode normal => ?_⟩⟩
  unfold doKb pressed
  rw [if_neg (makes_of_normal scancode normal), normal]
  dsimp only
  rw [if_neg fun set => up (agrees.mp set)]

/-- **Shift state.** From no modifier set and no key held, the bit follows the shift keys
after every event exactly when every event is one that keeps it. -/
theorem shift_follows_iff {s : Keyboard} (ready : Serviceable s) (clear : s.keyMode = 0)
    (events : List Event) :
    (∀ before, before <+: events → ∃ t, deliver before s = some t ∧ ShiftFollows (held before) t) ↔
      ∀ before event, before ++ [event] <+: events → Tracked (held before) event := by
  have start : shiftBit s = false := by simp [shiftBit, clear]
  have reached : ∀ before, (∃ t, deliver before s = some t ∧ ShiftFollows (held before) t) ↔
      bitAfter before false = decide (ShiftHeld (held before)) := by
    intro before
    obtain ⟨t, ran, -, bit⟩ := deliver_spec before ready
    rw [start] at bit
    simp only [ran, Option.some.injEq, exists_eq_left', shiftFollows_iff, bit]
  simp only [reached]
  constructor
  · intro follows before event within
    have agrees := follows before ((List.prefix_append _ _).trans within)
    have agrees' := follows (before ++ [event]) within
    rw [bitAfter_snoc, held_snoc, agrees] at agrees'
    exact (tracked_iff _ _).mp agrees'
  · intro tracked before within
    induction before using List.reverseRecOn with
    | nil => decide
    | append_singleton before event ih =>
      have agrees := ih ((List.prefix_append _ _).trans within)
      rw [bitAfter_snoc, held_snoc, agrees]
      exact (tracked_iff _ _).mpr (tracked before event within)

theorem boot_serviceable (console : Console) : Serviceable (boot console) :=
  have range : InRange Tty.mainTty.readQueue ∧ InRange Tty.mainTty.writeQueue :=
    ⟨⟨by decide, by decide⟩, ⟨by decide, by decide⟩⟩
  ⟨range.1, range.2, rfl⟩

/-- The left shift key around a letter keeps the bit right all the way. -/
theorem shift_follows_iff_left : ∃ s, Serviceable s ∧ s.keyMode = 0 ∧
    ∀ before, before <+: [.press leftShift, .press (.plain 0x1e), .release leftShift] →
      ∃ t, deliver before s = some t ∧ ShiftFollows (held before) t := by
  have ready := boot_serviceable (Console.boot fun _ => 0)
  refine ⟨boot (Console.boot fun _ => 0), ready, rfl, (shift_follows_iff ready rfl _).mpr ?_⟩
  intro before event within
  rcases before with _ | ⟨first, _ | ⟨second, _ | ⟨third, rest⟩⟩⟩
  all_goals simp at within
  · rw [within]
    trivial
  · rw [within.2]
    trivial
  · obtain ⟨rfl, rfl, rfl⟩ := within
    exact ⟨fun _ => rfl, fun same => absurd same (by decide)⟩

/-- The right shift key pressed and released leaves the bit set. -/
theorem rightShift_sticks : ∃ t,
    deliver [.press rightShift, .release rightShift] (boot (Console.boot fun _ => 0)) = some t ∧
      ¬ ShiftHeld (held [.press rightShift, .release rightShift]) ∧
      t.keyMode &&& kmLshift ≠ 0 ∧ ¬ ShiftFollows (held [.press rightShift, .release rightShift]) t := by
  refine ⟨_, rfl, by decide, by decide, ?_⟩
  intro follows
  exact absurd (follows.1.mp (by decide)) (by decide)

end BlessOS.Guarantees.ShiftState
