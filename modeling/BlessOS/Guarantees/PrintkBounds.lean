import BlessOS.Guarantees.PrintkFormat

/-!
# Where `printk` reads and writes

An escape that the format ends in the middle of takes the NUL for its second character, and the
scan goes on behind it. Otherwise it looks at the format alone, and the last NUL is written at
the length of the expansion, which nothing compares with the size of the buffer.
-/

set_option autoImplicit false

namespace BlessOS.Guarantees.PrintkBounds
open BlessOS.Lib.ByteMemory BlessOS.Source BlessOS.Source.Console BlessOS.Source.Printk
  BlessOS.Guarantees.PrintkFormat

variable {m : Mem} {fmt stack : Addr} {n : Nat} {total text rest : List U8} {s : Scan}
  {buffer : Nat → U8}

/-- After any number of turns, no character behind the NUL was looked at, and nothing was
written, or is written by the last NUL, behind the buffer. -/
def Inside (m : Mem) (fmt : Addr) (n : Nat) (s : Scan) : Prop :=
  ∀ turns s', scan m fmt turns s = some s' →
    (∀ i ∈ s'.examined, i ≤ n) ∧ (∀ j ∈ s'.written, j < 1024) ∧
      (fmtAt m fmt s'.i = 0 → ∀ j ∈ (terminate s').written, j < 1024)

/-- The first half of an escape is left: the turn ends with a look behind the NUL. -/
theorem turn_overruns {c : U8} (reached : Reached m fmt n total s [c]) (escape : Escape c) :
    ∃ s', turn m fmt s = some s' ∧ n + 1 ∈ s'.examined := by
  obtain ⟨place, stored, -, -⟩ := reached
  have here : fmtAt m fmt s.i = c := stored.1
  have second : fmtAt m fmt (advance s).i = 0 := by
    rw [fmtAt, advance, ← address_next]
    exact stored.2.2
  have special : ¬ (c ≠ 0x25 ∧ c ≠ 0x5c) := fun plain => escape.elim plain.1 plain.2
  have behind : n + 1 = (advance s).i + 1 := by
    rw [← place]
    rfl
  rw [turn, if_neg (here ▸ stored.2.1), body, here, if_neg special]
  dsimp only
  rw [second, behind]
  by_cases backslash : c = 0x5c
  · rw [if_pos backslash]
    exact ⟨advance (advance s), rfl, List.mem_append_right _ (List.mem_singleton_self _)⟩
  · rw [if_neg backslash]
    exact ⟨advance (put 0 (advance s)), rfl, List.mem_append_right _ (List.mem_singleton_self _)⟩

/-- A format that ends in the middle of an escape is left behind. -/
theorem scan_overruns (reached : Reached m fmt n total s rest) (ends : endsInEscape rest = true) :
    ∃ turns s', scan m fmt turns s = some s' ∧ n + 1 ∈ s'.examined := by
  induction length : rest.length using Nat.strong_induction_on generalizing s rest with
  | h k ih =>
    by_cases whole : ∀ c, Escape c → rest ≠ [c]
    · obtain ⟨s₁, rest₁, first, reached, same, -, less⟩ := turn_reached reached whole
      have more : rest ≠ [] := by
        rintro rfl
        cases ends
      obtain ⟨turns, s₂, others, behind⟩ :=
        ih rest₁.length (length ▸ less more) reached (same.trans ends) rfl
      exact ⟨turns + 1, s₂, by rw [scan, first, Option.bind_some, others], behind⟩
    · push Not at whole
      obtain ⟨c, escape, rfl⟩ := whole
      obtain ⟨s', step, behind⟩ := turn_overruns reached escape
      exact ⟨1, s', by rw [scan, step]; rfl, behind⟩

/-- A state of the scan stays inside when the output is short. -/
theorem reached_inside (reached : Reached m fmt n total s rest) (short : total.length ≤ 1023) :
    (∀ i ∈ s.examined, i ≤ n) ∧ ∀ j ∈ (terminate s).written, j < 1024 := by
  obtain ⟨place, -, bounded, left, -, output⟩ := reached
  have length := sent_length s
  rw [← output, List.length_append] at short
  refine ⟨fun i member => ?_, fun j member => ?_⟩
  · have behind := bounded.examined i member
    omega
  · obtain old | new := List.mem_append.mp member
    · have inside := bounded.written j old
      omega
    · rw [List.mem_singleton.mp new]
      omega

/-- **Buffers of printk.** The scan stays in the format and the writes in the buffer if and only
if the format does not end in the middle of an escape and the expansion and its NUL fit. -/
theorem printk_inside_iff {format : List U8} {args : List Argument}
    (stored : Stored m (load32 m stack) format) (passed : Passed m (stack + 4) args)
    (expands : expansion (directives format) args = some text) :
    Inside m (load32 m stack) format.length (start stack buffer) ↔
      endsInEscape format = false ∧ text.length ≤ 1023 := by
  have begins := reached_start buffer stored ⟨args, passed, expands⟩
  constructor
  · intro inside
    have complete : endsInEscape format = false := by
      by_contra ends
      obtain ⟨turns, s, ran, behind⟩ := scan_overruns begins (Bool.not_eq_false _ ▸ ends)
      exact absurd ((inside turns s ran).1 _ behind) (Nat.not_succ_le_self _)
    refine ⟨complete, ?_⟩
    obtain ⟨s, rest, ran, reached, none⟩ := scan_reached format.length begins complete
    obtain rfl : rest = [] := List.length_eq_zero_iff.mp (by omega)
    obtain ⟨-, ended, -, left, ⟨args', -, nothing⟩, output⟩ := reached
    obtain rfl : [] = left := Option.some.inj nothing
    have last := (inside _ s ran).2.2 ended s.ptr
      (List.mem_append_right _ (List.mem_singleton_self _))
    rw [List.append_nil] at output
    rw [← output, sent_length]
    exact Nat.le_of_lt_succ last
  · rintro ⟨complete, short⟩ turns s ran
    obtain ⟨s', rest, same, reached, -⟩ := scan_reached turns begins complete
    obtain rfl : s' = s := Option.some.inj (same.symm.trans ran)
    obtain ⟨examined, written⟩ := reached_inside reached short
    exact ⟨examined, fun j member => written j (List.mem_append_left _ member), fun _ => written⟩

theorem printk_inside_iff_answer :
    Inside answer (load32 answer 0x200) 4 (start 0x200 fun _ => 0) := by
  have stored : Stored answer (load32 answer 0x200) [0x25, 0x64, 0x5c, 0x6e] :=
    ⟨by decide, by decide, by decide, by decide, by decide, by decide, by decide, by decide, rfl⟩
  have passed : Passed answer (0x200 + 4) [.word 42] := ⟨by decide, trivial⟩
  have expands : expansion (directives [0x25, 0x64, 0x5c, 0x6e]) [.word 42] =
      some [0x34, 0x32, 0x0a] := by
    decide
  exact (printk_inside_iff stored passed expands).mpr ⟨rfl, by decide⟩

/-- `printk(KPL_DUMP, "%")`, with `&fmt` at `0x200`. -/
def loneSign : Mem := fun a => ([(0x100, 0x25), (0x201, 0x01)].lookup a).getD 0

/-- The NUL is taken for the second character, and the character behind it is looked at. -/
theorem printk_behindNul :
    Stored loneSign (load32 loneSign 0x200) [0x25] ∧
      ¬ Inside loneSign (load32 loneSign 0x200) 1 (start 0x200 fun _ => 0) := by
  refine ⟨⟨by decide, by decide, rfl⟩, fun inside => ?_⟩
  have behind := (inside 1 _ rfl).1 2 (by decide)
  omega

end BlessOS.Guarantees.PrintkBounds
