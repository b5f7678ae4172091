import BlessOS.Lib.LinkedChain

/-!
# Doubly linked chains and rings

A `Segment` is a run of nodes that are linked both ways, between what stands before its
first node and behind its last. A chain that ends in null at both ends and a ring are
segments with particular ends, and a node is taken out of either by linking its neighbours
to each other.
-/

set_option autoImplicit false

namespace BlessOS.Lib.DoublyLinked
open BlessOS.Lib.LinkedChain

variable {ν : Type*} {next prev next' prev' : ν → ν} {null head tail before last x : ν}
  {nodes l l' : List ν}

/-- From `head` on the nodes follow one another, and then `tail`; back from `tail` the first
is `last`, and the one before the first node is `before`. -/
def Segment (next prev : ν → ν) : ν → ν → List ν → ν → ν → Prop
  | before, head, [], last, tail => before = last ∧ head = tail
  | before, head, x :: rest, last, tail =>
    head = x ∧ prev x = before ∧ Segment next prev x (next x) rest last tail

/-- The links of a segment can be checked one by one. -/
instance Segment.decidable [DecidableEq ν] (next prev : ν → ν) :
    ∀ before head nodes last tail, Decidable (Segment next prev before head nodes last tail)
  | before, head, [], last, tail => inferInstanceAs (Decidable (before = last ∧ head = tail))
  | before, head, x :: rest, last, tail =>
    have := Segment.decidable next prev x (next x) rest last tail
    inferInstanceAs (Decidable
      (head = x ∧ prev x = before ∧ Segment next prev x (next x) rest last tail))

namespace Segment

theorem append_iff : Segment next prev before head (l ++ l') last tail ↔
    ∃ m t, Segment next prev before head l m t ∧ Segment next prev m t l' last tail := by
  induction l generalizing before head with
  | nil =>
    constructor
    · intro seg
      exact ⟨before, head, ⟨rfl, rfl⟩, seg⟩
    · rintro ⟨_, _, ⟨rfl, rfl⟩, seg⟩
      exact seg
  | cons x rest ih =>
    constructor
    · rintro ⟨first, back, seg⟩
      obtain ⟨m, t, left, right⟩ := ih.mp seg
      exact ⟨m, t, ⟨first, back, left⟩, right⟩
    · rintro ⟨m, t, ⟨first, back, left⟩, right⟩
      exact ⟨first, back, ih.mpr ⟨m, t, left, right⟩⟩

/-- A segment depends on the links of its own nodes. -/
theorem congr (seg : Segment next prev before head nodes last tail)
    (forward : ∀ y ∈ nodes, next' y = next y) (backward : ∀ y ∈ nodes, prev' y = prev y) :
    Segment next' prev' before head nodes last tail := by
  induction nodes generalizing before head with
  | nil => exact seg
  | cons x rest ih =>
    obtain ⟨first, back, later⟩ := seg
    have step := ih later (fun y member => forward y (List.mem_cons_of_mem _ member))
      fun y member => backward y (List.mem_cons_of_mem _ member)
    refine ⟨first, (backward x List.mem_cons_self).trans back, ?_⟩
    rw [forward x List.mem_cons_self]
    exact step

theorem last_mem (seg : Segment next prev before head nodes last tail) (some : nodes ≠ []) :
    last ∈ nodes := by
  induction nodes generalizing before head with
  | nil => exact absurd rfl some
  | cons x rest ih =>
    obtain ⟨-, -, later⟩ := seg
    cases rest with
    | nil => exact later.1 ▸ List.mem_cons_self
    | cons y more => exact List.mem_cons_of_mem _ (ih later (List.cons_ne_nil _ _))

theorem head_mem (seg : Segment next prev before head nodes last tail) (some : nodes ≠ []) :
    head ∈ nodes := by
  cases nodes with
  | nil => exact absurd rfl some
  | cons x rest => exact seg.1 ▸ List.mem_cons_self

/-- Another node is linked in front of a segment. -/
theorem set_before {before' : ν} (seg : Segment next prev before head nodes last tail)
    (some : nodes ≠ []) (nodup : nodes.Nodup) (linked : prev' head = before')
    (others : ∀ y ∈ nodes, y ≠ head → prev' y = prev y) :
    Segment next prev' before' head nodes last tail := by
  cases nodes with
  | nil => exact absurd rfl some
  | cons x rest =>
    obtain ⟨rfl, -, later⟩ := seg
    refine ⟨rfl, linked, later.congr (fun _ _ => rfl) fun y member => ?_⟩
    refine others y (List.mem_cons_of_mem _ member) ?_
    rintro rfl
    exact (List.nodup_cons.mp nodup).1 member

/-- Another node is linked behind a segment. -/
theorem set_tail {tail' : ν} (seg : Segment next prev before head nodes last tail)
    (some : nodes ≠ []) (nodup : nodes.Nodup) (linked : next' last = tail')
    (others : ∀ y ∈ nodes, y ≠ last → next' y = next y) :
    Segment next' prev before head nodes last tail' := by
  induction nodes generalizing before head with
  | nil => exact absurd rfl some
  | cons x rest ih =>
    obtain ⟨first, back, later⟩ := seg
    refine ⟨first, back, ?_⟩
    cases rest with
    | nil =>
      obtain ⟨rfl, -⟩ := later
      exact ⟨rfl, linked⟩
    | cons y more =>
      have apart := (List.nodup_cons.mp nodup).1
      have other : x ≠ last := fun same =>
        apart (same ▸ later.last_mem (List.cons_ne_nil _ _))
      rw [others x List.mem_cons_self other]
      exact ih later (List.cons_ne_nil _ _) (List.nodup_cons.mp nodup).2
        fun z member => others z (List.mem_cons_of_mem _ member)

/-- The nodes of a segment that ends in null are a chain. -/
theorem chain (seg : Segment next prev before head nodes last null)
    (proper : ∀ y ∈ nodes, y ≠ null) : Chain next null head nodes := by
  induction nodes generalizing before head with
  | nil => exact seg.2
  | cons x rest ih =>
    obtain ⟨first, -, later⟩ := seg
    exact ⟨first, proper x List.mem_cons_self,
      ih later fun y member => proper y (List.mem_cons_of_mem _ member)⟩

end Segment

/-- A link of `y` is written, unless `y` is null. -/
def setLink [DecidableEq ν] (null : ν) (link : ν → ν) (y value : ν) : ν → ν :=
  if y ≠ null then Function.update link y value else link

section SetLink
variable [DecidableEq ν] {link : ν → ν} {y value : ν}

theorem setLink_at (some : y ≠ null) : setLink null link y value y = value := by
  rw [setLink, if_pos some, Function.update_self]

theorem setLink_of_ne (other : x ≠ y) : setLink null link y value x = link x := by
  unfold setLink
  split
  · exact Function.update_of_ne other value link
  · rfl

/-- Where the value stands already, a write of it changes nothing. -/
theorem update_same (holds : link x = value) : Function.update link y value x = value := by
  rw [Function.update_apply]
  split
  · rfl
  · exact holds

theorem setLink_same (holds : link x = value) : setLink null link y value x = value := by
  unfold setLink
  split
  · exact update_same holds
  · exact holds

end SetLink

/-- A node that following `next` from `head` comes to before null. -/
inductive Reaches (next : ν → ν) (null : ν) : ν → ν → Prop
  | here {x : ν} (proper : x ≠ null) : Reaches next null x x
  | later {head x : ν} (proper : head ≠ null) (reaches : Reaches next null (next head) x) :
    Reaches next null head x

/-- What is reached stays among nodes that `next` does not lead out of. -/
theorem Reaches.mem (reaches : Reaches next null head x) (start : head = null ∨ head ∈ nodes)
    (closed : ∀ y ∈ nodes, next y = null ∨ next y ∈ nodes) : x ∈ nodes := by
  induction reaches with
  | here proper => exact start.resolve_left proper
  | later proper _ ih => exact ih (closed _ (start.resolve_left proper))

/-! ## Chains -/

/-- A doubly linked chain with null at both ends. -/
structure DoubleChain (next prev : ν → ν) (null head : ν) (nodes : List ν) : Prop where
  proper : ∀ y ∈ nodes, y ≠ null
  linked : ∃ last, Segment next prev null head nodes last null

namespace DoubleChain

theorem chain (double : DoubleChain next prev null head nodes) : Chain next null head nodes := by
  obtain ⟨last, seg⟩ := double.linked
  exact seg.chain double.proper

theorem nodup (double : DoubleChain next prev null head nodes) : nodes.Nodup := double.chain.nodup

theorem congr (double : DoubleChain next prev null head nodes)
    (forward : ∀ y ∈ nodes, next' y = next y) (backward : ∀ y ∈ nodes, prev' y = prev y) :
    DoubleChain next' prev' null head nodes := by
  obtain ⟨last, seg⟩ := double.linked
  exact ⟨double.proper, last, seg.congr forward backward⟩

theorem head_mem (double : DoubleChain next prev null head nodes) :
    head = null ∨ head ∈ nodes := by
  obtain ⟨last, seg⟩ := double.linked
  by_cases none : nodes = []
  · subst none
    exact Or.inl seg.2
  · exact Or.inr (seg.head_mem none)

theorem next_mem (double : DoubleChain next prev null head nodes) (member : x ∈ nodes) :
    next x = null ∨ next x ∈ nodes := by
  obtain ⟨l, l', rfl⟩ := List.append_of_mem member
  obtain ⟨last, seg⟩ := double.linked
  obtain ⟨m, t, -, rfl, -, right⟩ := Segment.append_iff.mp seg
  by_cases none : l' = []
  · subst none
    exact Or.inl right.2
  · exact Or.inr (List.mem_append_right _ (List.mem_cons_of_mem _ (right.head_mem none)))

theorem prev_mem (double : DoubleChain next prev null head nodes) (member : x ∈ nodes) :
    prev x = null ∨ prev x ∈ nodes := by
  obtain ⟨l, l', rfl⟩ := List.append_of_mem member
  obtain ⟨last, seg⟩ := double.linked
  obtain ⟨m, t, left, rfl, back, -⟩ := Segment.append_iff.mp seg
  rw [back]
  by_cases none : l = []
  · subst none
    exact Or.inl left.1.symm
  · exact Or.inr (List.mem_append_left _ (left.last_mem none))

/-- A node is taken out, wherever it stands, when its neighbours are linked to each other. -/
theorem unlink [DecidableEq ν] (double : DoubleChain next prev null head (l ++ x :: l'))
    (skip : prev x ≠ null → next' (prev x) = next x)
    (back : next x ≠ null → prev' (next x) = prev x)
    (nexts : ∀ y, y ≠ prev x → next' y = next y) (prevs : ∀ y, y ≠ next x → prev' y = prev y) :
    DoubleChain next' prev' null (if head = x then next x else head) (l ++ l') := by
  have nodup := double.nodup
  have apart := List.disjoint_of_nodup_append nodup
  have nodup_left := (List.nodup_append.mp nodup).1
  have nodup_right := (List.nodup_cons.mp (List.nodup_append.mp nodup).2.1).2
  obtain ⟨proper, last, seg⟩ := double
  obtain ⟨m, t, left, rfl, rfl, right⟩ := Segment.append_iff.mp seg
  refine ⟨fun y member => proper y ?_, ?_⟩
  · rcases List.mem_append.mp member with member | member
    · exact List.mem_append_left _ member
    · exact List.mem_append_right _ (List.mem_cons_of_mem _ member)
  -- what stands before the node: nothing, or a node that gets a new successor
  have left' : Segment next' prev' null (if head = t then next t else head) l (prev t)
      (next t) := by
    cases l with
    | nil =>
      obtain ⟨ends, rfl⟩ := left
      rw [if_pos rfl]
      exact ⟨ends, rfl⟩
    | cons y more =>
      have some := List.cons_ne_nil y more
      have head_other : head ≠ t := fun same =>
        apart (left.head_mem some) (same ▸ List.mem_cons_self)
      have before_mem := left.last_mem some
      rw [if_neg head_other]
      refine (left.set_tail some nodup_left (skip (proper _ (List.mem_append_left _ before_mem)))
        fun z _ other => nexts z other).congr (fun _ _ => rfl) fun z member => prevs z ?_
      rintro rfl
      cases l' with
      | nil => exact proper _ (List.mem_append_left _ member) right.2
      | cons w rest =>
        exact apart member
          (List.mem_cons_of_mem _ (right.head_mem (List.cons_ne_nil _ _)))
  cases l' with
  | nil =>
    refine ⟨prev t, Segment.append_iff.mpr ⟨prev t, next t, left', rfl, right.2⟩⟩
  | cons w rest =>
    have some := List.cons_ne_nil w rest
    have after_mem := right.head_mem some
    refine ⟨last, Segment.append_iff.mpr ⟨prev t, next t, left', ?_⟩⟩
    refine (right.set_before some nodup_right
      (back (proper _ (List.mem_append_right _ (List.mem_cons_of_mem _ after_mem))))
      fun z _ other => prevs z other).congr (fun z member => nexts z ?_) fun _ _ => rfl
    rintro rfl
    cases l with
    | nil =>
      exact proper _ (List.mem_append_right _ (List.mem_cons_of_mem _ member)) left.1.symm
    | cons y more =>
      exact apart (left.last_mem (List.cons_ne_nil _ _)) (List.mem_cons_of_mem _ member)

end DoubleChain

/-! ## Rings -/

/-- A ring of nodes, read from `head` once around. -/
structure Ring (next prev : ν → ν) (head : ν) (nodes : List ν) : Prop where
  some : nodes ≠ []
  nodup : nodes.Nodup
  linked : ∃ last, Segment next prev last head nodes last head

namespace Ring

/-- The ring read from another of its nodes on. -/
theorem rotate (ring : Ring next prev head (l ++ x :: l')) :
    Ring next prev x (x :: (l' ++ l)) := by
  obtain ⟨-, nodup, last, seg⟩ := ring
  obtain ⟨m, t, left, rfl, back, right⟩ := Segment.append_iff.mp seg
  have later : Segment next prev t (next t) (l' ++ l) m t :=
    Segment.append_iff.mpr ⟨last, head, right, left⟩
  exact ⟨List.cons_ne_nil _ _, List.perm_append_comm.nodup_iff.mp nodup, m, rfl, back, later⟩

/-- Around the ring from `x`, the last node is the one before `x` and the first one after. -/
theorem around (ring : Ring next prev head (x :: l)) :
    head = x ∧ Segment next prev x (next x) l (prev x) x := by
  obtain ⟨-, -, last, rfl, rfl, later⟩ := ring
  exact ⟨rfl, later⟩

theorem neighbours_mem (ring : Ring next prev head nodes) (member : x ∈ nodes) :
    next x ∈ nodes ∧ prev x ∈ nodes := by
  obtain ⟨l, l', rfl⟩ := List.append_of_mem member
  have around := ring.rotate.around.2
  have same : ∀ y, y ∈ l' ++ l → y ∈ l ++ x :: l' := by
    intro y there
    rcases List.mem_append.mp there with there | there
    · exact List.mem_append_right _ (List.mem_cons_of_mem _ there)
    · exact List.mem_append_left _ there
  by_cases alone : l' ++ l = []
  · rw [alone] at around
    rw [around.2, ← around.1]
    exact ⟨member, member⟩
  · exact ⟨same _ (around.head_mem alone), same _ (around.last_mem alone)⟩

theorem head_mem (ring : Ring next prev head nodes) : head ∈ nodes := by
  obtain ⟨some, -, last, seg⟩ := ring
  exact seg.head_mem some

/-- A node is its own successor exactly when it is alone. -/
theorem next_self_iff (ring : Ring next prev head (l ++ x :: l')) :
    next x = x ↔ l ++ l' = [] := by
  have nodup := List.nodup_cons.mp ring.rotate.nodup
  have around := ring.rotate.around.2
  constructor
  · intro self
    by_contra other
    have some : l' ++ l ≠ [] := fun none => other (by
      obtain ⟨rfl, rfl⟩ := List.append_eq_nil_iff.mp none
      rfl)
    have first := around.head_mem some
    rw [self] at first
    exact nodup.1 first
  · intro alone
    obtain ⟨rfl, rfl⟩ := List.append_eq_nil_iff.mp alone
    exact around.2

/-- A node that is not alone is taken out when its neighbours are linked to each other. -/
theorem unlink [DecidableEq ν] (ring : Ring next prev head (l ++ x :: l')) (other : next x ≠ x)
    (skip : next' (prev x) = next x) (back : prev' (next x) = prev x)
    (nexts : ∀ y, y ≠ prev x → next' y = next y) (prevs : ∀ y, y ≠ next x → prev' y = prev y) :
    Ring next' prev' (if head = x then next x else head) (l ++ l') := by
  have some : l' ++ l ≠ [] := fun none => other (ring.next_self_iff.mpr (by
    obtain ⟨rfl, rfl⟩ := List.append_eq_nil_iff.mp none
    rfl))
  have rotated := ring.rotate
  have nodup := (List.nodup_cons.mp rotated.nodup).2
  have around := rotated.around.2
  -- the ring without the node, read from its successor on
  have rest : Ring next' prev' (next x) (l' ++ l) := by
    refine ⟨some, nodup, prev x, ?_⟩
    have joined := around.set_before some nodup back fun y _ apart => prevs y apart
    exact joined.set_tail some nodup skip fun y _ apart => nexts y apart
  cases l with
  | nil =>
    have first : head = x := ring.around.1
    rw [List.append_nil] at rest
    rw [if_pos first]
    exact rest
  | cons y more =>
    have first : head = y := ring.around.1
    have apart : y ≠ x := fun same =>
      (List.nodup_cons.mp ring.nodup).1 (same ▸ List.mem_append_right _ List.mem_cons_self)
    rw [first, if_neg apart]
    have turned := rest.rotate
    exact turned

end Ring

end BlessOS.Lib.DoublyLinked
