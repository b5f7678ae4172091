import Mathlib.Logic.Function.Basic
import Mathlib.Data.List.Nodup

/-!
# Null-terminated chains of linked nodes

Nodes live in a store and name their successor; `Chain next null head nodes`
says that following `next` from `head` visits exactly `nodes` and then meets
`null`. A chain is determined by its head, visits no node twice and depends only
on the successors of its own nodes. `traverse` is the loop that runs over a chain
with an effect on the store; it needs a bound because a cyclic store has no end.
-/

set_option autoImplicit false

namespace BlessOS.Lib.LinkedChain

variable {ν σ : Type*}

def Chain (next : ν → ν) (null : ν) : ν → List ν → Prop
  | head, [] => head = null
  | head, x :: rest => head = x ∧ x ≠ null ∧ Chain next null (next x) rest

/-- The nodes from a head on can be checked one by one. -/
instance Chain.decidable [DecidableEq ν] (next : ν → ν) (null : ν) :
    ∀ head nodes, Decidable (Chain next null head nodes)
  | head, [] => inferInstanceAs (Decidable (head = null))
  | head, x :: rest =>
    have := Chain.decidable next null (next x) rest
    inferInstanceAs (Decidable (head = x ∧ x ≠ null ∧ Chain next null (next x) rest))

variable {next next' : ν → ν} {null head : ν} {nodes : List ν}

theorem Chain.unique {other : List ν} (left : Chain next null head nodes)
    (right : Chain next null head other) : nodes = other := by
  induction nodes generalizing head other with
  | nil =>
    cases other with
    | nil => rfl
    | cons y rest => exact absurd (right.1.symm.trans left) right.2.1
  | cons x rest ih =>
    cases other with
    | nil => exact absurd (left.1.symm.trans right) left.2.1
    | cons y tail =>
      obtain ⟨rfl, _, after⟩ := left
      obtain ⟨rfl, _, after'⟩ := right
      rw [ih after after']

theorem Chain.ne_null (chain : Chain next null head nodes) : ∀ x ∈ nodes, x ≠ null := by
  induction nodes generalizing head with
  | nil => intro x member; cases member
  | cons y rest ih =>
    intro x member
    rcases List.mem_cons.mp member with rfl | member
    · exact chain.2.1
    · exact ih chain.2.2 x member

/-- The part of a chain from one of its nodes on is the chain of that node. -/
theorem Chain.suffix {before after : List ν} {x : ν}
    (chain : Chain next null head (before ++ x :: after)) : Chain next null x (x :: after) := by
  induction before generalizing head with
  | nil => exact ⟨rfl, chain.2.1, chain.2.2⟩
  | cons y rest ih => exact ih chain.2.2

/-- A chain visits no node twice: two visits would have the same finite rest. -/
theorem Chain.nodup (chain : Chain next null head nodes) : nodes.Nodup := by
  induction nodes generalizing head with
  | nil => exact List.nodup_nil
  | cons x rest ih =>
    refine List.nodup_cons.mpr ⟨?_, ih chain.2.2⟩
    intro again
    obtain ⟨before, after, rfl⟩ := List.append_of_mem again
    have first : Chain next null x (x :: (before ++ x :: after)) := ⟨rfl, chain.2.1, chain.2.2⟩
    have second : Chain next null x (x :: after) := chain.2.2.suffix
    have same := congrArg List.length (first.unique second)
    simp only [List.length_cons, List.length_append] at same
    omega

/-- A chain only depends on the successors of its nodes. -/
theorem Chain.congr (chain : Chain next null head nodes)
    (same : ∀ x ∈ nodes, next' x = next x) : Chain next' null head nodes := by
  induction nodes generalizing head with
  | nil => exact chain
  | cons x rest ih =>
    refine ⟨chain.1, chain.2.1, ?_⟩
    rw [same x List.mem_cons_self]
    exact ih chain.2.2 fun y member => same y (List.mem_cons_of_mem x member)

/-- Splicing a fresh node in after a node of the chain. -/
theorem Chain.insert [DecidableEq ν] {before after : List ν} {at' fresh : ν}
    (chain : Chain next null head (before ++ at' :: after))
    (absent : fresh ∉ before ++ at' :: after) (proper : fresh ≠ null) :
    Chain (Function.update (Function.update next fresh (next at')) at' fresh) null head
      (before ++ at' :: fresh :: after) := by
  have nodup := chain.nodup
  induction before generalizing head with
  | nil =>
    have fresh_ne : fresh ≠ at' := fun same => absent (by simp [same])
    have tail : Chain (Function.update (Function.update next fresh (next at')) at' fresh) null
        (next at') after := by
      refine chain.2.2.congr fun x member => ?_
      have ne_at : x ≠ at' := fun same => (List.nodup_cons.mp nodup).1 (same ▸ member)
      have ne_fresh : x ≠ fresh := fun same => absent (same ▸ List.mem_cons_of_mem _ member)
      rw [Function.update_of_ne ne_at, Function.update_of_ne ne_fresh]
    refine ⟨chain.1, chain.2.1, ?_⟩
    rw [Function.update_self]
    refine ⟨rfl, proper, ?_⟩
    rw [Function.update_of_ne fresh_ne, Function.update_self]
    exact tail
  | cons x rest ih =>
    have ne_at : x ≠ at' := fun same =>
      (List.nodup_cons.mp nodup).1 (by rw [same]; exact List.mem_append_right _ List.mem_cons_self)
    have ne_fresh : x ≠ fresh := fun same => absent (same ▸ List.mem_cons_self)
    refine ⟨chain.1, chain.2.1, ?_⟩
    rw [Function.update_of_ne ne_at, Function.update_of_ne ne_fresh]
    exact ih chain.2.2 (fun member => absent (List.mem_cons_of_mem x member))
      (List.nodup_cons.mp nodup).2

/-- `for (v = head; v; v = next(v)) body(v)`, with the successor read after the
body has run; `none` when the bound is used up. -/
def traverse [DecidableEq ν] (null : ν) (next : σ → ν → ν) (body : σ → ν → σ) :
    Nat → ν → σ → Option σ
  | 0, _, _ => none
  | bound + 1, v, s =>
    if v = null then some s
    else traverse null next body bound (next (body s v) v) (body s v)

/-- What the body keeps at every node holds when the loop has ended. -/
theorem traverse_invariant [DecidableEq ν] {next : σ → ν → ν} {body : σ → ν → σ} (I : σ → Prop)
    (keeps : ∀ s v, v ≠ null → I s → I (body s v)) {bound : Nat} {head : ν} {s t : σ}
    (ended : traverse null next body bound head s = some t) (initial : I s) : I t := by
  induction bound generalizing head s with
  | zero => cases ended
  | succ bound ih =>
    unfold traverse at ended
    split at ended
    · cases ended
      exact initial
    · next proper => exact ih ended (keeps s head proper initial)

/-- Over a chain whose links the body leaves alone, the loop ends and is the fold
of the body over the nodes. -/
theorem traverse_eq_foldl [DecidableEq ν] {next : σ → ν → ν} {body : σ → ν → σ} {s : σ}
    (keeps : ∀ s v x, next (body s v) x = next s x) (chain : Chain (next s) null head nodes)
    {bound : Nat} (enough : nodes.length < bound) :
    traverse null next body bound head s = some (nodes.foldl body s) := by
  induction nodes generalizing head s bound with
  | nil =>
    obtain ⟨bound, rfl⟩ := Nat.exists_eq_add_one_of_ne_zero (Nat.ne_of_gt enough)
    simp only [traverse, show head = null from chain, if_true, List.foldl_nil]
  | cons x rest ih =>
    obtain ⟨bound, rfl⟩ := Nat.exists_eq_add_one_of_ne_zero (Nat.ne_of_gt (Nat.zero_lt_of_lt enough))
    obtain ⟨rfl, proper, after⟩ := chain
    have same : next (body s head) = next s := funext (keeps s head)
    simp only [traverse, if_neg proper, List.foldl_cons, same]
    refine ih ?_ (by simpa using enough)
    rw [same]
    exact after

end BlessOS.Lib.LinkedChain
