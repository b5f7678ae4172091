import Mathlib.Data.List.Induction

/-!
# Runs of a labelled transition system

A system is a relation `step s a t`: action `a` can take state `s` to `t`. A
guard `ok s a` says in which states an action is admitted. Every run invariant
of the development goes through `GuardedRun.invariant`, and every refinement of
a state machine that answers its calls through `outputs_refines`.
-/

set_option autoImplicit false

namespace BlessOS.Lib.Transition

variable {σ τ α β : Type*}

/-- A finite run in which every action was admitted by the guard in the state
it was taken in. The trivial guard gives all runs. -/
inductive GuardedRun (step : σ → α → σ → Prop) (ok : σ → α → Prop) : σ → List α → σ → Prop where
  | nil (s : σ) : GuardedRun step ok s [] s
  | snoc {s t u : σ} {actions : List α} {a : α}
      (run : GuardedRun step ok s actions t) (guard : ok t a) (next : step t a u) :
      GuardedRun step ok s (actions ++ [a]) u

/-- The guard that admits every action. -/
def always (_ : σ) (_ : α) : Prop := True

variable {step : σ → α → σ → Prop} {ok : σ → α → Prop}

/-- What each admitted step preserves holds at the end of a run. -/
theorem GuardedRun.invariant {s t : σ} {actions : List α} (I : σ → Prop)
    (preserved : ∀ s a t, I s → ok s a → step s a t → I t)
    (run : GuardedRun step ok s actions t) (initial : I s) : I t := by
  induction run with
  | nil => exact initial
  | snoc run guard next ih => exact preserved _ _ _ ih guard next

/-- The run of a list of actions by a partial function that only takes admitted steps. -/
theorem GuardedRun.of_foldlM {f : σ → α → Option σ}
    (sound : ∀ s a t, f s a = some t → ok s a ∧ step s a t) (actions : List α) {s t : σ}
    (ran : actions.foldlM f s = some t) : GuardedRun step ok s actions t := by
  induction actions using List.reverseRecOn generalizing t with
  | nil =>
    cases ran
    exact .nil s
  | append_singleton before a ih =>
    rw [List.foldlM_append] at ran
    obtain ⟨u, first, last⟩ := Option.bind_eq_some_iff.mp ran
    obtain ⟨guard, next⟩ := sound u a t (by simpa using last)
    exact .snoc (ih first) guard next

/-- A machine that answers each call: the state after a list of calls, and the
answers in order. -/
def outputs (call : σ → α → σ × β) : σ → List α → σ × List β
  | s, [] => (s, [])
  | s, a :: rest =>
    let next := call s a
    let final := outputs call next.1 rest
    (final.1, next.2 :: final.2)

/-- Forward simulation of answering machines: if related states answer every
call alike and stay related, whole runs answer alike and end related. -/
theorem outputs_refines (R : σ → τ → Prop) (concrete : σ → α → σ × β) (abstract : τ → α → τ × β)
    (simulates : ∀ s t a, R s t →
      (concrete s a).2 = (abstract t a).2 ∧ R (concrete s a).1 (abstract t a).1)
    (calls : List α) (s : σ) (t : τ) (related : R s t) :
    (outputs concrete s calls).2 = (outputs abstract t calls).2 ∧
      R (outputs concrete s calls).1 (outputs abstract t calls).1 := by
  induction calls generalizing s t with
  | nil => exact ⟨rfl, related⟩
  | cons a rest ih =>
    obtain ⟨answer, after⟩ := simulates s t a related
    obtain ⟨answers, final⟩ := ih _ _ after
    exact ⟨by simp only [outputs, answer, answers], final⟩

/-- One more call at the end of a list of calls. -/
theorem outputs_snoc (call : σ → α → σ × β) (calls : List α) (a : α) (s : σ) :
    outputs call s (calls ++ [a]) =
      ((call (outputs call s calls).1 a).1,
        (outputs call s calls).2 ++ [(call (outputs call s calls).1 a).2]) := by
  induction calls generalizing s with
  | nil => rfl
  | cons b rest ih => simp only [List.cons_append, outputs, ih]

/-- Forward simulation for runs whose calls a guard admits. -/
theorem GuardedRun.refines {s s' : σ} {t : τ} {calls : List α} (R : σ → τ → Prop)
    (concrete : σ → α → σ × β) (abstract : τ → α → τ × β)
    (simulates : ∀ s t a, R s t → ok s a →
      (concrete s a).2 = (abstract t a).2 ∧ R (concrete s a).1 (abstract t a).1)
    (run : GuardedRun (fun s a s' => (concrete s a).1 = s') ok s calls s') (related : R s t) :
    outputs concrete s calls = (s', (outputs abstract t calls).2) ∧
      R s' (outputs abstract t calls).1 := by
  induction run with
  | nil => exact ⟨rfl, related⟩
  | snoc run guard next ih =>
    obtain ⟨same, held⟩ := ih
    obtain ⟨answer, after⟩ := simulates _ _ _ held guard
    rw [outputs_snoc, outputs_snoc, same]
    subst next
    exact ⟨by rw [answer], after⟩

end BlessOS.Lib.Transition
