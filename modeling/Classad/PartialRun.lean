import Mathlib.Data.List.Forall2
import Mathlib.Tactic.Common

/-! Computations that may raise a recoverable panic or end without an answer. Nothing
here mentions a particular program: the refinement order and its rules are what every
simulation between two interpreters below is built from. -/
namespace Classad.PartialRun

/-- How a bounded computation ends. A `panic` can be caught; `stuck` cannot, and says
that there is no answer: the bound was reached, or the computation broke down. -/
inductive Run (α : Type) where
  | ok (value : α)
  | panic
  | stuck
  deriving DecidableEq, Repr

namespace Run

protected def bind (run : Run α) (next : α → Run β) : Run β :=
  match run with
  | ok value => next value
  | panic => panic
  | stuck => stuck

instance : Monad Run where
  pure := ok
  bind := Run.bind

@[simp] theorem pure_eq (value : α) : (pure value : Run α) = ok value := rfl
@[simp] theorem ok_bind (value : α) (next : α → Run β) : (ok value >>= next) = next value := rfl
@[simp] theorem panic_bind (next : α → Run β) : (panic >>= next) = panic := rfl
@[simp] theorem stuck_bind (next : α → Run β) : (stuck >>= next) = stuck := rfl

/-- Catch a panic, and only a panic, with a fallback value. -/
def recover (fallback : α) : Run α → Run α
  | panic => ok fallback
  | run => run

@[simp] theorem recover_ok (fallback value : α) : (ok value).recover fallback = ok value := rfl
@[simp] theorem recover_panic (fallback : α) : panic.recover fallback = ok fallback := rfl

/-- Whether a run has an answer, for runs that can be evaluated. -/
def answers : Run α → Bool
  | stuck => false
  | _ => true

theorem ne_stuck_of_answers (answered : run.answers = true) : run ≠ stuck := by
  rintro rfl
  cases answered

/-- Run an action on every element from left to right, stopping at the first failure. -/
def traverse (action : α → Run β) : List α → Run (List β)
  | [] => ok []
  | head :: rest => do
    let first ← action head
    let others ← traverse action rest
    ok (first :: others)

/-- The left run is matched by the right one: unless the left run has no answer, both
end the same way and their answers are related. -/
inductive Refines (related : α → β → Prop) : Run α → Run β → Prop where
  | stuck : Refines related .stuck right
  | panic : Refines related .panic .panic
  | ok : related left right → Refines related (.ok left) (.ok right)

variable {related : α → β → Prop} {related' : γ → δ → Prop} {next : α → Run γ}

theorem Refines.bind
    (first : Refines related left right) (rest : ∀ a b, related a b → Refines related' (next a) (next' b)) :
    Refines related' (left >>= next) (right >>= next') := by
  cases first with
  | stuck => exact .stuck
  | panic => exact .panic
  | ok holds => exact rest _ _ holds

/-- What follows may use what the right run answered. -/
theorem Refines.bind_run
    (first : Refines related left right) (rest : ∀ a b, right = .ok b → related a b →
      Refines related' (next a) (next' b)) :
    Refines related' (left >>= next) (right >>= next') := by
  cases first with
  | stuck => exact .stuck
  | panic => exact .panic
  | ok holds => exact rest _ _ rfl holds

/-- The right run has answered already; only the left one goes on. -/
theorem Refines.bind_ok
    (first : Refines related left (.ok answer)) (rest : ∀ a, related a answer → Refines related' (next a) right) :
    Refines related' (left >>= next) right := by
  cases first with
  | stuck => exact .stuck
  | ok holds => exact rest _ holds

/-- The left run goes on after the right one has answered. -/
theorem Refines.bind_same {related' : γ → β → Prop}
    (first : Refines related left right) (rest : ∀ a b, related a b → Refines related' (next a) (.ok b)) :
    Refines related' (left >>= next) right := by
  cases first with
  | stuck => exact .stuck
  | panic => exact .panic
  | ok holds => exact rest _ _ holds

theorem Refines.mono {related' : α → β → Prop}
    (first : Refines related left right) (weaker : ∀ a b, related a b → related' a b) :
    Refines related' left right := by
  cases first with
  | stuck => exact .stuck
  | panic => exact .panic
  | ok holds => exact .ok (weaker _ _ holds)

theorem Refines.recover (caught : related fallback fallback') (first : Refines related left right) :
    Refines related (left.recover fallback) (right.recover fallback') := by
  cases first with
  | stuck => exact .stuck
  | panic => exact .ok caught
  | ok holds => exact .ok holds

theorem Refines.traverse
    (elements : List.Forall₂ related left right) (each : ∀ a b, related a b → Refines related' (action a) (action' b)) :
    Refines (List.Forall₂ related') (Run.traverse action left) (Run.traverse action' right) := by
  induction elements with
  | nil => exact .ok .nil
  | cons head _ ih =>
    refine (each _ _ head).bind fun a b first => ?_
    exact ih.bind fun as bs rest => .ok (.cons first rest)

/-- A matched answer: what the left run returned, the right run returned up to the relation. -/
theorem Refines.ok_inv (refines : Refines related left right) (returned : left = .ok value) :
    ∃ value', right = .ok value' ∧ related value value' := by
  subst returned
  cases refines with
  | ok holds => exact ⟨_, rfl, holds⟩

end Run
end Classad.PartialRun
