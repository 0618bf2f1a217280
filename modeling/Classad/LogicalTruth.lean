import Classad.OperatorProofs
import Classad.TreeWalk

/-! When an evaluation comes out true, as `&&`, `||`, `!` and `?:` understand it, and what
that says about the operands. -/
namespace Classad.LogicalTruth
open Syntax Operators OperatorProofs PartialRun TreeWalk

/-- The run answers with something that counts as true. -/
def Holds (run : Run Value) : Prop := ∃ value, run = .ok value ∧ logicalView value = .isTrue

theorem holds_ok : Holds (.ok value) ↔ logicalView value = .isTrue := by
  constructor
  · rintro ⟨_, same, view⟩
    cases same
    exact view
  · intro view
    exact ⟨value, rfl, view⟩

theorem holds_bind {next : Value → Run Value} :
    Holds (run >>= next) ↔ ∃ value, run = .ok value ∧ Holds (next value) := by
  cases run with
  | ok value => simp
  | panic => simp [Holds]
  | stuck => simp [Holds]

section
variable {recurse : Recurse} {ev : Evaluator} {first second third : Expr}

theorem holds_and : Holds (evaluateShortCircuit recurse ev .and first second) ↔
    Holds (recurse ev first) ∧ Holds (recurse ev second) := by
  rw [evaluateShortCircuit, holds_bind, Holds, ← exists_and_right]
  refine exists_congr fun left => ?_
  rw [and_assoc]
  refine and_congr_right fun _ => ?_
  cases view : logicalView left with
  | isTrue =>
    simp only [shortCircuit, view, reduceCtorEq, if_false, holds_bind, holds_ok, true_and]
    simp [applyBinaryValues, evaluateAnd, view, Holds]
  | isUndef =>
    simp only [shortCircuit, view, holds_bind, holds_ok, reduceCtorEq, false_and, iff_false]
    rintro ⟨right, _, holds⟩
    cases other : logicalView right <;> simp [applyBinaryValues, evaluateAnd, view, other] at holds
  | _ => simp [shortCircuit, view, holds_ok]

theorem holds_or : Holds (evaluateShortCircuit recurse ev .or first second) ↔ Holds (recurse ev first) ∨
      ∃ left, recurse ev first = .ok left ∧
        (logicalView left = .isFalse ∨ logicalView left = .isUndef) ∧ Holds (recurse ev second) := by
  rw [evaluateShortCircuit, holds_bind, Holds, ← exists_or]
  refine exists_congr fun left => ?_
  rw [← and_or_left]
  refine and_congr_right fun _ => ?_
  cases view : logicalView left with
  | isTrue | isErr => simp [shortCircuit, view, holds_ok]
  | isFalse =>
    simp only [shortCircuit, view, reduceCtorEq, if_false, holds_bind, holds_ok]
    simp [applyBinaryValues, evaluateOr, view, Holds]
  | isUndef =>
    simp only [shortCircuit, view, holds_bind, holds_ok, reduceCtorEq, or_true, false_or, true_and]
    refine exists_congr fun right => and_congr_right fun _ => ?_
    cases other : logicalView right <;> simp [applyBinaryValues, evaluateOr, view, other]

theorem holds_conditional : Holds (evaluateConditional recurse ev first second third) ↔
    (Holds (recurse ev first) ∧ Holds (recurse ev second)) ∨
      ∃ value, recurse ev first = .ok value ∧ logicalView value = .isFalse ∧ Holds (recurse ev third) := by
  have condition : Holds (recurse ev first) ↔ ∃ value, recurse ev first = .ok value ∧
    logicalView value = .isTrue := Iff.rfl
  rw [evaluateConditional, holds_bind, condition, ← exists_and_right, ← exists_or]
  refine exists_congr fun value => ?_
  rw [and_assoc, ← and_or_left]
  refine and_congr_right fun _ => ?_
  cases logicalView value <;> simp [holds_bind, holds_ok]

theorem holds_elvis : Holds (evaluateElvis recurse ev first second) ↔
    Holds (recurse ev first) ∨ (recurse ev first = .ok .undefined ∧ Holds (recurse ev second)) := by
  unfold evaluateElvis
  rw [holds_bind]
  constructor
  · rintro ⟨value, answered, holds⟩
    cases value with
    | undefined => exact .inr ⟨answered, holds⟩
    | _ => exact .inl ⟨_, answered, holds_ok.mp holds⟩
  · rintro (⟨value, answered, view⟩ | ⟨answered, holds⟩)
    · refine ⟨value, answered, ?_⟩
      cases value with
      | undefined => cases view
      | _ => exact holds_ok.mpr view
    · exact ⟨.undefined, answered, holds⟩

theorem holds_not : Holds (recurse ev first >>= fun value => .ok (applyUnaryValue .not value)) ↔
    ∃ value, recurse ev first = .ok value ∧ logicalView value = .isFalse := by
  rw [holds_bind]
  refine exists_congr fun value => and_congr_right fun _ => ?_
  rw [holds_ok]
  have viaView : logicalView (applyUnaryValue .not value) = .isTrue ↔ logicalView value = .isFalse := by
    cases view : logicalView value <;> cases value <;> simp_all [applyUnaryValue]
  exact viaView

end
end Classad.LogicalTruth
