import Classad.FloatOrder
import Classad.OperatorProofs
import Classad.ProbeFolding
import Classad.QueryProbe

/-! The comparison identities probe extraction relies on: swapping operands flips the
comparison, and so does negating it -- for the orderings, away from NaN. -/
namespace Classad.ProbeComparisons
open Syntax Operators OperatorProofs ProbeFolding QueryProbe

theorem compareBytesFold_swap (a b : List UInt8) : compareBytesFold b a = (compareBytesFold a b).swap := by
  induction a generalizing b with
  | nil => cases b <;> rfl
  | cons x xs ih =>
    cases b with
    | nil => rfl
    | cons y ys =>
      simp only [compareBytesFold]
      by_cases less : lowerASCII x < lowerASCII y
      · have notGreater : ¬lowerASCII y < lowerASCII x := UInt8.lt_asymm less
        simp [less, notGreater]
      · by_cases greater : lowerASCII y < lowerASCII x
        · simp [less, greater]
        · simp [less, greater, ih ys]

theorem compareStringsFold_swap (a b : String) : compareStringsFold b a = (compareStringsFold a b).swap :=
  compareBytesFold_swap _ _

variable {onReals onReals' : Float → Float → Bool} {onStrings onStrings' : Ordering → Bool}

/-- Swapping the operands of an ordering comparison swaps what it asks of them. -/
theorem ordering_swap
    (reals : ∀ l r, onReals' r l = onReals l r) (strings : ∀ order, onStrings' order.swap = onStrings order)
    (left right : Value) : ordering onReals' onStrings' right left = ordering onReals onStrings left right := by
  cases left <;> cases right <;>
    simp [ordering, Value.isUndefined, numericOperand, reals, ← strings, ← compareStringsFold_swap]

theorem valuesEqual_comm (left right : Value) : valuesEqual left right = valuesEqual right left := by
  have bools : ∀ a b : Bool, (a == b) = (b == a) := by decide
  have ints : ∀ a b : Int64, (a == b) = (b == a) := fun a b => by
    rw [Bool.eq_iff_iff, beq_iff_eq, beq_iff_eq, eq_comm]
  have strings : ∀ a b : String, (compareStringsFold a b == .eq) = (compareStringsFold b a == .eq) := by
    intro a b
    rw [compareStringsFold_swap a b]
    cases compareStringsFold a b <;> rfl
  cases left <;> cases right <;>
    simp [valuesEqual, Value.isUndefined, numericOperand, bools, ints, strings, Numeric.toReal,
      FloatOrder.beq_comm]

theorem evaluateIs_comm (left right : Value) : evaluateIs left right = evaluateIs right left := by
  have ints : ∀ a b : Int64, (a == b) = (b == a) := fun a b => by
    rw [Bool.eq_iff_iff, beq_iff_eq, beq_iff_eq, eq_comm]
  have bools : ∀ a b : Bool, (a == b) = (b == a) := by decide
  have strings : ∀ a b : String, (a == b) = (b == a) := fun a b => by
    rw [Bool.eq_iff_iff, beq_iff_eq, beq_iff_eq, eq_comm]
  cases left <;> cases right <;> simp [evaluateIs, ints, bools, strings, FloatOrder.beq_comm]

variable {operation : Value → Value → Value}

theorem strict_comm
    (swapped : ∀ l r, operation' r l = operation l r) :
    strict operation' right left = strict operation left right := by
  unfold strict
  rw [Bool.or_comm, swapped]

/-- `literal OP attr` is `attr OP' literal` for the flipped comparison. -/
theorem operandFlip_apply (op : CompareOp) (left right : Value) :
    applyBinaryValues (operandFlip op).toBinary right left = applyBinaryValues op.toBinary left right := by
  have orderings : ∀ order : Ordering, (order.swap == .lt) = (order == .gt) ∧
      (order.swap == .gt) = (order == .lt) ∧ (order.swap != .lt) = (order != .gt) ∧
      (order.swap != .gt) = (order != .lt) := by
    intro order
    cases order <;> decide
  cases op with
  | equal => exact strict_comm (fun l r => valuesEqual_comm r l)
  | notEqual =>
    refine strict_comm (fun l r => ?_)
    unfold evaluateNotEqual
    rw [valuesEqual_comm]
  | less =>
    exact strict_comm (ordering_swap (fun _ _ => rfl) fun order => (orderings order).2.1)
  | greater =>
    exact strict_comm (ordering_swap (fun _ _ => rfl) fun order => (orderings order).1)
  | lessEqual =>
    exact strict_comm (ordering_swap (fun _ _ => rfl) fun order => (orderings order).2.2.1)
  | greaterEqual =>
    exact strict_comm (ordering_swap (fun _ _ => rfl) fun order => (orderings order).2.2.2)
  | is => exact evaluateIs_comm right left
  | isnt =>
    simp only [operandFlip, CompareOp.toBinary, applyBinaryValues, evaluateIsnt]
    rw [evaluateIs_comm]

/-- The value a comparison reads as a NaN. -/
def readsNaN (value : Value) : Bool :=
  match numericOperand value with
  | some number => number.toReal.isNaN
  | none => false

/-- Negating an ordering comparison of numbers flips it, unless one of them is NaN. -/
theorem ordering_negate
    (reals : ∀ l r : Float, l.isNaN = false → r.isNaN = false → onReals' l r = !onReals l r)
    (strings : ∀ order, onStrings' order = !onStrings order)
    (numbers : readsNaN left = false) (numbers' : readsNaN right = false)
    (failed : ordering onReals onStrings left right = .boolean false) :
    ordering onReals' onStrings' left right = .boolean true := by
  unfold ordering at failed ⊢
  unfold readsNaN at numbers numbers'
  split at failed
  · cases failed
  next defined =>
    rw [if_neg defined]
    cases first : numericOperand left with
    | some l =>
      cases second : numericOperand right with
      | some r =>
        simp only [first, second, Value.boolean.injEq] at failed numbers numbers' ⊢
        rw [reals _ _ numbers numbers', failed]
        rfl
      | none =>
        cases left <;> cases right <;> simp_all [numericOperand]
    | none =>
      cases left <;> cases right <;> simp_all [numericOperand]

theorem strict_boolean (answered : strict operation left right = .boolean result) :
    operation left right = .boolean result ∧ ∀ operation', operation' left right = .boolean result' →
        strict operation' left right = .boolean result' := by
  unfold strict at *
  split at answered
  · cases answered
  next fine =>
    exact ⟨answered, fun operation' other => by rw [if_neg fine, other]⟩

theorem operation_of_strict
    (answered : strict operation left right = .boolean result) : operation left right = .boolean result := by
  unfold strict at answered
  split at answered
  · cases answered
  · exact answered

theorem not_decide_lt {l r : Float} (left : l.isNaN = false) (right : r.isNaN = false) :
    decide (r ≤ l) = !decide (l < r) := by
  rw [← decide_not, decide_eq_decide]
  exact (FloatOrder.not_lt_iff left right).symm

/-- A comparison that came out false holds once it is flipped. Only for the orderings does
this need operands other than NaN. -/
theorem negFlip_apply {op : BinaryOperator} (flips : negFlip op = some flipped)
    (numbers : isOrdering op = true → readsNaN left = false ∧ readsNaN right = false)
    (failed : applyBinaryValues op left right = .boolean false) :
    applyBinaryValues flipped.toBinary left right = .boolean true := by
  cases op with
  | equal =>
    cases flips
    obtain ⟨compared, lift⟩ := strict_boolean failed
    exact lift _ (by simp [evaluateNotEqual, compared])
  | notEqual =>
    cases flips
    obtain ⟨compared, lift⟩ := strict_boolean failed
    refine lift _ ?_
    unfold evaluateNotEqual at compared
    cases equal : valuesEqual left right <;> simp_all
  | less =>
    cases flips
    obtain ⟨compared, lift⟩ := strict_boolean failed
    obtain ⟨first, second⟩ := numbers rfl
    refine lift _ (ordering_negate (fun l r hl hr => not_decide_lt hl hr) ?_ first second compared)
    intro order
    cases order <;> rfl
  | greater =>
    cases flips
    obtain ⟨compared, lift⟩ := strict_boolean failed
    obtain ⟨first, second⟩ := numbers rfl
    refine lift _ (ordering_negate (fun l r hl hr => not_decide_lt hr hl) ?_ first second compared)
    intro order
    cases order <;> rfl
  | lessEqual =>
    cases flips
    obtain ⟨compared, lift⟩ := strict_boolean failed
    obtain ⟨first, second⟩ := numbers rfl
    refine lift _ (ordering_negate (fun l r hl hr => ?_) ?_ first second compared)
    · rw [not_decide_lt hr hl, Bool.not_not]
    · intro order
      cases order <;> rfl
  | greaterEqual =>
    cases flips
    obtain ⟨compared, lift⟩ := strict_boolean failed
    obtain ⟨first, second⟩ := numbers rfl
    refine lift _ (ordering_negate (fun l r hl hr => ?_) ?_ first second compared)
    · rw [not_decide_lt hl hr, Bool.not_not]
    · intro order
      cases order <;> rfl
  | _ => cases flips

/-- Booleans, undefined and error: the results a comparison can have. -/
def IsVerdict : Value → Prop
  | .boolean _ | .undefined | .error => True
  | _ => False

theorem IsVerdict.eq_true (verdict : IsVerdict value) (view : logicalView value = .isTrue) : value = .boolean true := by
  cases value with
  | boolean result =>
    cases result
    · cases view
    · rfl
  | undefined | error => cases view
  | _ => cases verdict

theorem IsVerdict.eq_false (verdict : IsVerdict value) (view : logicalView value = .isFalse) :
    value = .boolean false := by
  cases value with
  | boolean result =>
    cases result
    · rfl
    · cases view
  | undefined | error => cases view
  | _ => cases verdict

theorem strict_verdict
    (verdict : ∀ l r, IsVerdict (operation l r)) : IsVerdict (strict operation left right) := by
  unfold strict
  split
  · trivial
  · exact verdict _ _

theorem ordering_verdict (onReals : Float → Float → Bool) (onStrings : Ordering → Bool)
    (left right : Value) : IsVerdict (ordering onReals onStrings left right) := by
  unfold ordering
  repeat' split
  all_goals trivial

theorem valuesEqual_verdict (left right : Value) : IsVerdict (valuesEqual left right) := by
  unfold valuesEqual
  repeat' split
  all_goals trivial

theorem evaluateIs_verdict (left right : Value) : IsVerdict (evaluateIs left right) := by
  unfold evaluateIs
  split <;> trivial

/-- Comparisons have no numeric results, so one that counts as true is the boolean true. -/
theorem compare_verdict {op : CompareOp} {left : Value} {right : Value} :
    IsVerdict (applyBinaryValues op.toBinary left right) := by
  cases op with
  | equal => exact strict_verdict valuesEqual_verdict
  | notEqual =>
    refine strict_verdict (fun l r => ?_)
    have verdict := valuesEqual_verdict l r
    unfold evaluateNotEqual
    split
    · trivial
    · exact verdict
  | less | lessEqual | greater | greaterEqual => exact strict_verdict (ordering_verdict _ _)
  | is => exact evaluateIs_verdict left right
  | isnt =>
    have verdict := evaluateIs_verdict left right
    simp only [CompareOp.toBinary, applyBinaryValues, evaluateIsnt]
    split
    · trivial
    · exact verdict

/-! ## Acceptance -/

theorem verdict_iff {result : Value} : (match result with
    | .boolean verdict => verdict
    | _ => false) = true ↔ result = .boolean true := by
  cases result <;> simp

theorem accepts_compare :
    (⟨attr, .compare op, [val]⟩ : Probe).accepts value = true ↔
    applyBinaryValues op.toBinary value val = .boolean true := by
  simp only [Probe.accepts, List.any_cons, List.any_nil, Bool.or_false]
  exact verdict_iff

theorem accepts_member :
    (⟨attr, .member, vals⟩ : Probe).accepts value = true ↔
      ∃ val ∈ vals, applyBinaryValues .equal value val = .boolean true := by
  simp only [Probe.accepts, List.any_eq_true]
  exact exists_congr fun val => and_congr_right fun _ => verdict_iff

end Classad.ProbeComparisons
