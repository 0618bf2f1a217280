import Classad.Operators

/-! Operators see scalars and type tags only: the payload of a list or of an ad never
reaches a result, and every result is a scalar. -/
namespace Classad.OperatorProofs
open Syntax Operators

/-- Forget the payload of lists and ads, which no operator looks at. -/
def erase : Value → Value
  | .lazyList _ _ _ => .list []
  | .list _ => .list []
  | .classAd _ => .classAd []
  | value => value

/-- Values without a list or an ad. -/
def IsPlain : Value → Prop
  | .lazyList _ _ _ | .list _ | .classAd _ => False
  | _ => True

@[simp] theorem isUndefined_erase (value : Value) : (erase value).isUndefined = value.isUndefined := by
  cases value <;> rfl

@[simp] theorem isError_erase (value : Value) : (erase value).isError = value.isError := by
  cases value <;> rfl

@[simp] theorem numericOperand_erase (value : Value) : numericOperand (erase value) = numericOperand value := by
  cases value <;> rfl

@[simp] theorem logicalView_erase (value : Value) : logicalView (erase value) = logicalView value := by
  cases value <;> rfl

@[simp] theorem logicalView_true : logicalView (.boolean true) = .isTrue := rfl
@[simp] theorem logicalView_false : logicalView (.boolean false) = .isFalse := rfl
@[simp] theorem logicalView_undefined : logicalView .undefined = .isUndef := rfl
@[simp] theorem logicalView_error : logicalView .error = .isErr := rfl

variable (state : LogicalState)

@[simp] theorem logicalView_mapState : logicalView (mapState state) = state := by
  cases state <;> rfl

variable (onReals : Float → Float → Bool)

variable (onStrings : Ordering → Bool)

theorem ordering_erase (left right : Value) :
    ordering onReals onStrings (erase left) (erase right) = ordering onReals onStrings left right := by
  cases left <;> cases right <;> rfl

variable (operation : Int64 → Int64 → Int64)

theorem bitwise_erase (left right : Value) :
    bitwise operation (erase left) (erase right) = bitwise operation left right := by
  cases left <;> cases right <;> rfl

theorem valuesEqual_erase (left right : Value) : valuesEqual (erase left) (erase right) = valuesEqual left right := by
  cases left <;> cases right <;> rfl

theorem evaluateIs_erase (left right : Value) : evaluateIs (erase left) (erase right) = evaluateIs left right := by
  cases left <;> cases right <;> rfl

theorem applyBinaryValues_erase (op : BinaryOperator) (left right : Value) :
    applyBinaryValues op (erase left) (erase right) = applyBinaryValues op left right := by
  cases op <;>
    simp only [applyBinaryValues, strict, isError_erase, evaluateAnd, evaluateOr, logicalView_erase,
      evaluateIs_erase, evaluateIsnt, evaluateAdd, evaluateSubtract, evaluateMultiply,
      evaluateDivide, evaluateModulo, arithmetic, isUndefined_erase, numericOperand_erase,
      evaluateLessThan, evaluateGreaterThan, evaluateLessOrEqual, evaluateGreaterOrEqual,
      ordering_erase, valuesEqual_erase, evaluateNotEqual, bitwise_erase]

theorem applyUnaryValue_erase (op : UnaryOperator) (value : Value) :
    applyUnaryValue op (erase value) = applyUnaryValue op value := by
  cases value <;> cases op <;> rfl

theorem arithmetic_plain {onReals : Float → Float → Value}
    (ints : ∀ l r, IsPlain (onInts l r)) (reals : ∀ l r, IsPlain (onReals l r))
    (left right : Value) : IsPlain (arithmetic onInts onReals left right) := by
  unfold arithmetic
  split
  · trivial
  · split
    · exact ints _ _
    · exact reals _ _
    · trivial

theorem realArithResult_plain : IsPlain (realArithResult value) := by
  unfold realArithResult
  split <;> trivial

theorem ordering_plain
    (left right : Value) : IsPlain (ordering onReals onStrings left right) := by
  unfold ordering
  repeat' split
  all_goals trivial

theorem bitwise_plain (left right : Value) : IsPlain (bitwise operation left right) := by
  unfold bitwise
  repeat' split
  all_goals trivial

theorem valuesEqual_plain (left right : Value) : IsPlain (valuesEqual left right) := by
  unfold valuesEqual
  repeat' split
  all_goals trivial

theorem evaluateIs_plain (left right : Value) : IsPlain (evaluateIs left right) := by
  unfold evaluateIs
  split <;> trivial

theorem mapState_plain : IsPlain (mapState state) := by
  cases state <;> trivial

theorem strict_plain {operation : Value → Value → Value} (plain : ∀ l r, IsPlain (operation l r)) :
    IsPlain (strict operation left right) := by
  unfold strict
  split
  · trivial
  · exact plain _ _

theorem applyBinaryValues_plain (op : BinaryOperator) (left right : Value) :
    IsPlain (applyBinaryValues op left right) := by
  cases op with
  | and =>
    simp only [applyBinaryValues, evaluateAnd]
    repeat' split
    all_goals first | trivial | exact mapState_plain _
  | or =>
    simp only [applyBinaryValues, evaluateOr]
    repeat' split
    all_goals first | trivial | exact mapState_plain _
  | is => exact evaluateIs_plain left right
  | isnt =>
    have plain := evaluateIs_plain left right
    simp only [applyBinaryValues, evaluateIsnt]
    split
    · trivial
    · exact plain
  | notEqual =>
    refine strict_plain (fun l r => ?_)
    have plain := valuesEqual_plain l r
    unfold evaluateNotEqual
    split
    · trivial
    · exact plain
  | add | subtract | multiply =>
    refine strict_plain (arithmetic_plain ?_ ?_)
    · intro l r
      trivial
    · intro l r
      exact realArithResult_plain
  | divide =>
    refine strict_plain (arithmetic_plain (fun l r => ?_) fun _ _ => realArithResult_plain)
    repeat' split
    all_goals trivial
  | modulo =>
    refine strict_plain (arithmetic_plain ?_ ?_)
    · intro l r
      repeat' split
      all_goals trivial
    · intro l r
      trivial
  | less | greater | lessEqual | greaterEqual => exact strict_plain (ordering_plain _ _)
  | equal => exact strict_plain valuesEqual_plain
  | bitAnd | bitOr | bitXor | shiftLeft | shiftRight | shiftRightLogical =>
    exact strict_plain (bitwise_plain _)

theorem applyUnaryValue_plain {op : UnaryOperator} {value : Value} : IsPlain (applyUnaryValue op value) := by
  unfold applyUnaryValue
  repeat' split
  all_goals trivial

theorem shortCircuit_plain (decides : shortCircuit op left = some value) : IsPlain value := by
  unfold shortCircuit at decides
  repeat' split at decides
  all_goals first | cases decides; trivial | cases decides

/-- What the left operand decides is what both operands give. -/
theorem shortCircuit_decides (logical : op = .and ∨ op = .or)
    (decides : shortCircuit op left = some value) : applyBinaryValues op left right = value := by
  rcases logical with rfl | rfl <;>
    cases view : logicalView left <;>
    simp_all [shortCircuit, applyBinaryValues, evaluateAnd, evaluateOr]

end Classad.OperatorProofs
