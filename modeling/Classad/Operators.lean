import Classad.Syntax

/-! Values and the operators on them. Every engine of the repository -- the tree
walker, the bytecode interpreter and the vectorized executor -- reaches these
functions, so they are stated once, over values already evaluated. -/
namespace Classad.Operators
open Syntax

/-- The identity of an ad, as the cyclic-reference marks see it. Ads supplied by a
caller are numbered; a record literal gets a new number each time it is entered. -/
inductive AdId where
  | root (number : Nat)
  | nested (number : Nat)
  deriving DecidableEq, Repr

/-- One ad of a scope: its attributes and, when it is being matched, its target. -/
structure Frame where
  id : AdId
  attributes : Attributes
  target : Option Nat

/-- An ad followed by its parent, its parent's parent, and so on. The empty scope
stands for a nil ad. -/
abbrev Scope := List Frame

/-- A list literal stays unevaluated: it keeps its element expressions, the scope
they belong to and the recursion depth at which it was built. -/
inductive Value where
  | undefined
  | error
  | boolean (value : Bool)
  | integer (value : Int64)
  | real (value : Float)
  | string (value : String)
  | lazyList (elements : List Expr) (scope : Scope) (depth : Nat)
  | list (elements : List Value)
  | classAd (attributes : Attributes)
  deriving Inhabited

namespace Value

def isUndefined : Value → Bool
  | undefined => true
  | _ => false

def isError : Value → Bool
  | error => true
  | _ => false

end Value

/-- The numeric reading of an operand; booleans count as the integers 0 and 1. -/
inductive Numeric where
  | int (value : Int64)
  | real (value : Float)

def Numeric.toReal : Numeric → Float
  | int value => Float.ofInt value.toInt
  | real value => value

def numericOperand : Value → Option Numeric
  | .integer value => some (.int value)
  | .real value => some (.real value)
  | .boolean value => some (.int (if value then 1 else 0))
  | _ => none

/-- Only positive infinity counts as overflow; negative infinity and NaN are kept. -/
def isPositiveInf (value : Float) : Bool :=
  value.isInf && decide (Float.ofInt 0 < value)

def realArithResult (value : Float) : Value :=
  if isPositiveInf value then .error else .real value

/-- The shape shared by the arithmetic operators: undefined wins, other operands
must be numbers, two integers stay in the integers. -/
def arithmetic (onInts : Int64 → Int64 → Value) (onReals : Float → Float → Value)
    (left right : Value) : Value :=
  if left.isUndefined || right.isUndefined then .undefined
  else match numericOperand left, numericOperand right with
    | some (.int l), some (.int r) => onInts l r
    | some l, some r => onReals l.toReal r.toReal
    | _, _ => .error

def evaluateAdd : Value → Value → Value :=
  arithmetic (fun l r => .integer (l + r)) (fun l r => realArithResult (l + r))

def evaluateSubtract : Value → Value → Value :=
  arithmetic (fun l r => .integer (l - r)) (fun l r => realArithResult (l - r))

def evaluateMultiply : Value → Value → Value :=
  arithmetic (fun l r => .integer (l * r)) (fun l r => realArithResult (l * r))

def evaluateDivide : Value → Value → Value :=
  arithmetic
    (fun l r =>
      if r = 0 then .error
      else if l = Int64.minValue ∧ r = -1 then .integer Int64.maxValue
      else .integer (l / r))
    (fun l r => realArithResult (l / r))

def evaluateModulo : Value → Value → Value :=
  arithmetic
    (fun l r =>
      if r = 0 then .error
      else if r = -1 then .integer 0
      else .integer (l % r))
    (fun _ _ => .error)

/-- Shift one bit at a time, forcing the sign bit back each time. -/
def signedShiftSteps : Nat → Int64 → Int64
  | 0, value => value
  | steps + 1, value => signedShiftSteps steps ((value >>> 1) ||| Int64.minValue)

def shiftRight (l r : Int64) : Int64 :=
  if 0 ≤ l then l >>> (r &&& 63)
  else signedShiftSteps ((if 64 < r then 64 else r).toInt.toNat) l

def shiftRightLogical (l r : Int64) : Int64 :=
  if 0 ≤ l then l >>> (r &&& 63)
  else ((l >>> 1) &&& Int64.maxValue) >>> ((r - 1) &&& 63)

/-- The bitwise operators take genuine integers only; booleans are errors here. -/
def bitwise (operation : Int64 → Int64 → Int64) (left right : Value) : Value :=
  if left.isUndefined || right.isUndefined then .undefined
  else match left, right with
    | .integer l, .integer r => .integer (operation l r)
    | _, _ => .error

def lowerASCII (c : UInt8) : UInt8 :=
  if 65 ≤ c ∧ c ≤ 90 then c + 32 else c

def compareBytesFold : List UInt8 → List UInt8 → Ordering
  | [], [] => .eq
  | [], _ :: _ => .lt
  | _ :: _, [] => .gt
  | a :: as, b :: bs =>
    if lowerASCII a < lowerASCII b then .lt
    else if lowerASCII b < lowerASCII a then .gt
    else compareBytesFold as bs

/-- Byte-wise comparison with ASCII letters folded to lower case. -/
def compareStringsFold (a b : String) : Ordering :=
  compareBytesFold a.toUTF8.data.toList b.toUTF8.data.toList

/-- The shape shared by the four ordering operators. Integers are compared as reals. -/
def ordering (onReals : Float → Float → Bool) (onStrings : Ordering → Bool)
    (left right : Value) : Value :=
  if left.isUndefined || right.isUndefined then .undefined
  else match numericOperand left, numericOperand right with
    | some l, some r => .boolean (onReals l.toReal r.toReal)
    | _, _ => match left, right with
      | .string l, .string r => .boolean (onStrings (compareStringsFold l r))
      | _, _ => .error

def evaluateLessThan : Value → Value → Value :=
  ordering (fun l r => decide (l < r)) (· == .lt)

def evaluateGreaterThan : Value → Value → Value :=
  ordering (fun l r => decide (r < l)) (· == .gt)

def evaluateLessOrEqual : Value → Value → Value :=
  ordering (fun l r => decide (l ≤ r)) (· != .gt)

def evaluateGreaterOrEqual : Value → Value → Value :=
  ordering (fun l r => decide (r ≤ l)) (· != .lt)

variable (left right : Value)

/-- The `==` operator. Operands of one type are compared in that type; numbers of
different types are compared exactly when both are integral, as reals otherwise. -/
def valuesEqual : Value :=
  if left.isUndefined || right.isUndefined then .undefined
  else match left, right with
    | .boolean l, .boolean r => .boolean (l == r)
    | .integer l, .integer r => .boolean (l == r)
    | .real l, .real r => .boolean (l == r)
    | .string l, .string r => .boolean (compareStringsFold l r == .eq)
    | _, _ => match numericOperand left, numericOperand right with
      | some (.int l), some (.int r) => .boolean (l == r)
      | some l, some r => .boolean (l.toReal == r.toReal)
      | _, _ => .error

def evaluateNotEqual : Value :=
  match valuesEqual left right with
  | .boolean result => .boolean (!result)
  | result => result

/-- The `is` operator: identity of type and value, never undefined. Two lists or
two ads cannot be compared. -/
def evaluateIs : Value → Value → Value
  | .undefined, .undefined => .boolean true
  | .error, .error => .boolean true
  | .boolean l, .boolean r => .boolean (l == r)
  | .integer l, .integer r => .boolean (l == r)
  | .real l, .real r => .boolean (l == r)
  | .string l, .string r => .boolean (l == r)
  | .lazyList _ _ _, .lazyList _ _ _ | .lazyList _ _ _, .list _
  | .list _, .lazyList _ _ _ | .list _, .list _ => .error
  | .classAd _, .classAd _ => .error
  | _, _ => .boolean false

def evaluateIsnt : Value :=
  match evaluateIs left right with
  | .boolean result => .boolean (!result)
  | result => result

/-- The boolean view of an operand of `&&`, `||`, `!` and `?:`. -/
inductive LogicalState where
  | isFalse
  | isTrue
  | isUndef
  | isErr
  deriving DecidableEq, Repr

def logicalView : Value → LogicalState
  | .boolean value => if value then .isTrue else .isFalse
  | .integer value => if value = 0 then .isFalse else .isTrue
  | .real value => if value == Float.ofInt 0 then .isFalse else .isTrue
  | .undefined => .isUndef
  | _ => .isErr

def mapState : LogicalState → Value
  | .isTrue => .boolean true
  | .isFalse => .boolean false
  | .isUndef => .undefined
  | .isErr => .error

def evaluateAnd : Value :=
  match logicalView left with
  | .isFalse => .boolean false
  | .isErr => .error
  | .isTrue => mapState (logicalView right)
  | .isUndef => match logicalView right with
    | .isFalse => .boolean false
    | .isErr => .error
    | _ => .undefined

def evaluateOr : Value :=
  match logicalView left with
  | .isTrue => .boolean true
  | .isErr => .error
  | .isFalse => mapState (logicalView right)
  | .isUndef => match logicalView right with
    | .isTrue => .boolean true
    | .isErr => .error
    | _ => .undefined

/-- The result a left operand of `&&` or `||` decides by itself, if it does. -/
def shortCircuit (op : BinaryOperator) (left : Value) : Option Value :=
  match logicalView left with
  | .isErr => some .error
  | .isFalse => if op = .and then some (.boolean false) else none
  | .isTrue => if op = .or then some (.boolean true) else none
  | .isUndef => none

/-- A binary operator that propagates errors before looking at its operands. -/
def strict (operation : Value → Value → Value) (left right : Value) : Value :=
  if left.isError || right.isError then .error else operation left right

def applyBinaryValues : BinaryOperator → Value → Value → Value
  | .and => evaluateAnd
  | .or => evaluateOr
  | .is => evaluateIs
  | .isnt => evaluateIsnt
  | .add => strict evaluateAdd
  | .subtract => strict evaluateSubtract
  | .multiply => strict evaluateMultiply
  | .divide => strict evaluateDivide
  | .modulo => strict evaluateModulo
  | .less => strict evaluateLessThan
  | .greater => strict evaluateGreaterThan
  | .lessEqual => strict evaluateLessOrEqual
  | .greaterEqual => strict evaluateGreaterOrEqual
  | .equal => strict valuesEqual
  | .notEqual => strict evaluateNotEqual
  | .bitAnd => strict (bitwise (· &&& ·))
  | .bitOr => strict (bitwise (· ||| ·))
  | .bitXor => strict (bitwise (· ^^^ ·))
  | .shiftLeft => strict (bitwise fun l r => l <<< (r &&& 63))
  | .shiftRight => strict (bitwise shiftRight)
  | .shiftRightLogical => strict (bitwise shiftRightLogical)

def applyUnaryValue (op : UnaryOperator) (value : Value) : Value :=
  match value with
  | .error => .error
  | .undefined => .undefined
  | _ => match op, value with
    | .negate, .integer i => .integer (-i)
    | .negate, .real r => .real (-r)
    | .plus, .integer i => .integer i
    | .plus, .real r => .real r
    | .bitNot, .integer i => .integer (~~~i)
    | .not, _ => match logicalView value with
      | .isTrue => .boolean false
      | .isFalse => .boolean true
      | .isUndef => .undefined
      | .isErr => .error
    | _, _ => .error

end Classad.Operators
