import Mathlib.Tactic.Common

/-! The ClassAd expression language as the parser hands it to every later stage.
An ad is its attribute list; a nil interface value of the source, which hand-built
trees may contain, is an expression of its own. -/
namespace Classad.Syntax

inductive AttributeScope where
  | none
  | my
  | target
  | parent
  deriving DecidableEq, Repr

/-- The binary operators the grammar produces. The meta-equality spellings `=?=`
and `=!=` are lexed to `is` and `isnt`, so no tree holds them. -/
inductive BinaryOperator where
  | and | or
  | bitOr | bitXor | bitAnd
  | equal | notEqual | is | isnt
  | less | greater | lessEqual | greaterEqual
  | shiftLeft | shiftRight | shiftRightLogical
  | add | subtract | multiply | divide | modulo
  deriving DecidableEq, Repr

inductive UnaryOperator where
  | negate | plus | not | bitNot
  deriving DecidableEq, Repr

inductive Expr where
  | nil
  | paren (inner : Expr)
  | integer (value : Int64)
  | real (value : Float)
  | string (value : String)
  | boolean (value : Bool)
  | undefined
  | error
  | reference (name : String) (scope : AttributeScope)
  | binary (op : BinaryOperator) (left right : Expr)
  | unary (op : UnaryOperator) (operand : Expr)
  | conditional (condition whenTrue whenFalse : Expr)
  | elvis (left right : Expr)
  | list (elements : List Expr)
  | record (attributes : List (String × Expr))
  | call (name : String) (args : List Expr)
  | select (record : Expr) (attr : String)
  | subscript (container index : Expr)
  deriving Inhabited

/-- The attribute assignments of an ad, in source order. -/
abbrev Attributes := List (String × Expr)

/-- Literals are the expressions whose value depends on no scope. A literal in
parentheses is deliberately not one of them. -/
def isLiteralExpr : Expr → Bool
  | .integer _ | .real _ | .string _ | .boolean _ | .undefined | .error => true
  | _ => false

/-- Strip parentheses as long as they enclose something. -/
def unwrapParens : Expr → Expr
  | .paren .nil => .paren .nil
  | .paren inner => unwrapParens inner
  | expr => expr

mutual

/-- Maximum node nesting, counting every node. -/
def astHeight : Expr → Nat
  | .paren inner => 1 + astHeight inner
  | .unary _ operand => 1 + astHeight operand
  | .binary _ left right => 1 + max (astHeight left) (astHeight right)
  | .elvis left right => 1 + max (astHeight left) (astHeight right)
  | .conditional condition whenTrue whenFalse =>
    1 + max (astHeight condition) (max (astHeight whenTrue) (astHeight whenFalse))
  | .list elements => 1 + listHeight elements
  | .call _ args => 1 + listHeight args
  | .select record _ => 1 + astHeight record
  | .subscript container index => 1 + max (astHeight container) (astHeight index)
  | .record attributes => 1 + attributesHeight attributes
  | .nil | .integer _ | .real _ | .string _ | .boolean _ | .undefined | .error
  | .reference _ _ => 1

def listHeight : List Expr → Nat
  | [] => 0
  | head :: rest => max (astHeight head) (listHeight rest)

def attributesHeight : List (String × Expr) → Nat
  | [] => 0
  | (_, value) :: rest => max (astHeight value) (attributesHeight rest)

end

end Classad.Syntax
