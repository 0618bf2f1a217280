import Classad.ByteParser

/-! The trees of the `ast` package, as the lexers, the parsers, the printers and the wire
format handle them. A string of the source is a sequence of bytes that need not be valid
UTF-8, an operator is its spelling, and a reference's scope is a number; the evaluator's
trees, where all of these are well formed, are in `Syntax`. -/
namespace Classad.Ast
open ByteParser

/-- A string of the source. -/
abbrev Text := Bytes

/-- The bytes of a string whose characters are all ASCII. -/
def ascii (s : String) : Text := s.toList.map fun c => c.toNat.toUInt8

abbrev AttributeScope := UInt8

def noScope : AttributeScope := 0
/-- `nil` is the nil interface value, which hand-built trees may contain. -/
inductive Expr where
  | nil
  | undefined
  | error
  | boolean (value : Bool)
  | integer (value : Int64)
  | real (value : Float)
  | string (value : Text)
  | reference (name : Text) (scope : AttributeScope)
  | binary (op : Text) (left right : Expr)
  | unary (op : Text) (operand : Expr)
  | list (elements : List Expr)
  | record (attributes : List (Text × Expr))
  | call (name : Text) (args : List Expr)
  | conditional (condition whenTrue whenFalse : Expr)
  | elvis (left right : Expr)
  | select (record : Expr) (attr : Text)
  | subscript (container index : Expr)
  | paren (inner : Expr)
  deriving Inhabited

/-- The attribute assignments of an ad, in order. -/
abbrev ClassAd := List (Text × Expr)

end Classad.Ast
