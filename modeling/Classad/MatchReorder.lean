import Mathlib.Data.List.Sort
import Classad.Matchmaking

/-! Reordering a job's Requirements. Every chain of `&&` or `||` is flattened, its operands are
sorted by what they cost against how often they decide the chain, and the chain is rebuilt to
the left. A table of statistics estimates how often an operand is true. -/
namespace Classad.MatchReorder
open Syntax Operators TreeWalk Matchmaking

/-- Functions that cost more than a comparison. -/
def heavyFuncs : List String :=
  ["split", "splitusername", "splitslotname", "stringlistmember", "stringlistimember", "stringlistsize",
    "stringlistsum", "stringlistavg", "stringlistmin", "stringlistmax", "regexp", "regexps", "replace", "substr",
    "strcat", "member", "anycompare", "allcompare"]

/-- Functions whose value depends on more than their arguments. -/
def impureFuncs : List String := ["random", "time", "eval", "unparse"]

/-- The name in lower case, by ASCII letters. -/
def lowerASCIIName (name : String) : String := String.ofList (name.toList.map Char.toLower)

mutual

/-- What evaluating an expression once costs, roughly. -/
def exprEvalCost : Expr → Nat
  | .nil => 0
  | .reference _ _ | .integer _ | .real _ | .string _ | .boolean _ | .undefined | .error => 1
  | .paren inner => exprEvalCost inner
  | .unary _ operand => 1 + exprEvalCost operand
  | .binary _ left right => 1 + exprEvalCost left + exprEvalCost right
  | .subscript container index => 4 + exprEvalCost container + exprEvalCost index
  | .select record _ => 2 + exprEvalCost record
  | .conditional condition whenTrue whenFalse =>
    1 + exprEvalCost condition + exprEvalCost whenTrue + exprEvalCost whenFalse
  | .elvis left right => 1 + exprEvalCost left + exprEvalCost right
  | .list elements => 1 + exprsEvalCost elements
  | .record _ => 5
  | .call name args => (if lowerASCIIName name ∈ heavyFuncs then 20 else 8) + exprsEvalCost args

def exprsEvalCost : List Expr → Nat
  | [] => 0
  | head :: rest => exprEvalCost head + exprsEvalCost rest

end

section
variable (host : Host)

mutual

/-- Whether an expression calls no impure function, as far as it is looked into: not inside
lists and records. -/
def isPureExpr : Expr → Bool
  | .call name args => !impureFuncs.contains (host.toLower name) && arePureExprs args
  | .binary _ left right => isPureExpr left && isPureExpr right
  | .unary _ operand => isPureExpr operand
  | .paren inner => isPureExpr inner
  | .conditional condition whenTrue whenFalse => isPureExpr condition && isPureExpr whenTrue && isPureExpr whenFalse
  | .elvis left right => isPureExpr left && isPureExpr right
  | .subscript container index => isPureExpr container && isPureExpr index
  | .select record _ => isPureExpr record
  | _ => true

def arePureExprs : List Expr → Bool
  | [] => true
  | head :: rest => isPureExpr head && arePureExprs rest

end

end

/-- The operands of a chain. Parentheses are entered only if they enclose a chain of the same
operator. -/
def flattenChain (op : BinaryOperator) : Expr → List Expr
  | .paren (.binary op' left right) =>
    if op' = op then flattenChain op left ++ flattenChain op right else [.paren (.binary op' left right)]
  | .binary op' left right =>
    if op' = op then flattenChain op left ++ flattenChain op right else [.binary op' left right]
  | expr => [expr]

/-- The chain of the operands, leaning to the left. -/
def rebuildChain (op : BinaryOperator) : List Expr → Expr
  | [] => .nil
  | first :: rest => rest.foldl (.binary op) first

/-- An operand with its rank and its place in the chain. -/
structure Ranked where
  expr : Expr
  rank : Float
  seq : Nat

def shortCircuitEps : Float := 0.02

/-- The rank of an operand: its cost over how often it decides the chain. Without statistics
that is taken to be half of the time. -/
def operandRank (stats : Expr → Option Float) (op : BinaryOperator) (operand : Expr) : Float :=
  let favor := (stats operand).getD 0.5
  let favor := if op = .and then 1 - favor else favor
  Float.ofNat (exprEvalCost operand) / (if favor < shortCircuitEps then shortCircuitEps else favor)

/-- The operands by rank; those of one rank stay in order. -/
def rankOperands (stats : Expr → Option Float) (op : BinaryOperator) (operands : List Expr) : List Ranked :=
  (operands.zipIdx.map fun operand => ⟨operand.1, operandRank stats op operand.1, operand.2⟩).insertionSort
    fun left right => ¬right.rank < left.rank

section
variable (host : Host) (stats : Expr → Option Float)

/-- `reorderChain` on operands that have been reordered themselves, and whether one moved. -/
def reorderOperands (op : BinaryOperator) (operands : List Expr) : Expr × Bool :=
  if 1 < operands.length ∧ operands.all (isPureExpr host) then
    let ranked := rankOperands stats op operands
    (rebuildChain op (ranked.map Ranked.expr), ranked.zipIdx.any fun operand => operand.1.seq != operand.2)
  else (rebuildChain op operands, false)

/-- `reorderShortCircuit`, to a nesting of `fuel`: the expression, and whether an operand moved. -/
def reorderTo : Nat → Expr → Expr × Bool
  | 0, expr => (expr, false)
  | fuel + 1, .paren inner =>
    let inner := reorderTo fuel inner
    (.paren inner.1, inner.2)
  | fuel + 1, .binary op left right =>
    if op = .and ∨ op = .or then
      let operands := (flattenChain op (.binary op left right)).map (reorderTo fuel)
      let chain := reorderOperands host stats op (operands.map Prod.fst)
      (chain.1, operands.any Prod.snd || chain.2)
    else
      let left := reorderTo fuel left
      let right := reorderTo fuel right
      (.binary op left.1 right.1, left.2 || right.2)
  | fuel + 1, .unary op operand =>
    let operand := reorderTo fuel operand
    (.unary op operand.1, operand.2)
  | fuel + 1, .conditional condition whenTrue whenFalse =>
    let condition := reorderTo fuel condition
    let whenTrue := reorderTo fuel whenTrue
    let whenFalse := reorderTo fuel whenFalse
    (.conditional condition.1 whenTrue.1 whenFalse.1, condition.2 || whenTrue.2 || whenFalse.2)
  | fuel + 1, .elvis left right =>
    let left := reorderTo fuel left
    let right := reorderTo fuel right
    (.elvis left.1 right.1, left.2 || right.2)
  | _ + 1, expr => (expr, false)

/-- Reorder at any nesting. -/
def reorderShortCircuit (expr : Expr) : Expr × Bool := reorderTo host stats (astHeight expr) expr

/-- `reorderJobRequirements`. The copy is made by printing the job and parsing the text, for
which `reparse` stands; it has no parent. -/
def reorderJobRequirements (reparse : Attributes → Option Attributes) (job : Party) : Party :=
  match jobRequirementsExpr host job.attributes with
  | none => job
  | some requirements =>
    let reordered := reorderShortCircuit host stats requirements
    if reordered.2 then
      match reparse job.attributes with
      | none => job
      | some copy => ⟨insertAttr host "Requirements" reordered.1 copy, []⟩
    else job

end
end Classad.MatchReorder
