import Classad.TreeWalk

/-! Constant folding as query planning uses it: `FoldConstants` flattens an expression
against an empty ad, so references stay and constant operations are computed. Several of
its rewrites do not keep the value of what they rewrite; `foldsExactly` and `keepsTruth`
single out, by their written form, the expressions on which none of these is reached. -/
namespace Classad.ConstantFold
open Syntax Operators TreeWalk

/-- The value of a literal; every other expression counts as undefined. -/
def exprToValue : Expr → Value
  | .integer value => .integer value
  | .real value => .real value
  | .string value => .string value
  | .boolean value => .boolean value
  | .error => .error
  | _ => .undefined

/-- The literal of a scalar. Folding applies operators to literals only, so it never has
a list or an ad to convert. -/
def valueToExpr : Value → Expr
  | .integer value => .integer value
  | .real value => .real value
  | .string value => .string value
  | .boolean value => .boolean value
  | .error => .error
  | _ => .undefined

/-- `&&` and `||` with a boolean literal on one side. A literal that does not decide the
result is dropped, and the other operand takes the place of the whole. -/
def foldShortCircuit (op : BinaryOperator) (left right : Expr) : Option Expr :=
  match op, exprToValue left, exprToValue right with
  | .and, .boolean decided, _ => if decided then some right else some (.boolean false)
  | .or, .boolean decided, _ => if decided then some (.boolean true) else some right
  | .and, _, .boolean decided => if decided then some left else some (.boolean false)
  | .or, _, .boolean decided => if decided then some (.boolean true) else some left
  | _, _, _ => none

/-- `is` and `isnt` compare undefined and error as values, so they fold on any literals. -/
def foldIdentity (op : BinaryOperator) (left right : Expr) : Option Expr :=
  if (op = .is ∨ op = .isnt) ∧ isLiteralExpr left ∧ isLiteralExpr right then
    match applyBinaryValues op (exprToValue left) (exprToValue right) with
    | .boolean result => some (.boolean result)
    | _ => none
  else none

def foldResult (result : Value) : Option Expr :=
  if result.isUndefined || result.isError then none else some (valueToExpr result)

def foldOperation (op : BinaryOperator) (left right : Expr) : Option Expr :=
  if (exprToValue left).isUndefined || (exprToValue right).isUndefined then none
  else foldResult (applyBinaryValues op (exprToValue left) (exprToValue right))

def foldBinary (op : BinaryOperator) (left right : Expr) : Expr :=
  match foldShortCircuit op left right with
  | some folded => folded
  | none => match foldIdentity op left right with
    | some folded => folded
    | none => (foldOperation op left right).getD (.binary op left right)

def foldUnary (op : UnaryOperator) (operand : Expr) : Expr :=
  if (exprToValue operand).isUndefined then .unary op operand
  else (foldResult (applyUnaryValue op (exprToValue operand))).getD (.unary op operand)

def foldConditional (condition whenTrue whenFalse : Expr) : Expr :=
  match exprToValue condition with
  | .boolean decided => if decided then whenTrue else whenFalse
  | _ => .conditional condition whenTrue whenFalse

/-- A left operand that is not a literal reads as undefined here, and is dropped. -/
def foldElvis (left right : Expr) : Expr :=
  if (exprToValue left).isUndefined then right else .elvis left right

/-- Parentheses stay around an operator only. -/
def foldParen (inner : Expr) : Expr :=
  match inner with
  | .binary _ _ _ | .unary _ _ | .conditional _ _ _ | .elvis _ _ => .paren inner
  | _ => inner

section
variable (host : Host)

def foldCall (name : String) (args : List Expr) : Expr :=
  if host.equalFold name "ifThenElse" then
    match args with
    | [condition, whenTrue, whenFalse] =>
      match exprToValue condition with
      | .boolean decided => if decided then whenTrue else whenFalse
      | _ => .call name args
    | _ => .call name args
  else .call name args

mutual

/-- `flattenExpr` on an empty ad. -/
def flattenExpr : Expr → Expr
  | .paren inner => foldParen (flattenExpr inner)
  | .reference name scope =>
    if isCurrentTimeRef host name scope then .integer host.now else .reference name scope
  | .binary op left right => foldBinary op (flattenExpr left) (flattenExpr right)
  | .unary op operand => foldUnary op (flattenExpr operand)
  | .conditional condition whenTrue whenFalse =>
    foldConditional (flattenExpr condition) (flattenExpr whenTrue) (flattenExpr whenFalse)
  | .elvis left right => foldElvis (flattenExpr left) (flattenExpr right)
  | .call name args => foldCall host name (flattenAll args)
  | .list elements => .list (flattenAll elements)
  | .select record attr => .select (flattenExpr record) attr
  | .subscript container index => .subscript (flattenExpr container) (flattenExpr index)
  | expr => expr

def flattenAll : List Expr → List Expr
  | [] => []
  | head :: rest => flattenExpr head :: flattenAll rest

end

def foldConstants (expr : Expr) : Expr := flattenExpr host expr

/-! ## Where folding is faithful -/

/-- What must survive folding: how `&&`, `||`, `!` and `?:` see the value; the value as whoever reads
its lists finds it; the elements of a list; or all of the value, the source of list elements included. -/
inductive Grade where
  | logic
  | read
  | elements
  | value
  deriving DecidableEq, Repr

/-- What must survive of a container so that this survives of what a subscript takes out. -/
def Grade.ofContainer : Grade → Grade
  | logic | read => read
  | elements | value => elements

/-- The value that decides `&&` or `||` by itself. -/
def decides : BinaryOperator → Bool
  | .or => true
  | _ => false

def keepLiteral (expr : Expr) : Option Expr := if isLiteralExpr expr then some expr else none

/-- What an operator makes of literals. A left one can decide `&&` or `||` by itself. -/
def combine (op : BinaryOperator) : Option Expr → Option Expr → Option Expr
  | some first, some second => keepLiteral (foldBinary op first second)
  | some (.boolean decided), none =>
    if (op = .and ∨ op = .or) ∧ decided = decides op then some (.boolean decided) else none
  | _, _ => none

/-- `&&` and `||` do not see the literal as an error. -/
def noError (literal : Expr) : Bool := logicalView (exprToValue literal) != .isErr

/-- The branch a literal condition takes. -/
def choose (condition whenTrue whenFalse : Option Expr) : Option Expr := match condition with
  | some (.boolean decided) => if decided then whenTrue else whenFalse
  | _ => none

mutual

/-- The literal an expression of literals comes to. An operand that is not evaluated does not count. -/
def constant : Expr → Option Expr
  | .paren inner => constant inner
  | .unary op operand => (constant operand).bind fun literal => keepLiteral (foldUnary op literal)
  | .binary op left right => combine op (constant left) (constant right)
  | .conditional condition whenTrue whenFalse =>
    choose (constant condition) (constant whenTrue) (constant whenFalse)
  | .elvis left right => match constant left with
    | some .undefined => constant right
    | _ => none
  | .call name args => if host.equalFold name "ifThenElse" then constantBranches args else none
  | expr => keepLiteral expr

def constantBranches : List Expr → Option Expr
  | [condition, whenTrue, whenFalse] =>
    choose (constant condition) (constant whenTrue) (constant whenFalse)
  | _ => none

end

/-- The boolean an expression of literals comes to. -/
def settled (expr : Expr) : Option Bool := match constant host expr with
  | some (.boolean value) => some value
  | _ => none

def isTypeTest (funcName : String) : Bool :=
  ["isundefined", "iserror", "isstring", "isinteger", "isreal", "isboolean", "islist", "isclassad"].contains funcName

/-- The value is a boolean, undefined or an error, so that coercing it to a boolean changes nothing. -/
def isLogical : Expr → Bool
  | .boolean _ | .undefined | .error => true
  | .paren inner => isLogical inner
  | .unary op _ => op == .not
  | .binary op _ _ => match op with
    | .and | .or | .is | .isnt | .less | .lessEqual | .greater | .greaterEqual | .equal | .notEqual => true
    | _ => false
  | .conditional _ whenTrue whenFalse => isLogical whenTrue && isLogical whenFalse
  | .call name _ => isTypeTest (host.toLower name)
  | _ => false

/-- An operator the folder keeps parentheses around. -/
def isOperator : Expr → Bool
  | .binary _ _ _ | .unary _ _ | .conditional _ _ _ | .elvis _ _ => true
  | _ => false

mutual

/-- Folding leaves the expression exactly as it is written. -/
def inert : Expr → Bool
  | .nil | .integer _ | .real _ | .string _ | .boolean _ | .undefined | .error | .record _ => true
  | .paren inner => isOperator inner && inert inner
  | .reference name scope => !isCurrentTimeRef host name scope
  | .unary _ operand => inert operand && !isLiteralExpr operand
  | .binary op left right => inert left && inert right &&
    if op = .and ∨ op = .or then !isLiteralExpr left && !isLiteralExpr right
    else !(isLiteralExpr left && isLiteralExpr right)
  | .conditional condition whenTrue whenFalse =>
    inert condition && inert whenTrue && inert whenFalse && !isLiteralExpr condition
  | .elvis _ _ => false
  | .list elements => inertAll elements
  | .call name args => !host.equalFold name "ifThenElse" && inertAll args
  | .select record _ => inert record
  | .subscript container index => inert container && inert index

def inertAll : List Expr → Bool
  | [] => true
  | head :: rest => inert head && inertAll rest

end

/-- The functions that unparse a list they are given. -/
def printsLists (funcName : String) : Bool :=
  ["strcat", "string", "join", "tolower", "toupper", "strcmp", "stricmp", "versioncmp", "version_in_range",
    "versionge", "versiongt", "versionle", "versionlt", "versioneq"].contains funcName

/-- A view without the source of a list's elements. -/
def blur : View → View
  | .lazyList elements => .lazyList (elements.map fun _ => .nil)
  | view => view

/-- A built-in that prints no lists sees their elements and not how these are written. -/
def PrintsOnlyThere : Prop := ∀ funcName, printsLists funcName = false → ∀ views views' elements elements',
  views.map blur = views'.map blur → elements.map (·.map blur) = elements'.map (·.map blur) →
    host.materializes funcName views = host.materializes funcName views' ∧
    host.builtin funcName views elements = host.builtin funcName views' elements'

theorem asciiHost_prints (now : Int64) : PrintsOnlyThere (asciiHost now) := fun _ _ _ _ _ _ _ _ => ⟨rfl, rfl⟩

mutual

/-- Folding keeps what `grade` says of the expression. It goes wrong at a `&&` or `||` with an operand
that comes to a boolean. As the right operand, such a boolean hides an error of the left one if it decides
the result. If it does not, the other operand stands for the whole, and is not coerced to a boolean.
It goes wrong also at a `?:` whose left operand is not constant, where the clock is read, where a
function is given syntax, and where a list is printed. -/
def foldsExactly : Grade → Expr → Bool
  | _, .nil | _, .integer _ | _, .real _ | _, .string _ | _, .boolean _ | _, .undefined
  | _, .error | _, .record _ => true
  | grade, .paren inner => foldsExactly grade inner
  | _, .reference name scope => !isCurrentTimeRef host name scope
  | grade, .binary op left right =>
    if op = .and ∨ op = .or then
      foldsExactly .logic left && (settled host left == some (decides op) || foldsExactly .logic right &&
        (settled host left == none || grade == .logic || isLogical host right && foldsExactly .read right) &&
        (settled host left != none ||
          (settled host right != some (!decides op) || grade == .logic || isLogical host left &&
            foldsExactly .read left) &&
          (settled host right != some (decides op) || (constant host left).any noError)))
    else foldsExactly .read left && foldsExactly .read right
  | _, .unary op operand => foldsExactly (if op = .not then .logic else .read) operand
  | grade, .conditional condition whenTrue whenFalse =>
    foldsExactly .logic condition && (settled host condition == some false || foldsExactly grade whenTrue) &&
      (settled host condition == some true || foldsExactly grade whenFalse)
  | grade, .elvis left right =>
    (constant host left).isSome && foldsExactly .value left && foldsExactly grade right
  | grade, .list elements => match grade with
    | .logic => true
    | .read => foldsExactlyAll .read elements
    | .elements => foldsExactlyAll .value elements
    | .value => inertAll host elements
  | grade, .call name args =>
    (!host.equalFold name "ifThenElse" || host.toLower name == "ifthenelse") &&
      if host.toLower name = "ifthenelse" then foldsExactlyBranches grade args
      else if readsSyntax (host.toLower name) then inertAll host args
      else foldsExactlyAll (if printsLists (host.toLower name) then .value else .read) args
  | _, .select record _ => foldsExactly .read record
  | grade, .subscript container index => foldsExactly grade.ofContainer container && foldsExactly .read index

def foldsExactlyAll : Grade → List Expr → Bool
  | _, [] => true
  | grade, head :: rest => foldsExactly grade head && foldsExactlyAll grade rest

/-- The arguments of `ifThenElse`; with a wrong number of them nothing is evaluated. -/
def foldsExactlyBranches : Grade → List Expr → Bool
  | grade, [condition, whenTrue, whenFalse] =>
    foldsExactly .logic condition && (settled host condition == some false || foldsExactly grade whenTrue) &&
      (settled host condition == some true || foldsExactly grade whenFalse)
  | _, _ => true

end

/-- Folding keeps the expression true wherever it is true. Dropping a coercion or hiding an
error does no harm here, because neither turns a true expression into anything else. -/
def keepsTruth (expr : Expr) : Bool := foldsExactly host .logic expr || match expr with
  | .paren inner => keepsTruth inner
  | .binary .and left right => keepsTruth left && keepsTruth right
  | .binary .or left right => foldsExactly host .logic left && keepsTruth right
  | .conditional condition whenTrue whenFalse =>
    foldsExactly host .logic condition && (settled host condition == some false || keepsTruth whenTrue) &&
      (settled host condition == some true || keepsTruth whenFalse)
  | .elvis left right => (constant host left).isSome && foldsExactly host .value left && keepsTruth right
  | _ => false

end
end Classad.ConstantFold
