import Classad.ConstantFold
import Classad.VmCompile

/-! Index probes. A query is constant-folded, split along `&&` (and, for a plan, along `||`),
and each leaf that compares an attribute of the ad with literals becomes a probe. A store
looks at the ads its probes leave only, so a probe must never exclude an ad that matches. -/
namespace Classad.QueryProbe
open Syntax Operators TreeWalk VmCompile ConstantFold

/-! ## Queries -/

structure Query where
  prog : Program

section
variable (host : Host)

def referencesCurrentTime (expr : Expr) : Bool :=
  (collectReads expr []).any fun name => host.equalFold name "CurrentTime"

/-- A query that reads the clock is folded once, so that one time is baked into it. -/
def compile (expr : Expr) : Query :=
  if referencesCurrentTime host expr then ⟨compileProgram (foldConstants host expr)⟩
  else ⟨compileProgram expr⟩

end

/-- `Matches`: the program yields the boolean true. -/
def Query.Matches (host : Host) (world : World) (q : Query) (scope : Scope) : Prop :=
  Yields host world q.prog scope (.boolean true)

/-! ## Probes -/

/-- The comparisons a probe can ask for. -/
inductive CompareOp where
  | equal | notEqual | less | lessEqual | greater | greaterEqual | is | isnt
  deriving DecidableEq, Repr

def CompareOp.toBinary : CompareOp → BinaryOperator
  | equal => .equal
  | notEqual => .notEqual
  | less => .less
  | lessEqual => .lessEqual
  | greater => .greater
  | greaterEqual => .greaterEqual
  | is => .is
  | isnt => .isnt

/-- How a probe relates its attribute to its values: by one comparison, by equality with
any one of them, or by a test that needs none. -/
inductive ProbeOp where
  | compare (op : CompareOp)
  | member
  | present
  | absent
  | truthy
  | untruthy
  deriving DecidableEq, Repr

structure Probe where
  attr : String
  op : ProbeOp
  vals : List Value

/-- Whether an attribute value passes the probe, by the evaluator's own operators. -/
def Probe.accepts (probe : Probe) (value : Value) : Bool :=
  let passes (op : BinaryOperator) : Bool := probe.vals.any fun val =>
    match applyBinaryValues op value val with
    | .boolean result => result
    | _ => false
  match probe.op with
  | .compare op => passes op.toBinary
  | .member => passes .equal
  | .present => !value.isUndefined
  | .absent => value.isUndefined
  | .truthy => logicalView value == .isTrue
  | .untruthy => logicalView value == .isFalse

/-- The number a probe value or an attribute value stands for in an index: a number itself, or
a boolean as 0 or 1. -/
def numericFloat (value : Value) : Option Float := (numericOperand value).map Numeric.toReal

/-- The comparison whose result is the negation of the given one. -/
def negFlip : BinaryOperator → Option CompareOp
  | .equal => some .notEqual
  | .notEqual => some .equal
  | .less => some .greaterEqual
  | .lessEqual => some .greater
  | .greater => some .lessEqual
  | .greaterEqual => some .less
  | _ => none

/-- The comparison that holds when the operands are swapped. -/
def operandFlip : CompareOp → CompareOp
  | .equal => .equal
  | .notEqual => .notEqual
  | .less => .greater
  | .lessEqual => .greaterEqual
  | .greater => .less
  | .greaterEqual => .lessEqual
  | .is => .is
  | .isnt => .isnt

def unparen : Expr → Expr := unwrapParens

/-- The name of a reference to the ad itself. -/
def indexableRef (expr : Expr) : Option String :=
  match unparen expr with
  | .reference name .none | .reference name .my => some name
  | _ => none

/-- Undefined and error literals are not index values. -/
def literalVal (expr : Expr) : Option Value :=
  match unparen expr with
  | .integer value => some (.integer value)
  | .real value => some (.real value)
  | .string value => some (.string value)
  | .boolean value => some (.boolean value)
  | _ => none

def isUndefinedLit (expr : Expr) : Bool :=
  match unparen expr with
  | .undefined => true
  | _ => false

/-- A probe from `attr OP literal` or `literal OP attr`. -/
def cmpProbe (op : CompareOp) (left right : Expr) : Option Probe :=
  match indexableRef left, literalVal right with
  | some name, some val => some ⟨name, .compare op, [val]⟩
  | _, _ => match indexableRef right, literalVal left with
    | some name, some val => some ⟨name, .compare (operandFlip op), [val]⟩
    | _, _ => none

/-- The attribute of `attr is undefined`, in either order. -/
def refVsUndefined (left right : Expr) : Option String :=
  if isUndefinedLit right then indexableRef left
  else if isUndefinedLit left then indexableRef right
  else none

section
variable (host : Host)

def undefinedFuncProbe (name : String) (args : List Expr) (negated : Bool) : Option Probe :=
  if host.equalFold name "isUndefined" then
    match args with
    | [arg] => (indexableRef arg).map fun attr => ⟨attr, if negated then .present else .absent, []⟩
    | _ => none
  else none

/-- The operand of `!`, its parentheses removed. -/
def negatedProbe (inner : Expr) : Option Probe :=
  match inner with
  | .call name args => undefinedFuncProbe host name args true
  | .binary op left right =>
    match negFlip op with
    | some flipped => cmpProbe flipped left right
    | none =>
      if op = .is then (refVsUndefined left right).map fun attr => ⟨attr, .present, []⟩
      else if op = .isnt then (refVsUndefined left right).map fun attr => ⟨attr, .absent, []⟩
      else none
  | _ => (indexableRef inner).map fun attr => ⟨attr, .untruthy, []⟩

def identityProbe (op : CompareOp) (undefinedOp : ProbeOp) (left right : Expr) : Option Probe :=
  match refVsUndefined left right with
  | some attr => some ⟨attr, undefinedOp, []⟩
  | none => cmpProbe op left right

/-- A conjunct other than a `||`, its parentheses removed. -/
def leafProbe (leaf : Expr) : Option Probe :=
  match leaf with
  | .unary .not operand => negatedProbe host (unparen operand)
  | .call name args => undefinedFuncProbe host name args false
  | .reference name .none | .reference name .my => some ⟨name, .truthy, []⟩
  | .binary .equal left right => cmpProbe .equal left right
  | .binary .notEqual left right => cmpProbe .notEqual left right
  | .binary .less left right => cmpProbe .less left right
  | .binary .lessEqual left right => cmpProbe .lessEqual left right
  | .binary .greater left right => cmpProbe .greater left right
  | .binary .greaterEqual left right => cmpProbe .greaterEqual left right
  | .binary .is left right => identityProbe .is .absent left right
  | .binary .isnt left right => identityProbe .isnt .present left right
  | _ => none

/-- The conjuncts of the top-level `&&` spine. -/
def flattenAnd : Expr → List Expr
  | .paren .nil => [.paren .nil]
  | .paren inner => flattenAnd inner
  | .binary .and left right => flattenAnd left ++ flattenAnd right
  | expr => [expr]

/-- The disjuncts of the top-level `||` spine. -/
def flattenOr : Expr → List Expr
  | .paren .nil => [.paren .nil]
  | .paren inner => flattenOr inner
  | .binary .or left right => flattenOr left ++ flattenOr right
  | expr => [expr]

/-- The attribute and the values of disjuncts that each compare an attribute for equality with a literal.
`attr` is the attribute found so far, empty as long as there is none. -/
def equalityVals (attr : String) : List Expr → Option (String × List Value)
  | [] => some (attr, [])
  | disjunct :: rest =>
    match leafProbe host disjunct with
    | some ⟨name, .compare .equal, [val]⟩ =>
      if attr = "" then (equalityVals name rest).map fun found => (found.1, val :: found.2)
      else if host.equalFold attr name then (equalityVals attr rest).map fun found => (found.1, val :: found.2)
      else none
    | _ => none

/-- A set-membership probe from a `||` of equalities on one attribute. No disjunct is itself a
`||`, so none needs this case again. -/
def orEqProbe (disjunction : Expr) : Option Probe :=
  match equalityVals host "" (flattenOr disjunction) with
  | some (attr, vals) => if attr = "" then none else some ⟨attr, .member, vals⟩
  | none => none

/-- Classify one conjunct. -/
def probeFrom (conjunct : Expr) : Option Probe :=
  match unparen conjunct with
  | .binary .or left right => orEqProbe host (.binary .or left right)
  | leaf => leafProbe host leaf

def maxDNFGroups : Nat := 16

/-- Bounded disjunctive normal form: `||` concatenates the groups of its operands, `&&`
combines each of the left with each of the right. -/
def tryDNF : Expr → Option (List (List Expr))
  | .paren .nil => some [[.paren .nil]]
  | .paren inner => tryDNF inner
  | .binary .or left right =>
    if (orEqProbe host (.binary .or left right)).isSome then some [[.binary .or left right]]
    else match tryDNF left, tryDNF right with
      | some l, some r => if maxDNFGroups < l.length + r.length then none else some (l ++ r)
      | _, _ => none
  | .binary .and left right =>
    match tryDNF left, tryDNF right with
    | some l, some r =>
      if maxDNFGroups < l.length * r.length then none
      else some (l.flatMap fun ga => r.map fun gb => ga ++ gb)
    | _, _ => none
  | expr => some [[expr]]

/-- Beyond the bound only the top-level `||` spine is split. -/
def distributeDNF (expr : Expr) : List (List Expr) :=
  match tryDNF host expr with
  | some groups => groups
  | none => (flattenOr expr).map flattenAnd

def probes (q : Query) : List Probe :=
  match q.prog.expr with
  | .nil => []
  | expr => (flattenAnd (foldConstants host expr)).filterMap (probeFrom host)

/-- The plan: a disjunction of groups of probes, or nothing for an empty query. -/
def probePlan (q : Query) : Option (List (List Probe)) :=
  match q.prog.expr with
  | .nil => none
  | expr => some ((distributeDNF host (foldConstants host expr)).map
      fun group => group.filterMap (probeFrom host))

end
end Classad.QueryProbe
