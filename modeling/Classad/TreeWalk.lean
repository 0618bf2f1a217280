import Classad.PartialRun
import Classad.Operators

/-! The tree-walking evaluator. One fuel level is one recursive call of `Evaluate`,
so the model recurses where the source does; running out of fuel is `stuck`, which no
source behaviour is. The per-ad maps of attributes under evaluation are strictly
nested in the source (set on entry, removed on every exit), so the model hands the
marks down instead of storing them in the ads. -/
namespace Classad.TreeWalk
open Syntax Operators PartialRun

/-- The values a built-in function can return: none of them builds an ad or a lazy list. -/
inductive Scalar where
  | undefined
  | error
  | boolean (value : Bool)
  | integer (value : Int64)
  | real (value : Float)
  | string (value : String)

def Scalar.toValue : Scalar → Value
  | undefined => .undefined
  | error => .error
  | boolean value => .boolean value
  | integer value => .integer value
  | real value => .real value
  | string value => .string value

inductive BuiltinResult where
  | scalar (value : Scalar)
  | list (elements : List Scalar)

def BuiltinResult.toValue : BuiltinResult → Value
  | scalar value => value.toValue
  | list elements => .list (elements.map Scalar.toValue)

/-- What a built-in function can see of an argument. The scope and the recorded depth
of a lazy list are not visible; its source expressions are, because `string` and
`strcat` unparse them. -/
inductive View where
  | scalar (value : Scalar)
  | lazyList (elements : List Expr)
  | list (elements : List View)
  | classAd (attributes : Attributes)

mutual

def view : Value → View
  | .undefined => .scalar .undefined
  | .error => .scalar .error
  | .boolean value => .scalar (.boolean value)
  | .integer value => .scalar (.integer value)
  | .real value => .scalar (.real value)
  | .string value => .scalar (.string value)
  | .lazyList elements _ _ => .lazyList elements
  | .list elements => .list (views elements)
  | .classAd attributes => .classAd attributes

def views : List Value → List View
  | [] => []
  | head :: rest => view head :: views rest

end

/-- What the evaluator takes from outside itself: case folding, the clock (read once
per evaluation), the parser behind `eval`, the unparser, and the built-in functions
that only look at their evaluated arguments. A built-in says which of its list
arguments it materializes and then computes from the elements. -/
structure Host where
  toLower : String → String
  equalFold : String → String → Bool
  now : Int64
  parse : String → Option Attributes
  unparse : Expr → String
  materializes : String → List View → Nat → Bool
  builtin : String → List View → List (List View) → BuiltinResult

def View.isUndefined : View → Bool
  | scalar .undefined => true
  | _ => false

def View.isError : View → Bool
  | scalar .error => true
  | _ => false

def View.isString : View → Bool
  | scalar (.string _) => true
  | _ => false

def View.isInteger : View → Bool
  | scalar (.integer _) => true
  | _ => false

def View.isReal : View → Bool
  | scalar (.real _) => true
  | _ => false

def View.isBoolean : View → Bool
  | scalar (.boolean _) => true
  | _ => false

def View.isList : View → Bool
  | lazyList _ | list _ => true
  | _ => false

def View.isClassAd : View → Bool
  | classAd _ => true
  | _ => false

/-- The built-ins that only inspect a type, and the clock. -/
def typeBuiltin (now : Int64) (name : String) : List View → Option Scalar
  | [] => if name = "time" then some (.integer now) else none
  | [arg] =>
    if name = "isundefined" then some (.boolean arg.isUndefined)
    else if name = "iserror" then some (.boolean arg.isError)
    else if name = "isstring" then some (.boolean arg.isString)
    else if name = "isinteger" then some (.boolean arg.isInteger)
    else if name = "isreal" then some (.boolean arg.isReal)
    else if name = "isboolean" then some (.boolean arg.isBoolean)
    else if name = "islist" then some (.boolean arg.isList)
    else if name = "isclassad" then some (.boolean arg.isClassAd)
    else none
  | _ => none

/-- Case folding restricted to ASCII, a stopped clock and no text handling: all that
small ads with plain names need. -/
def asciiHost (now : Int64) : Host where
  toLower name := String.ofList (name.toList.map Char.toLower)
  equalFold left right := left.toList.map Char.toLower == right.toList.map Char.toLower
  now := now
  parse _ := none
  unparse _ := ""
  materializes _ _ _ := false
  builtin _ _ _ := .scalar .error

/-- The ads a `TARGET` link can lead to, each with its own parents. -/
abbrev World := Nat → Scope

/-- Whether reaching `maxEvalDepth` panics, as in the source, or is observed. -/
inductive DepthGuard where
  | panics
  | observed
  deriving DecidableEq, Repr

def maxEvalDepth : Nat := 2000

def currentTimeAttr : String := "currenttime"

structure Evaluator where
  scope : Scope
  depth : Nat
  marks : List (AdId × String)
  resolver : Option (String → AttributeScope → Value)

abbrev Recurse := Evaluator → Expr → Run Value

/-- An ad number no ad in scope and no mark uses, standing for a new allocation. -/
def freshNumber (scope : Scope) (marks : List (AdId × String)) : Nat :=
  (scope.map Frame.id ++ marks.map Prod.fst).foldr
    (fun id bound => match id with
      | .nested number => max bound (number + 1)
      | .root _ => bound) 0

/-- The frame of a record literal that is being entered. -/
def nestedFrame (ev : Evaluator) (attributes : Attributes) : Frame :=
  ⟨.nested (freshNumber ev.scope ev.marks), attributes, none⟩

section
variable (host : Host) (world : World)

def normalizeName (name : String) : String := host.toLower name

/-- The expression bound to a folded name: a later assignment overwrites an earlier one. -/
def bound (norm : String) : Attributes → Option Expr
  | [] => none
  | (name, value) :: rest =>
    match bound norm rest with
    | some later => some later
    | none => if normalizeName host name = norm then some value else none

/-- A binding to a nil expression counts as absent. -/
def lookupNorm (attributes : Attributes) (norm : String) : Option Expr :=
  match bound host norm attributes with
  | some .nil => none
  | found => found

/-- The target ad of the current ad, with its parents. -/
def targetOf : Scope → Scope
  | [] => []
  | frame :: _ => match frame.target with
    | some number => world number
    | none => []

/-- Search an ad and then its parents, keeping the scope the binding was found in. -/
def lookupInScope (norm : String) : Scope → Option (Scope × Frame × Expr)
  | [] => none
  | frame :: parents =>
    match lookupNorm host frame.attributes norm with
    | some expr => some (frame :: parents, frame, expr)
    | none => lookupInScope norm parents

def isCurrentTimeRef (name : String) : AttributeScope → Bool
  | .none | .my => normalizeName host name == currentTimeAttr
  | _ => false

variable (recurse : Recurse) (ev : Evaluator)

/-- Evaluate the expression bound to a name in the ad heading `scope`. Literals skip the
cyclic-reference marks; anything else panics when its mark is already set. -/
def evalAttrExpr (scope : Scope) (frame : Frame) (norm : String) (expr : Expr) : Run Value :=
  if isLiteralExpr expr then recurse ev expr
  else if (frame.id, norm) ∈ ev.marks then .panic
  else recurse { ev with scope := scope, marks := (frame.id, norm) :: ev.marks } expr

def evalAttrIn (scope : Scope) (norm : String) : Run Value :=
  match scope with
  | [] => .ok .undefined
  | frame :: _ => match lookupNorm host frame.attributes norm with
    | some expr => evalAttrExpr recurse ev scope frame norm expr
    | none => .ok .undefined

def resolveAttributeReference (name : String) (scope : AttributeScope) : Run Value :=
  match ev.resolver with
  | some resolve => .ok (resolve name scope)
  | none =>
    let norm := normalizeName host name
    match scope with
    | .my => evalAttrIn host recurse ev ev.scope norm
    | .target => evalAttrIn host recurse ev (targetOf world ev.scope) norm
    | .parent => evalAttrIn host recurse ev ev.scope.tail norm
    | .none => match lookupInScope host norm ev.scope with
      | some (found, frame, expr) => evalAttrExpr recurse ev found frame norm expr
      | none => match lookupInScope host norm (targetOf world ev.scope) with
        | some (found, frame, expr) => evalAttrExpr recurse ev found frame norm expr
        | none => .ok .undefined

def evaluateAttributeReference (name : String) (scope : AttributeScope) : Run Value := do
  let value ← resolveAttributeReference host world recurse ev name scope
  if value.isUndefined && isCurrentTimeRef host name scope then .ok (.integer host.now)
  else .ok value

variable (op : BinaryOperator) (left right : Expr)

def evaluateShortCircuit : Run Value := do
  let leftValue ← recurse ev left
  match shortCircuit op leftValue with
  | some decided => .ok decided
  | none => do
    let rightValue ← recurse ev right
    .ok (applyBinaryValues op leftValue rightValue)

def evaluateBinaryOp : Run Value :=
  if op = .and ∨ op = .or then evaluateShortCircuit recurse ev op left right
  else do
    let leftValue ← recurse ev left
    let rightValue ← recurse ev right
    .ok (applyBinaryValues op leftValue rightValue)

/-- An undefined condition evaluates both branches, for their panics only. -/
def evaluateConditional (condition whenTrue whenFalse : Expr) : Run Value := do
  let value ← recurse ev condition
  match logicalView value with
  | .isTrue => recurse ev whenTrue
  | .isFalse => recurse ev whenFalse
  | .isUndef => do
    let _ ← recurse ev whenTrue
    let _ ← recurse ev whenFalse
    .ok .undefined
  | .isErr => .ok .error

def evaluateElvis (left right : Expr) : Run Value := do
  let value ← recurse ev left
  if value.isUndefined then recurse ev right else .ok value

/-- The evaluator of a lazy list's elements. Depth accounting never restarts below the
depth at which the list was built. -/
def lazyEvaluator (scope : Scope) (depth : Nat) (parentDepth : Nat) : Evaluator :=
  ⟨scope, max depth parentDepth, ev.marks, none⟩

/-- The elements of a list value, a cyclic element becoming an error element. -/
def listValue : Value → Run (Option (List Value))
  | .lazyList elements scope depth => do
    let values ← Run.traverse
      (fun element => (recurse (lazyEvaluator ev scope depth 0) element).recover .error) elements
    .ok (some values)
  | .list elements => .ok (some elements)
  | _ => .ok none

/-- One element of a list value, evaluated alone; the caller has checked the index. -/
def listElementAt (index : Nat) : Value → Run Value
  | .lazyList elements scope depth =>
    match elements[index]? with
    | some element => (recurse (lazyEvaluator ev scope depth ev.depth) element).recover .error
    | none => .stuck
  | .list elements => match elements[index]? with
    | some element => .ok element
    | none => .stuck
  | _ => .stuck

def selectAttr (record : Value) (attr : String) : Run Value :=
  match record with
  | .undefined => .ok .undefined
  | .classAd attributes =>
    evaluateAttributeReference host world recurse
      ⟨nestedFrame ev attributes :: ev.scope, ev.depth, ev.marks, none⟩ attr .none
  | _ => .ok .error

/-- Selecting from a list selects from every element; a cyclic element is not caught. -/
def selectValue (value : Value) (attr : String) : Run Value :=
  match value with
  | .lazyList elements scope depth => do
    let values ← Run.traverse (recurse (lazyEvaluator ev scope depth ev.depth)) elements
    let selected ← Run.traverse (fun element => selectAttr host world recurse ev element attr) values
    .ok (.list selected)
  | .list elements => do
    let selected ← Run.traverse (fun element => selectAttr host world recurse ev element attr) elements
    .ok (.list selected)
  | other => selectAttr host world recurse ev other attr

def evaluateSelectExpr (record : Expr) (attr : String) : Run Value := do
  let value ← recurse ev record
  selectValue host world recurse ev value attr

/-- Evaluate an attribute of an ad by name. The evaluator is a new one: depth restarts at
zero, a panic is caught here, and the attribute itself is not marked. -/
def evaluateAttr (frame : Frame) (name : String) : Run Value :=
  match lookupNorm host frame.attributes (normalizeName host name) with
  | none =>
    if host.equalFold name currentTimeAttr then .ok (.integer host.now) else .ok .undefined
  | some expr => (recurse ⟨[frame], 0, ev.marks, none⟩ expr).recover .error

/-- Subscript an evaluated container with an evaluated index. -/
def subscriptValue : Value → Value → Run Value
  | .lazyList elements scope depth, .integer i =>
    if i < 0 ∨ (elements.length : Int) ≤ i.toInt then .ok .error
    else listElementAt recurse ev i.toInt.toNat (.lazyList elements scope depth)
  | .list elements, .integer i =>
    if i < 0 ∨ (elements.length : Int) ≤ i.toInt then .ok .error
    else listElementAt recurse ev i.toInt.toNat (.list elements)
  | .classAd attributes, .string key =>
    evaluateAttr host recurse ev (nestedFrame ev attributes) key
  | _, _ => .ok .error

/-- An undefined or error container leaves the index unevaluated. -/
def evaluateSubscriptExpr (container index : Expr) : Run Value := do
  let containerValue ← recurse ev container
  if containerValue.isUndefined then .ok .undefined
  else if containerValue.isError then .ok .error
  else do
    let indexValue ← recurse ev index
    if indexValue.isUndefined then .ok .undefined
    else if indexValue.isError then .ok .error
    else subscriptValue host recurse ev containerValue indexValue

/-- The ad `unparse` and `countMatches` look a reference up in. -/
def referencedAd : AttributeScope → Scope
  | .target => targetOf world ev.scope
  | .parent => ev.scope.tail
  | _ => ev.scope

def evaluateUnparse : List Expr → Run Value
  | [.reference name scope] => match referencedAd world ev scope with
    | [] => .ok .undefined
    | frame :: _ => match lookupNorm host frame.attributes (normalizeName host name) with
      | none => .ok .undefined
      | some expr => .ok (.string (host.unparse expr))
  | _ => .ok .error

/-- Parse a string value as an expression and evaluate it where the call stands. -/
def evalText : Value → Run Value
  | .undefined => .ok .undefined
  | .string text => match host.parse ("[__eval_tmp = " ++ text ++ "]") with
    | some [(_, expr)] => recurse ev expr
    | _ => .ok .error
  | _ => .ok .error

def evaluateEval : List Expr → Run Value
  | [arg] => do
    let value ← recurse ev arg
    evalText host recurse ev value
  | _ => .ok .error

def evaluateIfThenElse : List Expr → Run Value
  | [condition, whenTrue, whenFalse] => do
    let value ← recurse ev condition
    match logicalView value with
    | .isTrue => recurse ev whenTrue
    | .isFalse => recurse ev whenFalse
    | .isUndef => .ok .undefined
    | .isErr => .ok .error
  | _ => .ok .error

/-- The expression a reference is bound to, without evaluating it. A `PARENT` reference
is looked up in the current ad, as the source does. -/
def lookupBoundExpr (name : String) (scope : AttributeScope) : Option Expr :=
  match if scope = .target then targetOf world ev.scope else ev.scope with
  | [] => none
  | frame :: _ => bound host (normalizeName host name) frame.attributes

def evalInNested (expr : Expr) : Value → Run Value
  | .classAd attributes => recurse ⟨[nestedFrame ev attributes], ev.depth, ev.marks, none⟩ expr
  | .undefined => .ok .undefined
  | _ => .ok .error

/-- Whether a value counts as a match: a true boolean or a non-zero number. -/
def boolEquiv : Value → Bool
  | .boolean value => value
  | .integer value => value != 0
  | .real value => !(value == Float.ofInt 0)
  | _ => false

/-- The expression `countMatches` and `evalInEachContext` evaluate in each nested ad. -/
def contextExpr (arg : Expr) : Expr :=
  match unwrapParens arg with
  | .reference name scope => (lookupBoundExpr host world ev name scope).getD arg
  | _ => arg

def evaluateEvalInEach (wantList : Bool) : List Expr → Run Value
  | [arg, listArg] => do
    let each := contextExpr host world ev arg
    let listed ← recurse ev listArg
    if listed.isUndefined then .ok (if wantList then .undefined else .integer 0)
    else do
      let elements ← listValue recurse ev listed
      match elements with
      | none => .ok .error
      | some elements => do
        let results ← Run.traverse (evalInNested recurse ev each) elements
        .ok (if wantList then .list results
          else .integer (Int64.ofNat (results.filter boolEquiv).length))
  | _ => .ok .error

/-- Evaluate arguments until the first undefined or error one, which is kept. -/
def strcatArgs : List Expr → Run (List Value)
  | [] => .ok []
  | arg :: rest => do
    let value ← recurse ev arg
    if value.isUndefined || value.isError then .ok [value]
    else do
      let others ← strcatArgs rest
      .ok (value :: others)

/-- The elements of an argument a built-in asks for; other arguments yield none. -/
def argElements (wanted : Bool) (arg : Value) : Run (Option (List Value)) :=
  if wanted then listValue recurse ev arg else .ok none

/-- Materialize the list arguments a built-in asks for, from left to right. -/
def materialize (wanted : Nat → Bool) (position : Nat) : List Value → Run (List (List View))
  | [] => .ok []
  | value :: rest => do
    let elements ← argElements recurse ev (wanted position) value
    let others ← materialize wanted (position + 1) rest
    .ok (views (elements.getD []) :: others)

def callBuiltin (name : String) (args : List Value) : Run Value :=
  match typeBuiltin host.now name (views args) with
  | some result => .ok result.toValue
  | none => do
    let elements ← materialize recurse ev (host.materializes name (views args)) 0 args
    .ok (host.builtin name (views args) elements).toValue

end

/-- The accepted argument counts of a built-in; no upper bound means variadic. -/
structure FuncArity where
  min : Nat
  max : Option Nat

def FuncArity.accepts (arity : FuncArity) (count : Nat) : Bool :=
  decide (arity.min ≤ count) && match arity.max with
    | none => true
    | some most => decide (count ≤ most)

def functionArity : List (String × FuncArity) := [
  ("unparse", ⟨1, some 1⟩), ("eval", ⟨1, some 1⟩), ("ifthenelse", ⟨3, some 3⟩),
  ("strcat", ⟨0, none⟩), ("substr", ⟨2, some 3⟩), ("size", ⟨1, some 1⟩),
  ("tolower", ⟨1, some 1⟩), ("toupper", ⟨1, some 1⟩), ("floor", ⟨1, some 1⟩),
  ("ceiling", ⟨1, some 1⟩), ("ceil", ⟨1, some 1⟩), ("round", ⟨1, some 1⟩),
  ("random", ⟨0, some 1⟩), ("int", ⟨1, some 1⟩), ("real", ⟨1, some 1⟩),
  ("isundefined", ⟨1, some 1⟩), ("iserror", ⟨1, some 1⟩), ("isstring", ⟨1, some 1⟩),
  ("isinteger", ⟨1, some 1⟩), ("isreal", ⟨1, some 1⟩), ("isboolean", ⟨1, some 1⟩),
  ("islist", ⟨1, some 1⟩), ("isclassad", ⟨1, some 1⟩), ("time", ⟨0, some 0⟩),
  ("member", ⟨2, some 2⟩), ("stringlistmember", ⟨2, some 3⟩),
  ("stringlistimember", ⟨2, some 3⟩), ("regexp", ⟨2, some 3⟩), ("string", ⟨1, some 1⟩),
  ("bool", ⟨1, some 1⟩), ("pow", ⟨2, some 2⟩), ("quantize", ⟨2, some 2⟩),
  ("sum", ⟨1, some 1⟩), ("avg", ⟨1, some 1⟩), ("min", ⟨1, some 1⟩), ("max", ⟨1, some 1⟩),
  ("join", ⟨1, none⟩), ("split", ⟨1, some 2⟩), ("splitusername", ⟨1, some 1⟩),
  ("splitslotname", ⟨1, some 1⟩), ("strcmp", ⟨2, some 2⟩), ("stricmp", ⟨2, some 2⟩),
  ("versioncmp", ⟨2, some 2⟩), ("version_in_range", ⟨3, some 3⟩),
  ("versionge", ⟨2, some 2⟩), ("versiongt", ⟨2, some 2⟩), ("versionle", ⟨2, some 2⟩),
  ("versionlt", ⟨2, some 2⟩), ("versioneq", ⟨2, some 2⟩), ("countmatches", ⟨2, some 2⟩),
  ("evalineachcontext", ⟨2, some 2⟩), ("formattime", ⟨0, some 2⟩),
  ("interval", ⟨1, some 1⟩), ("identicalmember", ⟨2, some 2⟩), ("anycompare", ⟨3, some 3⟩),
  ("allcompare", ⟨3, some 3⟩), ("stringlistsize", ⟨1, some 2⟩),
  ("stringlistsum", ⟨1, some 2⟩), ("stringlistavg", ⟨1, some 2⟩),
  ("stringlistmin", ⟨1, some 2⟩), ("stringlistmax", ⟨1, some 2⟩),
  ("stringlistsintersect", ⟨2, some 3⟩), ("stringlistsubsetmatch", ⟨2, some 3⟩),
  ("stringlistregexpmember", ⟨2, some 4⟩), ("regexpmember", ⟨2, some 3⟩),
  ("regexps", ⟨3, some 4⟩), ("replace", ⟨3, some 4⟩), ("replaceall", ⟨3, some 4⟩)]

def acceptsArity (funcName : String) (count : Nat) : Bool :=
  match functionArity.lookup funcName with
  | none => false
  | some arity => arity.accepts count

/-- The functions that look at the shape of an argument rather than at its value. -/
def readsSyntax (funcName : String) : Bool :=
  funcName == "unparse" || funcName == "countmatches" || funcName == "evalineachcontext"

section
variable (host : Host) (world : World)

/-- An unknown function, or a known one with the wrong number of arguments, is an
error before any argument is evaluated. -/
def evaluateFunctionCall (recurse : Recurse) (ev : Evaluator) (name : String)
    (args : List Expr) : Run Value :=
  let funcName := host.toLower name
  if funcName = "unparse" then evaluateUnparse host world ev args
  else if funcName = "eval" then evaluateEval host recurse ev args
  else if funcName = "ifthenelse" then evaluateIfThenElse recurse ev args
  else if !acceptsArity funcName args.length then .ok .error
  else if funcName = "strcat" then do
    let values ← strcatArgs recurse ev args
    callBuiltin host recurse ev funcName values
  else if funcName = "countmatches" then evaluateEvalInEach host world recurse ev false args
  else if funcName = "evalineachcontext" then evaluateEvalInEach host world recurse ev true args
  else do
    let values ← Run.traverse (recurse ev) args
    callBuiltin host recurse ev funcName values

/-- Dispatch one expression node; `ev.depth` already counts it. -/
def evalNode (recurse : Recurse) (ev : Evaluator) : Expr → Run Value
  | .nil => .ok .undefined
  | .paren inner => recurse ev inner
  | .integer value => .ok (.integer value)
  | .real value => .ok (.real value)
  | .string value => .ok (.string value)
  | .boolean value => .ok (.boolean value)
  | .undefined => .ok .undefined
  | .error => .ok .error
  | .reference name scope => evaluateAttributeReference host world recurse ev name scope
  | .binary op left right => evaluateBinaryOp recurse ev op left right
  | .unary op operand => do
    let value ← recurse ev operand
    .ok (applyUnaryValue op value)
  | .conditional condition whenTrue whenFalse =>
    evaluateConditional recurse ev condition whenTrue whenFalse
  | .elvis left right => evaluateElvis recurse ev left right
  | .list elements => .ok (.lazyList elements ev.scope ev.depth)
  | .record attributes => .ok (.classAd attributes)
  | .call name args => evaluateFunctionCall host world recurse ev name args
  | .select record attr => evaluateSelectExpr host world recurse ev record attr
  | .subscript container index => evaluateSubscriptExpr host recurse ev container index

def DepthGuard.fire : DepthGuard → Run Value
  | panics => .panic
  | observed => .stuck

/-- `Evaluate`: the recursion guard around one node. -/
def evaluate (guard : DepthGuard) : Nat → Evaluator → Expr → Run Value
  | 0, _, _ => .stuck
  | fuel + 1, ev, expr =>
    match expr with
    | .nil => .ok .undefined
    | expr =>
      if maxEvalDepth ≤ ev.depth then guard.fire
      else evalNode host world (evaluate guard fuel) { ev with depth := ev.depth + 1 } expr

theorem evaluate_succ {host : Host} {world : World} {guard : DepthGuard} {expr : Expr}
    (present : expr ≠ .nil) (fuel : Nat) (ev : Evaluator) :
    evaluate host world guard (fuel + 1) ev expr = if maxEvalDepth ≤ ev.depth then guard.fire
      else evalNode host world (evaluate host world guard fuel) { ev with depth := ev.depth + 1 } expr := by
  cases expr <;> first | rfl | exact absurd rfl present

variable (scope : Scope)

/-- A new evaluator bound to a scope. -/
def newEvaluator : Evaluator := ⟨scope, 0, [], none⟩

/-- The value an expression has in a scope, at the entry points that catch a cycle. -/
def Evaluates (expr : Expr) (value : Value) : Prop :=
  ∃ fuel, (evaluate host world .panics fuel (newEvaluator scope) expr).recover .error = .ok value

/-- Evaluation finishes without its recursion guard ever being consulted in vain: no
node is entered at depth `maxEvalDepth`. -/
def StaysBelowMaxDepth (expr : Expr) : Prop :=
  ∃ fuel, evaluate host world .observed fuel (newEvaluator scope) expr ≠ .stuck

/-- Evaluation ends in a panic that no list element catches: it comes back to an attribute it is
evaluating or, where the guard panics, reaches `maxEvalDepth`. -/
def Panics (guard : DepthGuard) (expr : Expr) : Prop :=
  ∃ fuel, evaluate host world guard fuel (newEvaluator scope) expr = .panic

/-- What a reader sees of a value who looks a number of levels into its lists. Reading a list
evaluates its elements, at the depth it recorded. -/
def shown (guard : DepthGuard) (fuel : Nat) : Nat → Value → Run View
  | 0, _ => .ok (.scalar .undefined)
  | levels + 1, value => do
    let elements ← listValue (evaluate host world guard fuel) (newEvaluator []) value
    match elements with
    | none => .ok (view value)
    | some elements => do
      let seen ← Run.traverse (shown guard fuel levels) elements
      .ok (.list seen)

/-- Two values that no reader can tell apart. -/
def Alike (left right : Value) : Prop :=
  left = right ∨ ∀ levels, ∃ fuel seen,
    shown host world .panics fuel levels left = .ok seen ∧ shown host world .panics fuel levels right = .ok seen

/-- Evaluation returns a value, and no node is entered at depth `maxEvalDepth`, neither for the
value nor for reading the lists in it. -/
def ReadsBelowMaxDepth (expr : Expr) : Prop :=
  ∃ fuel value, evaluate host world .observed fuel (newEvaluator scope) expr = .ok value ∧
    ∀ levels, ∃ fuel seen, shown host world .observed fuel levels value = .ok seen

end
end Classad.TreeWalk
