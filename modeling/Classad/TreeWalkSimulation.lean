import Classad.OperatorProofs
import Classad.TreeWalk

/-! One simulation covers every comparison of two evaluations of the same expression.
The left evaluation may observe the recursion guard from deeper down, and its ads may
hold attributes the right ones lack, as long as no name the expression can reach is
among them. Fuel monotonicity, depth independence and partial decoding are instances. -/
namespace Classad.TreeWalkSimulation
open Syntax Operators OperatorProofs PartialRun TreeWalk List
open Run (Refines)

section
variable (host : Host) (targets : Bool) (names texts : String → Prop)

mutual

/-- Every name an expression mentions, at any depth and in any scope, is among `names`;
where no ad has a target, what is mentioned of the target does not count. Text given to
`eval` may mention anything: it is a constant among `texts`, unless all names are allowed. -/
def Mentions : Expr → Prop
  | .nil | .integer _ | .real _ | .string _ | .boolean _ | .undefined | .error => True
  | .paren inner => Mentions inner
  | .reference name scope => (scope = .target → targets = true) → names (normalizeName host name)
  | .binary _ left right => Mentions left ∧ Mentions right
  | .unary _ operand => Mentions operand
  | .conditional condition whenTrue whenFalse =>
    Mentions condition ∧ Mentions whenTrue ∧ Mentions whenFalse
  | .elvis left right => Mentions left ∧ Mentions right
  | .list elements => MentionsAll elements
  | .record attributes => MentionsIn attributes
  | .call name args => MentionsAll args ∧
    (host.toLower name = "eval" → (∀ norm, names norm) ∨ ∃ text, args = [.string text] ∧ texts text)
  | .select record attr => Mentions record ∧ names (normalizeName host attr)
  | .subscript container index => Mentions container ∧ Mentions index

def MentionsAll : List Expr → Prop
  | [] => True
  | head :: rest => Mentions head ∧ MentionsAll rest

def MentionsIn : List (String × Expr) → Prop
  | [] => True
  | (_, value) :: rest => Mentions value ∧ MentionsIn rest

end

/-- Constant text that itself stays within `names`, and gives no text to `eval`. -/
def TextWithin (text : String) : Prop :=
  ∀ label expr, host.parse ("[__eval_tmp = " ++ text ++ "]") = some [(label, expr)] →
    Mentions host targets names (fun _ => False) expr

abbrev Within : Expr → Prop := Mentions host targets names (TextWithin host targets names)

abbrev WithinAll : List Expr → Prop := MentionsAll host targets names (TextWithin host targets names)

abbrev WithinAttributes : List (String × Expr) → Prop := MentionsIn host targets names (TextWithin host targets names)

/-- Two ads with one identity that bind every name in `names` alike, to expressions
that stay within `names`. -/
structure FramesAgree (left right : Frame) : Prop where
  id : left.id = right.id
  target : left.target = right.target
  bound : ∀ norm, names norm →
    bound host norm left.attributes = bound host norm right.attributes
  within : ∀ norm expr, names norm → TreeWalk.bound host norm left.attributes = some expr →
    Within host targets names expr

end

section
variable {host : Host} {targets : Bool} {names texts : String → Prop} {norm : String}

theorem WithinAll.mem (within : WithinAll host targets names elements) (member : expr ∈ elements) :
    Within host targets names expr := by
  induction elements with
  | nil => cases member
  | cons head rest ih =>
    rw [mem_cons] at member
    rcases member with rfl | member
    · exact within.1
    · exact ih within.2 member

theorem WithinAll.forall₂ (within : WithinAll host targets names elements) :
    Forall₂ (fun left right => left = right ∧ Within host targets names left) elements elements := by
  induction elements with
  | nil => exact .nil
  | cons head rest ih => exact .cons ⟨rfl, within.1⟩ (ih within.2)

mutual

/-- Text may be allowed to an expression that gives none to `eval`, and everything may where every
name is allowed. -/
theorem mentions_of : ∀ expr, (∀ norm, names norm) ∨ Mentions host targets names (fun _ => False) expr →
    Mentions host targets names texts expr
  | .nil, _ | .integer _, _ | .real _, _ | .string _, _ | .boolean _, _ | .undefined, _ | .error, _ => trivial
  | .paren inner, bounds | .unary _ inner, bounds => mentions_of inner bounds
  | .reference _ _, bounds => fun counts => bounds.elim (fun anything => anything _) fun within => within counts
  | .binary _ left right, bounds | .elvis left right, bounds | .subscript left right, bounds =>
    ⟨mentions_of left (bounds.imp_right And.left), mentions_of right (bounds.imp_right And.right)⟩
  | .conditional condition whenTrue whenFalse, bounds =>
    ⟨mentions_of condition (bounds.imp_right And.left),
      mentions_of whenTrue (bounds.imp_right fun within => within.2.1),
      mentions_of whenFalse (bounds.imp_right fun within => within.2.2)⟩
  | .list elements, bounds => mentionsAll_of elements bounds
  | .record attributes, bounds => mentionsIn_of attributes bounds
  | .call _ args, bounds =>
    ⟨mentionsAll_of args (bounds.imp_right And.left), fun eval => bounds.elim .inl fun within =>
      (within.2 eval).imp_right fun ⟨_, _, never⟩ => never.elim⟩
  | .select record _, bounds =>
    ⟨mentions_of record (bounds.imp_right And.left), bounds.elim (fun anything => anything _) And.right⟩

theorem mentionsAll_of : ∀ elements, (∀ norm, names norm) ∨ MentionsAll host targets names (fun _ => False) elements →
    MentionsAll host targets names texts elements
  | [], _ => trivial
  | head :: rest, bounds =>
    ⟨mentions_of head (bounds.imp_right And.left), mentionsAll_of rest (bounds.imp_right And.right)⟩

theorem mentionsIn_of : ∀ attributes, (∀ norm, names norm) ∨ MentionsIn host targets names (fun _ => False) attributes →
    MentionsIn host targets names texts attributes
  | [], _ => trivial
  | (_, value) :: rest, bounds =>
    ⟨mentions_of value (bounds.imp_right And.left), mentionsIn_of rest (bounds.imp_right And.right)⟩

end

/-- With every name allowed, every expression is within bounds. -/
theorem within_of_all (anything : ∀ norm, names norm) (expr : Expr) : Within host targets names expr :=
  mentions_of expr (.inl anything)

/-- A binding is one of the assignments, under a spelling that folds to the name. -/
theorem bound_mem (found : bound host norm attributes = some expr) :
    ∃ name, host.toLower name = norm ∧ (name, expr) ∈ attributes := by
  induction attributes with
  | nil => cases found
  | cons head rest ih =>
    obtain ⟨name, value⟩ := head
    cases later : bound host norm rest with
    | some other =>
      rw [bound, later] at found
      obtain ⟨other, same, member⟩ := ih (later.trans found)
      exact ⟨other, same, .tail _ member⟩
    | none =>
      rw [bound, later] at found
      by_cases same : host.toLower name = norm
      · simp only [normalizeName, same, if_true, Option.some.injEq] at found
        subst found
        exact ⟨name, same, .head _⟩
      · simp [normalizeName, same] at found

theorem WithinAttributes.bound (within : WithinAttributes host targets names attributes)
    (found : bound host norm attributes = some expr) : Within host targets names expr := by
  obtain ⟨name, -, member⟩ := bound_mem found
  clear found
  induction attributes with
  | nil => cases member
  | cons head rest ih =>
    rcases mem_cons.mp member with rfl | member
    · exact within.1
    · exact ih within.2 member

theorem lookupNorm_bound (found : lookupNorm host attributes norm = some expr) :
    bound host norm attributes = some expr := by
  unfold lookupNorm at found
  split at found
  · cases found
  · exact found

section
variable (agree : FramesAgree host targets names left right) (known : names norm)
include agree known

theorem FramesAgree.lookup :
    lookupNorm host left.attributes norm = lookupNorm host right.attributes norm := by
  unfold lookupNorm
  rw [agree.bound norm known]

theorem FramesAgree.lookup_within (found : lookupNorm host left.attributes norm = some expr) :
    Within host targets names expr :=
  agree.within norm expr known (lookupNorm_bound found)

end

/-- An ad built from agreed attributes agrees with itself. -/
theorem nested_agree {id : AdId} (within : WithinAttributes host targets names attributes) :
    FramesAgree host targets names ⟨id, attributes, none⟩ ⟨id, attributes, none⟩ where
  id := rfl
  target := rfl
  bound := fun _ _ => rfl
  within := fun _ _ _ found => within.bound found

end

/-- Two evaluators about to be compared: whether ads may have targets, the names their
expressions may reach, how their ads correspond, and what each does at the recursion guard. -/
structure Comparison where
  host : Host
  targets : Bool
  names : String → Prop
  frames : Frame → Frame → Prop
  guard : DepthGuard
  guard' : DepthGuard
  world : World
  world' : World
  framesAgree : ∀ left right, frames left right → FramesAgree host targets names left right
  untargeted : targets = false → ∀ left right, frames left right → left.target = none
  nestedFrames : ∀ id attributes, WithinAttributes host targets names attributes →
    frames ⟨id, attributes, none⟩ ⟨id, attributes, none⟩
  worldsAgree : targets = true → ∀ number, Forall₂ frames (world number) (world' number)

section
variable (cmp : Comparison)

abbrev Comparison.Within : Expr → Prop := TreeWalkSimulation.Within cmp.host cmp.targets cmp.names

abbrev Comparison.WithinAll : List Expr → Prop := TreeWalkSimulation.WithinAll cmp.host cmp.targets cmp.names

abbrev Comparison.WithinAttributes : List (String × Expr) → Prop :=
  TreeWalkSimulation.WithinAttributes cmp.host cmp.targets cmp.names

/-- Whatever `eval` makes of a value stays within the names. -/
def Comparison.EvalWithin (value : Value) : Prop :=
  ∀ text label expr, value = .string text → cmp.host.parse ("[__eval_tmp = " ++ text ++ "]") = some [(label, expr)] →
    cmp.Within expr

def ScopesAgree : Scope → Scope → Prop := Forall₂ cmp.frames

/-- The right evaluation is no deeper than an observed left one, or both run alike. -/
def DepthsAgree (left right : Nat) : Prop :=
  (cmp.guard = .observed ∧ right ≤ left) ∨ (cmp.guard = cmp.guard' ∧ left = right)

inductive ValuesAgree : Value → Value → Prop where
  | undefined : ValuesAgree .undefined .undefined
  | error : ValuesAgree .error .error
  | boolean (value : Bool) : ValuesAgree (.boolean value) (.boolean value)
  | integer (value : Int64) : ValuesAgree (.integer value) (.integer value)
  | real (value : Float) : ValuesAgree (.real value) (.real value)
  | string (value : String) : ValuesAgree (.string value) (.string value)
  | lazyList : cmp.WithinAll elements → ScopesAgree cmp scope scope' →
      DepthsAgree cmp depth depth' →
      ValuesAgree (.lazyList elements scope depth) (.lazyList elements scope' depth')
  | list : Forall₂ ValuesAgree elements elements' →
      ValuesAgree (.list elements) (.list elements')
  | classAd : cmp.WithinAttributes attributes →
      ValuesAgree (.classAd attributes) (.classAd attributes)

def ResolversAgree : Option (String → AttributeScope → Value) →
    Option (String → AttributeScope → Value) → Prop
  | none, none => True
  | some resolve, some resolve' =>
    ∀ name scope, ValuesAgree cmp (resolve name scope) (resolve' name scope)
  | _, _ => False

structure EvaluatorsAgree (left right : Evaluator) : Prop where
  scope : ScopesAgree cmp left.scope right.scope
  depth : DepthsAgree cmp left.depth right.depth
  marks : left.marks = right.marks
  resolver : ResolversAgree cmp left.resolver right.resolver

end

/-- Values that `&&`, `||`, `!` and `?:` cannot tell apart. -/
def SameLogic (left right : Value) : Prop := logicalView left = logicalView right

theorem SameLogic.shortCircuit (op : BinaryOperator) (same : SameLogic left right) :
    shortCircuit op left = shortCircuit op right := by
  unfold Operators.shortCircuit
  rw [same]

/-- `&&` and `||` see no more of their operands than the logical view. -/
theorem SameLogic.applyLogical (logical : op = .and ∨ op = .or)
    (first : SameLogic left left') (second : SameLogic right right') :
    applyBinaryValues op left right = applyBinaryValues op left' right' := by
  rcases logical with rfl | rfl
  · simp only [applyBinaryValues, evaluateAnd]
    rw [first, second]
  · simp only [applyBinaryValues, evaluateOr]
    rw [first, second]

theorem SameLogic.applyNot (same : SameLogic left right) : applyUnaryValue .not left = applyUnaryValue .not right := by
  have viaView : ∀ value, applyUnaryValue .not value = applyUnaryValue .not (mapState (logicalView value)) := by
    intro value
    cases value with
    | error | undefined => rfl
    | _ =>
      conv_lhs => unfold applyUnaryValue
      generalize logicalView _ = state
      cases state <;> rfl
  rw [viaView left, viaView right, same]

section
variable {cmp : Comparison}

theorem ValuesAgree.erase (agree : ValuesAgree cmp left right) : erase left = erase right := by
  cases agree <;> rfl

theorem ValuesAgree.ofPlain (plain : IsPlain value) : ValuesAgree cmp value value := by
  cases value with
  | undefined => exact .undefined
  | error => exact .error
  | boolean value => exact .boolean value
  | integer value => exact .integer value
  | real value => exact .real value
  | string value => exact .string value
  | lazyList | list | classAd => exact absurd plain id

section
variable (agree : ValuesAgree cmp left right)
include agree

theorem ValuesAgree.isUndefined : left.isUndefined = right.isUndefined := by
  cases agree <;> rfl

theorem ValuesAgree.isError : left.isError = right.isError := by
  cases agree <;> rfl

theorem ValuesAgree.logicalView : SameLogic left right := by
  cases agree <;> rfl

end

theorem ValuesAgree.applyBinary (op : BinaryOperator) (first : ValuesAgree cmp left left')
    (second : ValuesAgree cmp right right') :
    ValuesAgree cmp (applyBinaryValues op left right) (applyBinaryValues op left' right') := by
  have same : applyBinaryValues op left right = applyBinaryValues op left' right' := by
    rw [← applyBinaryValues_erase, first.erase, second.erase, applyBinaryValues_erase]
  rw [same]
  exact .ofPlain (applyBinaryValues_plain op left' right')

theorem ValuesAgree.applyUnary (op : UnaryOperator) (agree : ValuesAgree cmp left right) :
    ValuesAgree cmp (applyUnaryValue op left) (applyUnaryValue op right) := by
  have same : applyUnaryValue op left = applyUnaryValue op right := by
    rw [← applyUnaryValue_erase, agree.erase, applyUnaryValue_erase]
  rw [same]
  exact .ofPlain (applyUnaryValue_plain)

theorem ValuesAgree.boolEquiv (agree : ValuesAgree cmp left right) : boolEquiv left = boolEquiv right := by
  cases agree <;> rfl

mutual

/-- Built-in functions cannot tell agreeing arguments apart. -/
theorem ValuesAgree.view : ∀ {left right : Value}, ValuesAgree cmp left right → view left = view right
  | .undefined, _, .undefined | .error, _, .error | .boolean _, _, .boolean _
  | .integer _, _, .integer _ | .real _, _, .real _ | .string _, _, .string _
  | .lazyList _ _ _, _, .lazyList _ _ _ | .classAd _, _, .classAd _ => rfl
  | .list _, _, .list elements => congrArg View.list (views_agree elements)

theorem views_agree : ∀ {left right : List Value}, Forall₂ (ValuesAgree cmp) left right → views left = views right
  | [], _, .nil => rfl
  | _ :: _, _, .cons first rest => by
    rw [views, views, first.view, views_agree rest]

end

theorem Scalar.agree (value : Scalar) : ValuesAgree cmp value.toValue value.toValue := by
  cases value <;> exact .ofPlain trivial

theorem BuiltinResult.agree (result : BuiltinResult) : ValuesAgree cmp result.toValue result.toValue := by
  cases result with
  | scalar value => exact Scalar.agree value
  | list elements =>
    refine .list ?_
    induction elements with
    | nil => exact .nil
    | cons head rest ih => exact .cons (Scalar.agree head) ih

/-! ## Scopes -/

section
variable (agree : ScopesAgree cmp left right)
include agree

theorem ScopesAgree.tail : ScopesAgree cmp left.tail right.tail := by
  cases agree with
  | nil => exact .nil
  | cons _ rest => exact rest

theorem ScopesAgree.ids : left.map Frame.id = right.map Frame.id := by
  induction agree with
  | nil => rfl
  | cons first _ ih => rw [map_cons, map_cons, (cmp.framesAgree _ _ first).id, ih]

theorem ScopesAgree.targetOf :
    ScopesAgree cmp (targetOf cmp.world left) (targetOf cmp.world' right) := by
  cases agree with
  | nil => exact .nil
  | cons first rest =>
    simp only [TreeWalk.targetOf, ← (cmp.framesAgree _ _ first).target]
    cases targeted : cmp.targets with
    | true =>
      split
      · exact cmp.worldsAgree targeted _
      · exact .nil
    | false =>
      rw [cmp.untargeted targeted _ _ first]
      exact .nil

/-- Where no ad has a target, the scope of the target is empty. -/
theorem ScopesAgree.targetOf_nil (untargeted : cmp.targets = false) :
    TreeWalk.targetOf cmp.world left = [] ∧ TreeWalk.targetOf cmp.world' right = [] := by
  cases agree with
  | nil => exact ⟨rfl, rfl⟩
  | cons first rest =>
    have none := cmp.untargeted untargeted _ _ first
    simp [TreeWalk.targetOf, ← (cmp.framesAgree _ _ first).target, none]

end

/-- Agreeing scopes find a name in corresponding ads, or both miss it. -/
theorem lookupInScope_agree {norm : String} (known : cmp.names norm) (agree : ScopesAgree cmp left right) :
    (lookupInScope cmp.host norm left = none ∧ lookupInScope cmp.host norm right = none) ∨
    ∃ scope frame scope' frame' expr,
      lookupInScope cmp.host norm left = some (scope, frame, expr) ∧
      lookupInScope cmp.host norm right = some (scope', frame', expr) ∧
      ScopesAgree cmp scope scope' ∧ frame.id = frame'.id ∧ cmp.Within expr := by
  induction agree with
  | nil => exact .inl ⟨rfl, rfl⟩
  | @cons frame frame' parents parents' first rest ih =>
    have frames := cmp.framesAgree _ _ first
    cases found : lookupNorm cmp.host frame.attributes norm with
    | none =>
      have missed : lookupNorm cmp.host frame'.attributes norm = none := by
        rw [← frames.lookup known, found]
      simpa only [lookupInScope, found, missed] using ih
    | some expr =>
      have matched : lookupNorm cmp.host frame'.attributes norm = some expr := by
        rw [← frames.lookup known, found]
      exact .inr ⟨frame :: parents, frame, frame' :: parents', frame', expr,
        by rw [lookupInScope, found], by rw [lookupInScope, matched],
        .cons first rest, frames.id, frames.lookup_within known found⟩

theorem nestedFrame_agree (agree : EvaluatorsAgree cmp ev ev') (within : cmp.WithinAttributes attributes) :
    cmp.frames (nestedFrame ev attributes) (nestedFrame ev' attributes) := by
  have same : nestedFrame ev attributes = nestedFrame ev' attributes := by
    unfold nestedFrame freshNumber
    rw [agree.scope.ids, agree.marks]
  rw [same]
  exact cmp.nestedFrames _ _ within

theorem DepthsAgree.max (first : DepthsAgree cmp a b) (second : DepthsAgree cmp c d) :
    DepthsAgree cmp (max a c) (max b d) := by
  unfold DepthsAgree at *
  rcases first with ⟨observed, below⟩ | ⟨same, equal⟩
  · rcases second with ⟨_, below'⟩ | ⟨_, equal'⟩
    · exact .inl ⟨observed, by omega⟩
    · exact .inl ⟨observed, by omega⟩
  · rcases second with ⟨observed, below'⟩ | ⟨_, equal'⟩
    · exact .inl ⟨observed, by omega⟩
    · exact .inr ⟨same, by omega⟩

theorem DepthsAgree.zero (agree : DepthsAgree cmp left right) : DepthsAgree cmp 0 0 := by
  rcases agree with ⟨observed, _⟩ | ⟨same, _⟩
  · exact .inl ⟨observed, Nat.le_refl 0⟩
  · exact .inr ⟨same, rfl⟩

theorem DepthsAgree.succ (agree : DepthsAgree cmp left right) : DepthsAgree cmp (left + 1) (right + 1) := by
  rcases agree with ⟨observed, below⟩ | ⟨same, equal⟩
  · exact .inl ⟨observed, by omega⟩
  · exact .inr ⟨same, by omega⟩

end

/-! ## One level of evaluation -/

section
variable {cmp : Comparison} {recurse recurse' : Recurse} {ev ev' : Evaluator}

/-- Runs with agreeing answers. -/
abbrev Comparison.Agrees (cmp : Comparison) : Run Value → Run Value → Prop := Refines (ValuesAgree cmp)

/-- What one level of evaluation assumes of the levels below it. -/
def Simulates (cmp : Comparison) (recurse recurse' : Recurse) : Prop :=
  ∀ ev ev' expr, EvaluatorsAgree cmp ev ev' → cmp.Within expr →
    cmp.Agrees (recurse ev expr) (recurse' ev' expr)

/-- Each expression of a list is matched by the one at its place in the other. -/
abbrev Matched (cmp : Comparison) (recurse recurse' : Recurse) (ev ev' : Evaluator) : List Expr → List Expr → Prop :=
  Forall₂ fun left right => cmp.Agrees (recurse ev left) (recurse' ev' right)

/-! ### Operators

The operands of an operator need not be the same expression on both sides: it is enough
that each left operand is matched by its right counterpart. -/

theorem binaryOp_value (first : recurse ev left = .ok lv) (second : recurse ev right = .ok rv) :
    evaluateBinaryOp recurse ev op left right = .ok (applyBinaryValues op lv rv) := by
  unfold evaluateBinaryOp
  split
  next logical =>
    rw [evaluateShortCircuit, first, Run.ok_bind]
    cases decided : shortCircuit op lv with
    | some value => rw [shortCircuit_decides logical decided]
    | none =>
      simp only [second]
      rfl
  · rw [first, second]
    rfl

section
variable {first first' second second' third third' : Expr}

theorem evaluateShortCircuit_sim (logical : op = .and ∨ op = .or)
    (left : Refines SameLogic (recurse ev first) (recurse' ev' first'))
    (right : Refines SameLogic (recurse ev second) (recurse' ev' second')) :
    cmp.Agrees (evaluateShortCircuit recurse ev op first second)
    (evaluateShortCircuit recurse' ev' op first' second') := by
  refine left.bind fun leftValue leftValue' same => ?_
  rw [same.shortCircuit op]
  split
  next decides =>
    exact .ok (.ofPlain (shortCircuit_plain decides))
  · refine right.bind fun rightValue rightValue' same' => ?_
    rw [same.applyLogical logical same']
    exact .ok (.ofPlain (applyBinaryValues_plain op leftValue' rightValue'))

theorem evaluateBinaryOp_sim {op : BinaryOperator} (left : cmp.Agrees (recurse ev first) (recurse' ev' first'))
    (right : cmp.Agrees (recurse ev second) (recurse' ev' second')) :
    cmp.Agrees (evaluateBinaryOp recurse ev op first second) (evaluateBinaryOp recurse' ev' op first' second') := by
  unfold evaluateBinaryOp
  split
  next logical =>
    exact evaluateShortCircuit_sim logical (left.mono fun _ _ => ValuesAgree.logicalView)
      (right.mono fun _ _ => ValuesAgree.logicalView)
  · refine left.bind fun leftValue leftValue' same => ?_
    refine right.bind fun rightValue rightValue' same' => ?_
    exact .ok (same.applyBinary op same')

variable {related : Value → Value → Prop}

section
variable (undefined : related .undefined .undefined) (error : related .error .error)
  (condition : Refines SameLogic (recurse ev first) (recurse' ev' first'))
  (whenTrue : Refines related (recurse ev second) (recurse' ev' second'))
  (whenFalse : Refines related (recurse ev third) (recurse' ev' third'))
include undefined error condition whenTrue whenFalse

theorem evaluateConditional_sim :
    Refines related (evaluateConditional recurse ev first second third)
      (evaluateConditional recurse' ev' first' second' third') := by
  refine condition.bind fun value value' same => ?_
  rw [same]
  split
  · exact whenTrue
  · exact whenFalse
  · refine whenTrue.bind fun _ _ _ => ?_
    exact whenFalse.bind fun _ _ _ => .ok undefined
  · exact .ok error

theorem evaluateIfThenElse_sim :
    Refines related (evaluateIfThenElse recurse ev [first, second, third])
      (evaluateIfThenElse recurse' ev' [first', second', third']) := by
  refine condition.bind fun value value' same => ?_
  rw [same]
  split
  · exact whenTrue
  · exact whenFalse
  · exact .ok undefined
  · exact .ok error

end

/-- With any other number of arguments the call is an error on both sides. -/
theorem evaluateIfThenElse_all (each : Matched cmp recurse recurse' ev ev' args args') :
    cmp.Agrees (evaluateIfThenElse recurse ev args) (evaluateIfThenElse recurse' ev' args') := by
  match args, args', each with
  | [_, _, _], [_, _, _], .cons condition (.cons whenTrue (.cons whenFalse .nil)) =>
    exact evaluateIfThenElse_sim .undefined .error
      (condition.mono fun _ _ => ValuesAgree.logicalView) whenTrue whenFalse
  | [], [], .nil => exact .ok .error
  | [_], [_], .cons _ .nil => exact .ok .error
  | [_, _], [_, _], .cons _ (.cons _ .nil) => exact .ok .error
  | _ :: _ :: _ :: _ :: _, _ :: _ :: _ :: _ :: _, .cons _ (.cons _ (.cons _ (.cons _ _))) =>
    exact .ok .error

theorem evaluateElvis_sim (coarser : ∀ left right, ValuesAgree cmp left right → related left right)
    (left : cmp.Agrees (recurse ev first) (recurse' ev' first'))
    (right : Refines related (recurse ev second) (recurse' ev' second')) :
    Refines related (evaluateElvis recurse ev first second) (evaluateElvis recurse' ev' first' second') := by
  refine left.bind fun value value' same => ?_
  rw [same.isUndefined]
  split
  · exact right
  · exact .ok (coarser _ _ same)

end

/-! ### Lists and syntax -/

theorem lazyEvaluator_agree (agree : EvaluatorsAgree cmp ev ev') (scopes : ScopesAgree cmp scope scope')
    (depths : DepthsAgree cmp depth depth') (parents : DepthsAgree cmp parentDepth parentDepth') :
    EvaluatorsAgree cmp (lazyEvaluator ev scope depth parentDepth) (lazyEvaluator ev' scope' depth' parentDepth') :=
  ⟨scopes, depths.max parents, agree.marks, trivial⟩

/-- Optional lists that are both absent, or both present with agreeing elements. -/
def OptionsAgree (cmp : Comparison) : Option (List Value) → Option (List Value) → Prop :=
  Option.Rel (Forall₂ (ValuesAgree cmp))

theorem evaluateAll_sim (each : Matched cmp recurse recurse' ev ev' elements elements') :
    Refines (Forall₂ (ValuesAgree cmp)) (Run.traverse (recurse ev) elements) (Run.traverse (recurse' ev') elements') :=
  Refines.traverse each fun _ _ matched => matched

/-- Elements at one position of agreeing lists agree. -/
theorem getElem?_agree (elements : Forall₂ (ValuesAgree cmp) left right) (index : Nat) :
    (left[index]? = none ∧ right[index]? = none) ∨ ∃ value value', left[index]? = some value ∧
    right[index]? = some value' ∧
      ValuesAgree cmp value value' := by
  induction elements generalizing index with
  | nil => exact .inl ⟨rfl, rfl⟩
  | cons first _ ih =>
    cases index with
    | zero => exact .inr ⟨_, _, rfl, rfl, first⟩
    | succ index => exact ih index

theorem unwrapParens_within (within : cmp.Within expr) : cmp.Within (unwrapParens expr) := by
  fun_induction unwrapParens expr with
  | case1 => exact within
  | case2 inner _ ih => exact ih within
  | case3 => exact within

theorem matches_agree (elements : Forall₂ (ValuesAgree cmp) left right) :
    (left.filter boolEquiv).length = (right.filter boolEquiv).length := by
  induction elements with
  | nil => rfl
  | cons first _ ih =>
    simp only [filter_cons, first.boolEquiv]
    split
    · rw [length_cons, length_cons, ih]
    · exact ih

theorem strcatArgs_sim (each : Matched cmp recurse recurse' ev ev' args args') :
    Refines (Forall₂ (ValuesAgree cmp)) (strcatArgs recurse ev args) (strcatArgs recurse' ev' args') := by
  induction each with
  | nil => exact .ok .nil
  | cons matched _ ih =>
    refine matched.bind fun value value' same => ?_
    rw [same.isUndefined, same.isError]
    split
    · exact .ok (.cons same .nil)
    · exact ih.bind fun _ _ others => .ok (.cons same others)

variable (below : Simulates cmp recurse recurse') (agree : EvaluatorsAgree cmp ev ev')

include agree

theorem referencedAd_agree (scope : AttributeScope) :
    ScopesAgree cmp (referencedAd cmp.world ev scope) (referencedAd cmp.world' ev' scope) := by
  cases scope with
  | target => exact agree.scope.targetOf
  | parent => exact agree.scope.tail
  | none | my => exact agree.scope

/-- A target that holds anything is one that ads may have. -/
theorem targeted_of_read (read : targetOf cmp.world ev.scope ≠ []) : cmp.targets = true := by
  cases targeted : cmp.targets with
  | true => rfl
  | false => exact absurd (agree.scope.targetOf_nil targeted).1 read

theorem evaluateUnparse_sim (within : cmp.WithinAll args) :
    cmp.Agrees (evaluateUnparse cmp.host cmp.world ev args) (evaluateUnparse cmp.host cmp.world' ev' args) := by
  unfold evaluateUnparse
  split
  next name scope =>
    have known := within.1
    have scopes := referencedAd_agree agree scope
    have read : referencedAd cmp.world ev scope ≠ [] → scope = .target → cmp.targets = true := by
      rintro nonempty rfl
      exact targeted_of_read agree nonempty
    generalize referencedAd cmp.world ev scope = left at scopes read ⊢
    generalize referencedAd cmp.world' ev' scope = right at scopes ⊢
    cases scopes with
    | nil => exact .ok .undefined
    | cons first rest =>
      simp only [← (cmp.framesAgree _ _ first).lookup (known (read (by simp)))]
      split
      · exact .ok .undefined
      · exact .ok (.string _)
  · exact .ok .error

/-- The expression a reference is bound to is the same on both sides. -/
theorem lookupBoundExpr_agree (known : (scope = .target → cmp.targets = true) →
      cmp.names (normalizeName cmp.host name)) :
    lookupBoundExpr cmp.host cmp.world ev name scope = lookupBoundExpr cmp.host cmp.world' ev' name scope ∧
      ∀ expr, lookupBoundExpr cmp.host cmp.world ev name scope = some expr → cmp.Within expr := by
  have scopes : ScopesAgree cmp (if scope = .target then targetOf cmp.world ev.scope else ev.scope)
      (if scope = .target then targetOf cmp.world' ev'.scope else ev'.scope) := by
    split
    · exact agree.scope.targetOf
    · exact agree.scope
  have read : (if scope = .target then targetOf cmp.world ev.scope else ev.scope) ≠ [] →
      scope = .target → cmp.targets = true := by
    intro nonempty target
    rw [if_pos target] at nonempty
    exact targeted_of_read agree nonempty
  unfold lookupBoundExpr
  generalize (if scope = .target then targetOf cmp.world ev.scope else ev.scope) = left at scopes read ⊢
  generalize (if scope = .target then targetOf cmp.world' ev'.scope else ev'.scope) = right at scopes ⊢
  cases scopes with
  | nil => exact ⟨rfl, fun _ found => by cases found⟩
  | cons first rest =>
    have frames := cmp.framesAgree _ _ first
    have known := known (read (by simp))
    exact ⟨frames.bound _ known, fun expr found => frames.within _ expr known found⟩

theorem contextExpr_agree (within : cmp.Within arg) :
    contextExpr cmp.host cmp.world ev arg = contextExpr cmp.host cmp.world' ev' arg ∧
      cmp.Within (contextExpr cmp.host cmp.world ev arg) := by
  have unwrapped := unwrapParens_within within
  unfold contextExpr
  split
  next name scope shape =>
    rw [shape] at unwrapped
    obtain ⟨same, inside⟩ := lookupBoundExpr_agree agree unwrapped
    rw [← same]
    cases found : lookupBoundExpr cmp.host cmp.world ev name scope with
    | none => exact ⟨rfl, within⟩
    | some expr => exact ⟨rfl, inside expr found⟩
  · exact ⟨rfl, within⟩

include below

theorem evalAttrExpr_sim {norm : String} (scopes : ScopesAgree cmp scope scope') (ids : frame.id = frame'.id)
    (within : cmp.Within expr) :
    cmp.Agrees (evalAttrExpr recurse ev scope frame norm expr) (evalAttrExpr recurse' ev' scope' frame' norm expr) := by
  unfold evalAttrExpr
  rw [ids, agree.marks]
  split
  · exact below ev ev' expr agree within
  · split
    · exact .panic
    · exact below _ _ expr ⟨scopes, agree.depth, rfl, agree.resolver⟩ within

theorem evalAttrIn_sim {norm : String} (scopes : ScopesAgree cmp scope scope') (known : cmp.names norm) :
    cmp.Agrees (evalAttrIn cmp.host recurse ev scope norm) (evalAttrIn cmp.host recurse' ev' scope' norm) := by
  cases scopes with
  | nil => exact .ok .undefined
  | cons first rest =>
    have frames := cmp.framesAgree _ _ first
    simp only [evalAttrIn, ← frames.lookup known]
    split
    next expr found =>
      exact evalAttrExpr_sim below agree (.cons first rest) frames.id
        (frames.lookup_within known found)
    · exact .ok .undefined

theorem resolveAttributeReference_sim
    (known : (scope = .target → cmp.targets = true) → cmp.names (normalizeName cmp.host name)) :
    cmp.Agrees (resolveAttributeReference cmp.host cmp.world recurse ev name scope)
      (resolveAttributeReference cmp.host cmp.world' recurse' ev' name scope) := by
  have resolvers := agree.resolver
  have targets := agree.scope.targetOf
  unfold resolveAttributeReference
  cases left : ev.resolver with
  | some resolve =>
    cases right : ev'.resolver with
    | some resolve' =>
      rw [left, right] at resolvers
      exact .ok (resolvers name scope)
    | none =>
      rw [left, right] at resolvers
      exact absurd resolvers id
  | none =>
    cases right : ev'.resolver with
    | some resolve' =>
      rw [left, right] at resolvers
      exact absurd resolvers id
    | none =>
      cases scope with
      | my => exact evalAttrIn_sim below agree agree.scope (known nofun)
      | target =>
        cases targeted : cmp.targets with
        | true => exact evalAttrIn_sim below agree targets (known fun _ => targeted)
        | false =>
          obtain ⟨empty, empty'⟩ := agree.scope.targetOf_nil targeted
          simp only [empty, empty']
          exact .ok .undefined
      | parent => exact evalAttrIn_sim below agree agree.scope.tail (known nofun)
      | none =>
        have known := known nofun
        rcases lookupInScope_agree known agree.scope with
          ⟨missed, missed'⟩ | ⟨_, _, _, _, _, found, found', scopes, ids, within⟩
        · simp only [missed, missed']
          rcases lookupInScope_agree known targets with
            ⟨missed, missed'⟩ | ⟨_, _, _, _, _, found, found', scopes, ids, within⟩
          · simp only [missed, missed']
            exact .ok .undefined
          · simp only [found, found']
            exact evalAttrExpr_sim below agree scopes ids within
        · simp only [found, found']
          exact evalAttrExpr_sim below agree scopes ids within

theorem evaluateAttributeReference_sim
    (known : (scope = .target → cmp.targets = true) → cmp.names (normalizeName cmp.host name)) :
    cmp.Agrees (evaluateAttributeReference cmp.host cmp.world recurse ev name scope)
      (evaluateAttributeReference cmp.host cmp.world' recurse' ev' name scope) := by
  refine (resolveAttributeReference_sim below agree known).bind fun left right same => ?_
  rw [same.isUndefined]
  split
  · exact .ok (.integer _)
  · exact .ok same

/-! ### Lists and records -/

theorem listValue_sim (same : ValuesAgree cmp value value') :
    Refines (OptionsAgree cmp) (listValue recurse ev value) (listValue recurse' ev' value') := by
  cases same with
  | lazyList within scopes depths =>
    refine (Refines.traverse within.forall₂ ?_).bind fun _ _ elements => .ok (.some elements)
    rintro element _ ⟨rfl, inside⟩
    have inner := lazyEvaluator_agree agree scopes depths agree.depth.zero
    exact (below _ _ element inner inside).recover .error
  | list elements => exact .ok (.some elements)
  | _ => exact .ok .none

/-- Each of a list of expressions within bounds is matched by itself. -/
theorem within_sim (within : cmp.WithinAll elements) : Matched cmp recurse recurse' ev ev' elements elements :=
  within.forall₂.imp fun left _ ⟨same, inside⟩ => same ▸ below ev ev' left agree inside

theorem listElementAt_sim (index : Nat) (same : ValuesAgree cmp value value') :
    cmp.Agrees (listElementAt recurse ev index value) (listElementAt recurse' ev' index value') := by
  cases same with
  | @lazyList elements scope scope' depth depth' within scopes depths =>
    simp only [listElementAt]
    split
    next element found =>
      have inner := lazyEvaluator_agree agree scopes depths agree.depth
      have inside := within.mem (mem_of_getElem? found)
      exact (below _ _ element inner inside).recover .error
    · exact .stuck
  | list elements =>
    rcases getElem?_agree elements index with ⟨missed, missed'⟩ | ⟨_, _, found, found', agrees⟩
    · simp only [listElementAt, missed, missed']
      exact .stuck
    · simp only [listElementAt, found, found']
      exact .ok agrees
  | _ => exact .stuck

section
variable (known : cmp.names (normalizeName cmp.host attr)) (same : ValuesAgree cmp value value')
include known same

theorem selectAttr_sim :
    cmp.Agrees (selectAttr cmp.host cmp.world recurse ev value attr)
      (selectAttr cmp.host cmp.world' recurse' ev' value' attr) := by
  cases same with
  | undefined => exact .ok .undefined
  | classAd within =>
    have inner : EvaluatorsAgree cmp
        ⟨nestedFrame ev _ :: ev.scope, ev.depth, ev.marks, none⟩
        ⟨nestedFrame ev' _ :: ev'.scope, ev'.depth, ev'.marks, none⟩ :=
      ⟨.cons (nestedFrame_agree agree within) agree.scope, agree.depth, agree.marks, trivial⟩
    exact evaluateAttributeReference_sim below inner fun _ => known
  | _ => exact .ok .error

theorem selectValue_sim :
    cmp.Agrees (selectValue cmp.host cmp.world recurse ev value attr)
      (selectValue cmp.host cmp.world' recurse' ev' value' attr) := by
  have each : ∀ value value', ValuesAgree cmp value value' →
      cmp.Agrees (selectAttr cmp.host cmp.world recurse ev value attr)
        (selectAttr cmp.host cmp.world' recurse' ev' value' attr) :=
    fun _ _ same => selectAttr_sim below agree known same
  cases same with
  | lazyList inside scopes depths =>
    have inner := lazyEvaluator_agree agree scopes depths agree.depth
    refine (evaluateAll_sim (within_sim below inner inside)).bind fun _ _ evaluated => ?_
    exact (Refines.traverse evaluated each).bind fun _ _ selected => .ok (.list selected)
  | list elements =>
    exact (Refines.traverse elements each).bind fun _ _ selected => .ok (.list selected)
  | undefined => exact each _ _ .undefined
  | error => exact each _ _ .error
  | boolean value => exact each _ _ (.boolean value)
  | integer value => exact each _ _ (.integer value)
  | real value => exact each _ _ (.real value)
  | string value => exact each _ _ (.string value)
  | classAd inside => exact each _ _ (.classAd inside)

end

theorem evaluateSelectExpr_sim (matched : cmp.Agrees (recurse ev record) (recurse' ev' record'))
    (known : cmp.names (normalizeName cmp.host attr)) :
    cmp.Agrees (evaluateSelectExpr cmp.host cmp.world recurse ev record attr)
      (evaluateSelectExpr cmp.host cmp.world' recurse' ev' record' attr) :=
  matched.bind fun _ _ same => selectValue_sim below agree known same

theorem evaluateAttr_sim (name : String) (within : cmp.WithinAttributes attributes) :
    cmp.Agrees (evaluateAttr cmp.host recurse ev (nestedFrame ev attributes) name)
      (evaluateAttr cmp.host recurse' ev' (nestedFrame ev' attributes) name) := by
  simp only [evaluateAttr, nestedFrame]
  split
  · split
    · exact .ok (.integer _)
    · exact .ok .undefined
  next expr found =>
    have frames := nestedFrame_agree agree within
    have inner : EvaluatorsAgree cmp
        ⟨[nestedFrame ev attributes], 0, ev.marks, none⟩
        ⟨[nestedFrame ev' attributes], 0, ev'.marks, none⟩ :=
      ⟨.cons frames .nil, agree.depth.zero, agree.marks, trivial⟩
    exact (below _ _ expr inner (within.bound (lookupNorm_bound found))).recover .error

theorem subscriptValue_sim (same : ValuesAgree cmp value value') (sameIndex : ValuesAgree cmp index index') :
    cmp.Agrees (subscriptValue cmp.host recurse ev value index)
    (subscriptValue cmp.host recurse' ev' value' index') := by
  cases sameIndex with
  | integer i =>
    have element := listElementAt_sim below agree i.toInt.toNat same
    cases same with
    | lazyList =>
      simp only [subscriptValue]
      split
      · exact .ok .error
      · exact element
    | list elements =>
      simp only [subscriptValue, elements.length_eq]
      split
      · exact .ok .error
      · exact element
    | _ => exact .ok .error
  | string key =>
    cases same with
    | classAd within => exact evaluateAttr_sim below agree key within
    | _ => exact .ok .error
  | _ => cases same <;> exact .ok .error

theorem evaluateSubscriptExpr_sim (first : cmp.Agrees (recurse ev container) (recurse' ev' container'))
    (second : cmp.Agrees (recurse ev index) (recurse' ev' index')) :
    cmp.Agrees (evaluateSubscriptExpr cmp.host recurse ev container index)
      (evaluateSubscriptExpr cmp.host recurse' ev' container' index') := by
  refine first.bind fun value value' same => ?_
  rw [same.isUndefined, same.isError]
  split
  · exact .ok .undefined
  · split
    · exact .ok .error
    · refine second.bind fun indexValue indexValue' sameIndex => ?_
      rw [sameIndex.isUndefined, sameIndex.isError]
      split
      · exact .ok .undefined
      · split
        · exact .ok .error
        · exact subscriptValue_sim below agree same sameIndex

/-! ### Function calls -/

omit below agree in
theorem evalWithin_of_all (anything : ∀ norm, cmp.names norm) (value : Value) : cmp.EvalWithin value :=
  fun _ _ expr _ _ => within_of_all anything expr

theorem evalText_sim (within : cmp.EvalWithin value') (same : ValuesAgree cmp value value') :
    cmp.Agrees (evalText cmp.host recurse ev value) (evalText cmp.host recurse' ev' value') := by
  cases same with
  | undefined => exact .ok .undefined
  | string text =>
    simp only [evalText]
    split
    next label expr parsed =>
      exact below ev ev' expr agree (within text label expr rfl parsed)
    · exact .ok .error
  | _ => exact .ok .error

theorem evaluateEval_sim (within : ∀ arg value, args' = [arg] → recurse' ev' arg = .ok value → cmp.EvalWithin value)
    (each : Matched cmp recurse recurse' ev ev' args args') :
    cmp.Agrees (evaluateEval cmp.host recurse ev args) (evaluateEval cmp.host recurse' ev' args') := by
  cases each with
  | nil => exact .ok .error
  | cons matched rest =>
    cases rest with
    | nil => exact matched.bind_run fun _ _ ran same => evalText_sim below agree (within _ _ rfl ran) same
    | cons _ _ => exact .ok .error

theorem evalInNested_sim (within : cmp.Within expr) (same : ValuesAgree cmp value value') :
    cmp.Agrees (evalInNested recurse ev expr value) (evalInNested recurse' ev' expr value') := by
  cases same with
  | classAd inside =>
    have inner : EvaluatorsAgree cmp
        ⟨[nestedFrame ev _], ev.depth, ev.marks, none⟩
        ⟨[nestedFrame ev' _], ev'.depth, ev'.marks, none⟩ :=
      ⟨.cons (nestedFrame_agree agree inside) .nil, agree.depth, agree.marks, trivial⟩
    exact below _ _ expr inner within
  | undefined => exact .ok .undefined
  | _ => exact .ok .error

theorem evaluateEvalInEach_sim (within : cmp.WithinAll args) :
    cmp.Agrees (evaluateEvalInEach cmp.host cmp.world recurse ev wantList args)
      (evaluateEvalInEach cmp.host cmp.world' recurse' ev' wantList args) := by
  unfold evaluateEvalInEach
  split
  next arg listArg =>
    obtain ⟨first, second, _⟩ := within
    obtain ⟨sameExpr, inside⟩ := contextExpr_agree agree first
    simp only [← sameExpr]
    refine (below ev ev' listArg agree second).bind fun listed listed' same => ?_
    rw [same.isUndefined]
    split
    · exact .ok (.ofPlain (by split <;> trivial))
    · refine (listValue_sim below agree same).bind fun elements elements' sameElements => ?_
      cases sameElements with
      | none => exact .ok .error
      | some each =>
        have nested := Refines.traverse each
          fun _ _ one => evalInNested_sim below agree inside one
        refine nested.bind fun results results' sameResults => ?_
        rw [matches_agree sameResults]
        split
        · exact .ok (.list sameResults)
        · exact .ok (.integer _)
  · exact .ok .error

theorem materialize_sim (wanted : Nat → Bool) (position : Nat) (args : Forall₂ (ValuesAgree cmp) left right) :
    Refines (· = ·) (materialize recurse ev wanted position left) (materialize recurse' ev' wanted position right) := by
  induction args generalizing position with
  | nil => exact .ok rfl
  | @cons value value' rest rest' same _ ih =>
    have elements : Refines (OptionsAgree cmp)
        (argElements recurse ev (wanted position) value)
        (argElements recurse' ev' (wanted position) value') := by
      unfold argElements
      split
      · exact listValue_sim below agree same
      · exact .ok .none
    refine elements.bind fun found found' sameFound => ?_
    refine (ih (position + 1)).bind fun others others' sameOthers => ?_
    have sameViews : views (found.getD []) = views (found'.getD []) := by
      cases sameFound with
      | none => rfl
      | some each => exact views_agree each
    rw [sameViews, sameOthers]
    exact .ok rfl

theorem callBuiltin_sim (args : Forall₂ (ValuesAgree cmp) left right) :
    cmp.Agrees (callBuiltin cmp.host recurse ev name left) (callBuiltin cmp.host recurse' ev' name right) := by
  unfold callBuiltin
  rw [views_agree args]
  split
  · exact .ok (Scalar.agree _)
  · refine (materialize_sim below agree _ 0 args).bind fun elements elements' same => ?_
    rw [same]
    exact .ok (BuiltinResult.agree _)

/-- Most functions see the values of their arguments only, so the arguments may differ as
expressions; those that read syntax must be given the same ones. -/
theorem evaluateFunctionCall_sim
    (evaluates : cmp.host.toLower name = "eval" → ∀ arg value, args' = [arg] → recurse' ev' arg = .ok value →
      cmp.EvalWithin value)
    (shape : readsSyntax (cmp.host.toLower name) = true → args = args' ∧ cmp.WithinAll args)
    (each : Matched cmp recurse recurse' ev ev' args args') :
    cmp.Agrees (evaluateFunctionCall cmp.host cmp.world recurse ev name args)
      (evaluateFunctionCall cmp.host cmp.world' recurse' ev' name args') := by
  unfold evaluateFunctionCall
  by_cases unparse : cmp.host.toLower name = "unparse"
  · obtain ⟨rfl, within⟩ := shape (by simp [readsSyntax, unparse])
    simp only [unparse, if_true]
    exact evaluateUnparse_sim agree within
  simp only [unparse, if_false]
  by_cases eval : cmp.host.toLower name = "eval"
  · simp only [eval, if_true]
    exact evaluateEval_sim below agree (evaluates eval) each
  simp only [eval, if_false]
  split
  · exact evaluateIfThenElse_all each
  · rw [each.length_eq]
    split
    · exact .ok .error
    · split
      · refine (strcatArgs_sim each).bind fun _ _ values => ?_
        exact callBuiltin_sim below agree values
      · by_cases counts : cmp.host.toLower name = "countmatches"
        · obtain ⟨rfl, within⟩ := shape (by simp [readsSyntax, counts])
          simp only [counts, if_true]
          exact evaluateEvalInEach_sim below agree within
        simp only [counts, if_false]
        by_cases collects : cmp.host.toLower name = "evalineachcontext"
        · obtain ⟨rfl, within⟩ := shape (by simp [readsSyntax, collects])
          simp only [collects, if_true]
          exact evaluateEvalInEach_sim below agree within
        simp only [collects, if_false]
        refine (evaluateAll_sim each).bind fun _ _ values => ?_
        exact callBuiltin_sim below agree values

theorem evalNode_sim (literal : ∀ ev text value, recurse' ev (.string text) = .ok value → value = .string text)
    (within : cmp.Within expr) :
    cmp.Agrees (evalNode cmp.host cmp.world recurse ev expr) (evalNode cmp.host cmp.world' recurse' ev' expr) := by
  cases expr with
  | nil | undefined => exact .ok .undefined
  | paren inner => exact below ev ev' inner agree within
  | integer value => exact .ok (.integer value)
  | real value => exact .ok (.real value)
  | string value => exact .ok (.string value)
  | boolean value => exact .ok (.boolean value)
  | error => exact .ok .error
  | reference name scope => exact evaluateAttributeReference_sim below agree within
  | binary op left right =>
    exact evaluateBinaryOp_sim (below ev ev' left agree within.1)
      (below ev ev' right agree within.2)
  | unary op operand =>
    exact (below ev ev' operand agree within).bind fun _ _ same => .ok (same.applyUnary op)
  | conditional condition whenTrue whenFalse =>
    have matched := (below ev ev' condition agree within.1).mono fun _ _ => ValuesAgree.logicalView
    exact evaluateConditional_sim .undefined .error matched
      (below ev ev' whenTrue agree within.2.1) (below ev ev' whenFalse agree within.2.2)
  | elvis left right =>
    exact evaluateElvis_sim (fun _ _ same => same) (below ev ev' left agree within.1)
      (below ev ev' right agree within.2)
  | list elements => exact .ok (.lazyList within agree.scope agree.depth)
  | record attributes => exact .ok (.classAd within)
  | call name args =>
    refine evaluateFunctionCall_sim below agree (fun eval arg value isArg ran text label expr isText parsed => ?_)
      (fun _ => ⟨rfl, within.1⟩) (within_sim below agree within.1)
    obtain anything | ⟨constant, rfl, inside⟩ := within.2 eval
    · exact within_of_all anything expr
    · cases isArg
      cases isText.symm.trans (literal _ _ _ ran)
      exact mentions_of expr (.inr (inside label expr parsed))
  | select record attr =>
    exact evaluateSelectExpr_sim below agree (below ev ev' record agree within.1) within.2
  | subscript container index =>
    exact evaluateSubscriptExpr_sim below agree (below ev ev' container agree within.1)
      (below ev ev' index agree within.2)

end

/-! ## Whole evaluations -/

theorem evaluate_string {guard : DepthGuard} (ran : evaluate host world guard fuel ev (.string text) = .ok value) :
    value = .string text := by
  cases fuel with
  | zero => cases ran
  | succ fuel =>
    rw [evaluate_succ (by simp)] at ran
    split at ran
    · cases guard <;> cases ran
    · cases ran
      rfl

/-- The simulation: with at least as much fuel, the right evaluation answers what the
left one answers, up to the agreement of values. -/
theorem evaluate_sim (cmp : Comparison) (more : fuel ≤ fuel') :
    Simulates cmp (evaluate cmp.host cmp.world cmp.guard fuel) (evaluate cmp.host cmp.world' cmp.guard' fuel') := by
  induction fuel generalizing fuel' with
  | zero => exact fun _ _ _ _ _ => .stuck
  | succ fuel ih =>
    obtain ⟨fuel', rfl⟩ : ∃ rest, fuel' = rest + 1 := ⟨fuel' - 1, by omega⟩
    intro ev ev' expr agree within
    have deeper : EvaluatorsAgree cmp { ev with depth := ev.depth + 1 }
        { ev' with depth := ev'.depth + 1 } :=
      ⟨agree.scope, agree.depth.succ, agree.marks, agree.resolver⟩
    have node := evalNode_sim (ih (by omega : fuel ≤ fuel')) deeper (fun _ _ _ => evaluate_string) within
    by_cases absent : expr = .nil
    · subst absent
      exact .ok .undefined
    rw [evaluate_succ absent, evaluate_succ absent]
    rcases agree.depth with ⟨observed, shallower⟩ | ⟨alike, same⟩
    · split
      · rw [observed]
        exact .stuck
      · rw [if_neg (by omega)]
        exact node
    · rw [same, alike]
      rw [same, alike] at node
      split
      · cases cmp.guard' with
        | panics => exact .panic
        | observed => exact .stuck
      · exact node

/-! ## Comparing an evaluation with itself -/

/-- One scope evaluated twice, with nothing hidden from either evaluation. -/
def selfComparison (host : Host) (world : World) (guard guard' : DepthGuard) : Comparison where
  host := host
  targets := true
  names := fun _ => True
  frames := Eq
  guard := guard
  guard' := guard'
  world := world
  world' := world
  framesAgree := by
    rintro frame _ rfl
    exact ⟨rfl, rfl, fun _ _ => rfl, fun _ expr _ _ => within_of_all (fun _ => trivial) expr⟩
  untargeted := nofun
  nestedFrames := fun _ _ _ => rfl
  worldsAgree := fun _ number => forall₂_refl (world number)

theorem self_agree {guard guard' : DepthGuard}
    (depths : DepthsAgree (selfComparison host world guard guard') depth depth')
    (scope : Scope) (marks : List (AdId × String)) :
    EvaluatorsAgree (selfComparison host world guard guard')
    ⟨scope, depth, marks, none⟩ ⟨scope, depth', marks, none⟩ := by
  have scopes : Forall₂ Eq scope scope := forall₂_refl scope
  exact ⟨scopes, depths, rfl, trivial⟩

section
variable {host : Host} {world : World} {guard guard' : DepthGuard}

theorem self_depth (alike : guard = .observed ∨ guard = guard') {depth : Nat} :
    DepthsAgree (selfComparison host world guard guard') depth depth := by
  rcases alike with observed | same
  · exact .inl ⟨observed, Nat.le_refl depth⟩
  · exact .inr ⟨same, rfl⟩

mutual

theorem self_agree_value (alike : guard = .observed ∨ guard = guard') :
    ∀ value : Value, ValuesAgree (selfComparison host world guard guard') value value
  | .undefined => .undefined
  | .error => .error
  | .boolean value => .boolean value
  | .integer value => .integer value
  | .real value => .real value
  | .string value => .string value
  | .lazyList elements scope _ =>
    have scopes : Forall₂ Eq scope scope := forall₂_refl scope
    .lazyList (mentionsAll_of elements (.inl fun _ => trivial)) scopes (self_depth alike)
  | .list elements => .list (self_agree_values alike elements)
  | .classAd attributes => .classAd (mentionsIn_of attributes (.inl fun _ => trivial))

theorem self_agree_values (alike : guard = .observed ∨ guard = guard') : ∀ values : List Value,
    Forall₂ (ValuesAgree (selfComparison host world guard guard')) values values
  | [] => .nil
  | head :: rest => .cons (self_agree_value alike head) (self_agree_values alike rest)

end

/-- An evaluator agrees with itself at another depth, whatever resolves its references. -/
theorem self_agree_at (alike : guard = .observed ∨ guard = guard') {ev : Evaluator}
    (depths : DepthsAgree (selfComparison host world guard guard') depth depth') :
    EvaluatorsAgree (selfComparison host world guard guard') { ev with depth := depth }
      { ev with depth := depth' } := by
  have scopes : Forall₂ Eq ev.scope ev.scope := forall₂_refl ev.scope
  refine ⟨scopes, depths, rfl, ?_⟩
  cases resolved : ev.resolver with
  | none => trivial
  | some resolve => exact fun name scope => self_agree_value alike (resolve name scope)

end

section
variable {host : Host} {world : World} {guard guard' : DepthGuard}

theorem scopes_eq (agree : ScopesAgree (selfComparison host world guard guard') left right) : left = right := by
  have same : Forall₂ Eq left right := agree
  rwa [forall₂_eq_eq_eq] at same

mutual

theorem agree_eq : ∀ {left right : Value}, ValuesAgree (selfComparison host world .panics .panics) left right →
    left = right
  | .undefined, _, .undefined | .error, _, .error | .boolean _, _, .boolean _
  | .integer _, _, .integer _ | .real _, _, .real _ | .string _, _, .string _
  | .classAd _, _, .classAd _ => rfl
  | .lazyList _ _ _, _, .lazyList _ scopes (.inr depths) => by
    rw [scopes_eq scopes, depths.2]
  | .list _, _, .list elements => congrArg Value.list (agree_list_eq elements)

theorem agree_list_eq : ∀ {left right : List Value},
    Forall₂ (ValuesAgree (selfComparison host world .panics .panics)) left right → left = right
  | [], _, .nil => rfl
  | _ :: _, _, .cons first rest => by
    rw [agree_eq first, agree_list_eq rest]

end

/-- More fuel never changes an answer. -/
theorem evaluate_mono (more : fuel ≤ fuel') (depth : Nat) :
    Refines (· = ·) (evaluate host world .panics fuel ⟨scope, depth, marks, none⟩ expr)
      (evaluate host world .panics fuel' ⟨scope, depth, marks, none⟩ expr) := by
  have depths : DepthsAgree (selfComparison host world .panics .panics) depth depth :=
    .inr ⟨rfl, rfl⟩
  have simulated := evaluate_sim (selfComparison host world .panics .panics) more _ _ expr
    (self_agree depths scope marks) (within_of_all (fun _ => trivial) expr)
  exact simulated.mono fun _ _ => agree_eq

/-- What an observed evaluation answers, the same evaluation started no deeper answers
too, up to the depths recorded in lazy lists. -/
theorem evaluate_shallower (more : fuel ≤ fuel') (shallower : depth' ≤ depth) (scope : Scope)
    (marks : List (AdId × String)) (expr : Expr) :
    Refines (ValuesAgree (selfComparison host world .observed .panics))
      (evaluate host world .observed fuel ⟨scope, depth, marks, none⟩ expr)
      (evaluate host world .panics fuel' ⟨scope, depth', marks, none⟩ expr) :=
  evaluate_sim (selfComparison host world .observed .panics) more _ _ expr
    (self_agree (.inl ⟨rfl, shallower⟩) scope marks) (within_of_all (fun _ => trivial) expr)

/-- The same, for an evaluator that may resolve its references elsewhere. -/
theorem evaluate_shallower_at (more : fuel ≤ fuel') (shallower : depth' ≤ depth) {ev : Evaluator} {expr : Expr} :
    Refines (ValuesAgree (selfComparison host world .observed guard))
      (evaluate host world .observed fuel { ev with depth := depth } expr)
      (evaluate host world guard fuel' { ev with depth := depth' } expr) :=
  evaluate_sim (selfComparison host world .observed guard) more _ _ expr
    (self_agree_at (.inl rfl) (.inl ⟨rfl, shallower⟩)) (within_of_all (fun _ => trivial) expr)

theorem evaluates_fuel (more : fuel ≤ fuel')
    (ran : (evaluate host world .panics fuel (newEvaluator scope) expr).recover .error = .ok value) :
    (evaluate host world .panics fuel' (newEvaluator scope) expr).recover .error = .ok value := by
  have same : Refines (· = ·)
      ((evaluate host world .panics fuel (newEvaluator scope) expr).recover .error)
      ((evaluate host world .panics fuel' (newEvaluator scope) expr).recover .error) :=
    (evaluate_mono more 0).recover rfl
  obtain ⟨_, other, agree⟩ := same.ok_inv ran
  rw [other, agree]

/-- An expression has at most one value in a scope. -/
theorem evaluates_unique (first : Evaluates host world scope expr left)
    (second : Evaluates host world scope expr right) : left = right := by
  obtain ⟨fuel, ran⟩ := first
  obtain ⟨fuel', ran'⟩ := second
  have both := evaluates_fuel (Nat.le_max_left fuel fuel') ran
  have both' := evaluates_fuel (Nat.le_max_right fuel fuel') ran'
  exact Run.ok.inj (both.symm.trans both')

/-- What an observed evaluation answers is the expression's value, up to the depths recorded
in lazy lists. -/
theorem evaluates_of_answer (answered : evaluate host world .observed fuel (newEvaluator scope) expr = .ok value) :
    ∃ value', Evaluates host world scope expr value' ∧
      ValuesAgree (selfComparison host world .observed .panics) value value' := by
  obtain ⟨value', returned, same⟩ :=
    (evaluate_shallower (Nat.le_refl fuel) (Nat.le_refl 0) scope [] expr).ok_inv answered
  exact ⟨value', ⟨fuel, by rw [newEvaluator, returned]; rfl⟩, same⟩

/-- Readers of agreeing values see the same. The induction is on the levels they look at. -/
theorem shown_sim (more : fuel ≤ fuel') (alike : guard = .observed ∨ guard = guard') :
    ∀ levels {left right : Value}, ValuesAgree (selfComparison host world guard guard') left right →
      Refines (· = ·) (shown host world guard fuel levels left) (shown host world guard' fuel' levels right)
  | 0, _, _, _ => .ok rfl
  | levels + 1, left, right, same => by
    have below := evaluate_sim (selfComparison host world guard guard') more
    have agree : EvaluatorsAgree (selfComparison host world guard guard') (newEvaluator []) (newEvaluator []) :=
      self_agree (self_depth alike) [] []
    refine (listValue_sim below agree same).bind fun elements elements' matched => ?_
    cases matched with
    | none => exact .ok same.view
    | some each =>
      refine (Refines.traverse each fun _ _ inner => shown_sim more alike levels inner).bind fun seen seen' equal => ?_
      rw [forall₂_eq_eq_eq] at equal
      exact .ok (congrArg View.list equal)

/-- A panic that does not come from the recursion guard is caught as an error. -/
theorem evaluates_of_panic (panicked : evaluate host world .observed fuel (newEvaluator scope) expr = .panic) :
    Evaluates host world scope expr .error := by
  have walked : Refines _ (evaluate host world .observed fuel ⟨scope, 0, [], none⟩ expr)
      (evaluate host world .panics fuel ⟨scope, 0, [], none⟩ expr) :=
    evaluate_shallower (Nat.le_refl fuel) (Nat.le_refl 0) scope [] expr
  rw [show (⟨scope, 0, [], none⟩ : Evaluator) = newEvaluator scope from rfl, panicked] at walked
  refine ⟨fuel, ?_⟩
  cases ran : evaluate host world .panics fuel (newEvaluator scope) expr with
  | panic => rfl
  | ok _ | stuck =>
    rw [ran] at walked
    cases walked

end

end Classad.TreeWalkSimulation
