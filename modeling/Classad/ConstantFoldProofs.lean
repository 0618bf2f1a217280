import Classad.FoldShapes
import Classad.LogicalTruth
import Classad.TreeWalkSimulation

/-! Constant folding keeps what an expression is worth. Folding only ever makes the tree
shallower, so the folded expression is compared from the depth of the expression it
replaces, or from any depth above it. -/
namespace Classad.ConstantFoldProofs
open Syntax Operators OperatorProofs PartialRun TreeWalk TreeWalkSimulation ConstantFold FoldShapes LogicalTruth
open Run (Refines)
open List (Forall₂)

/-! ## Literals -/

theorem exprToValue_valueToExpr (plain : IsPlain value) : exprToValue (valueToExpr value) = value := by
  cases value with
  | lazyList | list | classAd => exact absurd plain id
  | _ => rfl

section
variable {host : Host} {world : World}

theorem evaluate_literal (literal : isLiteralExpr expr = true)
    (below : ev.depth < maxEvalDepth) {guard : DepthGuard} :
    evaluate host world guard (fuel + 1) ev expr = .ok (exprToValue expr) := by
  have present : expr ≠ .nil := by
    rintro rfl
    cases literal
  rw [evaluate_succ present, if_neg (by omega)]
  cases expr <;> first | rfl | cases literal

/-- An evaluator that only knows literals. -/
def literalsOnly : Recurse := fun _ expr => .ok (exprToValue expr)

theorem evaluateBinaryOp_literalsOnly (ev : Evaluator) (op : BinaryOperator) (left right : Expr) :
    evaluateBinaryOp literalsOnly ev op left right =
      .ok (applyBinaryValues op (exprToValue left) (exprToValue right)) :=
  binaryOp_value rfl rfl

end

/-! ## What folding keeps -/

section
variable (host : Host) (world : World)

/-- One scope evaluated twice, both evaluations observing the recursion guard. -/
abbrev observed : Comparison := selfComparison host world .observed .observed

/-- An expression is matched by another one: from no deeper and with no less fuel, the other
evaluates to something related. -/
def MatchedBy (related : Value → Value → Prop) (expr folded : Expr) : Prop :=
  ∀ fuel fuel' ev ev', fuel ≤ fuel' → EvaluatorsAgree (observed host world) ev ev' →
    Refines related (evaluate host world .observed fuel ev expr) (evaluate host world .observed fuel' ev' folded)

/-- Values that agree, or lists with elements that read alike; how these are written does not matter. -/
inductive Reads : Value → Value → Prop where
  | same : ValuesAgree (observed host world) left right → Reads left right
  | lazy : Forall₂ (fun expr folded =>
      ∀ fuel fuel' ev ev', fuel ≤ fuel' → EvaluatorsAgree (observed host world) ev ev' →
      Refines Reads (evaluate host world .observed fuel ev expr) (evaluate host world .observed fuel' ev' folded))
        elements elements' →
      ScopesAgree (observed host world) scope scope' → DepthsAgree (observed host world) depth depth' →
      Reads (.lazyList elements scope depth) (.lazyList elements' scope' depth')

/-- Values that agree, or lists with elements that come out related. -/
inductive Lists (related : Value → Value → Prop) : Value → Value → Prop where
  | same : ValuesAgree (observed host world) left right → Lists related left right
  | lazy : Forall₂ (MatchedBy host world related) elements elements' →
      ScopesAgree (observed host world) scope scope' → DepthsAgree (observed host world) depth depth' →
      Lists related (.lazyList elements scope depth) (.lazyList elements' scope' depth')

/-- What folding keeps of a value. -/
def Keeps : Grade → Value → Value → Prop
  | .logic => SameLogic
  | .read => Reads host world
  | .elements => Lists host world (ValuesAgree (observed host world))
  | .value => ValuesAgree (observed host world)

def Matched (grade : Grade) : Expr → Expr → Prop := MatchedBy host world (Keeps host world grade)

end

section
variable {host : Host} {world : World} {grade : Grade} {related : Value → Value → Prop}

theorem Lists.reads (same : Lists host world (Reads host world) left right) : Reads host world left right := by
  cases same with
  | same agree => exact .same agree
  | lazy elements scopes depths => exact .lazy elements scopes depths

theorem Reads.lists (same : Reads host world left right) : Lists host world (Reads host world) left right := by
  cases same with
  | same agree => exact .same agree
  | lazy elements scopes depths => exact .lazy elements scopes depths

/-- No operator looks into a list. -/
theorem Lists.erase (same : Lists host world related left right) : erase left = erase right := by
  cases same with
  | same agree => exact agree.erase
  | lazy => rfl

theorem Lists.isUndefined (same : Lists host world related left right) : left.isUndefined = right.isUndefined := by
  rw [← isUndefined_erase left, same.erase, isUndefined_erase]

theorem Lists.isError (same : Lists host world related left right) : left.isError = right.isError := by
  rw [← isError_erase left, same.erase, isError_erase]

theorem Lists.logic (same : Lists host world related left right) : SameLogic left right := by
  unfold SameLogic
  rw [← logicalView_erase left, same.erase, logicalView_erase]

theorem Reads.erase (same : Reads host world left right) : OperatorProofs.erase left = OperatorProofs.erase right :=
  same.lists.erase

theorem Reads.ofPlain (same : Reads host world left right) (plain : IsPlain left) :
    ValuesAgree (observed host world) left right := by
  cases same with
  | same agree => exact agree
  | lazy => exact absurd plain id

theorem Keeps.ofValues (same : ValuesAgree (observed host world) left right) : Keeps host world grade left right := by
  cases grade with
  | logic => exact same.logicalView
  | read => exact .same same
  | elements => exact .same same
  | value => exact same

theorem Keeps.logic (same : Keeps host world grade left right) : SameLogic left right := by
  cases grade with
  | logic => exact same
  | read => exact Lists.logic (Reads.lists same)
  | elements => exact Lists.logic same
  | value => exact same.logicalView

/-- `!` sees the logical view of its operand, the other unary operators no list. -/
theorem Keeps.applyUnary (same : Keeps host world (if op = .not then .logic else .read) left right) :
    ValuesAgree (observed host world) (applyUnaryValue op left) (applyUnaryValue op right) := by
  by_cases negation : op = .not
  · subst negation
    rw [same.logic.applyNot]
    exact .ofPlain applyUnaryValue_plain
  · rw [if_neg negation] at same
    have same : Reads host world left right := same
    rw [← applyUnaryValue_erase op left, same.erase, applyUnaryValue_erase]
    exact .ofPlain applyUnaryValue_plain

theorem Reads.applyBinary (op : BinaryOperator) (first : Reads host world left left')
    (second : Reads host world right right') :
    ValuesAgree (observed host world) (applyBinaryValues op left right) (applyBinaryValues op left' right') := by
  rw [← applyBinaryValues_erase op left, first.erase, second.erase, applyBinaryValues_erase]
  exact .ofPlain (applyBinaryValues_plain _ _ _)

/-! ## One node -/

/-- The evaluator one level further down. -/
def deeper (ev : Evaluator) : Evaluator := { ev with depth := ev.depth + 1 }

section
variable (agree : EvaluatorsAgree (observed host world) ev ev')
include agree

theorem deeper_agree :
    EvaluatorsAgree (observed host world) (deeper ev) (deeper ev') :=
  ⟨agree.scope, agree.depth.succ, agree.marks, agree.resolver⟩

/-- A folded operand may be evaluated where the node it was an operand of stood. -/
theorem lifted_agree :
    EvaluatorsAgree (observed host world) (deeper ev) ev' := by
  refine ⟨agree.scope, .inl ⟨rfl, ?_⟩, agree.marks, agree.resolver⟩
  rcases agree.depth with ⟨_, shallower⟩ | ⟨_, same⟩
  · exact Nat.le_succ_of_le shallower
  · exact Nat.le_succ_of_le (Nat.le_of_eq same.symm)

theorem depth_le : ev'.depth ≤ ev.depth := by
  rcases agree.depth with ⟨_, shallower⟩ | ⟨_, same⟩
  · exact shallower
  · exact Nat.le_of_eq same.symm

end

/-- To match a node it is enough to match its evaluation one level down; the guard is dealt
with here, once. The other side may still be any expression. -/
theorem matched_of_node (present : expr ≠ .nil)
    (node : ∀ {fuel fuel' ev ev'}, fuel ≤ fuel' → EvaluatorsAgree (observed host world) ev ev' →
      ev'.depth < maxEvalDepth →
      Refines related (evalNode host world (evaluate host world .observed fuel) (deeper ev) expr)
        (evaluate host world .observed (fuel' + 1) ev' folded)) : MatchedBy host world related expr folded := by
  intro fuel fuel' ev ev' more agree
  cases fuel with
  | zero => exact .stuck
  | succ fuel =>
    obtain ⟨fuel', rfl⟩ : ∃ rest, fuel' = rest + 1 := ⟨fuel' - 1, by omega⟩
    rw [evaluate_succ present]
    split
    · exact .stuck
    · have shallower := depth_le agree
      exact node (by omega) agree (by omega)

/-- A node rebuilt from folded operands is matched node by node. -/
theorem matched_of_rebuilt (present : expr ≠ .nil) (present' : folded ≠ .nil)
    (node : ∀ {fuel fuel' ev ev'}, fuel ≤ fuel' → EvaluatorsAgree (observed host world) ev ev' →
      Refines related (evalNode host world (evaluate host world .observed fuel) ev expr)
        (evalNode host world (evaluate host world .observed fuel') ev' folded)) :
    MatchedBy host world related expr folded := by
  refine matched_of_node present fun more agree below => ?_
  rw [evaluate_succ present', if_neg (by omega)]
  exact node more (deeper_agree agree)

/-- What matches a literal is worth that literal, unless it has no answer. -/
theorem MatchedBy.literal (matched : MatchedBy host world related expr folded) (literal : isLiteralExpr folded = true)
    (fuel : Nat) (agree : EvaluatorsAgree (observed host world) ev ev') (below : ev'.depth < maxEvalDepth) :
    Refines related (evaluate host world .observed fuel (deeper ev) expr) (.ok (exprToValue folded)) := by
  have evaluated := matched fuel (fuel + 1) _ _ (by omega) (lifted_agree agree)
  rwa [evaluate_literal literal below] at evaluated

/-- A computed literal matches a node whose evaluation agrees with it. -/
theorem matched_of_computed (present : expr ≠ .nil) (plain : IsPlain result)
    (node : ∀ {fuel ev ev'}, EvaluatorsAgree (observed host world) ev ev' → ev'.depth < maxEvalDepth →
      Refines related
        (evalNode host world (evaluate host world .observed fuel) (deeper ev) expr) (.ok result)) :
    MatchedBy host world related expr (valueToExpr result) := by
  refine matched_of_node present fun more agree below => ?_
  rw [evaluate_literal (valueToExpr_literal result) below, exprToValue_valueToExpr plain]
  exact node agree below

theorem Matched.ofValue (matched : Matched host world .value expr folded) : Matched host world grade expr folded :=
  fun _ _ _ _ more agree => (matched _ _ _ _ more agree).mono fun _ _ same => Keeps.ofValues same

/-- An expression is matched by itself. -/
theorem matched_self {expr : Expr} : Matched host world grade expr expr :=
  Matched.ofValue fun _ _ _ _ more agree =>
    evaluate_sim (observed host world) more _ _ expr agree (within_of_all (fun _ => trivial) expr)

/-! ### Parentheses and unary operators -/

theorem foldParen_matched (inner : Matched host world grade expr folded) :
    Matched host world grade (.paren expr) (foldParen folded) := by
  have dropped : Matched host world grade (.paren expr) folded := by
    refine matched_of_node (by simp) fun more agree _ => ?_
    exact inner _ _ _ _ (by omega) (lifted_agree agree)
  unfold foldParen
  split
  all_goals first | exact dropped | skip
  all_goals
    refine matched_of_rebuilt (by simp) (by simp) fun more agree => ?_
    exact inner _ _ _ _ more agree

theorem foldUnary_matched (inner : Matched host world (if op = .not then .logic else .read) expr folded) :
    Matched host world .value (.unary op expr) (foldUnary op folded) := by
  have rebuilt : Matched host world .value (.unary op expr) (.unary op folded) := by
    refine matched_of_rebuilt (by simp) (by simp) fun more agree => ?_
    refine (inner _ _ _ _ more agree).bind fun value value' same => ?_
    exact .ok same.applyUnary
  unfold foldUnary
  split
  · exact rebuilt
  next defined =>
    cases folds : foldResult (applyUnaryValue op (exprToValue folded)) with
    | none => exact rebuilt
    | some literal =>
      rw [foldResult_inv folds]
      refine matched_of_computed (by simp) applyUnaryValue_plain fun {fuel _ _} agree below => ?_
      have operand := inner.literal (literal_of_defined (by simpa using defined)) fuel agree below
      exact operand.bind fun value value' same => .ok same.applyUnary

/-! ### Binary operators -/

theorem evaluateBinaryOp_reads {recurse recurse' : Recurse} (strict : ¬(op = .and ∨ op = .or))
    (left : Refines (Reads host world) (recurse ev first) (recurse' ev' first'))
    (right : Refines (Reads host world) (recurse ev second) (recurse' ev' second')) :
    Refines (ValuesAgree (observed host world)) (evaluateBinaryOp recurse ev op first second)
      (evaluateBinaryOp recurse' ev' op first' second') := by
  rw [evaluateBinaryOp, evaluateBinaryOp, if_neg strict, if_neg strict]
  exact left.bind fun _ _ same => right.bind fun _ _ same' => .ok (same.applyBinary op same')

theorem foldBinary_matched (strict : ¬(op = .and ∨ op = .or)) (left : Matched host world .read first folded)
    (right : Matched host world .read second folded') :
    Matched host world .value (.binary op first second) (foldBinary op folded folded') := by
  rcases foldBinary_cases op folded folded' with short | ⟨_, same | ⟨literal, literal', same⟩⟩
  · exact absurd (foldShortCircuit_inv short).1 strict
  · rw [same]
    refine matched_of_rebuilt (by simp) (by simp) fun more agree => ?_
    exact evaluateBinaryOp_reads strict (left _ _ _ _ more agree) (right _ _ _ _ more agree)
  · rw [same]
    refine matched_of_computed (by simp) (applyBinaryValues_plain _ _ _) fun {_ _ ev'} agree below => ?_
    rw [← evaluateBinaryOp_literalsOnly ev']
    exact evaluateBinaryOp_reads strict (left.literal literal _ agree below) (right.literal literal' _ agree below)

/-! ### Logical values -/

/-- The values a coercion to a boolean leaves alone. -/
def IsLogicalValue (value : Value) : Prop := mapState (logicalView value) = value

theorem mapState_logical (state : LogicalState) : IsLogicalValue (mapState state) := by
  simp [IsLogicalValue]

theorem boolean_logical (value : Bool) : IsLogicalValue (.boolean value) := by
  cases value <;> rfl

theorem IsLogicalValue.eq (logical : IsLogicalValue left) (logical' : IsLogicalValue right)
    (same : SameLogic left right) :
    left = right := by
  rw [← logical, ← logical', same]

theorem shortCircuit_logical (decides : shortCircuit op value = some decided) : IsLogicalValue decided := by
  unfold shortCircuit at decides
  repeat' split at decides
  all_goals cases decides <;> rfl

theorem strict_logical {operation : Value → Value → Value} (logical : ∀ l r, IsLogicalValue (operation l r)) :
    IsLogicalValue (strict operation left right) := by
  unfold strict
  split
  · rfl
  · exact logical _ _

theorem evaluateIs_logical (left right : Value) : IsLogicalValue (evaluateIs left right) := by
  unfold evaluateIs
  split <;> first | exact boolean_logical _ | rfl

theorem valuesEqual_logical (left right : Value) : IsLogicalValue (valuesEqual left right) := by
  unfold valuesEqual
  repeat' split
  all_goals first | exact boolean_logical _ | rfl

theorem applyBinaryValues_logical (logical : isLogical host (.binary op first second) = true) (left right : Value) :
    IsLogicalValue (applyBinaryValues op left right) := by
  cases op with
  | and | or =>
    simp only [applyBinaryValues, evaluateAnd, evaluateOr]
    repeat' split
    all_goals first | rfl | exact mapState_logical _
  | is => exact evaluateIs_logical left right
  | isnt =>
    have same := evaluateIs_logical left right
    simp only [applyBinaryValues, evaluateIsnt]
    split
    · exact boolean_logical _
    · exact same
  | less | lessEqual | greater | greaterEqual =>
    refine strict_logical fun l r => ?_
    simp only [evaluateLessThan, evaluateLessOrEqual, evaluateGreaterThan, evaluateGreaterOrEqual, ordering]
    repeat' split
    all_goals first | rfl | exact boolean_logical _
  | equal => exact strict_logical valuesEqual_logical
  | notEqual =>
    refine strict_logical fun l r => ?_
    have equal := valuesEqual_logical l r
    unfold evaluateNotEqual
    split
    · exact boolean_logical _
    · exact equal
  | _ => cases logical

/-- Every answer of the run passes. -/
def Answers (passes : Value → Prop) (run : Run Value) : Prop := ∀ value, run = .ok value → passes value

theorem Answers.ok {passes : Value → Prop} (holds : passes value) : Answers passes (.ok value) := by
  rintro _ ⟨⟩
  exact holds

theorem Answers.bind {passes : Value → Prop} {run : Run α} {next : α → Run Value}
    (each : ∀ value, Answers passes (next value)) : Answers passes (run >>= next) := by
  cases run with
  | ok value => exact each value
  | panic | stuck => exact nofun

/-- A type test takes one argument and answers with a boolean, or an error for another number of them. -/
theorem evaluateTypeTest_logical (test : isTypeTest (host.toLower name) = true) (recurse : Recurse) (ev : Evaluator)
    (args : List Expr) : Answers IsLogicalValue (evaluateFunctionCall host world recurse ev name args) := by
  simp only [isTypeTest, List.contains_eq_mem, List.mem_cons, List.not_mem_nil, decide_eq_true_eq, or_false] at test
  have named : ∀ arg, ∃ result, typeBuiltin host.now (host.toLower name) [arg] = some (.boolean result) := by
    intro arg
    rcases test with named | named | named | named | named | named | named | named <;> simp [typeBuiltin, named]
  have single : acceptsArity (host.toLower name) args.length = true → ∃ arg, args = [arg] := by
    rw [← List.length_eq_one_iff]
    rcases test with named | named | named | named | named | named | named | named <;>
      simp [acceptsArity, functionArity, List.lookup_cons, named, FuncArity.accepts] <;> omega
  have ordinary : evaluateFunctionCall host world recurse ev name args =
      if !acceptsArity (host.toLower name) args.length then .ok .error
      else Run.traverse (recurse ev) args >>= callBuiltin host recurse ev (host.toLower name) := by
    rcases test with named | named | named | named | named | named | named | named <;>
      simp [evaluateFunctionCall, named]
  rw [ordinary]
  split
  · exact .ok rfl
  next accepted =>
    obtain ⟨arg, rfl⟩ := single (by simpa using accepted)
    cases answer : recurse ev arg with
    | panic | stuck => simp [Run.traverse, answer, Answers]
    | ok value =>
      obtain ⟨result, tested⟩ := named (view value)
      simp only [Run.traverse, answer, Run.ok_bind, callBuiltin, views, tested]
      exact .ok (boolean_logical result)

theorem isLogical_sound (host : Host) (world : World) (fuel : Nat) (ev : Evaluator) :
    ∀ expr, isLogical host expr = true →
    Answers IsLogicalValue (evaluate host world .observed fuel ev expr) := by
  induction fuel generalizing ev with
  | zero => exact fun _ _ => nofun
  | succ fuel ih =>
    intro expr logical
    have present : expr ≠ .nil := by rintro rfl; cases logical
    rw [evaluate_succ present]
    split
    · exact nofun
    cases expr with
    | boolean value => exact .ok (boolean_logical value)
    | undefined | error => exact .ok rfl
    | paren inner => exact ih _ inner logical
    | unary op operand =>
      obtain rfl : op = .not := by simpa [isLogical] using logical
      refine Answers.bind fun value => .ok ?_
      cases value <;> simp only [applyUnaryValue] <;> first | rfl | (split <;> rfl)
    | binary op left right =>
      have applied := applyBinaryValues_logical logical
      simp only [evalNode, evaluateBinaryOp, evaluateShortCircuit]
      split
      · refine Answers.bind fun value => ?_
        split
        next decides => exact .ok (shortCircuit_logical decides)
        · exact Answers.bind fun value' => .ok (applied value value')
      · exact Answers.bind fun value => Answers.bind fun value' => .ok (applied value value')
    | conditional condition whenTrue whenFalse =>
      simp only [isLogical, Bool.and_eq_true] at logical
      refine Answers.bind fun value => ?_
      split
      · exact ih _ whenTrue logical.1
      · exact ih _ whenFalse logical.2
      · exact Answers.bind fun _ => Answers.bind fun _ => .ok rfl
      · exact .ok rfl
    | call name args => exact evaluateTypeTest_logical logical _ _ args
    | _ => cases logical

/-! ### `&&` and `||` -/

/-- An operand that can stand for a whole `&&` or `||`: it comes out as anything does that is
logical and looks like it. -/
def StandsFor (host : Host) (world : World) (grade : Grade) : Expr → Expr → Prop :=
  MatchedBy host world fun value value' => ∀ whole, IsLogicalValue whole → SameLogic whole value →
    Keeps host world grade whole value'

theorem standsFor_logic (matched : Matched host world .logic expr folded) : StandsFor host world .logic expr folded :=
  fun _ _ _ _ more agree => (matched _ _ _ _ more agree).mono fun _ _ same _ _ view => view.trans same

theorem standsFor_logical (logical : isLogical host expr = true) (matched : Matched host world .read expr folded) :
    StandsFor host world grade expr folded := by
  intro fuel fuel' ev ev' more agree
  have answers := isLogical_sound host world fuel ev expr logical
  have run := matched fuel fuel' ev ev' more agree
  generalize evaluate host world .observed fuel ev expr = left at answers run ⊢
  generalize evaluate host world .observed fuel' ev' folded = right at run ⊢
  cases run with
  | stuck => exact .stuck
  | panic => exact .panic
  | @ok value value' same =>
    refine .ok fun whole isLogical view => ?_
    have same : Reads host world value value' := same
    have logicalValue := answers value rfl
    cases isLogical.eq logicalValue view
    exact Keeps.ofValues (same.ofPlain (logicalValue ▸ mapState_plain _))

section
variable {op : BinaryOperator} (logical : op = .and ∨ op = .or)
include logical

theorem shortCircuit_view (decided : shortCircuit op left = some value) : SameLogic value left := by
  unfold SameLogic
  rcases logical with rfl | rfl <;>
    cases view : logicalView left <;>
    simp [shortCircuit, view] at decided <;>
    subst decided <;> rfl

theorem neutral_left (view : SameLogic left (.boolean (!decides op))) (right : Value) :
    shortCircuit op left = none ∧ SameLogic (applyBinaryValues op left right) right := by
  unfold SameLogic at *
  rcases logical with rfl | rfl <;>
    cases other : logicalView right <;>
    simp [decides] at view <;>
    simp [shortCircuit, applyBinaryValues, evaluateAnd, evaluateOr, view, other]

theorem neutral_right (view : SameLogic right (.boolean (!decides op))) (left : Value) :
    SameLogic (applyBinaryValues op left right) left := by
  unfold SameLogic at *
  rcases logical with rfl | rfl <;>
    cases other : logicalView left <;>
    simp [decides] at view <;>
    simp [applyBinaryValues, evaluateAnd, evaluateOr, view, other]

theorem deciding_left (view : SameLogic left (.boolean (decides op))) :
    shortCircuit op left = some (.boolean (decides op)) := by
  unfold SameLogic at view
  rcases logical with rfl | rfl <;> simp [decides] at view <;> simp [shortCircuit, view, decides]

/-- A right operand that decides does so unless the left one is an error. -/
theorem deciding_right (seen : logicalView left ≠ .isErr) (view : SameLogic right (.boolean (decides op))) :
    (shortCircuit op left).getD (applyBinaryValues op left right) = .boolean (decides op) := by
  unfold SameLogic at view
  rcases logical with rfl | rfl <;>
    cases other : logicalView left <;>
    simp [decides] at view <;>
    simp_all [shortCircuit, applyBinaryValues, evaluateAnd, evaluateOr, decides, mapState]

theorem applyLogical_logical (left right : Value) : IsLogicalValue (applyBinaryValues op left right) := by
  rcases logical with rfl | rfl
  all_goals exact @applyBinaryValues_logical (asciiHost 0) _ .nil .nil rfl left right

theorem evalNode_logical (recurse : Recurse) (ev : Evaluator) (left right : Expr) :
    evalNode host world recurse ev (.binary op left right) = evaluateShortCircuit recurse ev op left right :=
  if_pos logical

theorem foldLogical_matched (left : Matched host world .logic first folded)
    (right : folded ≠ .boolean (decides op) → Matched host world .logic second folded')
    (stands : folded = .boolean (!decides op) → StandsFor host world grade second folded')
    (stands' : (∀ value, folded ≠ .boolean value) → folded' = .boolean (!decides op) →
      StandsFor host world grade first folded)
    (seen : (∀ value, folded ≠ .boolean value) → folded' = .boolean (decides op) →
      isLiteralExpr folded = true ∧ logicalView (exprToValue folded) ≠ .isErr) :
    Matched host world grade (.binary op first second) (foldBinary op folded folded') := by
  rcases foldBinary_cases op folded folded' with short | ⟨uncut, same | ⟨literal, literal', same⟩⟩
  · obtain ⟨_, ⟨rfl, same⟩ | ⟨rfl, same⟩ | ⟨apart, ⟨rfl, same⟩ | ⟨rfl, same⟩⟩⟩ := foldShortCircuit_inv short
    · rw [same]
      refine matched_of_computed (by simp) (show IsPlain (.boolean (decides op)) from trivial) fun agree below => ?_
      rw [evalNode_logical logical]
      refine (left.literal rfl _ agree below).bind_ok fun value view => ?_
      rw [deciding_left logical view]
      exact .ok (Keeps.ofValues (.boolean _))
    · rw [same]
      refine matched_of_node (by simp) fun more agree below => ?_
      rw [evalNode_logical logical]
      refine (left.literal rfl _ agree below).bind_ok fun value view => ?_
      rw [(neutral_left logical view .undefined).1]
      refine ((stands rfl) _ _ _ _ (by omega) (lifted_agree agree)).bind_same fun other other' keeps => .ok ?_
      exact keeps _ (applyLogical_logical logical _ _) (neutral_left logical view other).2
    · obtain ⟨literal, noError⟩ := seen apart rfl
      have right := right (apart _)
      rw [same]
      refine matched_of_computed (by simp) (show IsPlain (.boolean (decides op)) from trivial) fun agree below => ?_
      rw [evalNode_logical logical]
      refine (left.literal literal _ agree below).bind_ok fun value view => ?_
      have view : SameLogic value (exprToValue folded) := view
      have decided (other : Value) (decides : SameLogic other (.boolean (decides op))) :=
        deciding_right logical (by rwa [view]) decides
      split
      next result decides =>
        have same := decided (.boolean (ConstantFold.decides op)) rfl
        rw [decides] at same
        cases same
        exact .ok (Keeps.ofValues (.boolean _))
      next undecided =>
        refine (right.literal rfl _ agree below).bind_ok fun other view' => ?_
        have same := decided other view'
        rw [undecided] at same
        rw [show applyBinaryValues op value other = _ from same]
        exact .ok (Keeps.ofValues (.boolean _))
    · have right := right (apart _)
      rw [same]
      refine matched_of_node (by simp) fun more agree below => ?_
      rw [evalNode_logical logical]
      refine ((stands' apart rfl) _ _ _ _ (by omega) (lifted_agree agree)).bind_same fun value value' keeps => ?_
      split
      next decided decides => exact .ok (keeps _ (shortCircuit_logical decides) (shortCircuit_view logical decides))
      · refine (right.literal rfl _ agree below).bind_ok fun other view => .ok ?_
        exact keeps _ (applyLogical_logical logical _ _) (neutral_right logical view value)
  · have right := right fun decided => by
      rw [decided, foldShortCircuit_decided logical] at uncut
      cases uncut
    rw [same]
    refine matched_of_rebuilt (by simp) (by simp) fun more agree => ?_
    rw [evalNode_logical logical, evalNode_logical logical]
    exact .mono (evaluateShortCircuit_sim logical (left _ _ _ _ more agree)
      (right _ _ _ _ more agree)) fun _ _ => Keeps.ofValues
  · have right := right fun decided => by
      rw [decided, foldShortCircuit_decided logical] at uncut
      cases uncut
    rw [same]
    refine matched_of_computed (by simp) (applyBinaryValues_plain _ _ _) fun {_ _ ev'} agree below => ?_
    rw [evalNode_logical logical, ← evaluateBinaryOp_literalsOnly ev', evaluateBinaryOp, if_pos logical]
    exact .mono (evaluateShortCircuit_sim logical (left.literal literal _ agree below)
      (right.literal literal' _ agree below)) fun _ _ => Keeps.ofValues

end

/-! ### Choices -/

theorem boolean_of_answer (ran : evaluate host world .observed fuel ev (.boolean decided) = .ok value) :
    value = .boolean decided := by
  cases fuel with
  | zero => cases ran
  | succ fuel =>
    rw [evaluate_succ (by simp)] at ran
    split at ran
    · cases ran
    · cases ran
      rfl

/-- A branch that is not taken need not be matched. -/
theorem foldConditional_matched (condition : Matched host world .logic first folded)
    (whenTrue : folded ≠ .boolean false → Matched host world grade second folded')
    (whenFalse : folded ≠ .boolean true → Matched host world grade third folded'') :
    Matched host world grade (.conditional first second third) (foldConditional folded folded' folded'') := by
  unfold foldConditional
  split
  next decided reads =>
    cases literal_of_boolean reads
    refine matched_of_node (by simp) fun more agree below => ?_
    refine (condition.literal rfl _ agree below).bind_ok fun value view => ?_
    rw [view]
    cases decided with
    | true => exact whenTrue nofun _ _ _ _ (by omega) (lifted_agree agree)
    | false => exact whenFalse nofun _ _ _ _ (by omega) (lifted_agree agree)
  next unsettled =>
    have apart : ∀ value, folded ≠ .boolean value := by
      rintro value rfl
      exact unsettled value rfl
    refine matched_of_rebuilt (by simp) (by simp) fun more agree => ?_
    exact evaluateConditional_sim (Keeps.ofValues .undefined) (Keeps.ofValues .error)
      (condition _ _ _ _ more agree) (whenTrue (apart _) _ _ _ _ more agree)
      (whenFalse (apart _) _ _ _ _ more agree)

theorem foldElvis_matched (literal : isLiteralExpr folded = true) (left : Matched host world .value first folded)
    (right : Matched host world grade second folded') :
    Matched host world grade (.elvis first second) (foldElvis folded folded') := by
  unfold foldElvis
  split
  next absent =>
    refine matched_of_node (by simp) fun more agree below => ?_
    refine (left.literal literal _ agree below).bind_ok fun value same => ?_
    have undefined : value.isUndefined = true := (ValuesAgree.isUndefined same).trans absent
    rw [if_pos undefined]
    exact right _ _ _ _ (by omega) (lifted_agree agree)
  · refine matched_of_rebuilt (by simp) (by simp) fun more agree => ?_
    exact evaluateElvis_sim (fun _ _ => Keeps.ofValues) (left _ _ _ _ more agree)
      (right _ _ _ _ more agree)

section
variable (named : host.toLower name = "ifthenelse")
include named

theorem evalNode_ifThenElse
    (recurse : Recurse) (ev : Evaluator) (args : List Expr) :
    evalNode host world recurse ev (.call name args) = evaluateIfThenElse recurse ev args := by
  simp [evalNode, evaluateFunctionCall, named]

theorem foldIfThenElse_matched (condition : Matched host world .logic first folded)
    (whenTrue : folded ≠ .boolean false → Matched host world grade second folded')
    (whenFalse : folded ≠ .boolean true → Matched host world grade third folded'') :
    Matched host world grade (.call name [first, second, third]) (foldCall host name [folded, folded', folded'']) := by
  have rebuilt : Matched host world grade (.call name [first, second, third])
      (.call name [folded, folded', folded'']) := by
    refine matched_of_rebuilt (by simp) (by simp) fun {_ fuel' _ ev'} more agree => ?_
    rw [evalNode_ifThenElse named, evalNode_ifThenElse named]
    refine (condition _ _ _ _ more agree).bind_run fun value value' ran view => ?_
    have view : logicalView value = logicalView value' := view
    rw [view]
    split
    next isTrue =>
      refine whenTrue ?_ _ _ _ _ more agree
      rintro rfl
      cases boolean_of_answer ran
      cases isTrue
    next isFalse =>
      refine whenFalse ?_ _ _ _ _ more agree
      rintro rfl
      cases boolean_of_answer ran
      cases isFalse
    · exact .ok (Keeps.ofValues .undefined)
    · exact .ok (Keeps.ofValues .error)
  unfold foldCall
  split
  · simp only
    split
    next decided reads =>
      cases literal_of_boolean reads
      refine matched_of_node (by simp) fun more agree below => ?_
      rw [evalNode_ifThenElse named]
      refine (condition.literal rfl _ agree below).bind_ok fun value view => ?_
      rw [view]
      cases decided with
      | true => exact whenTrue nofun _ _ _ _ (by omega) (lifted_agree agree)
      | false => exact whenFalse nofun _ _ _ _ (by omega) (lifted_agree agree)
    · exact rebuilt
  · exact rebuilt

/-- With any other number of arguments `ifThenElse` looks at none of them. -/
theorem ifThenElse_arity (wrong : args.length ≠ 3)
    (same : args'.length = args.length) : Matched host world grade (.call name args) (foldCall host name args') := by
  have unread : ∀ (recurse : Recurse) (ev : Evaluator) (list : List Expr), list.length ≠ 3 →
      evaluateIfThenElse recurse ev list = .ok .error := by
    intro recurse ev list wrong
    unfold evaluateIfThenElse
    split
    · simp at wrong
    · rfl
  have kept : foldCall host name args' = .call name args' := by
    unfold foldCall
    split
    · split
      · simp_all
      · rfl
    · rfl
  rw [kept]
  refine matched_of_rebuilt (by simp) (by simp) fun more agree => ?_
  rw [evalNode_ifThenElse named, evalNode_ifThenElse named, unread _ _ _ wrong,
    unread _ _ _ (by omega)]
  exact .ok (Keeps.ofValues .error)

end

/-! ### Lists -/

section
variable {fuel fuel' : Nat} (more : fuel ≤ fuel') (agree : EvaluatorsAgree (observed host world) ev ev')
include more agree

variable (coarser : ∀ left right, ValuesAgree (observed host world) left right → related left right)

include coarser in
theorem listValue_lists (same : Lists host world related value value') :
    Refines (Option.Rel (Forall₂ (related))) (listValue (evaluate host world .observed fuel) ev value)
      (listValue (evaluate host world .observed fuel') ev' value') := by
  cases same with
  | same alike =>
    refine (listValue_sim (evaluate_sim (observed host world) more) agree alike).mono fun _ _ matched => ?_
    cases matched with
    | none => exact .none
    | some each => exact .some (each.imp coarser)
  | lazy elements scopes depths =>
    refine (Refines.traverse elements fun element element' matched => ?_).bind fun _ _ values => .ok (.some values)
    exact (matched _ _ _ _ more (lazyEvaluator_agree agree scopes depths agree.depth.zero)).recover (coarser _ _ .error)

include coarser in
theorem listElementAt_lists (index : Nat) (same : Lists host world related value value') :
    Refines (related) (listElementAt (evaluate host world .observed fuel) ev index value)
      (listElementAt (evaluate host world .observed fuel') ev' index value') := by
  cases same with
  | same alike =>
    exact (listElementAt_sim (evaluate_sim (observed host world) more) agree index alike).mono coarser
  | lazy elements scopes depths =>
    simp only [listElementAt]
    split
    next element found =>
      obtain ⟨bound, rfl⟩ := List.getElem?_eq_some_iff.mp found
      have bound' := elements.length_eq ▸ bound
      rw [List.getElem?_eq_getElem bound']
      have matched := elements.get bound bound'
      exact (matched _ _ _ _ more (lazyEvaluator_agree agree scopes depths agree.depth)).recover (coarser _ _ .error)
    · exact .stuck

include coarser in
theorem subscriptValue_lists (same : Lists host world related value value')
    (sameIndex : Reads host world index index') :
    Refines (related) (subscriptValue host (evaluate host world .observed fuel) ev value index)
      (subscriptValue host (evaluate host world .observed fuel') ev' value' index') := by
  have refused : Refines (related) (.ok .error) (.ok .error) := .ok (coarser _ _ .error)
  cases sameIndex with
  | lazy =>
    cases same with
    | same alike => cases alike <;> exact refused
    | lazy => exact refused
  | same index =>
    have element := fun at' => listElementAt_lists more agree coarser at' same
    cases same with
    | same alike =>
      exact (subscriptValue_sim (evaluate_sim (observed host world) more) agree alike index).mono coarser
    | lazy elements =>
      cases index with
      | integer i =>
        simp only [subscriptValue, elements.length_eq]
        split
        · exact refused
        · exact element _
      | _ => exact refused

theorem selectAttr_reads (same : Reads host world value value') :
    Refines (ValuesAgree (observed host world))
    (selectAttr host world (evaluate host world .observed fuel) ev value attr)
      (selectAttr host world (evaluate host world .observed fuel') ev' value' attr) := by
  cases same with
  | same alike => exact selectAttr_sim (evaluate_sim (observed host world) more) agree trivial alike
  | lazy => exact .ok .error

end

theorem subscript_matched (container : MatchedBy host world (Lists host world (Keeps host world grade)) first folded)
    (index : Matched host world .read second folded') :
    Matched host world grade (.subscript first second) (.subscript folded folded') := by
  refine matched_of_rebuilt (by simp) (by simp) fun more agree => ?_
  refine (container _ _ _ _ more agree).bind fun value value' same => ?_
  rw [same.isUndefined, same.isError]
  split
  · exact .ok (Keeps.ofValues .undefined)
  · split
    · exact .ok (Keeps.ofValues .error)
    · refine (index _ _ _ _ more agree).bind fun indexValue indexValue' sameIndex => ?_
      have sameIndex : Reads host world indexValue indexValue' := sameIndex
      rw [sameIndex.lists.isUndefined, sameIndex.lists.isError]
      split
      · exact .ok (Keeps.ofValues .undefined)
      · split
        · exact .ok (Keeps.ofValues .error)
        · exact subscriptValue_lists more agree (fun _ _ => Keeps.ofValues) same sameIndex

theorem select_matched (record : Matched host world .read expr folded) {attr : String} :
    Matched host world .value (.select expr attr) (.select folded attr) := by
  refine matched_of_rebuilt (by simp) (by simp) fun more agree => ?_
  refine (record _ _ _ _ more agree).bind fun value value' same => ?_
  have same : Reads host world value value' := same
  cases same with
  | same alike => exact selectValue_sim (evaluate_sim (observed host world) more) agree trivial alike
  | lazy elements scopes depths =>
    have inner := lazyEvaluator_agree agree scopes depths agree.depth
    refine (Refines.traverse elements fun _ _ matched => matched _ _ _ _ more inner).bind fun _ _ values => ?_
    refine (Refines.traverse values fun _ _ same => selectAttr_reads more agree same).bind fun _ _ selected => ?_
    exact .ok (.list selected)

theorem list_lists (elements : Forall₂ (MatchedBy host world related) first folded) :
    MatchedBy host world (Lists host world related) (.list first) (.list folded) :=
  matched_of_rebuilt (by simp) (by simp) fun _ agree => .ok (.lazy elements agree.scope agree.depth)

/-! ### Calls -/

theorem views_blur (same : Forall₂ (Reads host world) left right) : (views left).map blur = (views right).map blur := by
  induction same with
  | nil => rfl
  | @cons value value' _ _ first _ ih =>
    have head : blur (view value) = blur (view value') := by
      cases first with
      | same alike => rw [alike.view]
      | lazy elements => simp [view, blur, elements.length_eq]
    simp [views, head, ih]

theorem typeBuiltin_blur (now : Int64) (name : String) (views : List View) :
    typeBuiltin now name (views.map blur) = typeBuiltin now name views := by
  match views with
  | [] | _ :: _ :: _ => rfl
  | [arg] => cases arg <;> rfl

section
variable {fuel fuel' : Nat} (more : fuel ≤ fuel') (agree : EvaluatorsAgree (observed host world) ev ev')
include more agree

theorem materialize_reads (wanted : Nat → Bool) (position : Nat) (args : Forall₂ (Reads host world) left right) :
    Refines (fun elements elements' => elements.map (·.map blur) = elements'.map (·.map blur))
      (materialize (evaluate host world .observed fuel) ev wanted position left)
      (materialize (evaluate host world .observed fuel') ev' wanted position right) := by
  induction args generalizing position with
  | nil => exact .ok rfl
  | @cons value value' rest rest' same _ ih =>
    have elements : Refines (Option.Rel (Forall₂ (Reads host world)))
        (argElements (evaluate host world .observed fuel) ev (wanted position) value)
        (argElements (evaluate host world .observed fuel') ev' (wanted position) value') := by
      unfold argElements
      split
      · exact listValue_lists more agree (fun _ _ => .same) same.lists
      · exact .ok .none
    refine elements.bind fun found found' sameFound => ?_
    refine (ih (position + 1)).bind fun others others' sameOthers => .ok ?_
    cases sameFound with
    | none => simp [sameOthers]
    | some each => simp [sameOthers, views_blur each]

theorem evalText_reads (same : Reads host world value value') :
    Refines (ValuesAgree (observed host world)) (evalText host (evaluate host world .observed fuel) ev value)
      (evalText host (evaluate host world .observed fuel') ev' value') := by
  cases same with
  | same alike =>
    exact evalText_sim (evaluate_sim (observed host world) more) agree (evalWithin_of_all (fun _ => trivial) _) alike
  | lazy => exact .ok .error

variable (prints : PrintsOnlyThere host) (unprinted : printsLists name = false)
include prints unprinted

theorem callBuiltin_reads (args : Forall₂ (Reads host world) left right) :
    Refines (ValuesAgree (observed host world)) (callBuiltin host (evaluate host world .observed fuel) ev name left)
      (callBuiltin host (evaluate host world .observed fuel') ev' name right) := by
  have blurred := views_blur args
  have sees := prints name unprinted (views left) (views right)
  unfold callBuiltin
  rw [← typeBuiltin_blur _ _ (views left), blurred, typeBuiltin_blur]
  split
  · exact .ok (Scalar.agree _)
  · rw [(sees [] [] blurred rfl).1]
    refine (materialize_reads more agree _ 0 args).bind fun elements elements' same => ?_
    rw [(sees elements elements' blurred same).2]
    exact .ok (BuiltinResult.agree _)

end

theorem call_matched (shape : readsSyntax (host.toLower name) = true → args = args')
    (each : List.Forall₂ (Matched host world .value) args args') :
    Matched host world .value (.call name args) (.call name args') := by
  refine matched_of_rebuilt (by simp) (by simp) fun more agree => ?_
  have below := evaluate_sim (observed host world) more
  refine evaluateFunctionCall_sim below agree (fun _ _ value _ _ => evalWithin_of_all (fun _ => trivial) value)
    (fun reads => ⟨shape reads, mentionsAll_of args (.inl fun _ => trivial)⟩) ?_
  exact each.imp fun _ _ matched => matched _ _ _ _ more agree

/-- A function that reads no syntax and prints no lists sees what its arguments read as. -/
theorem call_reads (prints : PrintsOnlyThere host) (unprinted : printsLists (host.toLower name) = false)
    (unread : readsSyntax (host.toLower name) = false) (other : host.toLower name ≠ "ifthenelse")
    (each : Forall₂ (Matched host world .read) args args') :
    Matched host world .value (.call name args) (.call name args') := by
  refine matched_of_rebuilt (by simp) (by simp) fun more agree => ?_
  have evaluated := each.imp fun _ _ matched => matched _ _ _ _ more agree
  simp only [readsSyntax, Bool.or_eq_false_iff, beq_eq_false_iff_ne] at unread
  have joined : host.toLower name ≠ "strcat" := by
    intro named
    simp [named, printsLists] at unprinted
  simp only [evalNode, evaluateFunctionCall, unread, other, joined, if_false, evaluated.length_eq]
  split
  · cases evaluated with
    | nil => exact .ok .error
    | cons arg rest =>
      cases rest with
      | nil => exact arg.bind fun _ _ same => evalText_reads more agree same
      | cons _ _ => exact .ok .error
  · split
    · exact .ok .error
    · exact (Refines.traverse evaluated fun _ _ matched => matched).bind fun _ _ values =>
        callBuiltin_reads more agree prints unprinted values

/-! ## Whole expressions -/

theorem flattenAll_length : (flattenAll host args).length = args.length := by
  induction args with
  | nil => rfl
  | cons head rest ih => simp [flattenAll, ih]

theorem flattenLogical_matched (logical : op = .and ∨ op = .or)
    (exact : foldsExactly host grade (.binary op left right) = true)
    (first : ∀ grade, foldsExactly host grade left = true → Matched host world grade left (flattenExpr host left))
    (second : ∀ grade, foldsExactly host grade right = true → Matched host world grade right (flattenExpr host right)) :
    Matched host world grade (.binary op left right) (flattenExpr host (.binary op left right)) := by
  obtain ⟨exactLeft, rest⟩ := (foldsExactly_logical logical).mp exact
  have constantly := constant_exact .logic left exactLeft
  have settles : ∀ value, flattenExpr host left = .boolean value → settled host left = some value :=
    fun _ => (settled_iff constantly).mpr
  have unsettled (apart : ∀ value, flattenExpr host left ≠ .boolean value) : settled host left = none := by
    refine Option.eq_none_iff_forall_ne_some.mpr fun value settles => ?_
    exact apart value ((settled_iff constantly).mp settles)
  rw [flattenExpr]
  refine foldLogical_matched logical (first .logic exactLeft) (fun undecided => ?_) (fun neutral => ?_)
    (fun apart neutral => ?_) (fun apart decided => ?_)
  · rcases rest with decided | ⟨exactRight, _⟩
    · exact absurd ((settled_iff constantly).mp decided) undecided
    · exact second .logic exactRight
  · have neutral := settles _ neutral
    rcases rest with decided | ⟨exactRight, standing | rfl | ⟨logicalRight, exactRight⟩, _⟩
    · simp [neutral] at decided
    · simp [neutral] at standing
    · exact standsFor_logic (second .logic exactRight)
    · exact standsFor_logical logicalRight (second .read exactRight)
  all_goals
    have unsettled := unsettled apart
    rcases rest with decided | ⟨exactRight, _, settled | ⟨standing, seen⟩⟩
    · simp [unsettled] at decided
    · exact absurd unsettled settled
    have settles := (settled_iff (constant_exact .logic right exactRight)).mpr ‹_›
  · rcases standing with differs | rfl | ⟨logicalLeft, exactLeft⟩
    · exact absurd settles differs
    · exact standsFor_logic (first .logic exactLeft)
    · exact standsFor_logical logicalLeft (first .read exactLeft)
  · have seen := seen.resolve_left (not_not_intro settles)
    rw [constantly] at seen
    cases kept : keepLiteral (flattenExpr host left) with
    | none => simp [kept] at seen
    | some literal =>
      obtain ⟨rfl, isLiteral⟩ := literal_of_keeps kept
      exact ⟨isLiteral, by simpa [kept, noError] using seen⟩

theorem flattenSubscript_matched (container : Matched host world grade.ofContainer first folded)
    (index : Matched host world .read second folded') :
    Matched host world grade (.subscript first second) (.subscript folded folded') := by
  have read (container : Matched host world .read first folded) :
      Matched host world .read (.subscript first second) (.subscript folded folded') :=
    subscript_matched (fun _ _ _ _ more agree => (container _ _ _ _ more agree).mono fun _ _ => Reads.lists) index
  cases grade with
  | logic => exact fun _ _ _ _ more agree => (read container _ _ _ _ more agree).mono fun _ _ => Keeps.logic
  | read => exact read container
  | elements => exact Matched.ofValue (subscript_matched container index)
  | value => exact subscript_matched container index

mutual

/-- Folding keeps what it is checked to keep, wherever the expression is evaluated. -/
theorem flattenExpr_matched {host : Host} (prints : PrintsOnlyThere host) (world : World) :
    ∀ (grade : Grade) (expr : Expr),
    foldsExactly host grade expr = true → Matched host world grade expr (flattenExpr host expr)
  | _, .nil, _ | _, .integer _, _ | _, .real _, _ | _, .string _, _ | _, .boolean _, _
  | _, .undefined, _ | _, .error, _ | _, .record _, _ => matched_self
  | grade, .paren inner, exact => foldParen_matched (flattenExpr_matched prints world grade inner exact)
  | _, .reference name scope, exact => by
    simp only [foldsExactly, Bool.not_eq_true'] at exact
    rw [flattenExpr, exact]
    exact matched_self
  | grade, .binary op left right, exact => by
    by_cases logical : op = .and ∨ op = .or
    · exact flattenLogical_matched logical exact (fun grade => flattenExpr_matched prints world grade left)
        (fun grade => flattenExpr_matched prints world grade right)
    · simp only [foldsExactly, if_neg logical, Bool.and_eq_true] at exact
      exact (foldBinary_matched logical (flattenExpr_matched prints world .read left exact.1)
        (flattenExpr_matched prints world .read right exact.2)).ofValue
  | grade, .unary op operand, exact =>
    (foldUnary_matched (flattenExpr_matched prints world _ operand exact)).ofValue
  | grade, .conditional condition whenTrue whenFalse, exact => by
    simp only [foldsExactly, Bool.and_eq_true, Bool.or_eq_true, beq_iff_eq] at exact
    obtain ⟨⟨first, second⟩, third⟩ := exact
    have constantly := constant_exact .logic condition first
    refine foldConditional_matched (flattenExpr_matched prints world .logic condition first) (fun apart => ?_)
      fun apart => ?_
    · refine flattenExpr_matched prints world grade whenTrue (second.resolve_left ?_)
      exact mt (settled_iff constantly).mp apart
    · refine flattenExpr_matched prints world grade whenFalse (third.resolve_left ?_)
      exact mt (settled_iff constantly).mp apart
  | grade, .elvis left right, exact => by
    simp only [foldsExactly, Bool.and_eq_true] at exact
    obtain ⟨⟨literal, first⟩, second⟩ := exact
    rw [constant_exact .value left first, keepLiteral_isSome] at literal
    exact foldElvis_matched literal (flattenExpr_matched prints world .value left first)
      (flattenExpr_matched prints world grade right second)
  | .logic, .list elements, _ => matched_of_rebuilt (by simp) (by simp [flattenExpr]) fun _ _ => .ok rfl
  | .read, .list elements, exact => fun _ _ _ _ more agree =>
    (list_lists (flattenAll_matched prints world .read elements exact) _ _ _ _ more agree).mono fun _ _ => Lists.reads
  | .elements, .list elements, exact => list_lists (flattenAll_matched prints world .value elements exact)
  | .value, .list elements, exact => by
    rw [flattenExpr, flattenAll_inert elements exact]
    exact matched_self
  | grade, .call name args, exact => by
    unfold foldsExactly at exact
    simp only [Bool.and_eq_true, Bool.or_eq_true, Bool.not_eq_true', beq_iff_eq] at exact
    obtain ⟨folds, exact⟩ := exact
    by_cases named : host.toLower name = "ifthenelse"
    · rw [if_pos named] at exact
      exact flattenBranches_matched prints world named grade args exact
    · rw [if_neg named] at exact
      have kept : flattenExpr host (.call name args) = .call name (flattenAll host args) := by
        simp [flattenExpr, foldCall, folds.resolve_right named]
      rw [kept]
      split at exact
      · rw [flattenAll_inert args exact]
        exact matched_self
      next unread =>
        have each := flattenAll_matched prints world _ args exact
        cases printed : printsLists (host.toLower name) with
        | true =>
          rw [printed] at each
          exact (call_matched (fun reads => absurd reads unread) each).ofValue
        | false =>
          rw [printed] at each
          exact (call_reads prints printed (by simpa using unread) named each).ofValue
  | _, .select record attr, exact => (select_matched (flattenExpr_matched prints world .read record exact)).ofValue
  | grade, .subscript container index, exact => by
    simp only [foldsExactly, Bool.and_eq_true] at exact
    have container' := flattenExpr_matched prints world _ container exact.1
    have index' := flattenExpr_matched prints world .read index exact.2
    exact flattenSubscript_matched container' index'

theorem flattenAll_matched {host : Host} (prints : PrintsOnlyThere host) (world : World) :
    ∀ (grade : Grade) (args : List Expr),
    foldsExactlyAll host grade args = true → Forall₂ (Matched host world grade) args (flattenAll host args)
  | _, [], _ => .nil
  | grade, head :: rest, exact => by
    simp only [foldsExactlyAll, Bool.and_eq_true] at exact
    exact .cons (flattenExpr_matched prints world grade head exact.1)
      (flattenAll_matched prints world grade rest exact.2)

theorem flattenBranches_matched {host : Host} (prints : PrintsOnlyThere host) (world : World)
    (named : host.toLower name = "ifthenelse") :
    ∀ (grade : Grade) (args : List Expr), foldsExactlyBranches host grade args = true →
      Matched host world grade (.call name args) (foldCall host name (flattenAll host args))
  | grade, [condition, whenTrue, whenFalse], exact => by
    simp only [foldsExactlyBranches, Bool.and_eq_true, Bool.or_eq_true, beq_iff_eq] at exact
    obtain ⟨⟨first, second⟩, third⟩ := exact
    have constantly := constant_exact .logic condition first
    refine foldIfThenElse_matched named (flattenExpr_matched prints world .logic condition first) (fun apart => ?_)
      fun apart => ?_
    · refine flattenExpr_matched prints world grade whenTrue (second.resolve_left ?_)
      exact mt (settled_iff constantly).mp apart
    · refine flattenExpr_matched prints world grade whenFalse (third.resolve_left ?_)
      exact mt (settled_iff constantly).mp apart
  | _, [], _ | _, [_], _ | _, [_, _], _ | _, _ :: _ :: _ :: _ :: _, _ =>
    ifThenElse_arity named (by simp) flattenAll_length

end

/-! ## Truth alone -/

/-- Wherever an expression comes out true, so does the other, from no deeper and with no
less fuel. -/
def Implied (host : Host) (world : World) (expr folded : Expr) : Prop :=
  ∀ fuel fuel' ev ev', fuel ≤ fuel' → EvaluatorsAgree (observed host world) ev ev' →
    Holds (evaluate host world .observed fuel ev expr) →
    Holds (evaluate host world .observed fuel' ev' folded)

theorem Matched.implied (matched : Matched host world grade expr folded) : Implied host world expr folded := by
  intro fuel fuel' ev ev' more agree ⟨value, answered, view⟩
  obtain ⟨value', answered', same⟩ := (matched _ _ _ _ more agree).ok_inv answered
  have sameView : logicalView value = logicalView value' := same.logic
  exact ⟨value', answered', sameView ▸ view⟩

theorem implied_of_node (present : expr ≠ .nil)
    (node : ∀ {fuel fuel' ev ev'}, fuel ≤ fuel' → EvaluatorsAgree (observed host world) ev ev' →
      ev'.depth < maxEvalDepth →
      Holds (evalNode host world (evaluate host world .observed fuel) (deeper ev) expr) →
      Holds (evaluate host world .observed (fuel' + 1) ev' folded)) : Implied host world expr folded := by
  intro fuel fuel' ev ev' more agree holds
  cases fuel with
  | zero =>
    obtain ⟨_, answered, _⟩ := holds
    cases answered
  | succ fuel =>
    obtain ⟨fuel', rfl⟩ : ∃ rest, fuel' = rest + 1 := ⟨fuel' - 1, by omega⟩
    rw [evaluate_succ present] at holds
    split at holds
    · obtain ⟨_, answered, _⟩ := holds
      cases answered
    · have shallower := depth_le agree
      exact node (by omega) agree (by omega) holds

/-- An operand that comes out true still does once it is folded, at its own level or in the
place of the node. -/
theorem Implied.operand (implied : Implied host world expr folded) (more : fuel ≤ fuel')
    (agree : EvaluatorsAgree (observed host world) ev ev')
    (holds : Holds (evaluate host world .observed fuel (deeper ev) expr)) :
    Holds (evaluate host world .observed fuel' (deeper ev') folded) ∧
      Holds (evaluate host world .observed (fuel' + 1) ev' folded) :=
  ⟨implied _ _ _ _ more (deeper_agree agree) holds,
    implied _ _ _ _ (by omega) (lifted_agree agree) holds⟩

theorem holds_literal (literal : isLiteralExpr expr = true) (below : ev.depth < maxEvalDepth) :
    Holds (evaluate host world .observed (fuel + 1) ev expr) ↔ logicalView (exprToValue expr) = .isTrue := by
  rw [evaluate_literal literal below, holds_ok]

theorem holds_rebuilt (present : expr ≠ .nil) (below : ev.depth < maxEvalDepth) :
    Holds (evaluate host world .observed (fuel + 1) ev expr) ↔
      Holds (evalNode host world (evaluate host world .observed fuel) (deeper ev) expr) := by
  rw [evaluate_succ present, if_neg (by omega)]
  rfl

theorem foldParen_implied (inner : Implied host world expr folded) :
    Implied host world (.paren expr) (foldParen folded) := by
  refine implied_of_node (by simp) fun more agree below holds => ?_
  have both := inner.operand more agree holds
  unfold foldParen
  split
  all_goals first | exact both.2 | skip
  all_goals exact (holds_rebuilt (by simp) below).mpr both.1

theorem foldAnd_implied (left : Implied host world first folded) (right : Implied host world second folded') :
    Implied host world (.binary .and first second) (foldBinary .and folded folded') := by
  refine implied_of_node (by simp) fun more agree below holds => ?_
  rw [evalNode_logical (.inl rfl), holds_and] at holds
  have heldLeft := left.operand more agree holds.1
  have heldRight := right.operand more agree holds.2
  rcases foldBinary_cases .and folded folded' with short | ⟨_, same | ⟨literal, literal', same⟩⟩
  · obtain ⟨_, ⟨_, same⟩ | ⟨_, same⟩ | ⟨_, ⟨_, same⟩ | ⟨_, same⟩⟩⟩ := foldShortCircuit_inv short <;> rw [same]
    · exact heldLeft.2
    · exact heldRight.2
    · exact heldRight.2
    · exact heldLeft.2
  · rw [same, holds_rebuilt (by simp) below, evalNode_logical (.inl rfl), holds_and]
    exact ⟨heldLeft.1, heldRight.1⟩
  · rw [holds_literal literal below] at heldLeft
    rw [holds_literal literal' below] at heldRight
    rw [same, holds_literal (valueToExpr_literal _) below,
      exprToValue_valueToExpr (applyBinaryValues_plain _ _ _)]
    simp [applyBinaryValues, evaluateAnd, heldLeft.2, heldRight.2]

theorem foldOr_implied (left : Matched host world .logic first folded) (right : Implied host world second folded') :
    Implied host world (.binary .or first second) (foldBinary .or folded folded') := by
  refine implied_of_node (by simp) fun {_ fuel' _ ev'} more agree below holds => ?_
  rw [evalNode_logical (.inr rfl), holds_or] at holds
  have notFalse : ∀ {run}, run = Expr.boolean false → ¬ Holds (evaluate host world .observed (fuel' + 1) ev' run) := by
    rintro _ rfl held
    cases (holds_literal rfl below).mp held
  rcases foldBinary_cases .or folded folded' with short | ⟨_, same | ⟨literal, literal', same⟩⟩
  · obtain ⟨_, ⟨isTrue, same⟩ | ⟨isFalse, same⟩ | ⟨_, ⟨isTrue, same⟩ | ⟨isFalse, same⟩⟩⟩ :=
      foldShortCircuit_inv short <;>
      rw [same]
    · rw [isTrue, holds_literal rfl below]
      rfl
    · rcases holds with held | ⟨_, _, _, held⟩
      · exact absurd (left.implied.operand more agree held).2 (notFalse isFalse)
      · exact (right.operand more agree held).2
    · rw [isTrue, holds_literal rfl below]
      rfl
    · rcases holds with held | ⟨_, _, _, held⟩
      · exact (left.implied.operand more agree held).2
      · exact absurd (right.operand more agree held).2 (notFalse isFalse)
  · rw [same, holds_rebuilt (by simp) below, evalNode_logical (.inr rfl), holds_or]
    rcases holds with held | ⟨value, answered, view, held⟩
    · exact .inl (left.implied.operand more agree held).1
    · have evaluated := left _ _ _ _ more (deeper_agree agree)
      obtain ⟨value', answered', sameView⟩ := evaluated.ok_inv answered
      exact .inr ⟨value', answered', sameView ▸ view, (right.operand more agree held).1⟩
  · rw [same, holds_literal (valueToExpr_literal _) below,
      exprToValue_valueToExpr (applyBinaryValues_plain _ _ _)]
    rcases holds with held | ⟨value, answered, view, held⟩
    · have view := (holds_literal literal below).mp (left.implied.operand more agree held).2
      simp [applyBinaryValues, evaluateOr, view]
    · have view' := (holds_literal literal' below).mp (right.operand more agree held).2
      obtain ⟨_, sameValue, sameView⟩ := (left.literal literal _ agree below).ok_inv answered
      cases sameValue
      rw [sameView] at view
      rcases view with view | view <;> simp [applyBinaryValues, evaluateOr, view, view']

theorem foldConditional_implied (condition : Matched host world .logic first folded)
    (whenTrue : folded ≠ .boolean false → Implied host world second folded')
    (whenFalse : folded ≠ .boolean true → Implied host world third folded'') :
    Implied host world (.conditional first second third) (foldConditional folded folded' folded'') := by
  refine implied_of_node (by simp) fun more agree below holds => ?_
  have holds := holds_conditional.mp holds
  unfold foldConditional
  split
  next decided reads =>
    cases literal_of_boolean reads
    rcases holds with ⟨⟨value, answered, view⟩, held⟩ | ⟨value, answered, view, held⟩
    all_goals
      obtain ⟨_, sameValue, sameView⟩ := (condition.literal rfl _ agree below).ok_inv answered
      cases sameValue
      have sameView : logicalView value = logicalView (.boolean decided) := sameView
      rw [view] at sameView
    · cases decided with
      | true => exact ((whenTrue nofun).operand more agree held).2
      | false => cases sameView
    · cases decided with
      | true => cases sameView
      | false => exact ((whenFalse nofun).operand more agree held).2
  next unsettled =>
    have apart : ∀ value, folded ≠ .boolean value := by
      rintro value rfl
      exact unsettled value rfl
    rw [holds_rebuilt (by simp) below]
    refine holds_conditional.mpr ?_
    rcases holds with ⟨held, held'⟩ | ⟨value, answered, view, held⟩
    · exact .inl ⟨(condition.implied.operand more agree held).1, ((whenTrue (apart _)).operand more agree held').1⟩
    · have evaluated := condition _ _ _ _ more (deeper_agree agree)
      obtain ⟨value', answered', sameView⟩ := evaluated.ok_inv answered
      exact .inr ⟨value', answered', sameView ▸ view, ((whenFalse (apart _)).operand more agree held).1⟩

theorem foldElvis_implied (literal : isLiteralExpr folded = true) (left : Matched host world .value first folded)
    (right : Implied host world second folded') :
    Implied host world (.elvis first second) (foldElvis folded folded') := by
  refine implied_of_node (by simp) fun more agree below holds => ?_
  have holds := holds_elvis.mp holds
  unfold foldElvis
  split
  · rcases holds with held | ⟨_, held⟩
    · have view := (holds_literal literal below).mp (left.implied.operand more agree held).2
      cases value : exprToValue folded <;> simp_all [Value.isUndefined]
    · exact (right.operand more agree held).2
  next present =>
    rcases holds with held | ⟨answered, held⟩
    · rw [holds_rebuilt (by simp) below]
      exact holds_elvis.mpr (.inl (left.implied.operand more agree held).1)
    · obtain ⟨_, sameValue, same⟩ := (left.literal literal _ agree below).ok_inv answered
      cases sameValue
      exact absurd (ValuesAgree.isUndefined same).symm present

/-- Folding keeps an expression true wherever it is true, if it is checked to. -/
theorem flattenExpr_implied {host : Host} (prints : PrintsOnlyThere host) (world : World) : ∀ expr : Expr,
    keepsTruth host expr = true → Implied host world expr (flattenExpr host expr)
  | .paren inner, keeps => by
    rcases Bool.or_eq_true_iff.mp keeps with exact | keeps
    · exact (flattenExpr_matched prints world .logic _ exact).implied
    · exact foldParen_implied (flattenExpr_implied prints world inner keeps)
  | .binary op left right, keeps => by
    by_cases exact : foldsExactly host .logic (.binary op left right) = true
    · exact (flattenExpr_matched prints world .logic _ exact).implied
    · cases op with
      | and =>
        simp only [keepsTruth, exact, Bool.false_or, Bool.and_eq_true] at keeps
        exact foldAnd_implied (flattenExpr_implied prints world left keeps.1)
          (flattenExpr_implied prints world right keeps.2)
      | or =>
        simp only [keepsTruth, exact, Bool.false_or, Bool.and_eq_true] at keeps
        exact foldOr_implied (flattenExpr_matched prints world .logic left keeps.1)
          (flattenExpr_implied prints world right keeps.2)
      | _ => simp [keepsTruth, exact] at keeps
  | .conditional condition whenTrue whenFalse, keeps => by
    rcases Bool.or_eq_true_iff.mp keeps with exact | keeps
    · exact (flattenExpr_matched prints world .logic _ exact).implied
    · simp only [Bool.and_eq_true, Bool.or_eq_true, beq_iff_eq] at keeps
      obtain ⟨⟨first, second⟩, third⟩ := keeps
      have constantly := constant_exact .logic condition first
      refine foldConditional_implied (flattenExpr_matched prints world .logic condition first) (fun apart => ?_)
        fun apart => ?_
      · refine flattenExpr_implied prints world whenTrue (second.resolve_left ?_)
        exact mt (settled_iff constantly).mp apart
      · refine flattenExpr_implied prints world whenFalse (third.resolve_left ?_)
        exact mt (settled_iff constantly).mp apart
  | .elvis left right, keeps => by
    rcases Bool.or_eq_true_iff.mp keeps with exact | keeps
    · exact (flattenExpr_matched prints world .logic _ exact).implied
    · simp only [Bool.and_eq_true] at keeps
      obtain ⟨⟨literal, first⟩, second⟩ := keeps
      rw [constant_exact .value left first, keepLiteral_isSome] at literal
      exact foldElvis_implied literal (flattenExpr_matched prints world .value left first)
        (flattenExpr_implied prints world right second)
  | .nil, keeps | .integer _, keeps | .real _, keeps | .string _, keeps | .boolean _, keeps | .undefined, keeps
  | .error, keeps | .reference _ _, keeps | .unary _ _, keeps | .list _, keeps | .record _, keeps | .call _ _, keeps
  | .select _ _, keeps | .subscript _ _, keeps => by
    have exact := (Bool.or_eq_true_iff.mp keeps).resolve_right nofun
    exact (flattenExpr_matched prints world .logic _ exact).implied

end
end Classad.ConstantFoldProofs
