import Classad.ConstantFoldProofs
import Classad.ProbeComparisons
import Classad.ProbeFolding
import Classad.VmCompileProofs
import Classad.VmSimulation

/-! A probe never excludes a matching ad, as long as folding keeps the query true, no
comparison under a `!` meets a NaN, and names that fold together are one attribute. -/
namespace Classad.QueryProbeProofs
open Syntax Operators OperatorProofs PartialRun TreeWalk TreeWalkSimulation LogicalTruth List
open VmCompile VmCompileProofs VmSimulation ConstantFold ConstantFoldProofs ProbeComparisons ProbeFolding QueryProbe

/-! ## Values on an ad -/

section
variable {host : Host} {world : World} {id : AdId} {attributes : Attributes} {inner : Expr}

/-- An ad on its own, without parent or target. -/
abbrev adScope (id : AdId) (attributes : Attributes) : Scope := [⟨id, attributes, none⟩]

/-- Some observed evaluation on the ad answers with the value, from whatever depth. -/
def ValueAt (host : Host) (world : World) (id : AdId) (attributes : Attributes) (expr : Expr)
    (value : Value) : Prop :=
  ∃ fuel depth, evaluate host world .observed fuel ⟨adScope id attributes, depth, [], none⟩ expr =
    .ok value

def HoldsAt (host : Host) (world : World) (id : AdId) (attributes : Attributes) (expr : Expr) : Prop :=
  ∃ value, ValueAt host world id attributes expr value ∧ logicalView value = .isTrue

theorem valueAt_node (present : expr ≠ .nil) (answered : ValueAt host world id attributes expr value) :
    ∃ fuel depth, evalNode host world (evaluate host world .observed fuel)
      ⟨adScope id attributes, depth, [], none⟩ expr = .ok value := by
  obtain ⟨fuel, depth, answered⟩ := answered
  cases fuel with
  | zero => cases answered
  | succ fuel =>
    rw [evaluate_succ present] at answered
    split at answered
    · cases answered
    · exact ⟨fuel, depth + 1, answered⟩

theorem valueAt_unparen (answered : ValueAt host world id attributes expr value) :
    ValueAt host world id attributes (unparen expr) value := by
  unfold unparen
  fun_induction unwrapParens expr with
  | case1 => exact answered
  | case2 inner _ ih =>
    obtain ⟨fuel, depth, answered⟩ := valueAt_node (by simp) answered
    exact ih ⟨fuel, depth, answered⟩
  | case3 => exact answered

theorem valueAt_binary (strict : ¬(op = .and ∨ op = .or))
    (answered : ValueAt host world id attributes (.binary op left right) value) :
    ∃ leftValue rightValue, ValueAt host world id attributes left leftValue ∧
      ValueAt host world id attributes right rightValue ∧ value = applyBinaryValues op leftValue rightValue := by
  obtain ⟨fuel, depth, answered⟩ := valueAt_node (by simp) answered
  simp only [evalNode, evaluateBinaryOp, if_neg strict] at answered
  cases first : evaluate host world .observed fuel ⟨adScope id attributes, depth, [], none⟩ left with
  | ok leftValue =>
    cases second : evaluate host world .observed fuel ⟨adScope id attributes, depth, [], none⟩ right with
    | ok rightValue =>
      rw [first, Run.ok_bind, second] at answered
      exact ⟨leftValue, rightValue, ⟨fuel, depth, first⟩, ⟨fuel, depth, second⟩,
        (Run.ok.inj answered).symm⟩
    | panic => simp [first, second] at answered
    | stuck => simp [first, second] at answered
  | panic => simp [first] at answered
  | stuck => simp [first] at answered

section
variable (answered : ValueAt host world id attributes expr value)
include answered

theorem valueAt_literal
    (literal : isLiteralExpr expr = true) : value = exprToValue expr := by
  have present : expr ≠ .nil := by
    rintro rfl
    cases literal
  obtain ⟨fuel, depth, answered⟩ := valueAt_node present answered
  cases expr <;> first | exact (Run.ok.inj answered).symm | cases literal

theorem literalVal_value
    (literal : literalVal expr = some val) : value = val := by
  have unwrapped := valueAt_unparen answered
  unfold literalVal at literal
  split at literal
  all_goals cases literal
  all_goals
    rename_i shape
    rw [shape] at unwrapped
    exact valueAt_literal unwrapped rfl

theorem isUndefinedLit_value
    (literal : isUndefinedLit expr = true) : value = .undefined := by
  have unwrapped := valueAt_unparen answered
  unfold isUndefinedLit at literal
  split at literal
  next shape =>
    rw [shape] at unwrapped
    exact valueAt_literal unwrapped rfl
  · cases literal

end

/-- On an ad by itself `MY.x` and `x` are one attribute, and so are two spellings of a name. -/
theorem reference_congr (same : host.toLower name = host.toLower name') (own : scope = .none ∨ scope = .my)
    (guard : DepthGuard) (fuel depth : Nat) :
    evaluate host world guard fuel ⟨adScope id attributes, depth, [], none⟩ (.reference name scope) =
      evaluate host world guard fuel ⟨adScope id attributes, depth, [], none⟩ (.reference name' .none) := by
  cases fuel with
  | zero => rfl
  | succ fuel =>
    rw [evaluate_succ (by simp), evaluate_succ (by simp)]
    have clock : isCurrentTimeRef host name scope = isCurrentTimeRef host name' .none := by
      rcases own with rfl | rfl <;> simp [isCurrentTimeRef, normalizeName, same]
    simp only [evalNode, evaluateAttributeReference, clock]
    rcases own with rfl | rfl
    · simp [resolveAttributeReference, normalizeName, same]
    · simp only [resolveAttributeReference, normalizeName, same, evalAttrIn, lookupInScope, targetOf]
      cases lookupNorm host attributes (host.toLower name') <;> rfl

/-- The evaluated attribute passes the probe. -/
def SatisfiedBy (host : Host) (world : World) (scope : Scope) (probe : Probe) : Prop :=
  ∃ value, Evaluates host world scope (.reference probe.attr .none) value ∧
    probe.accepts value = true

theorem accepts_erase (probe : Probe) (value : Value) : probe.accepts (erase value) = probe.accepts value := by
  have same : ∀ op val, applyBinaryValues op (erase value) val = applyBinaryValues op value val := by
    intro op val
    have idempotent : erase (erase value) = erase value := by cases value <;> rfl
    rw [← applyBinaryValues_erase op (erase value) val, idempotent, applyBinaryValues_erase]
  unfold Probe.accepts
  simp [same, isUndefined_erase, logicalView_erase]

/-- The value a self-reference has somewhere in the query is the value of the attribute. -/
theorem attribute_value (answered : ValueAt host world id attributes expr value)
    (refers : indexableRef expr = some name) :
    ∃ own, Evaluates host world (adScope id attributes) (.reference name .none) own ∧ erase own = erase value := by
  have unwrapped := valueAt_unparen answered
  have shape : ∃ scope, (scope = .none ∨ scope = .my) ∧ unparen expr = .reference name scope := by
    unfold indexableRef at refers
    split at refers
    next found =>
      cases refers
      exact ⟨.none, .inl rfl, found⟩
    next found =>
      cases refers
      exact ⟨.my, .inr rfl, found⟩
    · cases refers
  obtain ⟨scope, own, shape⟩ := shape
  rw [shape] at unwrapped
  obtain ⟨fuel, depth, answered⟩ := unwrapped
  rw [reference_congr rfl own] at answered
  obtain ⟨value', answered', same⟩ := (evaluate_shallower le_rfl (Nat.zero_le depth)
    (adScope id attributes) [] (.reference name .none)).ok_inv answered
  refine ⟨value', ⟨fuel, ?_⟩, same.erase.symm⟩
  rw [newEvaluator, answered']
  rfl

theorem satisfied_of_value (answered : ValueAt host world id attributes expr value)
    (refers : indexableRef expr = some probe.attr) (accepted : probe.accepts value = true) :
    SatisfiedBy host world (adScope id attributes) probe := by
  obtain ⟨own, evaluates, same⟩ := attribute_value answered refers
  refine ⟨own, evaluates, ?_⟩
  rw [← accepts_erase, same, accepts_erase]
  exact accepted

/-- A comparison that holds satisfies the probe made of it. -/
theorem cmpProbe_sound (probed : cmpProbe op left right = some probe)
    (first : ValueAt host world id attributes left leftValue)
    (second : ValueAt host world id attributes right rightValue)
    (holds : applyBinaryValues op.toBinary leftValue rightValue = .boolean true) :
    SatisfiedBy host world (adScope id attributes) probe := by
  unfold cmpProbe at probed
  split at probed
  next name val refers literal =>
    cases probed
    rw [literalVal_value second literal] at holds
    exact satisfied_of_value first refers (accepts_compare.mpr holds)
  · split at probed
    next name val refers literal =>
      cases probed
      rw [← operandFlip_apply, literalVal_value first literal] at holds
      exact satisfied_of_value second refers (accepts_compare.mpr holds)
    · cases probed

/-- `attr is undefined`, in either order, tells whether the attribute is undefined. -/
theorem refVsUndefined_value (found : refVsUndefined left right = some name)
    (first : ValueAt host world id attributes left leftValue)
    (second : ValueAt host world id attributes right rightValue) :
    ∃ expr value, ValueAt host world id attributes expr value ∧ indexableRef expr = some name ∧
      evaluateIs leftValue rightValue = .boolean value.isUndefined := by
  have isUndefined : ∀ value, evaluateIs value .undefined = .boolean value.isUndefined := by
    intro value
    cases value <;> rfl
  unfold refVsUndefined at found
  split at found
  next literal =>
    refine ⟨left, leftValue, first, found, ?_⟩
    rw [isUndefinedLit_value second literal, isUndefined]
  · split at found
    next literal =>
      refine ⟨right, rightValue, second, found, ?_⟩
      rw [isUndefinedLit_value first literal, evaluateIs_comm, isUndefined]
    · cases found

theorem valueAt_isUndefined (named : host.toLower name = "isundefined")
    (answered : ValueAt host world id attributes (.call name [arg]) value) :
    ∃ own, ValueAt host world id attributes arg own ∧ value = .boolean own.isUndefined := by
  obtain ⟨fuel, depth, answered⟩ := valueAt_node (by simp) answered
  have arity : acceptsArity "isundefined" 1 = true := by decide
  simp only [evalNode, evaluateFunctionCall, named, length_singleton, arity, Run.traverse] at answered
  cases first : evaluate host world .observed fuel ⟨adScope id attributes, depth, [], none⟩ arg with
  | ok own =>
    refine ⟨own, ⟨fuel, depth, first⟩, ?_⟩
    have seen : (view own).isUndefined = own.isUndefined := by cases own <;> rfl
    simp [first, callBuiltin, views, typeBuiltin, Scalar.toValue, seen] at answered
    exact answered.symm
  | panic => simp [first] at answered
  | stuck => simp [first] at answered

/-! ## Leaves -/

/-- No evaluation of the expression on the ad gives a number that is not one. -/
def NeverNaN (host : Host) (world : World) (scope : Scope) (expr : Expr) : Prop :=
  ∀ value, Evaluates host world scope expr value → readsNaN value = false

theorem NeverNaN.valueAt (never : NeverNaN host world (adScope id attributes) expr)
    (answered : ValueAt host world id attributes expr value) : readsNaN value = false := by
  obtain ⟨fuel, depth, answered⟩ := answered
  obtain ⟨value', answered', same⟩ := (evaluate_shallower le_rfl (Nat.zero_le depth)
    (adScope id attributes) [] expr).ok_inv answered
  have reads := never value' ⟨fuel, by rw [newEvaluator, answered']; rfl⟩
  unfold readsNaN at reads ⊢
  rw [← numericOperand_erase, same.erase, numericOperand_erase]
  exact reads

/-- What a function that folds to `isUndefined` is called. -/
def FunctionsFold (host : Host) (names : List Symbol) : Prop :=
  ∀ name, Symbol.func name ∈ names → host.equalFold name "isUndefined" = true → host.toLower name = "isundefined"

/-- No two names of the two sides are taken for one although they are two attributes. Probing compares
them with `EqualFold`, and takes an empty name for none at all. -/
def NamesApart (host : Host) (left right : Expr) : Prop :=
  ∀ name name', Symbol.attr name ∈ symbols left → Symbol.attr name' ∈ symbols right →
    (host.equalFold name name' = true ∨ name = "" ∨ name' = "") → host.toLower name = host.toLower name'

/-- What probes rely on at an operator: an ordering under a `!` has no operand that is NaN, and the names
of a `||` are told apart. -/
structure OperatorSound (host : Host) (number : Expr → Prop) (negated : Bool) (op : BinaryOperator)
    (left right : Expr) : Prop where
  orderings : negated = true → isOrdering op = true → number left ∧ number right
  names : op = .or → NamesApart host left right

/-- What splitting a query along `&&` and `||` hands down to its leaves. -/
structure TrueLeaf (host : Host) (world : World) (id : AdId) (attributes : Attributes)
    (names : List Symbol) (expr : Expr) : Prop where
  holds : HoldsAt host world id attributes expr
  within : symbols expr ⊆ names
  surfaced : Surfaced (OperatorSound host (NeverNaN host world (adScope id attributes))) false expr

theorem undefinedFuncProbe_sound (fold : FunctionsFold host names) (within : Symbol.func name ∈ names)
    (probed : undefinedFuncProbe host name args negated = some probe)
    (answered : ValueAt host world id attributes (.call name args) value)
    (view : logicalView value = if negated then .isFalse else .isTrue) :
    SatisfiedBy host world (adScope id attributes) probe := by
  unfold undefinedFuncProbe at probed
  split at probed
  next folds =>
    split at probed
    next arg =>
      obtain ⟨attr, refers, rfl⟩ := Option.map_eq_some_iff.mp probed
      obtain ⟨own, ownValue, rfl⟩ := valueAt_isUndefined (fold name within folds) answered
      refine satisfied_of_value ownValue refers ?_
      cases negated <;> cases undefined : own.isUndefined <;> simp_all [Probe.accepts]
    · cases probed
  · cases probed

theorem negFlip_strict (flips : negFlip op = some flipped) : ¬(op = .and ∨ op = .or) := by
  rintro (rfl | rfl) <;> cases flips

theorem negFlip_compares (flips : negFlip op = some flipped) : ∃ own : CompareOp, own.toBinary = op := by
  cases op with
  | equal => exact ⟨.equal, rfl⟩
  | notEqual => exact ⟨.notEqual, rfl⟩
  | less => exact ⟨.less, rfl⟩
  | lessEqual => exact ⟨.lessEqual, rfl⟩
  | greater => exact ⟨.greater, rfl⟩
  | greaterEqual => exact ⟨.greaterEqual, rfl⟩
  | _ => cases flips

theorem evaluateIsnt_view (left right : Value) (state : Bool) (answered : evaluateIs left right = .boolean state) :
    evaluateIsnt left right = .boolean !state := by
  simp [evaluateIsnt, answered]

/-- A comparison with `undefined` by identity, or its negation, tells whether the attribute is there. -/
theorem undefinedProbe_sound (negated : Bool) (found : refVsUndefined left right = some attr)
    (answered : ValueAt host world id attributes (.binary op left right) value)
    (view : logicalView value = if negated then .isFalse else .isTrue)
    (asked : op = .is ∧ undefinedOp = (if negated then .present else .absent) ∨ op = .isnt ∧
      undefinedOp = if negated then .absent else .present) :
    SatisfiedBy host world (adScope id attributes) ⟨attr, undefinedOp, []⟩ := by
  have strict : ¬(op = .and ∨ op = .or) := by rcases asked with ⟨rfl, -⟩ | ⟨rfl, -⟩ <;> simp
  obtain ⟨leftValue, rightValue, first, second, rfl⟩ := valueAt_binary strict answered
  obtain ⟨expr, own, ownValue, refers, compared⟩ := refVsUndefined_value found first second
  refine satisfied_of_value ownValue refers ?_
  have differs := evaluateIsnt_view _ _ _ compared
  rcases asked with ⟨rfl, rfl⟩ | ⟨rfl, rfl⟩
  all_goals
    simp only [applyBinaryValues, compared, differs] at view
    cases negated <;> cases undefined : own.isUndefined <;> simp_all [Probe.accepts]

/-- The operand of a `!` that came out false. -/
theorem negatedProbe_sound (fold : FunctionsFold host names) (within : symbols inner ⊆ names)
    (surfaced : Surfaced (OperatorSound host (NeverNaN host world (adScope id attributes))) true inner)
    (probed : negatedProbe host inner = some probe)
    (answered : ValueAt host world id attributes inner value) (view : logicalView value = .isFalse) :
    SatisfiedBy host world (adScope id attributes) probe := by
  unfold negatedProbe at probed
  split at probed
  next name args =>
    exact undefinedFuncProbe_sound fold (within (.head _)) probed answered view
  next op left right =>
    cases flips : negFlip op with
    | some flipped =>
      rw [flips] at probed
      obtain ⟨leftValue, rightValue, first, second, rfl⟩ := valueAt_binary (negFlip_strict flips) answered
      obtain ⟨own, rfl⟩ := negFlip_compares flips
      have failed := (compare_verdict).eq_false view
      have numbers : isOrdering own.toBinary = true →
          readsNaN leftValue = false ∧ readsNaN rightValue = false := by
        intro ordered
        obtain ⟨never, never'⟩ := surfaced.1.orderings rfl ordered
        exact ⟨never.valueAt first, never'.valueAt second⟩
      exact cmpProbe_sound probed first second (negFlip_apply flips numbers failed)
    | none =>
      rw [flips] at probed
      simp only at probed
      split at probed
      next identity =>
        subst identity
        obtain ⟨attr, found, rfl⟩ := Option.map_eq_some_iff.mp probed
        exact undefinedProbe_sound true found answered view (.inl ⟨rfl, rfl⟩)
      · split at probed
        next identity =>
          subst identity
          obtain ⟨attr, found, rfl⟩ := Option.map_eq_some_iff.mp probed
          exact undefinedProbe_sound true found answered view (.inr ⟨rfl, rfl⟩)
        · cases probed
  · obtain ⟨attr, refers, rfl⟩ := Option.map_eq_some_iff.mp probed
    refine satisfied_of_value answered refers ?_
    simp [Probe.accepts, view]

theorem unparen_symbols (expr : Expr) : symbols (unparen expr) = symbols expr := by
  unfold unparen
  fun_induction unwrapParens expr with
  | case1 => rfl
  | case2 inner _ ih => exact ih
  | case3 => rfl

theorem unparen_surfaced (passed : Surfaced test negated expr) : Surfaced test negated (unparen expr) := by
  unfold unparen
  fun_induction unwrapParens expr with
  | case1 => exact passed
  | case2 inner _ ih => exact ih passed
  | case3 => exact passed

theorem compareLeaf_sound (op : CompareOp) (holds : HoldsAt host world id attributes (.binary op.toBinary left right))
    (probed : cmpProbe op left right = some probe) : SatisfiedBy host world (adScope id attributes) probe := by
  obtain ⟨value, answered, view⟩ := holds
  have strict : ¬(op.toBinary = .and ∨ op.toBinary = .or) := by cases op <;> simp [CompareOp.toBinary]
  obtain ⟨leftValue, rightValue, first, second, rfl⟩ := valueAt_binary strict answered
  exact cmpProbe_sound probed first second ((compare_verdict).eq_true view)

theorem identityLeaf_sound (identity : (op = .is ∧ undefinedOp = .absent) ∨ (op = .isnt ∧ undefinedOp = .present))
    (holds : HoldsAt host world id attributes (.binary op.toBinary left right))
    (probed : identityProbe op undefinedOp left right = some probe) :
    SatisfiedBy host world (adScope id attributes) probe := by
  unfold identityProbe at probed
  split at probed
  next attr found =>
    cases probed
    obtain ⟨value, answered, view⟩ := holds
    exact undefinedProbe_sound false found answered view
      (identity.imp (And.imp_left (congrArg CompareOp.toBinary)) (And.imp_left (congrArg CompareOp.toBinary)))
  · exact compareLeaf_sound op holds probed

theorem truthyLeaf_sound (holds : HoldsAt host world id attributes leaf) (refers : indexableRef leaf = some attr) :
    SatisfiedBy host world (adScope id attributes) ⟨attr, .truthy, []⟩ := by
  obtain ⟨value, answered, view⟩ := holds
  refine satisfied_of_value answered refers ?_
  simp [Probe.accepts, view]

theorem negatedLeaf_sound (fold : FunctionsFold host names)
    (leaf : TrueLeaf host world id attributes names (.unary .not operand))
    (probed : negatedProbe host (unparen operand) = some probe) :
    SatisfiedBy host world (adScope id attributes) probe := by
  obtain ⟨value, answered, view⟩ := leaf.holds
  obtain ⟨fuel, depth, answered⟩ := valueAt_node (by simp) answered
  have holds : Holds (evaluate host world .observed fuel ⟨adScope id attributes, depth, [], none⟩ operand >>=
      fun value => .ok (applyUnaryValue .not value)) := ⟨value, answered, view⟩
  obtain ⟨own, ownValue, failed⟩ := holds_not.mp holds
  have within : symbols (unparen operand) ⊆ names := by
    rw [unparen_symbols]
    exact leaf.within
  exact negatedProbe_sound fold within (unparen_surfaced (leaf.surfaced rfl rfl)) probed
    (valueAt_unparen ⟨fuel, depth, ownValue⟩) failed

/-- A leaf that holds satisfies the probe made of it. -/
theorem leafProbe_sound (fold : FunctionsFold host names)
    (leaf : TrueLeaf host world id attributes names expr) (probed : leafProbe host expr = some probe) :
    SatisfiedBy host world (adScope id attributes) probe := by
  unfold leafProbe at probed
  split at probed
  · exact negatedLeaf_sound fold leaf probed
  · obtain ⟨value, answered, view⟩ := leaf.holds
    exact undefinedFuncProbe_sound fold (leaf.within (.head _)) probed answered view
  · cases probed
    exact truthyLeaf_sound leaf.holds rfl
  · cases probed
    exact truthyLeaf_sound leaf.holds rfl
  · exact compareLeaf_sound .equal leaf.holds probed
  · exact compareLeaf_sound .notEqual leaf.holds probed
  · exact compareLeaf_sound .less leaf.holds probed
  · exact compareLeaf_sound .lessEqual leaf.holds probed
  · exact compareLeaf_sound .greater leaf.holds probed
  · exact compareLeaf_sound .greaterEqual leaf.holds probed
  · exact identityLeaf_sound (.inl ⟨rfl, rfl⟩) leaf.holds probed
  · exact identityLeaf_sound (.inr ⟨rfl, rfl⟩) leaf.holds probed
  · cases probed

/-! ## Splitting -/

theorem TrueLeaf.paren (leaf : TrueLeaf host world id attributes names (.paren inner)) :
    TrueLeaf host world id attributes names inner := by
  obtain ⟨⟨value, answered, view⟩, within, surfaced⟩ := leaf
  obtain ⟨fuel, depth, answered⟩ := valueAt_node (by simp) answered
  exact ⟨⟨value, ⟨fuel, depth, answered⟩, view⟩, within, surfaced⟩

theorem TrueLeaf.unparen (leaf : TrueLeaf host world id attributes names expr) :
    TrueLeaf host world id attributes names (unparen expr) := by
  unfold QueryProbe.unparen
  fun_induction unwrapParens expr with
  | case1 => exact leaf
  | case2 inner _ ih => exact ih leaf.paren
  | case3 => exact leaf

theorem HoldsAt.node (present : expr ≠ .nil) (holds : HoldsAt host world id attributes expr) :
    ∃ fuel depth, Holds (evalNode host world (evaluate host world .observed fuel)
      ⟨adScope id attributes, depth, [], none⟩ expr) := by
  obtain ⟨value, answered, view⟩ := holds
  obtain ⟨fuel, depth, answered⟩ := valueAt_node present answered
  exact ⟨fuel, depth, value, answered, view⟩

theorem holdsAt_of_holds (holds : Holds (evaluate host world .observed fuel ⟨adScope id attributes, depth, [],
      none⟩ expr)) :
    HoldsAt host world id attributes expr := by
  obtain ⟨value, answered, view⟩ := holds
  exact ⟨value, ⟨fuel, depth, answered⟩, view⟩

theorem TrueLeaf.and (leaf : TrueLeaf host world id attributes names (.binary .and left right)) :
    TrueLeaf host world id attributes names left ∧ TrueLeaf host world id attributes names right := by
  obtain ⟨fuel, depth, holds⟩ := leaf.holds.node (by simp)
  rw [evalNode_logical (.inl rfl), holds_and] at holds
  obtain ⟨within, within'⟩ := append_subset.mp leaf.within
  obtain ⟨first, second⟩ := leaf.surfaced.2 (.inl rfl)
  exact ⟨⟨holdsAt_of_holds holds.1, within, first⟩, ⟨holdsAt_of_holds holds.2, within', second⟩⟩

theorem TrueLeaf.or (leaf : TrueLeaf host world id attributes names (.binary .or left right)) :
    TrueLeaf host world id attributes names left ∨ TrueLeaf host world id attributes names right := by
  obtain ⟨fuel, depth, holds⟩ := leaf.holds.node (by simp)
  rw [evalNode_logical (.inr rfl), holds_or] at holds
  obtain ⟨within, within'⟩ := append_subset.mp leaf.within
  rcases holds with holds | ⟨_, _, _, holds⟩
  · exact .inl ⟨holdsAt_of_holds holds, within, (leaf.surfaced.2 (.inr rfl)).1⟩
  · exact .inr ⟨holdsAt_of_holds holds, within', (leaf.surfaced.2 (.inr rfl)).2⟩

theorem flattenAnd_leaves (leaf : TrueLeaf host world id attributes names expr) :
    ∀ conjunct ∈ flattenAnd expr, TrueLeaf host world id attributes names conjunct := by
  fun_induction flattenAnd expr with
  | case1 => simpa using leaf
  | case2 inner _ ih => exact ih leaf.paren
  | case3 left right ihLeft ihRight =>
    obtain ⟨first, second⟩ := leaf.and
    intro conjunct member
    rcases mem_append.mp member with member | member
    · exact ihLeft first conjunct member
    · exact ihRight second conjunct member
  | case4 => simpa using leaf

theorem flattenOr_leaf (leaf : TrueLeaf host world id attributes names expr) :
    ∃ disjunct ∈ flattenOr expr, TrueLeaf host world id attributes names disjunct := by
  fun_induction flattenOr expr with
  | case1 => simpa using leaf
  | case2 inner _ ih => exact ih leaf.paren
  | case3 left right ihLeft ihRight =>
    rcases leaf.or with first | second
    · obtain ⟨disjunct, member, holds⟩ := ihLeft first
      exact ⟨disjunct, mem_append_left _ member, holds⟩
    · obtain ⟨disjunct, member, holds⟩ := ihRight second
      exact ⟨disjunct, mem_append_right _ member, holds⟩
  | case4 => simpa using leaf

/-! ## Membership in a set of literals -/

theorem indexableRef_symbol (refers : indexableRef expr = some name) : .attr name ∈ symbols expr := by
  rw [← unparen_symbols]
  unfold indexableRef at refers
  split at refers
  all_goals cases refers
  all_goals
    rename_i shape
    rw [shape]
    exact mem_singleton_self _

theorem cmpProbe_symbol (probed : cmpProbe op left right = some probe) :
    .attr probe.attr ∈ symbols left ++ symbols right := by
  unfold cmpProbe at probed
  split at probed
  next refers _ =>
    cases probed
    exact mem_append_left _ (indexableRef_symbol refers)
  · split at probed
    next refers _ =>
      cases probed
      exact mem_append_right _ (indexableRef_symbol refers)
    · cases probed

/-- The attribute of an equality probe is one the leaf mentions. -/
theorem equalityProbe_symbol (probed : leafProbe host expr = some ⟨attr, .compare .equal, vals⟩) :
    .attr attr ∈ symbols expr := by
  unfold leafProbe at probed
  split at probed
  next operand =>
    change .attr attr ∈ symbols operand
    rw [← unparen_symbols]
    unfold negatedProbe at probed
    split at probed
    · unfold undefinedFuncProbe at probed
      repeat' split at probed
      all_goals simp at probed
    next shape =>
      rw [shape]
      split at probed
      · exact cmpProbe_symbol probed
      · repeat' split at probed
        all_goals simp at probed
    · simp at probed
  · unfold undefinedFuncProbe at probed
    repeat' split at probed
    all_goals simp at probed
  · simp at probed
  · simp at probed
  all_goals first | exact cmpProbe_symbol probed | skip
  · unfold identityProbe at probed
    split at probed
    · simp at probed
    · exact cmpProbe_symbol probed
  · unfold identityProbe at probed
    split at probed
    · simp at probed
    · exact cmpProbe_symbol probed
  · cases probed

theorem flattenOr_symbols (member : disjunct ∈ flattenOr expr) : symbols disjunct ⊆ symbols expr := by
  fun_induction flattenOr expr with
  | case1 => simp_all
  | case2 inner _ ih => exact ih member
  | case3 left right ihLeft ihRight =>
    rcases mem_append.mp member with member | member
    · exact subset_append_of_subset_left _ (ihLeft member)
    · exact subset_append_of_subset_right _ (ihRight member)
  | case4 => simp_all

theorem flattenOr_apart (surfaced : Surfaced (OperatorSound host number) negated expr) :
    (flattenOr expr).Pairwise (NamesApart host) := by
  fun_induction flattenOr expr with
  | case1 => exact pairwise_singleton _ _
  | case2 inner _ ih => exact ih surfaced
  | case3 left right ihLeft ihRight =>
    obtain ⟨first, second⟩ := surfaced.2 (.inr rfl)
    refine pairwise_append.mpr ⟨ihLeft first, ihRight second, ?_⟩
    intro disjunct member disjunct' member' name name' named named'
    exact surfaced.1.names rfl name name' (flattenOr_symbols member named) (flattenOr_symbols member' named')
  | case4 => exact pairwise_singleton _ _

/-- The attribute that is found is the one there was, or else that of a disjunct, and every disjunct
compares it with one of the values. -/
theorem equalityVals_mem (collected : equalityVals host attr rest = some (found, vals)) (named : found ≠ "")
    (apart : rest.Pairwise (NamesApart host))
    (prior : attr ≠ "" → ∀ disjunct ∈ rest, ∀ name, Symbol.attr name ∈ symbols disjunct →
      host.equalFold attr name = true → host.toLower attr = host.toLower name) :
    (attr = "" → ∃ disjunct ∈ rest, Symbol.attr found ∈ symbols disjunct) ∧ (attr ≠ "" → found = attr) ∧
      ∀ disjunct ∈ rest, ∃ name val, leafProbe host disjunct = some ⟨name, .compare .equal, [val]⟩ ∧
        host.toLower found = host.toLower name ∧ val ∈ vals := by
  induction rest generalizing attr vals with
  | nil =>
    cases collected
    exact ⟨fun none => absurd none named, fun _ => rfl, nofun⟩
  | cons head rest ih =>
    obtain ⟨headApart, apart⟩ := pairwise_cons.mp apart
    unfold equalityVals at collected
    split at collected
    next name val probed =>
      have headNamed := equalityProbe_symbol probed
      split at collected
      next none =>
        obtain ⟨⟨found, others⟩, gathered, same⟩ := Option.map_eq_some_iff.mp collected
        cases same
        obtain ⟨fromRest, kept, each⟩ := ih gathered apart fun _ disjunct member other named' folds =>
          headApart disjunct member name other headNamed named' (.inl folds)
        have own : host.toLower found = host.toLower name ∧
            ∃ disjunct ∈ head :: rest, Symbol.attr found ∈ symbols disjunct := by
          by_cases empty : name = ""
          · obtain ⟨disjunct, member, named'⟩ := fromRest empty
            refine ⟨(headApart disjunct member name found headNamed named' (.inr (.inl empty))).symm, ?_⟩
            exact ⟨disjunct, .tail _ member, named'⟩
          · cases kept empty
            exact ⟨rfl, head, .head _, headNamed⟩
        refine ⟨fun _ => own.2, fun some => absurd none some, forall_mem_cons.mpr ⟨?_, fun disjunct member => ?_⟩⟩
        · exact ⟨name, val, probed, own.1, .head _⟩
        · obtain ⟨other, value, probed', same, found'⟩ := each disjunct member
          exact ⟨other, value, probed', same, .tail _ found'⟩
      next some =>
        split at collected
        next folds =>
          obtain ⟨⟨found, others⟩, gathered, same⟩ := Option.map_eq_some_iff.mp collected
          cases same
          obtain ⟨_, kept, each⟩ := ih gathered apart fun some disjunct member => prior some disjunct (.tail _ member)
          cases kept some
          refine ⟨fun none => absurd none some, kept, forall_mem_cons.mpr ⟨?_, fun disjunct member => ?_⟩⟩
          · exact ⟨name, val, probed, prior some head (.head _) name headNamed folds, .head _⟩
          · obtain ⟨other, value, probed', same, found'⟩ := each disjunct member
            exact ⟨other, value, probed', same, .tail _ found'⟩
        · cases collected
    · cases collected

section
variable (fold : FunctionsFold host names) (leaf : TrueLeaf host world id attributes names expr)
include fold leaf

/-- A disjunction of equalities on one attribute that holds puts it among the literals. -/
theorem orEqProbe_sound
    (probed : orEqProbe host expr = some probe) : SatisfiedBy host world (adScope id attributes) probe := by
  obtain ⟨disjunct, member, holds⟩ := flattenOr_leaf leaf
  unfold orEqProbe at probed
  split at probed
  next attr vals collected =>
    split at probed
    · cases probed
    next named =>
      cases probed
      obtain ⟨_, _, each⟩ := equalityVals_mem collected named (flattenOr_apart leaf.surfaced)
        (fun none => absurd rfl none)
      obtain ⟨name, val, ownProbe, oneName, found⟩ := each disjunct member
      obtain ⟨own, ⟨fuel, evaluates⟩, accepted⟩ := leafProbe_sound fold holds ownProbe
      refine ⟨own, ⟨fuel, ?_⟩, accepts_member.mpr ⟨_, found, accepts_compare.mp accepted⟩⟩
      rw [newEvaluator, reference_congr oneName (.inl rfl)]
      exact evaluates
  · cases probed

theorem probeFrom_sound
    (probed : probeFrom host expr = some probe) : SatisfiedBy host world (adScope id attributes) probe := by
  have unwrapped := leaf.unparen
  unfold probeFrom at probed
  split at probed
  next shape =>
    rw [shape] at unwrapped
    exact orEqProbe_sound fold unwrapped probed
  · exact leafProbe_sound fold unwrapped probed

end

/-! ## Plans -/

theorem tryDNF_group (leaf : TrueLeaf host world id attributes names expr)
    (split : tryDNF host expr = some groups) :
    ∃ group ∈ groups, ∀ conjunct ∈ group, TrueLeaf host world id attributes names conjunct := by
  fun_induction tryDNF host expr generalizing groups with
  | case1 =>
    cases split
    simpa using leaf
  | case2 inner _ ih => exact ih leaf.paren split
  | case3 left right single =>
    cases split
    simpa using leaf
  | case4 => cases split
  | case5 left right single l r found' found few ihLeft ihRight =>
    cases split
    rcases leaf.or with first | second
    · obtain ⟨group, member, holds⟩ := ihLeft first found
      exact ⟨group, mem_append_left _ member, holds⟩
    · obtain ⟨group, member, holds⟩ := ihRight second found'
      exact ⟨group, mem_append_right _ member, holds⟩
  | case6 => cases split
  | case7 => cases split
  | case8 left right l r found' found few ihLeft ihRight =>
    cases split
    obtain ⟨first, second⟩ := leaf.and
    obtain ⟨ga, member, holds⟩ := ihLeft first found
    obtain ⟨gb, member', holds'⟩ := ihRight second found'
    refine ⟨ga ++ gb, mem_flatMap.mpr ⟨ga, member, mem_map.mpr ⟨gb, member', rfl⟩⟩, ?_⟩
    intro conjunct found
    rcases mem_append.mp found with found | found
    · exact holds conjunct found
    · exact holds' conjunct found
  | case9 => cases split
  | case10 =>
    cases split
    simpa using leaf

theorem distributeDNF_group (leaf : TrueLeaf host world id attributes names expr) :
    ∃ group ∈ distributeDNF host expr, ∀ conjunct ∈ group, TrueLeaf host world id attributes names conjunct := by
  unfold distributeDNF
  split
  next groups found =>
    exact tryDNF_group leaf found
  · obtain ⟨disjunct, member, holds⟩ := flattenOr_leaf leaf
    exact ⟨flattenAnd disjunct, mem_map.mpr ⟨disjunct, member, rfl⟩, flattenAnd_leaves holds⟩

end

/-! ## Queries -/

theorem compile_prog (host : Host) (expr : Expr) :
    (compile host expr).prog = compileProgram (compile host expr).prog.expr := by
  unfold compile
  split <;> rfl

/-- Below its guard the tree walker answers what a program yields. -/
theorem answer_of_yields (shallow : StaysBelowMaxDepth host world scope expr)
    (yields : Yields host world (compileProgram expr) scope value') :
    ∃ fuel value, evaluate host world .observed fuel (newEvaluator scope) expr = .ok value ∧
      Same host world .panics value value' := by
  obtain ⟨fuel, answered⟩ := shallow
  cases tree : evaluate host world .observed fuel (newEvaluator scope) expr with
  | stuck => exact absurd tree answered
  | panic => exact absurd yields (not_yields_of_crash (crashes_of_panic tree))
  | ok value =>
    obtain ⟨other, yields', same⟩ := yields_of_answer tree
    exact ⟨fuel, value, tree, yields_unique yields yields' ▸ same⟩

/-- A boolean that a program yields is the value of its expression, below the guard. -/
theorem evaluates_of_yields (shallow : StaysBelowMaxDepth host world scope expr)
    (yields : Yields host world (compileProgram expr) scope (.boolean verdict)) :
    Evaluates host world scope expr (.boolean verdict) := by
  obtain ⟨fuel, _, tree, same⟩ := answer_of_yields shallow yields
  cases same
  obtain ⟨_, evaluates, same'⟩ := evaluates_of_answer tree
  cases same'
  exact evaluates

/-- Index probing never loses a match: an ad the query matches satisfies every probe, and
every probe of some group of the plan. -/
def ProbesSound (host : Host) (world : World) (scope : Scope) (q : Query) : Prop :=
  q.Matches host world scope →
    (∀ probe ∈ probes host q, SatisfiedBy host world scope probe) ∧
    ∀ plan, probePlan host q = some plan →
      ∃ group ∈ plan, ∀ probe ∈ group, SatisfiedBy host world scope probe

/-- A query on an ad that none of the defects of probe extraction reaches: evaluation stays
below the recursion guard, folding keeps the query true, no comparison under a `!` has a NaN
operand once its constants are folded, and names that fold together are one name. -/
structure Probeable (host : Host) (world : World) (id : AdId) (attributes : Attributes)
    (expr : Expr) : Prop where
  shallow : StaysBelowMaxDepth host world (adScope id attributes) expr
  prints : PrintsOnlyThere host
  folds : keepsTruth host expr = true
  operators : Surfaced (OperatorSound host fun operand =>
    NeverNaN host world (adScope id attributes) (foldConstants host operand)) false expr
  functions : FunctionsFold host (symbols expr)

variable {attributes : Attributes}

theorem Probeable.folded {id : AdId} (safe : Probeable host world id attributes expr)
    (matched : Yields host world (compileProgram expr) (adScope id attributes) (.boolean true)) :
    TrueLeaf host world id attributes (symbols expr) (foldConstants host expr) := by
  obtain ⟨fuel, value, tree, same⟩ := answer_of_yields safe.shallow matched
  have agree : EvaluatorsAgree (observed host world) (newEvaluator (adScope id attributes))
      (newEvaluator (adScope id attributes)) :=
    self_agree (.inl ⟨rfl, le_rfl⟩) _ []
  have kept := flattenExpr_implied safe.prints world expr safe.folds fuel fuel _ _ le_rfl agree
    ⟨value, tree, same.logicalView⟩
  refine ⟨holdsAt_of_holds kept, flattenExpr_symbols host expr, flattenExpr_surfaced ?_ false expr safe.operators⟩
  intro negated op left right sound
  exact ⟨sound.orderings, fun disjunction name name' named named' => sound.names disjunction name name'
    (flattenExpr_symbols host left named) (flattenExpr_symbols host right named')⟩

/-- An ad a query matches satisfies each of its probes. -/
theorem Probeable.probes {id : AdId}
    (safe : Probeable host world id attributes (compile host expr).prog.expr)
    (matched : (compile host expr).Matches host world (adScope id attributes)) :
    ∀ probe ∈ probes host (compile host expr), SatisfiedBy host world (adScope id attributes) probe := by
  rw [Query.Matches, compile_prog] at matched
  intro probe member
  unfold QueryProbe.probes at member
  split at member
  · cases member
  · obtain ⟨conjunct, found, probed⟩ := mem_filterMap.mp member
    exact probeFrom_sound safe.functions (flattenAnd_leaves (safe.folded matched) conjunct found) probed

/-- An ad a query matches satisfies all probes of some group of its plan. -/
theorem Probeable.plan {host : Host} {id : AdId}
    {plan : List (List Probe)} (safe : Probeable host world id attributes (compile host expr).prog.expr)
    (matched : (compile host expr).Matches host world (adScope id attributes))
    (planned : probePlan host (compile host expr) = some plan) :
    ∃ group ∈ plan, ∀ probe ∈ group, SatisfiedBy host world (adScope id attributes) probe := by
  rw [Query.Matches, compile_prog] at matched
  unfold probePlan at planned
  split at planned
  · cases planned
  · cases planned
    obtain ⟨group, found, holds⟩ := distributeDNF_group (safe.folded matched)
    refine ⟨_, mem_map.mpr ⟨group, found, rfl⟩, ?_⟩
    intro probe member
    obtain ⟨conjunct, inside, probed⟩ := mem_filterMap.mp member
    exact probeFrom_sound safe.functions (holds conjunct inside) probed

end Classad.QueryProbeProofs
