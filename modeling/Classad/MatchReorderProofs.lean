import Mathlib.Algebra.GroupWithZero.Nat
import Mathlib.Algebra.Order.BigOperators.Group.List
import Mathlib.Algebra.Order.Group.Nat
import Classad.MatchReorder
import Classad.SequentialChain
import Classad.TreeWalkSimulation

/-! Reordering Requirements against matching. The part of an expression that is rearranged is
evaluated over the values of its leaves; there a chain is a sequence of states, and its order
matters only between an operand that is an error and one that decides the chain. -/
namespace Classad.MatchReorderProofs
open Syntax Operators OperatorProofs PartialRun TreeWalk TreeWalkSimulation SequentialChain Matchmaking MatchReorder
open List hiding after

/-! ## Leaves -/

/-- The subexpressions at which reordering stops. -/
def leaves : Expr → List Expr
  | .paren operand => leaves operand
  | .binary _ left right => leaves left ++ leaves right
  | .unary _ operand => leaves operand
  | .conditional condition whenTrue whenFalse => leaves condition ++ leaves whenTrue ++ leaves whenFalse
  | .elvis left right => leaves left ++ leaves right
  | leaf => [leaf]

/-- The number of nodes above the leaves. -/
def innerNodes : Expr → Nat
  | .paren operand => 1 + innerNodes operand
  | .binary _ left right => 1 + innerNodes left + innerNodes right
  | .unary _ operand => 1 + innerNodes operand
  | .conditional condition whenTrue whenFalse => 1 + innerNodes condition + innerNodes whenTrue + innerNodes whenFalse
  | .elvis left right => 1 + innerNodes left + innerNodes right
  | _ => 0

/-- The value of an expression, from those of its leaves. -/
def valueOver (values : Expr → Value) : Expr → Value
  | .paren operand => valueOver values operand
  | .binary op left right => applyBinaryValues op (valueOver values left) (valueOver values right)
  | .unary op operand => applyUnaryValue op (valueOver values operand)
  | .conditional condition whenTrue whenFalse =>
    match logicalView (valueOver values condition) with
    | .isTrue => valueOver values whenTrue
    | .isFalse => valueOver values whenFalse
    | .isUndef => .undefined
    | .isErr => .error
  | .elvis left right =>
    if (valueOver values left).isUndefined then valueOver values right else valueOver values left
  | leaf => values leaf

/-! ## Chains -/

/-- The state that leaves a chain to its other operands. -/
def neutralState : BinaryOperator → LogicalState
  | .or => .isFalse
  | _ => .isTrue

theorem neutralState_ne {op : BinaryOperator} : neutralState op ≠ .isUndef := by
  cases op <;> decide

theorem applyLogical_state (logical : op = .and ∨ op = .or) (left right : Value) :
    applyBinaryValues op left right =
      mapState (combine (neutralState op) .isUndef (logicalView left) (logicalView right)) := by
  rcases logical with rfl | rfl
  · simp only [applyBinaryValues, evaluateAnd]
    cases logicalView left <;> cases logicalView right <;> rfl
  · simp only [applyBinaryValues, evaluateOr]
    cases logicalView left <;> cases logicalView right <;> rfl

section
variable {op : BinaryOperator} (values : Expr → Value)

/-- The states of operands. -/
def states (operands : List Expr) : List LogicalState :=
    operands.map fun operand => logicalView (valueOver values operand)

/-- How an expression is made of the operands of a chain. -/
inductive Joins (op : BinaryOperator) : Expr → List Expr → Prop
  | leaf (expr : Expr) : Joins op expr [expr]
  | paren : Joins op (.binary op left right) operands → Joins op (.paren (.binary op left right)) operands
  | join : Joins op left before → Joins op right after → Joins op (.binary op left right) (before ++ after)

theorem joins_flattenChain (op : BinaryOperator) (expr : Expr) : Joins op expr (flattenChain op expr) := by
  induction expr using flattenChain.induct op with
  | case1 left right ih ih' =>
    rw [flattenChain, if_pos rfl]
    exact .paren (.join ih ih')
  | case2 op' left right other =>
    rw [flattenChain, if_neg other]
    exact .leaf _
  | case3 left right ih ih' =>
    rw [flattenChain, if_pos rfl]
    exact .join ih ih'
  | case4 op' left right other =>
    rw [flattenChain, if_neg other]
    exact .leaf _
  | case5 expr plain plain' =>
    rw [flattenChain]
    · exact .leaf _
    · exact plain
    · exact plain'

theorem joins_rebuildChain (op : BinaryOperator) (some : operands ≠ []) :
    Joins op (rebuildChain op operands) operands := by
  have onto : ∀ (rest : List Expr) {before expr}, Joins op expr before →
      Joins op (rest.foldl (.binary op) expr) (before ++ rest) := by
    intro rest
    induction rest with
    | nil =>
      intro before expr joins
      rwa [append_nil]
    | cons second rest ih =>
      intro before expr joins
      have joined := ih (.join joins (.leaf second))
      rwa [append_assoc] at joined
  cases operands with
  | nil => exact absurd rfl some
  | cons first rest => exact onto rest (.leaf first)

/-- An expression has the state of the chain of its operands. -/
theorem Joins.state (joins : Joins op expr operands) (logical : op = .and ∨ op = .or) :
    result (neutralState op) .isUndef (states values operands) = logicalView (valueOver values expr) := by
  induction joins with
  | leaf expr => exact result_singleton _
  | paren _ ih => exact ih
  | join _ _ first second =>
    rw [states, map_append, result_append, ← states, ← states, first, second, valueOver, applyLogical_state logical,
      logicalView_mapState]

theorem rebuildChain_binary {op : BinaryOperator} (several : 1 < operands.length) :
    ∃ left right, rebuildChain op operands = .binary op left right := by
  have joins : ∀ (rest : List Expr) (left right : Expr), ∃ left' right',
      rest.foldl (Expr.binary op) (.binary op left right) = .binary op left' right' := by
    intro rest
    induction rest with
    | nil => exact fun left right => ⟨left, right, rfl⟩
    | cons head rest ih => exact fun left right => ih (.binary op left right) head
  match operands, several with
  | first :: second :: rest, _ => exact joins rest first second

/-- A rebuilt chain has the state of its operands in their order. -/
theorem rebuildChain_value (logical : op = .and ∨ op = .or) (several : 1 < operands.length) :
    valueOver values (rebuildChain op operands) =
      mapState (result (neutralState op) .isUndef (states values operands)) := by
  obtain ⟨left, right, same⟩ := rebuildChain_binary several
  have some : operands ≠ [] := ne_nil_of_length_pos (by omega)
  rw [(joins_rebuildChain op some).state values logical, same, valueOver, applyLogical_state logical,
    logicalView_mapState]

end

theorem Joins.length (joins : Joins op expr operands) : 0 < operands.length := by
  induction joins with
  | leaf expr => exact Nat.one_pos
  | paren _ ih => exact ih
  | join _ _ first second =>
    rw [length_append]
    omega

/-- A chain has at least two operands. -/
theorem chain_length (op : BinaryOperator) (left right : Expr) :
    1 < (flattenChain op (.binary op left right)).length := by
  have first := (joins_flattenChain op left).length
  have second := (joins_flattenChain op right).length
  rw [flattenChain, if_pos rfl, length_append]
  omega

/-! ## Ranking -/

/-- Ranking operands permutes them. -/
theorem rankOperands_perm {stats : Expr → Option Float} {op : BinaryOperator} {operands : List Expr} :
    ((rankOperands stats op operands).map Ranked.expr).Perm operands := by
  have sorted := (perm_insertionSort (fun left right : Ranked => ¬right.rank < left.rank)
    (operands.zipIdx.map fun operand => ⟨operand.1, operandRank stats op operand.1, operand.2⟩)).map Ranked.expr
  refine sorted.trans ?_
  rw [map_map]
  exact .of_eq (zipIdx_map_fst 0 operands)

/-- A reordered chain is rebuilt from a permutation of the operands, and from the operands as
they are unless all are pure. -/
theorem reorderOperands_cases {host : Host} {stats : Expr → Option Float} {op : BinaryOperator} {operands : List Expr} :
    ∃ operands', operands'.Perm operands ∧ (reorderOperands host stats op operands).1 = rebuildChain op operands' ∧
      (operands.all (isPureExpr host) = false → operands' = operands) := by
  unfold reorderOperands
  split
  next pure =>
    refine ⟨_, rankOperands_perm, rfl, fun impure => ?_⟩
    rw [pure.2] at impure
    cases impure
  · exact ⟨operands, .refl _, rfl, fun _ => rfl⟩

section
variable (host : Host) (stats : Expr → Option Float)

/-- What reordering makes of a chain. -/
theorem reorderTo_chain (fuel : Nat) (logical : op = .and ∨ op = .or) (left : Expr) :
    let reordered := (flattenChain op (.binary op left right)).map fun operand => (reorderTo host stats fuel operand).1
    ∃ operands, operands.Perm reordered ∧ 1 < operands.length ∧
      (reorderTo host stats (fuel + 1) (.binary op left right)).1 = rebuildChain op operands ∧
      (reordered.all (isPureExpr host) = false → operands = reordered) := by
  intro reordered
  obtain ⟨operands, perm, same, kept⟩ := reorderOperands_cases
  refine ⟨operands, perm, ?_, ?_, kept⟩
  · rw [perm.length_eq, length_map]
    exact chain_length op left right
  · simp only [reorderTo, if_pos logical, map_map]
    exact same

/-! ## Purity -/

theorem Joins.pure (joins : Joins op expr operands) : operands.all (isPureExpr host) = isPureExpr host expr := by
  induction joins with
  | leaf expr => simp
  | paren _ ih => exact ih
  | join _ _ first second => rw [all_append, first, second, isPureExpr]

variable (fuel : Nat)

theorem reorderTo_pure (expr : Expr) : isPureExpr host (reorderTo host stats fuel expr).1 = isPureExpr host expr := by
  induction fuel generalizing expr with
  | zero => rfl
  | succ fuel ih =>
    cases expr with
    | paren operand => exact ih operand
    | unary op operand => exact ih operand
    | elvis left right => simp [reorderTo, isPureExpr, ih]
    | conditional condition whenTrue whenFalse => simp [reorderTo, isPureExpr, ih]
    | binary op left right =>
      by_cases logical : op = .and ∨ op = .or
      · obtain ⟨operands, perm, several, same, -⟩ := reorderTo_chain host stats fuel logical left
        have some : operands ≠ [] := ne_nil_of_length_pos (by omega)
        rw [same, ← (joins_rebuildChain op some).pure host, perm.all_eq, all_map]
        rw [← (joins_flattenChain op (.binary op left right)).pure host]
        exact congrArg (all _) (funext fun operand => ih operand)
      · simp [reorderTo, if_neg logical, isPureExpr, ih]
    | _ => rfl

/-- Whether reordering, to a nesting of `fuel`, comes by a chain whose operands are all pure. -/
def chainsPurely : Nat → Expr → Bool
  | 0, _ => false
  | fuel + 1, .paren inner => chainsPurely fuel inner
  | fuel + 1, .binary op left right =>
    if op = .and ∨ op = .or then
      isPureExpr host (.binary op left right) || (flattenChain op (.binary op left right)).any (chainsPurely fuel)
    else chainsPurely fuel left || chainsPurely fuel right
  | fuel + 1, .unary _ operand => chainsPurely fuel operand
  | fuel + 1, .conditional condition whenTrue whenFalse =>
    chainsPurely fuel condition || chainsPurely fuel whenTrue || chainsPurely fuel whenFalse
  | fuel + 1, .elvis left right => chainsPurely fuel left || chainsPurely fuel right
  | _ + 1, _ => false

/-- Nothing moves where there is no pure chain. -/
theorem reorderTo_still (still : chainsPurely host fuel expr = false) : (reorderTo host stats fuel expr).2 = false := by
  induction fuel generalizing expr with
  | zero => rfl
  | succ fuel ih =>
    cases expr with
    | paren operand => exact ih still
    | unary op operand => exact ih still
    | elvis left right =>
      simp only [chainsPurely, Bool.or_eq_false_iff] at still
      simp [reorderTo, ih still.1, ih still.2]
    | conditional condition whenTrue whenFalse =>
      simp only [chainsPurely, Bool.or_eq_false_iff] at still
      simp [reorderTo, ih still.1.1, ih still.1.2, ih still.2]
    | binary op left right =>
      by_cases logical : op = .and ∨ op = .or
      · simp only [chainsPurely, if_pos logical, Bool.or_eq_false_iff, any_eq_false, Bool.not_eq_true] at still
        have impure : ((flattenChain op (.binary op left right)).map fun operand =>
          (reorderTo host stats fuel operand).1).all
            (isPureExpr host) = false := by
          rw [all_map, ← still.1, ← (joins_flattenChain op (.binary op left right)).pure host]
          exact congrArg (all _) (funext fun operand => reorderTo_pure host stats fuel operand)
        simp only [reorderTo, if_pos logical, reorderOperands, map_map, Function.comp_def, impure]
        simpa using fun operand member => ih (still.2 operand member)
      · simp only [chainsPurely, if_neg logical, Bool.or_eq_false_iff] at still
        simp [reorderTo, if_neg logical, ih still.1, ih still.2]
    | _ => rfl

/-! ## Leaves and depth -/

theorem Joins.leaves (joins : Joins op expr operands) : operands.flatMap leaves = leaves expr := by
  induction joins with
  | leaf expr => simp
  | paren _ ih => exact ih
  | join _ _ first second => rw [flatMap_append, first, second, MatchReorderProofs.leaves]

/-- The nodes above the leaves of operands, and those that join them. -/
def innerSum (operands : List Expr) : Nat := (operands.map fun operand => 1 + innerNodes operand).sum

theorem Joins.inner (joins : Joins op expr operands) : innerSum operands ≤ 1 + innerNodes expr := by
  induction joins with
  | leaf expr => simp [innerSum]
  | paren _ ih =>
    rw [innerNodes]
    omega
  | join _ _ first second =>
    rw [innerSum, map_append, sum_append, ← innerSum, ← innerSum, innerNodes]
    omega

theorem rebuildChain_inner (op : BinaryOperator) (some : operands ≠ []) :
    1 + innerNodes (rebuildChain op operands) = innerSum operands := by
  cases operands with
  | nil => exact absurd rfl some
  | cons first rest =>
    rw [rebuildChain]
    clear some
    induction rest generalizing first with
    | nil => simp [innerSum]
    | cons second rest ih =>
      rw [foldl_cons, ih]
      simp only [innerSum, map_cons, sum_cons, innerNodes]
      omega

/-- Reordering leaves no expression empty. -/
theorem reorderTo_ne_nil (present : expr ≠ .nil) : (reorderTo host stats fuel expr).1 ≠ .nil := by
  cases fuel with
  | zero => exact present
  | succ fuel =>
    cases expr with
    | nil => exact absurd rfl present
    | binary op left right =>
      by_cases logical : op = .and ∨ op = .or
      · obtain ⟨operands, -, several, same, -⟩ := reorderTo_chain host stats fuel logical left
        obtain ⟨first, second, joined⟩ := rebuildChain_binary several
        rw [same, joined]
        nofun
      · simp [reorderTo, if_neg logical]
    | _ => nofun

/-- Reordering keeps the leaves of an expression and adds no node above them. -/
theorem reorderTo_leaves (expr : Expr) :
    (leaves (reorderTo host stats fuel expr).1).Perm (leaves expr) ∧
      innerNodes (reorderTo host stats fuel expr).1 ≤ innerNodes expr := by
  induction fuel generalizing expr with
  | zero => exact ⟨.refl _, le_rfl⟩
  | succ fuel ih =>
    cases expr with
    | paren operand =>
      have same := ih operand
      refine ⟨same.1, ?_⟩
      simp only [reorderTo, innerNodes]
      omega
    | unary op operand =>
      have same := ih operand
      refine ⟨same.1, ?_⟩
      simp only [reorderTo, innerNodes]
      omega
    | elvis left right =>
      have first := ih left
      have second := ih right
      refine ⟨first.1.append second.1, ?_⟩
      simp only [reorderTo, innerNodes]
      omega
    | conditional condition whenTrue whenFalse =>
      have first := ih condition
      have second := ih whenTrue
      have third := ih whenFalse
      refine ⟨(first.1.append second.1).append third.1, ?_⟩
      simp only [reorderTo, innerNodes]
      omega
    | binary op left right =>
      by_cases logical : op = .and ∨ op = .or
      · obtain ⟨operands, perm, several, same, -⟩ := reorderTo_chain host stats fuel logical left
        have some : operands ≠ [] := ne_nil_of_length_pos (by omega)
        have joins := joins_flattenChain op (.binary op left right)
        rw [same]
        constructor
        · rw [← (joins_rebuildChain op some).leaves, ← joins.leaves]
          refine (perm.flatMap_right MatchReorderProofs.leaves).trans ?_
          rw [flatMap_map]
          exact Perm.flatMap_left _ fun operand _ => (ih operand).1
        · have joined := rebuildChain_inner op some
          have flat := joins.inner
          have moved : innerSum operands = innerSum _ := (perm.map _).sum_eq
          have each : innerSum ((flattenChain op (.binary op left right)).map fun operand =>
            (reorderTo host stats fuel operand).1) ≤
              innerSum (flattenChain op (.binary op left right)) := by
            rw [innerSum, innerSum, map_map]
            refine sum_le_sum fun operand _ => ?_
            have := (ih operand).2
            simp only [Function.comp_apply]
            omega
          omega
      · have first := ih left
        have second := ih right
        simp only [reorderTo, if_neg logical, innerNodes]
        exact ⟨first.1.append second.1, by omega⟩
    | _ => exact ⟨.refl _, le_rfl⟩

end

/-- Whatever the statistics, reordering only moves clauses: none is lost or added, no operator is
added, and the expression is as pure as it was. -/
theorem reorder_moves_clauses (host : Host) (stats : Expr → Option Float) (expr : Expr) :
    let reordered := (reorderShortCircuit host stats expr).1
    (leaves reordered).Perm (leaves expr) ∧ innerNodes reordered ≤ innerNodes expr ∧
      isPureExpr host reordered = isPureExpr host expr :=
  have ⟨moved, nested⟩ := reorderTo_leaves host stats (astHeight expr) expr
  ⟨moved, nested, reorderTo_pure host stats _ expr⟩

/-! ## Where the order does not matter -/

/-- How closely a value has to be kept. -/
inductive Need where
  | truth
  | exact

/-- The states in which an operand ends a chain other than by an error. -/
def decisive : BinaryOperator → LogicalState
  | .or => .isTrue
  | _ => .isFalse

/-- One operand of a chain is an error and another decides it: whichever comes first wins. -/
def Torn (values : Expr → Value) (op : BinaryOperator) (operands : List Expr) : Prop :=
  .isErr ∈ states values operands ∧ decisive op ∈ states values operands

section
variable (host : Host) (stats : Expr → Option Float) (values : Expr → Value)

/-- No chain that reordering rearranges is torn. The operands of a conjunction that is needed
for its truth only may be errors: it is true if all its operands are, in whatever order. -/
inductive Settled : Need → Expr → Prop where
  | leaf : innerNodes expr = 0 → Settled need expr
  | paren : Settled need operand → Settled need (.paren operand)
  | unary : Settled .exact operand → Settled need (.unary op operand)
  | strict : ¬(op = .and ∨ op = .or) → Settled .exact left → Settled .exact right → Settled need (.binary op left right)
  | conjunction : (∀ operand ∈ flattenChain .and (.binary .and left right), Settled .truth operand) →
      Settled .truth (.binary .and left right)
  | chain : op = .and ∨ op = .or → (∀ operand ∈ flattenChain op (.binary op left right), Settled .exact operand) →
      (isPureExpr host (.binary op left right) = true → ¬Torn values op (flattenChain op (.binary op left right))) →
      Settled need (.binary op left right)
  | conditional : Settled .exact condition → Settled need whenTrue → Settled need whenFalse →
      Settled need (.conditional condition whenTrue whenFalse)
  | elvis : Settled .exact left → Settled need right → Settled need (.elvis left right)

end

/-- What is kept of a value. For its truth, results of the logical operators may differ as long
as both or neither are true. -/
def Kept : Need → Value → Value → Prop
  | .exact, value, value' => value = value'
  | .truth, value, value' => value = value' ∨
    ∃ state state', value = mapState state ∧ value' = mapState state' ∧ (state = .isTrue ↔ state' = .isTrue)

theorem Kept.of_eq (need : Need) (same : value = value') : Kept need value value' := by
  cases need with
  | exact => exact same
  | truth => exact .inl same

theorem mapState_true (state : LogicalState) : mapState state = .boolean true ↔ state = .isTrue := by
  cases state <;> simp [mapState]

theorem Kept.isTrue (kept : Kept need value value') : value = .boolean true ↔ value' = .boolean true := by
  cases need with
  | exact => rw [show value = value' from kept]
  | truth =>
    rcases kept with rfl | ⟨state, state', rfl, rfl, alike⟩
    · exact Iff.rfl
    · rw [mapState_true, mapState_true, alike]

theorem Kept.view (kept : Kept .truth value value') : logicalView value = .isTrue ↔ logicalView value' = .isTrue := by
  rcases kept with rfl | ⟨state, state', rfl, rfl, alike⟩
  · exact Iff.rfl
  · rw [logicalView_mapState, logicalView_mapState, alike]

/-- The deciding states of a chain are the error and the decisive one. -/
theorem decides_cases (logical : op = .and ∨ op = .or)
    (decides : Decides (neutralState op) .isUndef state) : state = .isErr ∨ state = decisive op := by
  rcases logical with rfl | rfl
  · cases state <;> simp_all [Decides, neutralState, decisive]
  · cases state <;> simp_all [Decides, neutralState, decisive]

section
variable {host : Host} {values : Expr → Value} {op : BinaryOperator} {operands operands' : List Expr}

/-- A chain that is not torn may be put in any order. -/
theorem states_perm (logical : op = .and ∨ op = .or) (whole : ¬Torn values op operands)
    (perm : operands'.Perm operands) :
    result (neutralState op) .isUndef (states values operands') =
      result (neutralState op) .isUndef (states values operands) := by
  refine (result_perm (neutralState_ne) (perm.symm.map _) ?_).symm
  intro first member second member' decides decides'
  rcases decides_cases logical decides with rfl | rfl
  · rcases decides_cases logical decides' with rfl | rfl
    · rfl
    · exact absurd ⟨member, member'⟩ whole
  · rcases decides_cases logical decides' with rfl | rfl
    · exact absurd ⟨member', member⟩ whole
    · rfl

/-- A conjunction is true exactly if all its operands are. -/
theorem conjunction_true (operands : List Expr) :
    result (neutralState .and) .isUndef (states values operands) = .isTrue ↔
      ∀ operand ∈ operands, logicalView (valueOver values operand) = .isTrue := by
  rw [show LogicalState.isTrue = neutralState .and from rfl, result_neutral (neutralState_ne), states, forall_mem_map]

theorem chain_value (logical : op = .and ∨ op = .or) (left : Expr) :
    valueOver values (.binary op left right) =
      mapState (result (neutralState op) .isUndef (states values (flattenChain op (.binary op left right)))) := by
  rw [(joins_flattenChain op _).state values logical, valueOver, applyLogical_state logical, logicalView_mapState]

variable (host values) (stats : Expr → Option Float) {host values}

/-- Reordering keeps what is needed of a settled expression. -/
theorem reorderTo_kept (fuel : Nat) (settled : Settled host values need expr) :
    Kept need (valueOver values expr) (valueOver values (reorderTo host stats fuel expr).1) := by
  induction fuel generalizing need expr with
  | zero => exact .of_eq need rfl
  | succ fuel ih =>
    cases settled with
    | leaf none =>
      cases expr with
      | paren | binary | unary | conditional | elvis =>
        rw [innerNodes] at none
        omega
      | _ => exact .of_eq need rfl
    | paren operand => exact ih operand
    | unary operand =>
      have same : valueOver values _ = _ := ih operand
      refine .of_eq need ?_
      simp [reorderTo, valueOver, same]
    | strict plain first second =>
      have left : valueOver values _ = _ := ih first
      have right : valueOver values _ = _ := ih second
      refine .of_eq need ?_
      simp [reorderTo, if_neg plain, valueOver, left, right]
    | @conjunction left right each =>
      obtain ⟨operands, perm, several, same, -⟩ := reorderTo_chain host stats fuel (.inl rfl) left
      refine .inr ⟨_, _, chain_value (.inl rfl) left,
        (congrArg _ same).trans (rebuildChain_value values (.inl rfl) several), ?_⟩
      rw [conjunction_true, conjunction_true]
      have reordered : (∀ operand ∈ operands, logicalView (valueOver values operand) = .isTrue) ↔
          ∀ operand ∈ flattenChain .and (.binary .and left right),
            logicalView (valueOver values (reorderTo host stats fuel operand).1) = .isTrue := by
        simp [perm.mem_iff]
      rw [reordered]
      exact forall₂_congr fun operand member => (ih (each operand member)).view
    | @chain op left right _ logical each whole =>
      obtain ⟨operands, perm, several, same, held⟩ := reorderTo_chain host stats fuel logical left
      have alike : states values ((flattenChain op (.binary op left right)).map fun operand =>
        (reorderTo host stats fuel operand).1) =
          states values (flattenChain op (.binary op left right)) := by
        rw [states, states, map_map]
        refine map_congr_left fun operand member => ?_
        exact congrArg logicalView (show valueOver values operand = _ from ih (each operand member)).symm
      have pure : ((flattenChain op (.binary op left right)).map fun operand =>
        (reorderTo host stats fuel operand).1).all
          (isPureExpr host) = isPureExpr host (.binary op left right) := by
        rw [all_map, ← (joins_flattenChain op (.binary op left right)).pure host]
        exact congrArg (all _) (funext fun operand => reorderTo_pure host stats fuel operand)
      refine .of_eq need ?_
      rw [same, rebuildChain_value values logical several, chain_value logical left, ← alike]
      congr 1
      cases purity : isPureExpr host (.binary op left right) with
      | false => rw [held (pure.trans purity)]
      | true =>
        refine (states_perm logical ?_ perm).symm
        rw [Torn, alike]
        exact whole purity
    | conditional first second third =>
      have condition : valueOver values _ = _ := ih first
      have whenTrue := ih second
      have whenFalse := ih third
      simp only [reorderTo, valueOver, ← condition]
      split
      · exact whenTrue
      · exact whenFalse
      · exact .of_eq need rfl
      · exact .of_eq need rfl
    | elvis first second =>
      have left : valueOver values _ = _ := ih first
      have right := ih second
      simp only [reorderTo, valueOver, ← left]
      split
      · exact right
      · exact .of_eq need rfl

end
end Classad.MatchReorderProofs
