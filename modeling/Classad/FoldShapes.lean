import Classad.ConstantFold
import Classad.OperatorProofs

/-! What constant folding can make of each node: the node over its folded operands, one of
these operands, or a literal. -/
namespace Classad.FoldShapes
open Syntax Operators TreeWalk ConstantFold
open Bool (and_eq_true or_eq_true and_eq_true_iff not_eq_true')

/-! ## Literals -/

theorem literal_of_boolean (reads : exprToValue expr = .boolean result) : expr = .boolean result := by
  cases expr <;> simp_all [exprToValue]

theorem literal_of_defined (defined : (exprToValue expr).isUndefined = false) : isLiteralExpr expr = true := by
  cases expr <;> simp_all [exprToValue, isLiteralExpr, Value.isUndefined]

theorem valueToExpr_literal (value : Value) : isLiteralExpr (valueToExpr value) = true := by
  cases value <;> rfl

theorem foldResult_inv (folds : foldResult result = some folded) : folded = valueToExpr result := by
  unfold foldResult at folds
  split at folds
  · cases folds
  · exact (Option.some.inj folds).symm

@[simp] theorem keepLiteral_literal (literal : isLiteralExpr expr = true) : keepLiteral expr = some expr :=
    if_pos literal

@[simp] theorem keepLiteral_open (apart : isLiteralExpr expr = false) : keepLiteral expr = none := by
  simp [keepLiteral, apart]

@[simp] theorem isLiteralExpr_boolean (value : Bool) : isLiteralExpr (.boolean value) = true := rfl

@[simp] theorem keepLiteral_unary : keepLiteral (.unary op operand) = none := rfl

@[simp] theorem keepLiteral_binary : keepLiteral (.binary op left right) = none := rfl

@[simp] theorem keepLiteral_call : keepLiteral (.call name args) = none := rfl

theorem literal_of_keeps (keeps : keepLiteral expr = some literal) : literal = expr ∧ isLiteralExpr expr = true := by
  unfold keepLiteral at keeps
  split at keeps
  next holds => exact ⟨(Option.some.inj keeps).symm, holds⟩
  · cases keeps

theorem keepLiteral_isSome : (keepLiteral expr).isSome = isLiteralExpr expr := by
  cases literal : isLiteralExpr expr <;> simp [literal]

theorem open_of_keeps (keeps : keepLiteral expr = none) : isLiteralExpr expr = false := by
  simpa [keepLiteral] using keeps

/-! ## Nodes -/

theorem foldIdentity_inv (folds : foldIdentity op left right = some folded) :
    isLiteralExpr left = true ∧ isLiteralExpr right = true ∧
      folded = valueToExpr (applyBinaryValues op (exprToValue left) (exprToValue right)) := by
  unfold foldIdentity at folds
  split at folds
  next literals =>
    split at folds
    next result computed =>
      refine ⟨literals.2.1, literals.2.2, ?_⟩
      rw [computed, ← Option.some.inj folds]
      rfl
    · cases folds
  · cases folds

theorem foldOperation_inv (folds : foldOperation op left right = some folded) :
    isLiteralExpr left = true ∧ isLiteralExpr right = true ∧
      folded = valueToExpr (applyBinaryValues op (exprToValue left) (exprToValue right)) := by
  unfold foldOperation at folds
  split at folds
  · cases folds
  next defined =>
    simp only [Bool.or_eq_true, not_or, Bool.not_eq_true] at defined
    exact ⟨literal_of_defined defined.1, literal_of_defined defined.2, foldResult_inv folds⟩

/-- `&&` and `||` are cut short by a boolean on the left, or by one on the right if there is none
on the left. A boolean that decides takes the place of the whole, any other leaves it to the other
operand. -/
theorem foldShortCircuit_inv (folds : foldShortCircuit op left right = some folded) :
    (op = .and ∨ op = .or) ∧ (left = .boolean (decides op) ∧ folded = left ∨
      left = .boolean (!decides op) ∧ folded = right ∨
      (∀ value, left ≠ .boolean value) ∧
        (right = .boolean (decides op) ∧ folded = right ∨ right = .boolean (!decides op) ∧ folded = left)) := by
  unfold foldShortCircuit at folds
  split at folds
  case h_5 => cases folds
  case h_1 decided reads | h_2 decided reads =>
    cases literal_of_boolean reads
    cases decided <;> cases folds <;> simp [decides]
  case h_3 decided reads undecided | h_4 decided reads undecided =>
    have apart : ∀ value, left ≠ .boolean value := by
      rintro value rfl
      exact undecided value rfl
    cases literal_of_boolean reads
    cases decided <;> cases folds <;> simp [decides, apart]

theorem foldShortCircuit_decided (logical : op = .and ∨ op = .or) (right : Expr) :
    foldShortCircuit op (.boolean (decides op)) right = some (.boolean (decides op)) := by
  rcases logical with rfl | rfl <;> rfl

theorem foldBinary_decided (logical : op = .and ∨ op = .or) (right : Expr) :
    foldBinary op (.boolean (decides op)) right = .boolean (decides op) := by
  simp [foldBinary, foldShortCircuit_decided logical]

theorem combine_decided (logical : op = .and ∨ op = .or) (right : Option Expr) :
    combine op (some (.boolean (decides op))) right = some (.boolean (decides op)) := by
  cases right with
  | none => exact if_pos ⟨logical, rfl⟩
  | some second => rw [combine, foldBinary_decided logical]; rfl

/-- Folding a binary operator takes one of three forms. -/
theorem foldBinary_cases (op : BinaryOperator) (left right : Expr) :
    foldShortCircuit op left right = some (foldBinary op left right) ∨ foldShortCircuit op left right = none ∧
      (foldBinary op left right = .binary op left right ∨
        isLiteralExpr left = true ∧ isLiteralExpr right = true ∧ foldBinary op left right =
          valueToExpr (applyBinaryValues op (exprToValue left) (exprToValue right))) := by
  unfold foldBinary
  cases short : foldShortCircuit op left right with
  | some folded => exact .inl rfl
  | none =>
    refine .inr ⟨rfl, ?_⟩
    cases identity : foldIdentity op left right with
    | some folded => exact .inr (foldIdentity_inv identity)
    | none =>
      cases operation : foldOperation op left right with
      | none => exact .inl rfl
      | some folded => exact .inr (foldOperation_inv operation)

/-- What folding makes of an operator: the operator over the folded operands, a literal if these
are literals, or one operand of a `&&` or `||` of which one is a literal. -/
theorem foldBinary_shape (op : BinaryOperator) (left right : Expr) :
    foldBinary op left right = .binary op left right ∨
      (isLiteralExpr left = true ∧ isLiteralExpr right = true ∧ isLiteralExpr (foldBinary op left right) = true) ∨
      ((op = .and ∨ op = .or) ∧ (isLiteralExpr left = true ∨ isLiteralExpr right = true) ∧
        (foldBinary op left right = left ∨ foldBinary op left right = right)) := by
  rcases foldBinary_cases op left right with short | ⟨_, same | ⟨literal, literal', same⟩⟩
  · obtain ⟨logical, ⟨rfl, same⟩ | ⟨rfl, same⟩ | ⟨_, ⟨rfl, same⟩ | ⟨rfl, same⟩⟩⟩ := foldShortCircuit_inv short
    · exact .inr (.inr ⟨logical, .inl rfl, .inl same⟩)
    · exact .inr (.inr ⟨logical, .inl rfl, .inr same⟩)
    · exact .inr (.inr ⟨logical, .inr rfl, .inr same⟩)
    · exact .inr (.inr ⟨logical, .inr rfl, .inl same⟩)
  · exact .inl same
  · exact .inr (.inl ⟨literal, literal', same ▸ valueToExpr_literal _⟩)

theorem foldUnary_shape (op : UnaryOperator) (operand : Expr) : foldUnary op operand = .unary op operand ∨
    isLiteralExpr operand = true ∧ isLiteralExpr (foldUnary op operand) = true := by
  unfold foldUnary
  split
  · exact .inl rfl
  next defined =>
    cases folds : foldResult (applyUnaryValue op (exprToValue operand)) with
    | none => exact .inl rfl
    | some literal =>
      refine .inr ⟨literal_of_defined (by simpa using defined), ?_⟩
      exact foldResult_inv folds ▸ valueToExpr_literal _

/-- A conditional folds to one of its branches, when its condition is a literal. -/
theorem foldConditional_shape (condition whenTrue whenFalse : Expr) :
    foldConditional condition whenTrue whenFalse = .conditional condition whenTrue whenFalse ∨
      isLiteralExpr condition = true ∧ (foldConditional condition whenTrue whenFalse = whenTrue ∨
        foldConditional condition whenTrue whenFalse = whenFalse) := by
  unfold foldConditional
  split
  next decided reads =>
    cases literal_of_boolean reads
    cases decided
    · exact .inr ⟨rfl, .inr rfl⟩
    · exact .inr ⟨rfl, .inl rfl⟩
  · exact .inl rfl

theorem foldElvis_shape (left right : Expr) :
    foldElvis left right = right ∨ foldElvis left right = .elvis left right := by
  unfold foldElvis
  split
  · exact .inl rfl
  · exact .inr rfl

theorem foldParen_shape (inner : Expr) : foldParen inner = inner ∨ foldParen inner = .paren inner := by
  unfold foldParen
  split <;> simp

/-- A call folds to one of its arguments or stays a call. -/
theorem foldCall_shape (host : Host) (name : String) (args : List Expr) : foldCall host name args = .call name args ∨
    host.equalFold name "ifThenElse" = true ∧ foldCall host name args ∈ args := by
  unfold foldCall
  split
  next folds =>
    split
    · split
      next decided _ => cases decided <;> simp [folds]
      · exact .inl rfl
    · exact .inl rfl
  · exact .inl rfl

section
variable {host : Host}

/-! ## What stays as it is -/

mutual

/-- Folding leaves an inert expression alone. -/
theorem flattenExpr_inert : ∀ expr, inert host expr = true → flattenExpr host expr = expr
  | .nil, _ | .integer _, _ | .real _, _ | .string _, _ | .boolean _, _ | .undefined, _ | .error, _
  | .record _, _ => rfl
  | .paren inner, still => by
    obtain ⟨operator, still⟩ := and_eq_true_iff.mp still
    rw [flattenExpr, flattenExpr_inert inner still]
    cases inner <;> first | rfl | cases operator
  | .reference name scope, still => by
    simp only [inert, not_eq_true'] at still
    simp [flattenExpr, still]
  | .unary op operand, still => by
    simp only [inert, and_eq_true, not_eq_true'] at still
    rw [flattenExpr, flattenExpr_inert operand still.1]
    rcases foldUnary_shape op operand with same | ⟨literal, _⟩
    · exact same
    · simp_all
  | .binary op left right, still => by
    simp only [inert, and_eq_true] at still
    rw [flattenExpr, flattenExpr_inert left still.1.1, flattenExpr_inert right still.1.2]
    rcases foldBinary_shape op left right with same | ⟨literal, literal', _⟩ | ⟨logical, literal | literal, _⟩
    · exact same
    · simp_all
    · simp_all
    · simp_all
  | .conditional condition whenTrue whenFalse, still => by
    simp only [inert, and_eq_true, not_eq_true'] at still
    rw [flattenExpr, flattenExpr_inert whenTrue still.1.1.2, flattenExpr_inert whenFalse still.1.2,
      flattenExpr_inert condition still.1.1.1]
    rcases foldConditional_shape condition whenTrue whenFalse with same | ⟨literal, _⟩
    · exact same
    · simp_all
  | .list elements, still => by rw [flattenExpr, flattenAll_inert elements still]
  | .call name args, still => by
    simp only [inert, and_eq_true, not_eq_true'] at still
    rw [flattenExpr, flattenAll_inert args still.2]
    rcases foldCall_shape host name args with same | ⟨folds, _⟩
    · exact same
    · simp_all
  | .select record attr, still => by rw [flattenExpr, flattenExpr_inert record still]
  | .subscript container index, still => by
    obtain ⟨still, still'⟩ := and_eq_true_iff.mp still
    rw [flattenExpr, flattenExpr_inert container still, flattenExpr_inert index still']

theorem flattenAll_inert : ∀ elements, inertAll host elements = true → flattenAll host elements = elements
  | [], _ => rfl
  | head :: rest, still => by
    obtain ⟨still, still'⟩ := and_eq_true_iff.mp still
    rw [flattenAll, flattenExpr_inert head still, flattenAll_inert rest still']

end

/-! ## What comes down to a literal -/

theorem keepLiteral_foldParen (inner : Expr) : keepLiteral (foldParen inner) = keepLiteral inner := by
  cases inner <;> rfl

theorem keepLiteral_foldUnary (op : UnaryOperator) (operand : Expr) : keepLiteral (foldUnary op operand) =
    (keepLiteral operand).bind fun literal => keepLiteral (foldUnary op literal) := by
  cases literal : isLiteralExpr operand with
  | true => simp [literal]
  | false =>
    rcases foldUnary_shape op operand with same | ⟨literal', _⟩
    · simp [literal, same]
    · simp_all

/-- A choice comes down to what the branch taken comes down to; the other one is not looked at. -/
theorem keepLiteral_foldConditional (condition whenTrue whenFalse : Expr)
    (first : condition ≠ .boolean false → taken = keepLiteral whenTrue)
    (second : condition ≠ .boolean true → other = keepLiteral whenFalse) :
    keepLiteral (foldConditional condition whenTrue whenFalse) = choose (keepLiteral condition) taken other := by
  unfold foldConditional
  split
  next decided reads =>
    cases literal_of_boolean reads
    cases decided
    · exact (second nofun).symm
    · exact (first nofun).symm
  next unsettled =>
    unfold choose
    split
    next decided kept =>
      cases (literal_of_keeps kept).1
      exact absurd rfl (unsettled decided)
    · rfl

theorem keepLiteral_foldCall (folds : host.equalFold name "ifThenElse" = true) :
    keepLiteral (foldCall host name [condition, whenTrue, whenFalse]) =
      keepLiteral (foldConditional condition whenTrue whenFalse) := by
  simp only [foldCall, folds, if_true, foldConditional]
  split <;> rfl

/-- With an operand that is not a literal, an operator comes down to a literal only if a boolean on
the left decides. That one on the right does is ruled out here. -/
theorem foldBinary_open {op : BinaryOperator} {left right : Expr}
    (quiet : (op = .and ∨ op = .or) → right = .boolean (decides op) → isLiteralExpr left = true)
    (partly : isLiteralExpr left = true → isLiteralExpr right = false) :
    keepLiteral (foldBinary op left right) = none ∨
      (op = .and ∨ op = .or) ∧ left = .boolean (decides op) ∧ foldBinary op left right = left := by
  rcases foldBinary_cases op left right with short | ⟨_, same | ⟨literal, literal', _⟩⟩
  · obtain ⟨logical, ⟨same, folded⟩ | ⟨rfl, folded⟩ | ⟨_, ⟨rfl, folded⟩ | ⟨rfl, folded⟩⟩⟩ := foldShortCircuit_inv short
    · exact .inr ⟨logical, same, folded⟩
    · exact .inl (by rw [folded, keepLiteral_open (partly rfl)])
    · cases partly (quiet logical rfl)
    · have apart : isLiteralExpr left = false := by
        cases literal : isLiteralExpr left with
        | false => rfl
        | true => cases partly literal
      exact .inl (by rw [folded, keepLiteral_open apart])
  · exact .inl (by rw [same, keepLiteral_binary])
  · rw [partly literal] at literal'
    cases literal'

theorem keepLiteral_foldBinary {op : BinaryOperator} {left right : Expr}
    (quiet : (op = .and ∨ op = .or) → right = .boolean (decides op) → isLiteralExpr left = true) :
    keepLiteral (foldBinary op left right) = combine op (keepLiteral left) (keepLiteral right) := by
  unfold combine
  split
  next first second kept kept' => rw [(literal_of_keeps kept).1, (literal_of_keeps kept').1]
  next decided kept kept' =>
    cases (literal_of_keeps kept).1
    split
    next cut =>
      obtain ⟨logical, rfl⟩ := cut
      simpa [foldBinary, foldShortCircuit_decided logical] using kept
    next uncut =>
      refine (foldBinary_open quiet fun _ => open_of_keeps kept').resolve_right ?_
      rintro ⟨logical, same, _⟩
      exact uncut ⟨logical, Expr.boolean.inj same⟩
  next apart unsettled =>
    have partly : isLiteralExpr left = true → isLiteralExpr right = false := fun literal => by
      cases literal' : isLiteralExpr right with
      | false => rfl
      | true => exact (apart _ _ (keepLiteral_literal literal) (keepLiteral_literal literal')).elim
    refine (foldBinary_open quiet partly).resolve_right ?_
    rintro ⟨_, rfl, _⟩
    exact unsettled _ rfl (keepLiteral_open (partly rfl))

theorem settled_iff (constantly : constant host expr = keepLiteral folded) :
    settled host expr = some value ↔ folded = .boolean value := by
  unfold settled
  rw [constantly]
  constructor
  · intro reads
    split at reads
    next kept =>
      cases reads
      exact (literal_of_keeps kept).1.symm
    · cases reads
  · rintro rfl
    rfl

/-- The check of a `&&` or `||`, part by part. -/
theorem foldsExactly_logical {grade : Grade} (logical : op = .and ∨ op = .or) :
    foldsExactly host grade (.binary op left right) = true ↔ foldsExactly host .logic left = true ∧
      (settled host left = some (decides op) ∨ foldsExactly host .logic right = true ∧
        (settled host left = none ∨ grade = .logic ∨ isLogical host right = true ∧
          foldsExactly host .read right = true) ∧
        (settled host left ≠ none ∨
          (settled host right ≠ some (!decides op) ∨ grade = .logic ∨
            isLogical host left = true ∧ foldsExactly host .read left = true) ∧
          (settled host right ≠ some (decides op) ∨ (constant host left).any noError = true))) := by
  simp [foldsExactly, logical, or_assoc, and_assoc]

mutual

/-- Where folding is exact, an expression comes down to a literal exactly if it is constant. -/
theorem constant_exact : ∀ grade expr, foldsExactly host grade expr = true →
    constant host expr = keepLiteral (flattenExpr host expr)
  | _, .nil, _ | _, .integer _, _ | _, .real _, _ | _, .string _, _ | _, .boolean _, _ | _, .undefined, _
  | _, .error, _ | _, .record _, _ | _, .list _, _ | _, .select _ _, _ | _, .subscript _ _, _ => rfl
  | grade, .paren inner, exact => by
    rw [constant, flattenExpr, keepLiteral_foldParen]
    exact constant_exact grade inner exact
  | _, .reference name scope, exact => by
    simp only [foldsExactly, not_eq_true'] at exact
    simp [flattenExpr, exact, constant]
  | _, .unary op operand, exact => by
    rw [constant, flattenExpr, keepLiteral_foldUnary, constant_exact _ operand exact]
  | grade, .binary op left right, exact => by
    rw [constant, flattenExpr]
    by_cases logical : op = .and ∨ op = .or
    · obtain ⟨first, rest⟩ := (foldsExactly_logical logical).mp exact
      have constantly := constant_exact .logic left first
      rcases rest with decided | ⟨second, _, quiet⟩
      · rw [constantly, (settled_iff constantly).mp decided, foldBinary_decided logical]
        exact combine_decided logical _
      · have constantly' := constant_exact .logic right second
        rw [constantly, constantly', keepLiteral_foldBinary]
        intro _ decided
        have settles := (settled_iff constantly').mpr decided
        rcases quiet with settles' | ⟨_, open' | passes⟩
        · obtain ⟨value, settles'⟩ := Option.ne_none_iff_exists'.mp settles'
          rw [(settled_iff constantly).mp settles', isLiteralExpr_boolean]
        · exact absurd settles open'
        · rw [← keepLiteral_isSome, ← constantly]
          exact Option.isSome_of_any passes
    · simp only [foldsExactly, if_neg logical, and_eq_true] at exact
      rw [constant_exact .read left exact.1, constant_exact .read right exact.2,
        keepLiteral_foldBinary fun logical' => absurd logical' logical]
  | grade, .conditional condition whenTrue whenFalse, exact => by
    simp only [foldsExactly, and_eq_true, or_eq_true, beq_iff_eq] at exact
    obtain ⟨⟨first, second⟩, third⟩ := exact
    have constantly := constant_exact .logic condition first
    rw [constant, flattenExpr, keepLiteral_foldConditional, constantly]
    · intro apart
      exact constant_exact grade whenTrue (second.resolve_left (mt (settled_iff constantly).mp apart))
    · intro apart
      exact constant_exact grade whenFalse (third.resolve_left (mt (settled_iff constantly).mp apart))
  | grade, .elvis left right, exact => by
    simp only [foldsExactly, and_eq_true] at exact
    obtain ⟨⟨literal, first⟩, second⟩ := exact
    rw [constant_exact .value left first, keepLiteral_isSome] at literal
    rw [constant, flattenExpr, foldElvis, constant_exact .value left first, keepLiteral_literal literal,
      constant_exact grade right second]
    generalize flattenExpr host left = folded at literal
    cases folded <;> first | rfl | cases literal
  | grade, .call name args, exact => by
    unfold foldsExactly at exact
    rw [constant, flattenExpr]
    split
    next folds =>
      simp only [folds, Bool.not_true, Bool.false_or, and_eq_true, beq_iff_eq] at exact
      rw [if_pos exact.1] at exact
      exact constantBranches_exact grade args exact.2 folds
    next kept => simp [foldCall, kept]

theorem constantBranches_exact : ∀ grade args, foldsExactlyBranches host grade args = true →
    host.equalFold name "ifThenElse" = true →
    constantBranches host args = keepLiteral (foldCall host name (flattenAll host args))
  | grade, [condition, whenTrue, whenFalse], exact, folds => by
    simp only [foldsExactlyBranches, and_eq_true, or_eq_true, beq_iff_eq] at exact
    obtain ⟨⟨first, second⟩, third⟩ := exact
    have constantly := constant_exact .logic condition first
    rw [constantBranches, flattenAll, flattenAll, flattenAll, flattenAll, keepLiteral_foldCall folds,
      keepLiteral_foldConditional, constantly]
    · intro apart
      exact constant_exact grade whenTrue (second.resolve_left (mt (settled_iff constantly).mp apart))
    · intro apart
      exact constant_exact grade whenFalse (third.resolve_left (mt (settled_iff constantly).mp apart))
  | _, [], _, folds | _, [_], _, folds | _, [_, _], _, folds | _, _ :: _ :: _ :: _ :: _, _, folds => by
    simp [foldCall, flattenAll, folds, constantBranches]

end

end
end Classad.FoldShapes
