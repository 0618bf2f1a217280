import Classad.FoldShapes

/-! What constant folding can bring to the surface of a query, where probes are taken from:
names, and operators with their operands folded. Both come from the query as written. -/
namespace Classad.ProbeFolding
open Syntax Operators TreeWalk ConstantFold FoldShapes List

/-- A name a probe can be made from: of an attribute, or of a function. -/
inductive Symbol where
  | attr (name : String)
  | func (name : String)

mutual

/-- The names of a query that folding can bring into a probe. -/
def symbols : Expr → List Symbol
  | .reference name _ => [.attr name]
  | .paren inner => symbols inner
  | .binary _ left right => symbols left ++ symbols right
  | .unary _ operand => symbols operand
  | .conditional _ whenTrue whenFalse => symbols whenTrue ++ symbols whenFalse
  | .elvis _ right => symbols right
  | .call name args => .func name :: symbolsAll args
  | _ => []

def symbolsAll : List Expr → List Symbol
  | [] => []
  | head :: rest => symbols head ++ symbolsAll rest

end

def isOrdering : BinaryOperator → Bool
  | .less | .lessEqual | .greater | .greaterEqual => true
  | _ => false

mutual

/-- Every operator that folding can bring to the surface, or directly under a `!`, passes the test with
its operands; `negated` says whether a `!` has been entered. -/
def Surfaced (test : Bool → BinaryOperator → Expr → Expr → Prop) : Bool → Expr → Prop
  | negated, .paren inner => Surfaced test negated inner
  | negated, .binary op left right => test negated op left right ∧
    (op = .and ∨ op = .or → Surfaced test negated left ∧ Surfaced test negated right)
  | negated, .unary op operand => negated = false → op = .not → Surfaced test true operand
  | negated, .conditional _ whenTrue whenFalse => Surfaced test negated whenTrue ∧ Surfaced test negated whenFalse
  | negated, .elvis _ right => Surfaced test negated right
  | negated, .call _ args => SurfacedAll test negated args
  | _, _ => True

def SurfacedAll (test : Bool → BinaryOperator → Expr → Expr → Prop) : Bool → List Expr → Prop
  | _, [] => True
  | negated, head :: rest => Surfaced test negated head ∧ SurfacedAll test negated rest

end

theorem literal_symbols (literal : isLiteralExpr expr = true) : symbols expr = [] := by
  cases expr <;> first | rfl | cases literal

theorem symbolsAll_mem (member : expr ∈ args) : symbols expr ⊆ symbolsAll args := by
  induction args with
  | nil => cases member
  | cons head rest ih =>
    rw [mem_cons] at member
    rcases member with rfl | member
    · exact subset_append_left _ _
    · exact subset_append_of_subset_right _ (ih member)

mutual

/-- Folding brings in no new names. -/
theorem flattenExpr_symbols (host : Host) : ∀ expr : Expr, symbols (flattenExpr host expr) ⊆ symbols expr
  | .nil | .integer _ | .real _ | .string _ | .boolean _ | .undefined | .error | .record _
  | .list _ | .select _ _ | .subscript _ _ => Subset.refl _
  | .reference name scope => by
    rw [flattenExpr]
    split
    · exact nil_subset _
    · exact Subset.refl _
  | .paren inner => by
    have below := flattenExpr_symbols host inner
    rw [flattenExpr]
    rcases foldParen_shape (flattenExpr host inner) with same | same <;> rw [same] <;> exact below
  | .binary op left right => by
    have first := flattenExpr_symbols host left
    have second := flattenExpr_symbols host right
    rw [flattenExpr]
    rcases foldBinary_shape op (flattenExpr host left) (flattenExpr host right) with
      same | ⟨_, _, literal⟩ | ⟨_, _, same | same⟩
    · rw [same]
      exact append_subset.mpr
        ⟨subset_append_of_subset_left _ first, subset_append_of_subset_right _ second⟩
    · rw [literal_symbols literal]
      exact nil_subset _
    · rw [same]
      exact subset_append_of_subset_left _ first
    · rw [same]
      exact subset_append_of_subset_right _ second
  | .unary op operand => by
    rw [flattenExpr]
    rcases foldUnary_shape op (flattenExpr host operand) with same | ⟨_, literal⟩
    · rw [same]
      exact flattenExpr_symbols host operand
    · rw [literal_symbols literal]
      exact nil_subset _
  | .conditional condition whenTrue whenFalse => by
    have first := subset_append_of_subset_left (symbols whenFalse)
      (flattenExpr_symbols host whenTrue)
    have second := subset_append_of_subset_right (symbols whenTrue)
      (flattenExpr_symbols host whenFalse)
    rw [flattenExpr]
    rcases foldConditional_shape (flattenExpr host condition) (flattenExpr host whenTrue)
      (flattenExpr host whenFalse) with same | ⟨_, same | same⟩ <;> rw [same]
    · exact append_subset.mpr ⟨first, second⟩
    · exact first
    · exact second
  | .elvis left right => by
    have below := flattenExpr_symbols host right
    rw [flattenExpr]
    rcases foldElvis_shape (flattenExpr host left) (flattenExpr host right)
      with same | same <;> rw [same] <;> exact below
  | .call name args => by
    have below := subset_cons_of_subset (.func name) (flattenAll_symbols host args)
    rw [flattenExpr]
    rcases foldCall_shape host name (flattenAll host args) with same | ⟨_, member⟩
    · rw [same]
      exact cons_subset_cons _ (flattenAll_symbols host args)
    · exact Subset.trans (symbolsAll_mem member) below

theorem flattenAll_symbols (host : Host) : ∀ args : List Expr, symbolsAll (flattenAll host args) ⊆ symbolsAll args
  | [] => Subset.refl _
  | head :: rest => append_subset.mpr
      ⟨subset_append_of_subset_left _ (flattenExpr_symbols host head),
        subset_append_of_subset_right _ (flattenAll_symbols host rest)⟩

end

theorem literal_surfaced (literal : isLiteralExpr expr = true) : Surfaced test negated expr := by
  cases expr <;> trivial

theorem surfacedAll_mem (all : SurfacedAll test negated args) (member : expr ∈ args) : Surfaced test negated expr := by
  induction args with
  | nil => cases member
  | cons head rest ih =>
    rw [mem_cons] at member
    rcases member with rfl | member
    · exact all.1
    · exact ih all.2 member

/-- One test of operators becomes another as their operands are folded. -/
def FoldsTo (host : Host) (test test' : Bool → BinaryOperator → Expr → Expr → Prop) : Prop :=
  ∀ negated op left right, test negated op left right →
    test' negated op (flattenExpr host left) (flattenExpr host right)

mutual

/-- Folding folds the operands of the operators at the surface, and brings up no others. -/
theorem flattenExpr_surfaced (folds : FoldsTo host test test') : ∀ (negated : Bool) (expr : Expr),
    Surfaced test negated expr → Surfaced test' negated (flattenExpr host expr)
  | _, .nil, _ | _, .integer _, _ | _, .real _, _ | _, .string _, _ | _, .boolean _, _
  | _, .undefined, _ | _, .error, _ | _, .record _, _ | _, .list _, _ | _, .select _ _, _
  | _, .subscript _ _, _ => trivial
  | _, .reference name scope, _ => by
    rw [flattenExpr]
    split <;> trivial
  | negated, .paren inner, passed => by
    have below := flattenExpr_surfaced folds negated inner passed
    rw [flattenExpr]
    rcases foldParen_shape (flattenExpr host inner) with same | same <;> rw [same] <;> exact below
  | negated, .binary op left right, ⟨passed, inner⟩ => by
    have first := fun logical => flattenExpr_surfaced folds negated left (inner logical).1
    have second := fun logical => flattenExpr_surfaced folds negated right (inner logical).2
    rw [flattenExpr]
    rcases foldBinary_shape op (flattenExpr host left) (flattenExpr host right) with
      same | ⟨_, _, literal⟩ | ⟨logical, _, same | same⟩
    · rw [same]
      exact ⟨folds _ _ _ _ passed, fun logical => ⟨first logical, second logical⟩⟩
    · exact literal_surfaced literal
    · rw [same]
      exact first logical
    · rw [same]
      exact second logical
  | negated, .unary op operand, passed => by
    rw [flattenExpr]
    rcases foldUnary_shape op (flattenExpr host operand) with same | ⟨_, literal⟩
    · rw [same]
      exact fun positive negates => flattenExpr_surfaced folds true operand (passed positive negates)
    · exact literal_surfaced literal
  | negated, .conditional condition whenTrue whenFalse, passed => by
    have first := flattenExpr_surfaced folds negated whenTrue passed.1
    have second := flattenExpr_surfaced folds negated whenFalse passed.2
    rw [flattenExpr]
    rcases foldConditional_shape (flattenExpr host condition) (flattenExpr host whenTrue)
      (flattenExpr host whenFalse) with same | ⟨_, same | same⟩ <;> rw [same]
    · exact ⟨first, second⟩
    · exact first
    · exact second
  | negated, .elvis left right, passed => by
    have below := flattenExpr_surfaced folds negated right passed
    rw [flattenExpr]
    rcases foldElvis_shape (flattenExpr host left) (flattenExpr host right)
      with same | same <;> rw [same] <;> exact below
  | negated, .call name args, passed => by
    have below := flattenAll_surfaced folds negated args passed
    rw [flattenExpr]
    rcases foldCall_shape host name (flattenAll host args) with same | ⟨_, member⟩
    · rw [same]
      exact below
    · exact surfacedAll_mem below member

theorem flattenAll_surfaced (folds : FoldsTo host test test') : ∀ (negated : Bool) (args : List Expr),
    SurfacedAll test negated args → SurfacedAll test' negated (flattenAll host args)
  | _, [], _ => trivial
  | negated, head :: rest, passed =>
    ⟨flattenExpr_surfaced folds negated head passed.1, flattenAll_surfaced folds negated rest passed.2⟩

end

end Classad.ProbeFolding
