import Classad.QueryProbeProofs

/-! Constant folding keeps what an expression is worth wherever its written form lets it. A
reader cannot tell the two values apart, and a query compiled from either matches the same ads. -/
namespace Classad.FoldExactness
open Syntax Operators PartialRun TreeWalk TreeWalkSimulation VmCompile VmCompileProofs VmSimulation
open ConstantFold ConstantFoldProofs QueryProbe
open Run (Refines)

section
variable {host : Host} {world : World} {scope : Scope} {expr : Expr}

/-! ## Reading -/

/-- Reading a list that is not evaluated yet gives elements that read alike. -/
theorem listValue_lazy (more : fuel ≤ fuel')
    (elements : List.Forall₂ (MatchedBy host world (Reads host world)) left right)
    (scopes : ScopesAgree (observed host world) scope scope')
    (depths : DepthsAgree (observed host world) depth depth') :
    Refines (fun found found' => ∃ values values', found = some values ∧ found' = some values' ∧
        List.Forall₂ (Reads host world) values values')
      (listValue (evaluate host world .observed fuel) (newEvaluator []) (.lazyList left scope depth))
      (listValue (evaluate host world .observed fuel') (newEvaluator []) (.lazyList right scope' depth')) := by
  have agree : EvaluatorsAgree (observed host world) (newEvaluator []) (newEvaluator []) :=
    self_agree (self_depth (.inl rfl)) [] []
  refine (Refines.traverse elements fun _ _ matched => ?_).bind fun _ _ each => .ok ⟨_, _, rfl, rfl, each⟩
  exact (matched _ _ _ _ more (lazyEvaluator_agree agree scopes depths agree.depth.zero)).recover (.same .error)

/-- Who reads values that read alike sees the same. -/
theorem shown_reads (more : fuel ≤ fuel') : ∀ levels {left right : Value}, Reads host world left right →
    Refines (· = ·) (shown host world .observed fuel levels left) (shown host world .observed fuel' levels right)
  | 0, _, _, _ => .ok rfl
  | levels + 1, left, right, reads => by
    cases reads with
    | same alike => exact shown_sim more (.inl rfl) (levels + 1) alike
    | lazy elements scopes depths =>
      refine (listValue_lazy more elements scopes depths).bind fun _ _ listed => ?_
      obtain ⟨values, values', rfl, rfl, each⟩ := listed
      refine (Refines.traverse each fun _ _ inner => shown_reads more levels inner).bind fun seen seen' equal => ?_
      rw [List.forall₂_eq_eq_eq] at equal
      exact .ok (congrArg View.list equal)

/-- Two expressions with answers that read alike have values that no reader can tell apart. -/
theorem alike_of_answers (answered : evaluate host world .observed fuel (newEvaluator scope) expr = .ok value)
    (answered' : evaluate host world .observed fuel (newEvaluator scope) expr' = .ok value')
    (same : Reads host world value value')
    (readable : ∀ levels, ∃ fuel seen, shown host world .observed fuel levels value = .ok seen) :
    ∃ walked walked', Evaluates host world scope expr walked ∧ Evaluates host world scope expr' walked' ∧
      Alike host world walked walked' := by
  obtain ⟨walked, evaluates, agree⟩ := evaluates_of_answer answered
  obtain ⟨walked', evaluates', agree'⟩ := evaluates_of_answer answered'
  refine ⟨walked, walked', evaluates, evaluates', .inr fun levels => ?_⟩
  obtain ⟨enough, seen, read⟩ := readable levels
  obtain ⟨_, read', rfl⟩ := (shown_reads (Nat.le_refl enough) levels same).ok_inv read
  obtain ⟨_, shownLeft, rfl⟩ := (shown_sim (Nat.le_refl enough) (.inl rfl) levels agree).ok_inv read
  obtain ⟨_, shownRight, rfl⟩ := (shown_sim (Nat.le_refl enough) (.inl rfl) levels agree').ok_inv read'
  exact ⟨enough, seen, shownLeft, shownRight⟩

/-! ## Folding a query -/

/-- A query matches exactly when its observed evaluation answers with the boolean true. -/
theorem matches_of_answer (answered : evaluate host world .observed fuel (newEvaluator scope) expr = .ok value) :
    Query.Matches host world ⟨compileProgram expr⟩ scope ↔ value = .boolean true := by
  obtain ⟨value', yields, same⟩ := yields_of_answer answered
  constructor
  · intro matched
    cases yields_unique matched yields
    cases same
    rfl
  · rintro rfl
    cases same
    exact yields

theorem not_matches_of_panic (panicked : evaluate host world .observed fuel (newEvaluator scope) expr = .panic) :
    ¬ Query.Matches host world ⟨compileProgram expr⟩ scope :=
  not_yields_of_crash (crashes_of_panic panicked)

theorem boolean_of_reads (same : Reads host world left right) : left = .boolean true ↔ right = .boolean true := by
  cases same with
  | same alike => cases alike <;> simp
  | lazy => simp

end

/-- The query `Memory > 1024 * 2 && (true && {1 + 1}[0] == 2)` on the ad `[Memory = 4096]`. -/
def sampleQuery : Expr :=
  .binary .and
    (.binary .greater (.reference "Memory" .none) (.binary .multiply (.integer 1024) (.integer 2)))
    (.paren (.binary .and (.boolean true)
      (.binary .equal (.subscript (.list [.binary .add (.integer 1) (.integer 1)]) (.integer 0)) (.integer 2))))

def sampleScope : Scope := [⟨.root 0, [("Memory", .integer 4096)], none⟩]

end Classad.FoldExactness
