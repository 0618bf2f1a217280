import Classad.MatchComparison
import Classad.MatchReorderProofs

/-! Matches of a job whose Requirements have been reordered. If every leaf of the Requirements
answers, so do the expression and its reordered form, with the values the leaves give them; the
rest of the two ads does not see the change. -/
namespace Classad.ReorderedMatches
open Syntax Operators OperatorProofs PartialRun TreeWalk TreeWalkSimulation List
open Matchmaking MatchReorder MatchReorderProofs MatchComparison

/-! ## Evaluation from the leaves -/

section
variable {host : Host} {world : World} {scope : Scope} {values : Expr → Value}

/-- One level of evaluation below the recursion limit. -/
theorem answers_node (present : expr ≠ .nil) (below : depth < maxEvalDepth)
    (node : ∃ fuel answer, evalNode host world (evaluate host world .observed fuel) ⟨scope, depth + 1, [], none⟩ expr =
      .ok answer ∧ erase answer = value) : AnswersFrom host world scope depth expr value := by
  obtain ⟨fuel, answer, ran, same⟩ := node
  refine ⟨fuel + 1, answer, ?_, same⟩
  rw [evaluate_succ present, if_neg (by simpa using below)]
  exact ran

theorem erase_plain (plain : IsPlain value) : erase value = value := by
  cases value with
  | lazyList | list | classAd => exact absurd plain id
  | _ => rfl

section
variable (below : depth < maxEvalDepth)
include below

theorem answers_binary (first : AnswersFrom host world scope (depth + 1) left leftValue)
    (second : AnswersFrom host world scope (depth + 1) right rightValue) :
    AnswersFrom host world scope depth (.binary op left right) (applyBinaryValues op leftValue rightValue) := by
  obtain ⟨fuel, ran⟩ := first.shallower le_rfl
  obtain ⟨fuel', ran'⟩ := second.shallower le_rfl
  obtain ⟨l, ranLeft, rfl⟩ := ran (max fuel fuel') (Nat.le_max_left ..)
  obtain ⟨r, ranRight, rfl⟩ := ran' (max fuel fuel') (Nat.le_max_right ..)
  refine answers_node nofun below ⟨max fuel fuel', applyBinaryValues op l r, ?_, ?_⟩
  · exact binaryOp_value ranLeft ranRight
  · rw [applyBinaryValues_erase]
    exact erase_plain (applyBinaryValues_plain op l r)

theorem answers_unary (answers : AnswersFrom host world scope (depth + 1) operand value) :
    AnswersFrom host world scope depth (.unary op operand) (applyUnaryValue op value) := by
  obtain ⟨fuel, answer, ran, rfl⟩ := answers
  refine answers_node nofun below ⟨fuel, applyUnaryValue op answer, ?_, ?_⟩
  · simp [evalNode, ran, Run.ok_bind]
  · rw [applyUnaryValue_erase]
    exact erase_plain (applyUnaryValue_plain)

theorem answers_conditional (first : AnswersFrom host world scope (depth + 1) condition value)
    (second : AnswersFrom host world scope (depth + 1) whenTrue value')
    (third : AnswersFrom host world scope (depth + 1) whenFalse value'') :
    AnswersFrom host world scope depth (.conditional condition whenTrue whenFalse) (match logicalView value with
        | .isTrue => value'
        | .isFalse => value''
        | .isUndef => .undefined
        | .isErr => .error) := by
  obtain ⟨fuel, ran⟩ := first.shallower le_rfl
  obtain ⟨fuel', ran'⟩ := second.shallower le_rfl
  obtain ⟨fuel'', ran''⟩ := third.shallower le_rfl
  let enough := max fuel (max fuel' fuel'')
  obtain ⟨chosen, ranCondition, rfl⟩ := ran enough (by omega)
  obtain ⟨held, ranTrue, rfl⟩ := ran' enough (by omega)
  obtain ⟨other, ranFalse, rfl⟩ := ran'' enough (by omega)
  refine answers_node nofun below ⟨enough, ?_⟩
  simp only [evalNode, evaluateConditional, ranCondition, ranTrue, ranFalse, Run.ok_bind, logicalView_erase]
  cases logicalView chosen with
  | isTrue => exact ⟨held, rfl, rfl⟩
  | isFalse => exact ⟨other, rfl, rfl⟩
  | isUndef => exact ⟨.undefined, rfl, rfl⟩
  | isErr => exact ⟨.error, rfl, rfl⟩

theorem answers_elvis (first : AnswersFrom host world scope (depth + 1) left leftValue)
    (second : AnswersFrom host world scope (depth + 1) right rightValue) :
    AnswersFrom host world scope depth (.elvis left right)
    (if leftValue.isUndefined then rightValue else leftValue) := by
  obtain ⟨fuel, ran⟩ := first.shallower le_rfl
  obtain ⟨fuel', ran'⟩ := second.shallower le_rfl
  obtain ⟨l, ranLeft, rfl⟩ := ran (max fuel fuel') (Nat.le_max_left ..)
  obtain ⟨r, ranRight, rfl⟩ := ran' (max fuel fuel') (Nat.le_max_right ..)
  refine answers_node nofun below ⟨max fuel fuel', ?_⟩
  simp only [evalNode, evaluateElvis, ranLeft, Run.ok_bind, isUndefined_erase]
  cases l.isUndefined with
  | true => exact ⟨r, ranRight, rfl⟩
  | false => exact ⟨l, rfl, rfl⟩

end

/-- If the leaves answer from far enough down, the expression answers with the value they
give it. -/
theorem answers_over (bounded : limit < maxEvalDepth)
    (answers : ∀ leaf ∈ leaves expr, AnswersFrom host world scope limit leaf (values leaf))
    (above : depth + innerNodes expr ≤ limit) : AnswersFrom host world scope depth expr (valueOver values expr) := by
  induction expr using leaves.induct generalizing depth with
  | case1 operand ih =>
    rw [innerNodes] at above
    obtain ⟨fuel, answer, ran, same⟩ := ih answers (show (depth + 1) + innerNodes operand ≤ limit by omega)
    exact answers_node Expr.noConfusion (by omega) ⟨fuel, answer, ran, same⟩
  | case2 op left right ih ih' =>
    rw [innerNodes] at above
    rw [leaves] at answers
    exact answers_binary (by omega) (ih (fun leaf member => answers leaf (mem_append_left _ member)) (by omega))
      (ih' (fun leaf member => answers leaf (mem_append_right _ member)) (by omega))
  | case3 op operand ih =>
    rw [innerNodes] at above
    exact answers_unary (by omega) (ih answers (by omega))
  | case4 condition whenTrue whenFalse ih ih' ih'' =>
    rw [innerNodes] at above
    rw [leaves] at answers
    refine answers_conditional (by omega) (ih (fun leaf member => answers leaf ?_) (by omega))
      (ih' (fun leaf member => answers leaf ?_) (by omega))
      (ih'' (fun leaf member => answers leaf (mem_append_right _ member)) (by omega))
    · exact mem_append_left _ (mem_append_left _ member)
    · exact mem_append_left _ (mem_append_right _ member)
  | case5 left right ih ih' =>
    rw [innerNodes] at above
    rw [leaves] at answers
    exact answers_elvis (by omega) (ih (fun leaf member => answers leaf (mem_append_left _ member)) (by omega))
      (ih' (fun leaf member => answers leaf (mem_append_right _ member)) (by omega))
  | case6 leaf paren binary unary conditional elvis =>
    have own : leaves leaf = [leaf] := by
      rw [leaves] <;> assumption
    have value : valueOver values leaf = values leaf := by
      rw [valueOver] <;> assumption
    obtain ⟨fuel, ran⟩ := (answers leaf (by simp [own])).shallower (by omega : depth ≤ limit)
    obtain ⟨answer, returned, same⟩ := ran fuel le_rfl
    exact ⟨fuel, answer, returned, same.trans value.symm⟩

theorem within_leaves (within : Within host true names expr)
    (member : leaf ∈ leaves expr) : Within host true names leaf := by
  induction expr using leaves.induct with
  | case1 operand ih => exact ih within member
  | case2 op left right ih ih' =>
    rw [leaves, mem_append] at member
    exact member.elim (ih within.1) (ih' within.2)
  | case3 op operand ih => exact ih within member
  | case4 condition whenTrue whenFalse ih ih' ih'' =>
    rw [leaves, mem_append, mem_append] at member
    rcases member with (first | second) | third
    · exact ih within.1 first
    · exact ih' within.2.1 second
    · exact ih'' within.2.2 third
  | case5 left right ih ih' =>
    rw [leaves, mem_append] at member
    exact member.elim (ih within.1) (ih' within.2)
  | case6 expr paren binary unary conditional elvis =>
    have own : leaves expr = [expr] := by
      rw [leaves] <;> assumption
    rw [own, mem_singleton] at member
    rwa [member]

end

/-! ## The job's copy -/

/-- Inserting an attribute binds its name, and changes no other. -/
theorem bound_insertAttr (host : Host) (name : String) (expr : Expr) (attributes : Attributes) (norm : String) :
    bound host norm (insertAttr host name expr attributes) =
      if norm = normalizeName host name then some expr else bound host norm attributes := by
  induction attributes with
  | nil => simp [insertAttr, bound, eq_comm]
  | cons head rest ih =>
    obtain ⟨held, value⟩ := head
    rw [insertAttr]
    split
    next last =>
      obtain ⟨none, same⟩ := last
      rw [Option.isNone_iff_eq_none] at none
      simp only [bound, same]
      by_cases asked : norm = normalizeName host name
      · rw [if_pos asked, asked, none]
        simp
      · rw [if_neg asked]
        simp [Ne.symm asked]
    next other =>
      simp only [bound, ih]
      by_cases asked : norm = normalizeName host name
      · simp [asked]
      · simp [asked]

section
variable (host : Host) (names : String → Prop) (reparse : Attributes → Option Attributes) (job slot : Party)
variable (values : Expr → Value)

/-- When reordering is safe for a job and a slot, given the names that evaluating their
Requirements comes by and the values of the leaves of the job's: none of them is Requirements
itself, the copy of the job binds them as the job does, no leaf comes near the recursion limit,
and no rearranged chain is torn. -/
structure ReorderSafe : Prop where
  alone : job.parents = []
  found : jobRequirementsExpr host job.attributes = lookupNorm host job.attributes (normalizeName host "Requirements")
  apart : ¬names (normalizeName host "Requirements")
  copied : ∀ copy, reparse job.attributes = some copy → ∀ norm, names norm →
    bound host norm copy = bound host norm job.attributes
  jobClosed : Closed host names job.attributes
  slotClosed : Closed host names slot.attributes
  parentsClosed : ∀ attributes ∈ slot.parents, Closed host names attributes
  required : ∀ expr, lookupNorm host job.attributes (normalizeName host "Requirements") = some expr ∨
    lookupNorm host slot.attributes (normalizeName host "Requirements") = some expr → Within host true names expr
  shallow : ∀ expr, jobRequirementsExpr host job.attributes = some expr → innerNodes expr < maxEvalDepth
  answers : ∀ expr, jobRequirementsExpr host job.attributes = some expr → ∀ leaf ∈ leaves expr,
    AnswersFrom host (matchWorld job slot) (jobScope job) (innerNodes expr) leaf (values leaf)
  settled : ∀ expr, jobRequirementsExpr host job.attributes = some expr → Settled host values .truth expr

end

section
variable {host : Host} {names : String → Prop} {reparse : Attributes → Option Attributes} {job slot : Party}
  {values : Expr → Value}

/-- The copy with the reordered Requirements agrees with the job on these names. -/
theorem copy_agrees (safe : ReorderSafe host names reparse job slot values)
    (parsed : reparse job.attributes = some copy) (expr : Expr) :
    PartiesAgree host names job ⟨insertAttr host "Requirements" expr copy, []⟩ where
  attributes :=
    { bound := fun norm known => by
        have other : norm ≠ normalizeName host "Requirements" := fun same => safe.apart (same ▸ known)
        rw [bound_insertAttr, if_neg other, safe.copied copy parsed norm known]
      within := safe.jobClosed }
  parents := by
    rw [safe.alone]
    exact .nil

/-- The job's side of the match: the reordered Requirements are true where the original are. -/
theorem reordered_true_iff (stats : Expr → Option Float) (safe : ReorderSafe host names reparse job slot values)
    (parsed : reparse job.attributes = some copy)
    (found : jobRequirementsExpr host job.attributes = some expr) :
    let job' : Party := ⟨insertAttr host "Requirements" (reorderTo host stats fuel expr).1 copy, []⟩
    Evaluates host (matchWorld job' slot) (jobScope job') (reorderTo host stats fuel expr).1 (.boolean true) ↔
      Evaluates host (matchWorld job slot) (jobScope job) expr (.boolean true) := by
  intro job'
  have jobs := copy_agrees safe parsed (reorderTo host stats fuel expr).1
  have slots := PartiesAgree.refl safe.slotClosed safe.parentsClosed
  have bounded := safe.shallow expr found
  obtain ⟨moved, above⟩ := reorderTo_leaves host stats fuel expr
  have held : lookupNorm host job.attributes (normalizeName host "Requirements") = some expr := by
    rw [← safe.found, found]
  have within := safe.required expr (.inl held)
  have original := answers_over bounded (safe.answers expr found) (show 0 + innerNodes expr ≤ innerNodes expr by omega)
  have reordered : AnswersFrom host (matchWorld job' slot) (jobScope job') 0 (reorderTo host stats fuel expr).1
      (valueOver values (reorderTo host stats fuel expr).1) := by
    refine answers_over bounded (fun leaf member => ?_)
      (show 0 + innerNodes (reorderTo host stats fuel expr).1 ≤ _ by omega)
    have own := moved.mem_iff.mp member
    exact (safe.answers expr found leaf own).agree jobs slots (jobs.scope 0 (some 1)) (within_leaves within own)
  rw [reordered.evaluates_true, original.evaluates_true]
  exact (reorderTo_kept stats fuel (safe.settled expr found)).isTrue.symm

theorem lookupNorm_ne_nil {norm : String} (found : lookupNorm host attributes norm = some expr) : expr ≠ .nil := by
  rintro rfl
  unfold lookupNorm at found
  split at found
  · cases found
  next other =>
    exact other found

/-- The reordered job is the job itself, or its copy with reordered Requirements. -/
theorem reorderJobRequirements_cases (host : Host) {stats : Expr → Option Float}
    {reparse : Attributes → Option Attributes} {job : Party} :
    reorderJobRequirements host stats reparse job = job ∨
      ∃ expr copy, jobRequirementsExpr host job.attributes = some expr ∧
      (reorderShortCircuit host stats expr).2 = true ∧
        reparse job.attributes = some copy ∧ reorderJobRequirements host stats reparse job =
          ⟨insertAttr host "Requirements" (reorderShortCircuit host stats expr).1 copy, []⟩ := by
  unfold reorderJobRequirements
  cases found : jobRequirementsExpr host job.attributes with
  | none => exact .inl rfl
  | some expr =>
    by_cases moved : (reorderShortCircuit host stats expr).2 = true
    · cases parsed : reparse job.attributes with
      | none => exact .inl (if_pos moved)
      | some copy => exact .inr ⟨expr, copy, rfl, moved, rfl, if_pos moved⟩
    · exact .inl (if_neg moved)

end

/-- `(TARGET.Memory > 1024 + 1) || TARGET.HasDocker`. -/
def sampleClauses : Expr :=
  .binary .or (.paren (.binary .greater (.reference "Memory" .target) (.binary .add (.integer 1024) (.integer 1))))
    (.reference "HasDocker" .target)

def sampleJob : Party := ⟨[("Requirements", sampleClauses)], []⟩

def sampleSlot :
    Party := ⟨[("Memory", .integer 2048), ("HasDocker", .boolean false), ("Requirements", .boolean true)], []⟩

/-- The values of the leaves in the sample. -/
def sampleValues : Expr → Value
  | .reference "Memory" _ => .integer 2048
  | .reference _ _ => .boolean false
  | .integer value => .integer value
  | _ => .undefined

theorem sample_safe : ReorderSafe (asciiHost 0) (fun norm => norm = "memory" ∨
      norm = "hasdocker") some sampleJob sampleSlot
    sampleValues where
  alone := rfl
  found := rfl
  copied := by
    rintro _ ⟨⟩ norm _
    rfl
  apart := by decide +kernel
  jobClosed := by rintro _ _ (rfl | rfl) <;> exact nofun
  slotClosed := by
    rintro _ _ (rfl | rfl) ⟨⟩
    · trivial
    · trivial
  parentsClosed := nofun
  required := by
    rintro _ (⟨⟨⟩⟩ | ⟨⟨⟩⟩)
    · exact ⟨⟨fun _ => .inl (by decide +kernel), trivial, trivial⟩, fun _ => .inr (by decide +kernel)⟩
    · trivial
  shallow := by
    rintro _ ⟨⟩
    decide
  answers := by
    rintro _ ⟨⟩ leaf member
    have each : leaf = .reference "Memory" .target ∨ leaf = .integer 1024 ∨ leaf = .integer 1 ∨
        leaf = .reference "HasDocker" .target := by
      simpa [leaves, sampleClauses] using member
    rcases each with rfl | rfl | rfl | rfl
    · exact ⟨2, .integer 2048, rfl, rfl⟩
    · exact ⟨1, .integer 1024, rfl, rfl⟩
    · exact ⟨1, .integer 1, rfl, rfl⟩
    · exact ⟨2, .boolean false, rfl, rfl⟩
  settled := by
    rintro _ ⟨⟩
    refine .chain (.inr rfl) ?_ ?_
    · intro operand member
      have each : operand = .paren (.binary .greater (.reference "Memory" .target)
          (.binary .add (.integer 1024) (.integer 1))) ∨ operand = .reference "HasDocker" .target := by
        simpa [flattenChain] using member
      rcases each with rfl | rfl
      · exact .paren (.strict (by decide) (.leaf rfl) (.strict (by decide) (.leaf rfl) (.leaf rfl)))
      · exact .leaf rfl
    · rintro - ⟨error, -⟩
      revert error
      decide +kernel

/-- `(1/0 == 1)`, an error. -/
def failingClause : Expr := .paren (.binary .equal (.binary .divide (.integer 1) (.integer 0)) (.integer 1))

/-- The clause costs five, the literal one. -/
theorem reorder_failing : reorderShortCircuit (asciiHost 0) (fun _ => none)
    (.binary .or failingClause (.boolean true)) =
    (.binary .or (.boolean true) failingClause, true) := by
  have cheaper : operandRank (fun _ => none) .or (.boolean true) < operandRank (fun _ => none) .or failingClause := by
    decide +kernel
  have ranked : rankOperands (fun _ => none) .or [failingClause, .boolean true] =
      [⟨.boolean true, operandRank (fun _ => none) .or (.boolean true), 1⟩,
        ⟨failingClause, operandRank (fun _ => none) .or failingClause, 0⟩] := by
    simp [rankOperands, zipIdx, cheaper]
  have chain : reorderOperands (asciiHost 0) (fun _ => none) .or [failingClause, .boolean true] =
      (.binary .or (.boolean true) failingClause, true) := by
    rw [reorderOperands, if_pos ⟨by decide, by decide +kernel⟩, ranked]
    rfl
  change ((reorderOperands (asciiHost 0) (fun _ => none) .or [failingClause, .boolean true]).1,
    (reorderOperands (asciiHost 0) (fun _ => none) .or [failingClause, .boolean true]).2) = _
  rw [chain]

end Classad.ReorderedMatches
