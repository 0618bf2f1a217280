import Classad.MatchPrefilter
import Classad.MatchComparison
import Classad.VmCompileProofs
import Classad.WireProofs

/-! The pre-filter against the match. The two run one program; as long as every reference that is
loaded has one value in both, they stay in the same state, so it is enough to compare references. -/
namespace Classad.MatchPrefilterProofs
open Syntax Operators PartialRun TreeWalk TreeWalkSimulation VmCompile VmSimulation VmCompileProofs List
open ConstantFold ConstantFoldProofs QueryProbe QueryProbeProofs ResolvedRun Wire WireProofs Matchmaking MatchPrefilter

/-! ## References -/

section
variable (host : Host) (job slot : Party)

/-- A job attribute whose value does not depend on the slot: bound to a literal, or to an expression
that has, without meeting a cycle, one value with the slot as target and without a target. -/
def Steady (norm : String) (expr : Expr) : Prop :=
  isLiteralExpr expr = true ∨ ∃ fuel value,
    evaluate host (aloneWorld job) .panics fuel (newEvaluator (jobScope job)) expr = .ok value ∧
    evaluate host (matchWorld job slot) .panics fuel ⟨jobScope job, 0, [(.root 0, norm)], none⟩ expr = .ok value

/-- A reference of the job's own that means the same in the match as before it. An unscoped name the job
lacks must not be found further on, neither in a parent nor in the slot. -/
def Settled (name : String) (scope : AttributeScope) : Prop :=
  match bound host (host.toLower name) job.attributes with
  | some expr => scope ≠ .parent ∧ expr ≠ .nil ∧ Steady host job slot (host.toLower name) expr
  | none => match scope with
    | .my => True
    | .parent => ∀ attributes ∈ job.parents, lookupNorm host attributes (host.toLower name) = none
    | _ => ∀ attributes ∈ slot.attributes :: job.parents, lookupNorm host attributes (host.toLower name) = none

end

section
variable {host : Host} {job slot : Party} {vals : JobVals} {norm : String}

theorem lookupNorm_some (found : bound host norm attributes = some expr) (present : expr ≠ .nil) :
    lookupNorm host attributes norm = some expr := by
  rw [lookupNorm, found]
  split
  next nothing =>
    exact absurd (Option.some.inj nothing) present
  · rfl

/-- The value kept for a name the job binds. -/
theorem jobValues_bound (values : JobValues host job vals)
    (found : bound host norm job.attributes = some expr) (present : expr ≠ .nil) :
    ∃ value, vals norm = some value ∧ Evaluates host (aloneWorld job) (jobScope job) expr value := by
  have lookup := lookupNorm_some found present
  have kept := values norm
  split at kept
  next missing =>
    obtain ⟨name, same, member⟩ := bound_mem found
    exact absurd (by simpa using same) (find?_eq_none.mp missing _ member)
  next attr hit =>
    have same : normalizeName host attr.1 = norm := by simpa [normalizeName] using find?_some hit
    obtain ⟨value, held, evaluates⟩ := kept
    rw [EvaluatesAttr, same, lookup] at evaluates
    exact ⟨value, held, evaluates⟩

/-- No value is kept for a name the job does not bind. -/
theorem jobValues_unbound (values : JobValues host job vals)
    (missing : TreeWalk.bound host norm job.attributes = none) : vals norm = none := by
  have kept := values norm
  split at kept
  · exact kept
  next attr hit =>
    have same : host.toLower attr.1 = norm := by simpa using find?_some hit
    rw [← same] at missing
    exact absurd missing (PartialDecodeProofs.bound_ne_none (mem_of_find?_eq_some hit))

/-- A reference to a literal is answered at once. -/
theorem literal_answers (literal : isLiteralExpr expr = true) :
    evalAttrExpr (evaluate host world .panics (fuel + 1)) (newEvaluator (jobScope job)) scope frame norm expr =
      .ok (exprToValue expr) :=
  evalAttrExpr_literal literal (show 0 < maxEvalDepth by decide) fuel norm

/-- In the match a steady attribute has the value that was kept. -/
theorem Steady.answers (steady : Steady host job slot norm expr)
    (evaluates : Evaluates host (aloneWorld job) (jobScope job) expr value) :
    ∃ fuel, evalAttrExpr (evaluate host (matchWorld job slot) .panics fuel) (newEvaluator (jobScope job)) (jobScope job)
      ⟨.root 0, job.attributes, some 1⟩ norm expr = .ok value := by
  by_cases literal : isLiteralExpr expr = true
  · have own : Evaluates host (aloneWorld job) (jobScope job) expr (exprToValue expr) :=
      ⟨1, by rw [evaluate_literal literal (show 0 < maxEvalDepth by decide)]; rfl⟩
    cases evaluates_unique own evaluates
    exact ⟨1, literal_answers literal⟩
  · obtain ⟨fuel, answer, alone, matched⟩ := steady.resolve_left literal
    have same : Evaluates host (aloneWorld job) (jobScope job) expr answer := ⟨fuel, by rw [alone]; rfl⟩
    cases evaluates_unique same evaluates
    refine ⟨fuel, ?_⟩
    rw [evalAttrExpr, if_neg literal]
    exact (if_neg not_mem_nil).trans matched

end

section
variable {host : Host} {job : Party} {vals : JobVals} {stored : StoredWire host} {attributes : Attributes}
  {opening : Opening}
variable {name : String} {scope : AttributeScope}

/-- The slot as the match sees it. -/
abbrev decodedSlot (attributes : Attributes) : Party := ⟨attributes, []⟩

/-- A `TARGET` reference that does not fall back has the value of the decoded slot. -/
theorem target_answers (decoded : stored.decode opening = some attributes) (distinct : Distinct host attributes)
    (recognizes : Recognizes stored name) (answered : (tryResolve stored name).answer = some value) :
    resolveAttributeReference host (matchWorld job (decodedSlot attributes))
      (evaluate host (matchWorld job (decodedSlot attributes)) .panics 1) (newEvaluator (jobScope job)) name .target =
        .ok value := by
  have read := tryResolve_bound decoded distinct recognizes
  change evalAttrIn host _ _ (slotScope (decodedSlot attributes)) (host.toLower name) = _
  simp only [evalAttrIn, slotScope, Party.scope, decodedSlot]
  cases found : tryResolve stored name with
  | absent =>
    rw [found] at read answered
    cases answered
    rw [lookupNorm_none read]
  | fellBack =>
    rw [found] at answered
    cases answered
  | value held =>
    rw [found] at read answered
    cases answered
    obtain ⟨expr, same, literal, rfl⟩ := read
    rw [lookupNorm_literal same literal]
    exact literal_answers literal

/-- A name no ad of a scope has is not found. -/
theorem lookupInScope_none {norm : String}
    {scope : Scope} (missing : ∀ frame ∈ scope, lookupNorm host frame.attributes norm = none) :
    lookupInScope host norm scope = none := by
  induction scope with
  | nil => rfl
  | cons frame rest ih =>
    rw [lookupInScope, missing frame (.head _)]
    exact ih fun other member => missing other (.tail _ member)

theorem parents_missing {norm : String} (missing : ∀ attributes ∈ job.parents, lookupNorm host attributes norm = none) :
    ∀ frame ∈ (jobScope job).tail, lookupNorm host frame.attributes norm = none := by
  intro frame member
  obtain ⟨i, inside, rfl⟩ := mem_mapIdx.mp member
  exact missing _ (getElem_mem inside)

/-- A settled reference of the job's own has, in the match, the value that was kept for it. -/
theorem settled_answers (values : JobValues host job vals) (own : scope ≠ .target)
    (settled : Settled host job (decodedSlot attributes) name scope) :
    ∃ fuel, resolveAttributeReference host (matchWorld job (decodedSlot attributes))
      (evaluate host (matchWorld job (decodedSlot attributes)) .panics fuel) (newEvaluator (jobScope job)) name scope =
        .ok ((vals (host.toLower name)).getD .undefined) := by
  unfold Settled at settled
  split at settled
  next expr found =>
    obtain ⟨inner, present, steady⟩ := settled
    obtain ⟨value, kept, evaluates⟩ := jobValues_bound values found present
    obtain ⟨fuel, answered⟩ := steady.answers evaluates
    have lookup := lookupNorm_some found present
    refine ⟨fuel, ?_⟩
    rw [kept, Option.getD_some]
    cases scope with
    | target => exact absurd rfl own
    | parent => exact absurd rfl inner
    | my =>
      change evalAttrIn host _ _ (jobScope job) (host.toLower name) = _
      simp only [evalAttrIn, jobScope, Party.scope, lookup]
      exact answered
    | none =>
      have here : lookupInScope host (host.toLower name) (jobScope job) =
          some (jobScope job, ⟨.root 0, job.attributes, some 1⟩, expr) := by
        simp [jobScope, Party.scope, lookupInScope, lookup]
      simp only [resolveAttributeReference, newEvaluator, normalizeName, here]
      exact answered
  next missing =>
    refine ⟨0, ?_⟩
    rw [jobValues_unbound values missing, Option.getD_none]
    have lookup := lookupNorm_none missing
    cases scope with
    | target => exact absurd rfl own
    | my =>
      change evalAttrIn host _ _ (jobScope job) (host.toLower name) = _
      simp [evalAttrIn, jobScope, Party.scope, lookup]
    | parent =>
      change evalAttrIn host _ _ (jobScope job).tail (host.toLower name) = _
      unfold evalAttrIn
      split
      · rfl
      next frame rest parents =>
        rw [parents_missing settled frame (by rw [parents]; exact .head _)]
    | none =>
      have nowhere : lookupInScope host (host.toLower name) (jobScope job) = none := by
        rw [jobScope, Party.scope, lookupInScope, lookup]
        exact lookupInScope_none (parents_missing fun other member => settled other (.tail _ member))
      have slotless : lookupInScope host (host.toLower name) (slotScope (decodedSlot attributes)) = none :=
        lookupInScope_none fun frame member => by
          cases mem_singleton.mp member
          exact settled attributes (.head _)
      have target : targetOf (matchWorld job (decodedSlot attributes)) (jobScope job) =
        slotScope (decodedSlot attributes) := rfl
      simp [resolveAttributeReference, newEvaluator, normalizeName, nowhere, target, slotless]

end

/-! ## The verdict -/

section
variable (host : Host)

/-- When the pre-filter may speak for the match: the Requirements it compiles are those the evaluator
finds, they read no clock and stay below the recursion guard, and of the references that their evaluation
in the match comes to, those to the slot are of unambiguous names and those to the job mean the same with
the slot as target. -/
structure Reliable (job : Party) (stored : StoredWire host) (attributes : Attributes) (expr : Expr) : Prop where
  found : lookupNorm host job.attributes (normalizeName host "Requirements") = some expr
  timeless : referencesCurrentTime host expr = false
  shallow : StaysBelowMaxDepth host (matchWorld job (decodedSlot attributes)) (jobScope job) expr
  distinct : Distinct host attributes
  recognized : ∀ name,
    Loads host (matchWorld job (decodedSlot attributes)) (compileProgram expr) (jobScope job) (name, .target) →
      Recognizes stored name
  settled : ∀ name scope, scope ≠ .target →
    Loads host (matchWorld job (decodedSlot attributes)) (compileProgram expr) (jobScope job) (name, scope) →
      Settled host job (decodedSlot attributes) name scope

end

section
variable {host : Host} {job : Party} {vals : JobVals} {stored : StoredWire host} {attributes : Attributes}
  {opening : Opening}
variable {expr : Expr}

/-- With enough fuel every reference that is loaded and that the scope answers has its answer in the match. -/
theorem Reliable.references (reliable : Reliable host job stored attributes expr) (values : JobValues host job vals)
    (decoded : stored.decode opening = some attributes) :
    ∃ fuel, ∀ ref ∈ (compileProgram expr).refs,
      Loads host (matchWorld job (decodedSlot attributes)) (compileProgram expr) (jobScope job) ref →
        ReferenceAgrees host (MatchScope.resolve ⟨stored, vals⟩) (matchWorld job (decodedSlot attributes))
          (evaluate host (matchWorld job (decodedSlot attributes)) .panics fuel) (newEvaluator (jobScope job)) ref := by
  refine exists_enough (fun ref n m more agrees loaded value answered =>
    resolve_mono more (agrees loaded value answered)) ?_
  rintro ⟨name, scope⟩ -
  by_cases target : scope = .target
  · subst target
    exact ⟨1, fun loaded value answered => target_answers decoded reliable.distinct
      (reliable.recognized name loaded) answered⟩
  · by_cases loaded : Loads host (matchWorld job (decodedSlot attributes)) (compileProgram expr) (jobScope job)
      (name, scope)
    · obtain ⟨fuel, answers⟩ := settled_answers values target (reliable.settled name scope target loaded)
      refine ⟨fuel, fun _ value answered => ?_⟩
      have kept : value = (vals (host.toLower name)).getD .undefined := by
        cases scope <;> first | exact absurd rfl target | exact (Option.some.inj answered).symm
      rw [kept]
      exact answers
    · exact ⟨0, fun here => absurd here loaded⟩

end

/-- `TARGET.Memory >= Wanted && Foo == 1`. -/
def sampleRequirements : Expr :=
  .binary .and (.binary .greaterEqual (.reference "Memory" .target) (.reference "Wanted" .none))
    (.binary .equal (.reference "Foo" .none) (.integer 1))

def sampleJob : Party := ⟨[("Requirements", sampleRequirements), ("Wanted", .integer 1024)], []⟩

/-- A table of values that has an entry for every attribute of the job, and no other. -/
theorem jobValues_of_table {job : Party} {table : List (String × Value)}
    (names : table.map Prod.fst = job.attributes.map fun attr => host.toLower attr.1)
    (held : ∀ attr ∈ job.attributes, ∃ value, table.lookup (host.toLower attr.1) = some value ∧
      EvaluatesAttr host (aloneWorld job) (jobScope job) job.attributes attr.1 value) :
    JobValues host job fun norm => table.lookup norm := by
  intro norm
  split
  next missing =>
    rw [lookup_eq_none_iff]
    intro entry member
    rw [bne_iff_ne]
    rintro rfl
    have listed : entry.1 ∈ job.attributes.map fun attr => host.toLower attr.1 := by
      rw [← names]
      exact mem_map_of_mem member
    obtain ⟨attr, held, folded⟩ := mem_map.mp listed
    exact find?_eq_none.mp missing attr held (beq_iff_eq.mpr folded)
  next attr hit =>
    have same : host.toLower attr.1 = norm := by simpa using find?_some hit
    rw [← same]
    exact held attr (mem_of_find?_eq_some hit)

def sampleVals : List (String × Value) := [("requirements", .undefined), ("wanted", .integer 1024)]

theorem sample_values : JobValues (asciiHost 0) sampleJob fun norm => sampleVals.lookup norm := by
  refine jobValues_of_table (by decide +kernel) fun attr member => ?_
  simp only [sampleJob, mem_cons, not_mem_nil, or_false] at member
  rcases member with rfl | rfl
  · exact ⟨.undefined, rfl, ⟨6, rfl⟩⟩
  · exact ⟨.integer 1024, rfl, ⟨6, rfl⟩⟩

def sampleStored : StoredWire (asciiHost 0) :=
  ⟨.inline, ⟨[(.name "Memory", .plain (.integer 512)), (.name "Foo", .plain (.integer 1))], []⟩⟩

def sampleSlot : Attributes := [("Memory", .integer 512), ("Foo", .integer 1)]

/-- The slot is too small, so the evaluation does not come to `Foo`, which only the slot has. -/
theorem sample_loads (loaded : Loads (asciiHost 0) (matchWorld sampleJob (decodedSlot sampleSlot))
    (compileProgram sampleRequirements) (jobScope sampleJob) ref) : ref ∈ [("Memory", .target), ("Wanted", .none)] := by
  obtain ⟨fuel, steps, loaded⟩ := loaded
  match fuel, steps with
  | _, 0 => cases loaded
  | 0, _ + 1 | _ + 1, 1 =>
    cases mem_singleton.mp loaded
    exact .head _
  | _ + 1, 2 | _ + 1, 3 | _ + 1, 4 | _ + 1, _ + 5 => exact loaded

theorem sample_reliable (expr : Expr) (named : jobRequirementsExpr (asciiHost 0) sampleJob.attributes = some expr) :
    Reliable (asciiHost 0) sampleJob sampleStored sampleSlot expr := by
  cases named
  refine ⟨rfl,
    by decide +kernel, ⟨12, Run.ne_stuck_of_answers (by decide +kernel)⟩, by rw [Distinct]; decide +kernel, ?_, ?_⟩
  · intro name loaded spelled node held
    have read := sample_loads loaded
    simp only [mem_cons, Prod.mk.injEq, reduceCtorEq, and_false, not_mem_nil, or_false, and_true] at read
    subst read
    simp only [sampleStored, mem_cons, Prod.mk.injEq, Key.name.injEq, not_mem_nil, or_false] at held
    rcases held with ⟨rfl, _⟩ | ⟨rfl, _⟩
    · exact iff_of_true rfl rfl
    · exact iff_of_false (by decide +kernel) (by decide +kernel)
  · intro name scope own loaded
    have read := sample_loads loaded
    simp only [mem_cons, Prod.mk.injEq, own, and_false, not_mem_nil, or_false, false_or] at read
    obtain ⟨rfl, rfl⟩ := read
    exact ⟨nofun, nofun, .inl rfl⟩

end Classad.MatchPrefilterProofs
