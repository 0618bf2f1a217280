import Classad.TreeWalkSimulation
import Classad.VmCompile

/-! The tree walker's simulation carried over to the bytecode machine: two runs of one
program whose scopes agree stay in step, instruction by instruction. -/
namespace Classad.VmSimulation
open Syntax Operators OperatorProofs PartialRun TreeWalk TreeWalkSimulation VmCompile List
open Run (Refines)

/-- The pools of a program hold nothing that reaches beyond the names being compared. -/
structure ProgramAgrees (cmp : Comparison) (p : Program) : Prop where
  consts : ∀ value ∈ p.consts, ValuesAgree cmp value value
  refs : ∀ ref ∈ p.refs, (ref.2 = .target → cmp.targets = true) →
    cmp.names (normalizeName cmp.host ref.1)
  nodes : ∀ node ∈ p.nodes, Within cmp.host cmp.targets cmp.names node

def StacksAgree (cmp : Comparison) : List Value → List Value → Prop :=
  Forall₂ (ValuesAgree cmp)

def StatesAgree (cmp : Comparison) (left right : Nat × List Value) : Prop :=
  left.1 = right.1 ∧ StacksAgree cmp left.2 right.2

theorem poolAt_mem (found : poolAt pool a = .ok item) : item ∈ pool := by
  unfold poolAt at found
  split at found
  · cases found
  · split at found
    next present =>
      cases found
      exact mem_of_getElem? present
    · cases found

/-- Indexing a pool either fails on both sides or hands over one of its items. -/
theorem poolAt_bind {related : γ → δ → Prop} {next : α → Run γ} {next' : α → Run δ}
    (each : ∀ item ∈ pool, Refines related (next item) (next' item)) :
    Refines related (poolAt pool a >>= next) (poolAt pool a >>= next') := by
  cases found : poolAt pool a with
  | ok item => exact each item (poolAt_mem found)
  | panic => exact .panic
  | stuck => exact .stuck

section
variable {cmp : Comparison} {recurse recurse' : Recurse} {ev ev' : Evaluator} {p : Program}

theorem jumpTo_sim (aligned : StacksAgree cmp stack stack') :
    Refines (StatesAgree cmp) (jumpTo a stack) (jumpTo a stack') := by
  unfold jumpTo
  split
  · exact .stuck
  · exact .ok ⟨rfl, aligned⟩

theorem stepShort_sim {op : BinaryOperator} {a : Int} {ip : Nat} (aligned : StacksAgree cmp stack stack') :
    Refines (StatesAgree cmp) (stepShort op a ip stack) (stepShort op a ip stack') := by
  cases aligned with
  | nil => exact .stuck
  | cons top rest =>
    simp only [stepShort, top.logicalView.shortCircuit op]
    split
    next decides =>
      exact jumpTo_sim (.cons (.ofPlain (shortCircuit_plain decides)) rest)
    · exact .ok ⟨rfl, .cons top rest⟩

theorem stepCombine_sim
    (respects : ∀ left left' right right', ValuesAgree cmp left left' → ValuesAgree cmp right right' →
      ValuesAgree cmp (combine left right) (combine left' right')) (aligned : StacksAgree cmp stack stack') :
    Refines (StatesAgree cmp) (stepCombine combine ip stack) (stepCombine combine ip stack') := by
  cases aligned with
  | nil => exact .stuck
  | cons top rest =>
    cases rest with
    | nil => exact .stuck
    | cons second rest => exact .ok ⟨rfl, .cons (respects _ _ _ _ second top) rest⟩

theorem applyPoolBinary_agree {op : PoolOp} (left left' right right' : Value)
    (first : ValuesAgree cmp left left') (second : ValuesAgree cmp right right') :
    ValuesAgree cmp (applyPoolBinary op left right) (applyPoolBinary op left' right') := by
  cases op with
  | binary op => exact first.applyBinary op second
  | unary _ => exact .error

theorem applyPoolUnary_agree {op : PoolOp} (same : ValuesAgree cmp value value') :
    ValuesAgree cmp (applyPoolUnary op value) (applyPoolUnary op value') := by
  cases op with
  | unary op => exact same.applyUnary op
  | binary _ => exact .error

section
variable (below : Simulates cmp recurse recurse') (agree : EvaluatorsAgree cmp ev ev') (program : ProgramAgrees cmp p)
include below agree program

/-- One instruction takes agreeing machine states to agreeing machine states. -/
theorem step_sim (aligned : StacksAgree cmp stack stack') :
    Refines (StatesAgree cmp) (step cmp.host cmp.world recurse ev p instr ip stack)
      (step cmp.host cmp.world' recurse' ev' p instr ip stack') := by
  obtain ⟨op, a⟩ := instr
  cases op with
  | pushConst =>
    exact poolAt_bind fun value member => .ok ⟨rfl, .cons (program.consts value member) aligned⟩
  | pushTrue => exact .ok ⟨rfl, .cons (.boolean true) aligned⟩
  | pushFalse => exact .ok ⟨rfl, .cons (.boolean false) aligned⟩
  | pushUndef => exact .ok ⟨rfl, .cons .undefined aligned⟩
  | pushError => exact .ok ⟨rfl, .cons .error aligned⟩
  | loadRef =>
    refine poolAt_bind fun ref member => ?_
    refine (evaluateAttributeReference_sim below agree (program.refs ref member)).bind
      fun value value' same => .ok ⟨rfl, .cons same aligned⟩
  | binop => exact poolAt_bind fun op _ => stepCombine_sim (applyPoolBinary_agree) aligned
  | unop =>
    refine poolAt_bind fun op _ => ?_
    cases aligned with
    | nil => exact .stuck
    | cons top rest => exact .ok ⟨rfl, .cons (applyPoolUnary_agree top) rest⟩
  | shortAnd => exact stepShort_sim aligned
  | shortOr => exact stepShort_sim aligned
  | combineAnd =>
    exact stepCombine_sim (fun _ _ _ _ first second => first.applyBinary .and second) aligned
  | combineOr =>
    exact stepCombine_sim (fun _ _ _ _ first second => first.applyBinary .or second) aligned
  | jmpIfNotUndef =>
    cases aligned with
    | nil => exact .stuck
    | cons top rest =>
      simp only [step, top.isUndefined]
      split
      · exact .ok ⟨rfl, rest⟩
      · exact jumpTo_sim (.cons top rest)
  | evalNode =>
    refine poolAt_bind fun node member => ?_
    exact (below ev ev' node agree (program.nodes node member)).bind
      fun value value' same => .ok ⟨rfl, .cons same aligned⟩

/-- Runs of the machine stay in step; the right one may take longer. -/
theorem exec_sim (longer : steps ≤ steps') (ip : Nat) (aligned : StacksAgree cmp stack stack') :
    Refines (ValuesAgree cmp) (exec cmp.host cmp.world recurse ev p steps ip stack)
      (exec cmp.host cmp.world' recurse' ev' p steps' ip stack') := by
  induction steps generalizing steps' ip stack stack' with
  | zero => exact .stuck
  | succ steps ih =>
    obtain ⟨steps', rfl⟩ : ∃ rest, steps' = rest + 1 := ⟨steps' - 1, by omega⟩
    simp only [exec]
    split
    · cases aligned with
      | nil => exact .ok .undefined
      | cons top rest => exact .ok top
    next instr _ =>
      refine (step_sim below agree program aligned).bind ?_
      rintro ⟨ip, stack⟩ ⟨_, stack'⟩ ⟨rfl, aligned⟩
      exact ih (by omega) ip aligned

end

end

/-! ## Programs -/

section
variable {cmp : Comparison} {p q : Program}

section
variable (program : ProgramAgrees cmp p)
include program

theorem ProgramAgrees.ins (op : Opcode) (a : Int) : ProgramAgrees cmp (p.ins op a) :=
  ⟨program.consts, program.refs, program.nodes⟩

theorem ProgramAgrees.patch (i target : Nat) : ProgramAgrees cmp (p.patch i target) :=
  ⟨program.consts, program.refs, program.nodes⟩

theorem ProgramAgrees.addOp (op : PoolOp) (opcode : Opcode) :
    ProgramAgrees cmp (p.addOp op opcode) :=
  ⟨program.consts, program.refs, program.nodes⟩

theorem ProgramAgrees.pushConst (plain : IsPlain value) :
    ProgramAgrees cmp (p.pushConst value) := by
  refine ⟨fun const member => ?_, program.refs, program.nodes⟩
  rcases mem_append.mp member with member | member
  · exact program.consts const member
  · rw [mem_singleton.mp member]
    exact .ofPlain plain

theorem ProgramAgrees.addRef
    (known : (scope = .target → cmp.targets = true) → cmp.names (normalizeName cmp.host name)) :
    ProgramAgrees cmp (p.addRef name scope) := by
  refine ⟨program.consts, fun ref member => ?_, program.nodes⟩
  rcases mem_append.mp member with member | member
  · exact program.refs ref member
  · rw [mem_singleton.mp member]
    exact known

theorem ProgramAgrees.addNode
    (within : Within cmp.host cmp.targets cmp.names node) : ProgramAgrees cmp (p.addNode node) := by
  refine ⟨program.consts, program.refs, fun other member => ?_⟩
  rcases mem_append.mp member with member | member
  · exact program.nodes other member
  · rw [mem_singleton.mp member]
    exact within

end

theorem emit_agrees : ∀ (expr : Expr) {p : Program}, ProgramAgrees cmp p →
    Within cmp.host cmp.targets cmp.names expr → ProgramAgrees cmp (emit expr p)
  | .nil, _, program, _ | .undefined, _, program, _ | .error, _, program, _ => program.ins _ _
  | .boolean value, _, program, _ => by
    unfold emit
    split <;> exact program.ins _ _
  | .integer _, _, program, _ | .real _, _, program, _ | .string _, _, program, _ =>
    program.pushConst trivial
  | .reference _ _, _, program, within => program.addRef within
  | .paren inner, _, program, within => emit_agrees inner program within
  | .unary _ operand, _, program, within => (emit_agrees operand program within).addOp _ _
  | .binary op left right, _, program, within => by
    have first := emit_agrees left program within.1
    cases op with
    | and | or => exact ((emit_agrees right (first.ins _ _) within.2).ins _ _).patch _ _
    | _ => exact (emit_agrees right first within.2).addOp _ _
  | .elvis left right, _, program, within =>
    (emit_agrees right ((emit_agrees left program within.1).ins _ _) within.2).patch _ _
  | .conditional _ _ _, _, program, within | .list _, _, program, within
  | .record _, _, program, within | .call _ _, _, program, within
  | .select _ _, _, program, within | .subscript _ _, _, program, within => program.addNode within

theorem compileProgram_agrees (within : Within cmp.host cmp.targets cmp.names expr) :
    ProgramAgrees cmp (compileProgram expr) := by
  have empty : ProgramAgrees cmp Program.empty := ⟨nofun, nofun, nofun⟩
  have lowered : ProgramAgrees cmp (if maxNativeDepth ≤ astHeight expr then
      Program.empty.addNode expr else emit expr Program.empty) := by
    split
    · exact empty.addNode within
    · exact emit_agrees expr empty within
  exact ⟨lowered.consts, lowered.refs, lowered.nodes⟩

/-- A program run in agreeing scopes, both at the source's own recursion guard, yields
agreeing values. -/
theorem yields_agree (guarded : cmp.guard = .panics ∧ cmp.guard' = .panics)
    (program : ProgramAgrees cmp p) (scopes : ScopesAgree cmp scope scope')
    (yields : Yields cmp.host cmp.world p scope value) :
    ∃ value', Yields cmp.host cmp.world' p scope' value' ∧ ValuesAgree cmp value value' := by
  obtain ⟨fuel, steps, ran⟩ := yields
  have below := evaluate_sim cmp (Nat.le_refl fuel)
  rw [guarded.1, guarded.2] at below
  have agree : EvaluatorsAgree cmp (newEvaluator scope) (newEvaluator scope') :=
    ⟨scopes, .inr ⟨guarded.1.trans guarded.2.symm, rfl⟩, rfl, trivial⟩
  have both : Refines (ValuesAgree cmp) (run cmp.host cmp.world fuel steps p scope)
      (run cmp.host cmp.world' fuel steps p scope') :=
    exec_sim below agree program (Nat.le_refl steps) 0 .nil
  obtain ⟨value', ran', same⟩ := both.ok_inv ran
  exact ⟨value', ⟨fuel, steps, ran'⟩, same⟩

end

/-! ## The machine is a function -/

section
variable {host : Host} {world : World} {p : Program}

theorem self_agrees (p : Program) : ProgramAgrees (selfComparison host world .panics .panics) p :=
  ⟨fun value _ => self_agree_value (.inr rfl) value, fun _ _ _ => trivial,
    fun node _ => within_of_all (fun _ => trivial) node⟩

/-- More fuel and more steps never change the outcome of a program, whatever evaluator it
runs in. -/
theorem exec_mono (more : fuel ≤ fuel') (longer : steps ≤ steps') (p : Program) {ev : Evaluator} :
    Refines (· = ·) (exec host world (evaluate host world .panics fuel) ev p steps 0 [])
      (exec host world (evaluate host world .panics fuel') ev p steps' 0 []) := by
  have agree : EvaluatorsAgree (selfComparison host world .panics .panics) ev ev :=
    self_agree_at (.inr rfl) (self_depth (.inr rfl))
  have both := exec_sim (evaluate_sim (selfComparison host world .panics .panics) more) agree
    (self_agrees p) longer 0 .nil
  exact both.mono fun _ _ => agree_eq

theorem run_mono (more : fuel ≤ fuel') (longer : steps ≤ steps') :
    Refines (· = ·) (run host world fuel steps p scope) (run host world fuel' steps' p scope) :=
  exec_mono more longer p

/-- A program yields at most one value in a scope. -/
theorem yields_unique (first : Yields host world p scope left)
    (second : Yields host world p scope right) : left = right := by
  obtain ⟨fuel, steps, ran⟩ := first
  obtain ⟨fuel', steps', ran'⟩ := second
  obtain ⟨_, met, same⟩ :=
    (run_mono (Nat.le_max_left fuel fuel') (Nat.le_max_left steps steps')).ok_inv ran
  obtain ⟨_, met', same'⟩ :=
    (run_mono (Nat.le_max_right fuel fuel') (Nat.le_max_right steps steps')).ok_inv ran'
  rw [same, same']
  exact Run.ok.inj (met.symm.trans met')

/-- A program that crashes in a scope yields nothing there. -/
theorem not_yields_of_crash (crashes : Crashes host world p scope) : ¬Yields host world p scope value := by
  obtain ⟨fuel, steps, ran⟩ := crashes
  rintro ⟨fuel', steps', ran'⟩
  have crashed : Run.Refines (· = ·) (run host world fuel steps p scope)
      (run host world (max fuel fuel') (max steps steps') p scope) :=
    run_mono (Nat.le_max_left fuel fuel') (Nat.le_max_left steps steps')
  obtain ⟨_, met, -⟩ := (run_mono (Nat.le_max_right fuel fuel') (Nat.le_max_right steps steps')).ok_inv ran'
  rw [ran, met] at crashed
  cases crashed

end
end Classad.VmSimulation
