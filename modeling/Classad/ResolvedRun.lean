import Classad.TreeWalkSimulation
import Classad.VmSimulation

/-! Programs run over a scope that may have to give up on a reference. The scope answers such a
reference with undefined and leaves a mark, and the run goes on; a result without the mark is taken
for the program's value. -/
namespace Classad.ResolvedRun
open Syntax Operators PartialRun TreeWalk TreeWalkSimulation VmCompile VmSimulation

/-- How a scope answers references; no answer means that it has fallen back. -/
abbrev Resolver := String → AttributeScope → Option Value

/-- The reference that an instruction loads. -/
def loadedAt (p : Program) (instr : Instr) : Option (String × AttributeScope) :=
  match instr.op with
  | .loadRef => p.refs[instr.a.toNat]?
  | _ => none

/-- Whether the instruction loads a reference on which the scope falls back. -/
def fallsAt (resolve : Resolver) (p : Program) (instr : Instr) : Bool :=
  (loadedAt p instr).any fun (name, scope) => (resolve name scope).isNone

/-- The evaluator of `EvalResolved`: no ad, all references answered by the scope. -/
def resolvedEvaluator (resolve : Resolver) : Evaluator :=
  ⟨[], 0, [], some fun name scope => (resolve name scope).getD .undefined⟩

section
variable (host : Host) (resolve : Resolver)

/-- The interpreter, with the mark that the scope leaves when it falls back. -/
def execMarked (recurse : Recurse) (p : Program) : Nat → Nat → List Value → Bool → Run (Value × Bool)
  | 0, _, _, _ => .stuck
  | steps + 1, ip, stack, fellBack =>
    match p.code[ip]? with
    | none => .ok (stack.headD .undefined, fellBack)
    | some instr => do
      let (ip', stack') ← step host (fun _ => []) recurse (resolvedEvaluator resolve) p instr ip stack
      execMarked recurse p steps ip' stack' (fellBack || fallsAt resolve p instr)

/-- `EvalResolved`: what a program comes to over a scope, and whether the scope fell back. -/
def RunsTo (p : Program) (value : Value) (fellBack : Bool) : Prop :=
  ∃ fuel steps, execMarked host resolve (evaluate host (fun _ => []) .panics fuel) p steps 0 [] false =
    .ok (value, fellBack)

end

section
variable (host : Host) (world : World)

/-- The references that a run of the program loads, up to its end or its first failure. -/
def loads (recurse : Recurse) (ev : Evaluator) (p : Program) : Nat → Nat → List Value → List (String × AttributeScope)
  | 0, _, _ => []
  | steps + 1, ip, stack =>
    match p.code[ip]? with
    | none => []
    | some instr => (loadedAt p instr).toList ++
      match step host world recurse ev p instr ip stack with
      | .ok (ip', stack') => loads recurse ev p steps ip' stack'
      | _ => []

/-- The program comes to the reference when it is run over the ads of the scope. -/
def Loads (p : Program) (scope : Scope) (ref : String × AttributeScope) : Prop :=
  ∃ fuel steps, ref ∈ loads host world (evaluate host world .panics fuel) (newEvaluator scope) p steps 0 []

end

/-- What an evaluated reference comes to, the clock standing in for a missing time. -/
def clocked (host : Host) (name : String) (scope : AttributeScope) (value : Value) : Value :=
  if value.isUndefined && isCurrentTimeRef host name scope then .integer host.now else value

theorem reference_of_resolved {host : Host} {world : World} {recurse : Recurse} {ev : Evaluator} {name : String}
    {scope : AttributeScope} {value : Value}
    (resolved : resolveAttributeReference host world recurse ev name scope = .ok value) :
    evaluateAttributeReference host world recurse ev name scope = .ok (clocked host name scope value) := by
  rw [evaluateAttributeReference, resolved, Run.ok_bind, clocked]
  split <;> rfl

section
variable {host : Host} {name : String}

/-- More fuel does not change the answer to a reference. -/
theorem resolve_mono (more : fuel ≤ fuel')
    (answered : resolveAttributeReference host world (evaluate host world .panics fuel)
      (newEvaluator scope) name kind = .ok value) :
    resolveAttributeReference host world (evaluate host world .panics fuel') (newEvaluator scope) name kind =
      .ok value := by
  let cmp := selfComparison host world .panics .panics
  have agree : EvaluatorsAgree cmp (newEvaluator scope) (newEvaluator scope) := self_agree (.inr ⟨rfl, rfl⟩) scope []
  have known : (kind = .target → cmp.targets = true) → cmp.names (normalizeName host name) := fun _ => trivial
  have simulated := resolveAttributeReference_sim (evaluate_sim cmp more) agree known
  obtain ⟨value', returned, same⟩ := simulated.ok_inv answered
  rw [agree_eq same]
  exact returned

end

/-- What each of finitely many items needs at least, all of them get. -/
theorem exists_enough {holds : α → Nat → Prop} (mono : ∀ item n m, n ≤ m → holds item n → holds item m)
    {items : List α} (each : ∀ item ∈ items, ∃ n, holds item n) : ∃ n, ∀ item ∈ items, holds item n := by
  induction items with
  | nil => exact ⟨0, nofun⟩
  | cons head rest ih =>
    obtain ⟨n, first⟩ := each head (.head _)
    obtain ⟨m, others⟩ := ih fun item member => each item (.tail _ member)
    refine ⟨max n m, fun item member => ?_⟩
    rcases List.mem_cons.mp member with rfl | member
    · exact mono item n _ (Nat.le_max_left ..) first
    · exact mono item m _ (Nat.le_max_right ..) (others item member)

/-! ## A run that never fell back -/

section
variable {host : Host} {world : World} {resolve : Resolver} {p : Program} {recurse recurse' : Recurse} {ev : Evaluator}

/-- A reference that does not fall back has the scope's value in the other evaluator. -/
def ReferenceAgrees (host : Host) (resolve : Resolver) (world : World) (recurse : Recurse) (ev : Evaluator)
    (ref : String × AttributeScope) : Prop :=
  ∀ value, resolve ref.1 ref.2 = some value → resolveAttributeReference host world recurse ev ref.1 ref.2 = .ok value

theorem poolAt_found (found : poolAt pool a = .ok item) : pool[a.toNat]? = some item := by
  unfold poolAt at found
  split at found
  · cases found
  · split at found
    next present =>
      cases found
      exact present
    · cases found

theorem mem_loads_refs (loaded : ref ∈ loads host world recurse ev p steps ip stack) : ref ∈ p.refs := by
  induction steps generalizing ip stack with
  | zero => cases loaded
  | succ steps ih =>
    unfold loads at loaded
    split at loaded
    · cases loaded
    next instr fetched =>
      rcases List.mem_append.mp loaded with here | later
      · unfold loadedAt at here
        split at here
        · exact List.mem_of_getElem? (Option.mem_toList.mp here)
        · cases here
      · split at later
        · exact ih later
        · cases later

/-- An instruction that loads no reference on which the scope falls back does the same in both. -/
theorem step_same {instr : Instr} (agree : ∀ ref, loadedAt p instr = some ref →
      ReferenceAgrees host resolve world recurse' ev ref)
    (native : p.nodes = []) {ip : Nat} {stack : List Value} {next : Nat × List Value}
    (stepped : step host (fun _ => []) recurse (resolvedEvaluator resolve) p instr ip stack = .ok next)
    (held : fallsAt resolve p instr = false) : step host world recurse' ev p instr ip stack = .ok next := by
  obtain ⟨op, a⟩ := instr
  cases op with
  | loadRef =>
    simp only [step] at stepped ⊢
    cases loaded : poolAt p.refs a with
    | panic | stuck =>
      rw [loaded] at stepped
      cases stepped
    | ok ref =>
      obtain ⟨name, scope⟩ := ref
      have found : loadedAt p ⟨.loadRef, a⟩ = some (name, scope) := poolAt_found loaded
      simp only [fallsAt, found, Option.any_some, Option.isNone_eq_false_iff, Option.isSome_iff_exists] at held
      obtain ⟨value, answered⟩ := held
      have resolved : resolveAttributeReference host (fun _ => []) recurse (resolvedEvaluator resolve) name scope =
          .ok value := by
        simp [resolveAttributeReference, resolvedEvaluator, answered]
      have matched := agree (name, scope) found value answered
      simp only [loaded, Run.ok_bind, reference_of_resolved resolved, Run.ok.injEq] at stepped
      simp [Run.ok_bind, reference_of_resolved matched, stepped]
  | evalNode =>
    simp only [step, native] at stepped
    unfold poolAt at stepped
    split at stepped <;> cases stepped
  | _ => exact stepped

/-- The mark stays once it is set. -/
theorem marked_from
    (ran : execMarked host resolve recurse p steps ip stack fellBack = .ok (value, false)) : fellBack = false := by
  induction steps generalizing ip stack fellBack with
  | zero => cases ran
  | succ steps ih =>
    unfold execMarked at ran
    split at ran
    · cases ran
      rfl
    next instr fetched =>
      cases stepped : step host (fun _ => []) recurse (resolvedEvaluator resolve) p instr ip stack with
      | panic | stuck =>
        rw [stepped] at ran
        cases ran
      | ok next =>
        rw [stepped, Run.ok_bind] at ran
        exact (Bool.or_eq_false_iff.mp (ih ran)).1

/-- A run that never fell back is a run of the program in the other evaluator, where the references
that this one loads have the scope's values. -/
theorem exec_of_marked
    (agree : ∀ ref ∈ loads host world recurse' ev p steps ip stack, ReferenceAgrees host resolve world recurse' ev ref)
    (native : p.nodes = []) (ran : execMarked host resolve recurse p steps ip stack fellBack = .ok (value, false)) :
    exec host world recurse' ev p steps ip stack = .ok value := by
  induction steps generalizing ip stack fellBack with
  | zero => cases ran
  | succ steps ih =>
    unfold execMarked at ran
    unfold exec
    unfold loads at agree
    cases fetched : p.code[ip]? with
    | none =>
      rw [fetched] at ran
      cases ran
      rfl
    | some instr =>
      simp only [fetched, List.mem_append, Option.mem_toList] at ran agree
      cases stepped : step host (fun _ => []) recurse (resolvedEvaluator resolve) p instr ip stack with
      | panic | stuck =>
        rw [stepped] at ran
        cases ran
      | ok next =>
        rw [stepped, Run.ok_bind] at ran
        have held := (Bool.or_eq_false_iff.mp (marked_from ran)).2
        have same := step_same (fun ref here => agree ref (.inl here)) native stepped held
        simp only [same, Run.ok_bind] at agree ⊢
        exact ih (fun ref later => agree ref (.inr later)) ran

end

end Classad.ResolvedRun
