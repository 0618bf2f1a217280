import Classad.Matchmaking
import Classad.QueryProbe
import Classad.ResolvedRun
import Classad.Wire

/-! The wire-native pre-filter of a match. The job's compiled Requirements are run over a scope
that reads `TARGET` references from the slot's encoded ad and all others from values the job's
attributes had before the match, without a target. -/
namespace Classad.MatchPrefilter
open Syntax Operators TreeWalk VmCompile QueryProbe ResolvedRun Wire Matchmaking

/-- The values of a job's attributes, under their folded names. -/
abbrev JobVals := String → Option Value

/-- The job before the match, when its target is nil. -/
def aloneWorld (job : Party) : World
  | 0 => jobScope job
  | _ => []

section
variable (host : Host)

/-- `jobValues`: every attribute of the job, evaluated without a target. -/
def JobValues (job : Party) (vals : JobVals) : Prop :=
  ∀ norm, match job.attributes.find? fun attr => host.toLower attr.1 == norm with
    | none => vals norm = none
    | some attr => ∃ value, vals norm = some value ∧
      EvaluatesAttr host (aloneWorld job) (jobScope job) job.attributes attr.1 value

structure MatchScope where
  slot : StoredWire host
  jobVals : JobVals

end

section
variable {host : Host}

/-- `matchScope.resolve`; no answer means that it has fallen back. Only `TARGET` leads to the slot. -/
def MatchScope.resolve (ms : MatchScope host) (name : String) : AttributeScope → Option Value
  | .target => (tryResolve ms.slot name).answer
  | _ => some ((ms.jobVals (host.toLower name)).getD .undefined)

/-- The job side of `matchCandidate` decides for a slot: the compiled Requirements are native and come to
a boolean, without the scope having fallen back. -/
def JobDecides (ms : MatchScope host) (job : Party) (verdict : Bool) : Prop :=
  ∃ expr, jobRequirementsExpr host job.attributes = some expr ∧ (compile host expr).prog.nodes = [] ∧
    RunsTo host ms.resolve (compile host expr).prog (.boolean verdict) false

end
end Classad.MatchPrefilter
