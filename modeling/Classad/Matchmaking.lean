import Classad.TreeWalk

/-! Bilateral matching. A job and a slot are each other's target; they match if each one's
Requirements evaluates to the boolean true. -/
namespace Classad.Matchmaking
open Syntax Operators TreeWalk

/-- An ad as it takes part in a match, with the chain of its parents. -/
structure Party where
  attributes : Attributes
  parents : List Attributes

/-- The frames of an ad and its parents. Only the ad itself has a target; the numbers of two
parties are of different parity throughout. -/
def Party.scope (party : Party) (number : Nat) (target : Option Nat) : Scope :=
  ⟨.root number, party.attributes, target⟩ ::
    party.parents.mapIdx fun i attributes => ⟨.root (number + 2 * (i + 1)), attributes, none⟩

/-- The job as a match sees it. -/
def jobScope (job : Party) : Scope := job.scope 0 (some 1)

def slotScope (slot : Party) : Scope := slot.scope 1 (some 0)

/-- `NewMatchClassAd`: the two ads are each other's target. -/
def matchWorld (job slot : Party) : World
  | 0 => jobScope job
  | 1 => slotScope slot
  | _ => []

section
variable (host : Host)

/-- `EvaluateAttr`: an attribute of the ad itself, evaluated from scratch. -/
def EvaluatesAttr (world : World) (scope : Scope) (attributes : Attributes) (name : String) (value : Value) : Prop :=
  match lookupNorm host attributes (normalizeName host name) with
  | some expr => Evaluates host world scope expr value
  | none => value = if host.equalFold name currentTimeAttr then .integer host.now else .undefined

/-- `Symmetry` of the two Requirements. -/
def Matches (job slot : Party) : Prop :=
  EvaluatesAttr host (matchWorld job slot) (jobScope job) job.attributes "Requirements" (.boolean true) ∧
    EvaluatesAttr host (matchWorld job slot) (slotScope slot) slot.attributes "Requirements" (.boolean true)

/-- The expression of the first attribute with the given name up to `EqualFold`. -/
def exprNamed (name : String) (attributes : Attributes) : Option Expr :=
  match attributes.find? fun attr => host.equalFold attr.1 name with
  | some (_, .nil) => none
  | found => found.map Prod.snd

def jobRequirementsExpr (attributes : Attributes) : Option Expr := exprNamed host "Requirements" attributes

/-- `Insert`: replace the expression of an attribute, or add the attribute. -/
def insertAttr (name : String) (expr : Expr) : Attributes → Attributes
  | [] => [(name, expr)]
  | (held, value) :: rest =>
    if (bound host (normalizeName host name) rest).isNone ∧ normalizeName host held = normalizeName host name then
      (held, expr) :: rest
    else (held, value) :: insertAttr name expr rest

end
end Classad.Matchmaking
