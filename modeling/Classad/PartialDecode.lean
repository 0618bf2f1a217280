import Classad.QueryProbe
import Classad.Worklist

/-! What part of an ad a decision needs. The read plan of an expression names the attributes it
reads, and starting from some of them the attributes they refer to are pulled in in turn. -/
namespace Classad.PartialDecode
open Syntax Operators TreeWalk VmCompile QueryProbe

/-- What an expression reads from an ad: attribute names, and whether they are all statically
visible. -/
structure ReadPlan where
  seeds : List String
  partialSafe : Bool
  deriving DecidableEq, Repr

def ReadPlan.empty : ReadPlan := ⟨[], true⟩

section
variable (host : Host)

mutual

/-- Collect the self-scoped names of an expression, each spelling once. The attribute a
selection asks for is not among them, and neither is a `PARENT` reference. -/
def walkPlan : Expr → ReadPlan → ReadPlan
  | .reference name scope, plan =>
    if (scope = .none ∨ scope = .my) ∧ name ∉ plan.seeds then
      { plan with seeds := plan.seeds ++ [name] }
    else plan
  | .paren inner, plan => walkPlan inner plan
  | .unary _ operand, plan => walkPlan operand plan
  | .binary _ left right, plan => walkPlan right (walkPlan left plan)
  | .elvis left right, plan => walkPlan right (walkPlan left plan)
  | .conditional condition whenTrue whenFalse, plan =>
    walkPlan whenFalse (walkPlan whenTrue (walkPlan condition plan))
  | .list elements, plan => walkListPlan elements plan
  | .call name args, plan =>
    walkListPlan args (if host.equalFold name "eval" then { plan with partialSafe := false } else plan)
  | .select record _, plan => walkPlan record plan
  | .subscript container index, plan => walkPlan index (walkPlan container plan)
  | .record attributes, plan => walkAttributesPlan attributes plan
  | .nil, plan | .integer _, plan | .real _, plan | .string _, plan | .boolean _, plan
  | .undefined, plan | .error, plan => plan

def walkListPlan : List Expr → ReadPlan → ReadPlan
  | [], plan => plan
  | head :: rest, plan => walkListPlan rest (walkPlan head plan)

def walkAttributesPlan : List (String × Expr) → ReadPlan → ReadPlan
  | [], plan => plan
  | (_, value) :: rest, plan => walkAttributesPlan rest (walkPlan value plan)

end

/-- The names an attribute's expression refers to. Whether it calls `eval` is not asked. -/
def selfRefs (expr : Expr) : List String := (walkPlan host expr .empty).seeds

/-- The attributes of an ad under their folded names, each leading to the names its expression
refers to. -/
def wireGraph (attributes : Attributes) : Worklist.Graph String String Expr where
  key := host.toLower
  find norm := bound host norm attributes
  refs := selfRefs host

/-- The loop of `astClosure`: the attributes named by the seeds, and those they lead to. -/
def partialDecode (attributes : Attributes) (seeds : List String) : Attributes :=
  Worklist.search (wireGraph host attributes) (attributes.map fun attr => host.toLower attr.1) seeds

end

/-- A stored ad, and in a chained collection its structural parent. -/
structure StoredAd where
  child : Attributes
  parent : Option Attributes

/-- The ads that can be read from: the child and its parent, if it has one. -/
def StoredAd.ads (stored : StoredAd) : List Attributes := stored.child :: stored.parent.toList

/-- The child chained to its parent. An ad of a scan has no target. -/
def StoredAd.scope (stored : StoredAd) : Scope :=
  ⟨.root 0, stored.child, none⟩ :: stored.parent.toList.map fun parent => ⟨.root 1, parent, none⟩

end Classad.PartialDecode
