import Classad.Matchmaking
import Classad.TreeWalkSimulation

/-! Two matches compared. If the jobs of two matches and their slots bind the names in some set
alike, then an expression that stays within those names has one value in both. -/
namespace Classad.MatchComparison
open Syntax Operators OperatorProofs PartialRun TreeWalk TreeWalkSimulation Matchmaking

section
variable (host : Host) (names : String → Prop)

/-- Attributes that bind the names of the set to expressions within the set. -/
def Closed (attributes : Attributes) : Prop :=
  ∀ norm expr, names norm → bound host norm attributes = some expr → Within host true names expr

/-- Attributes that bind every name of the set alike, to expressions within the set. -/
structure AttributesAgree (left right : Attributes) : Prop where
  bound : ∀ norm, names norm → bound host norm left = bound host norm right
  within : Closed host names left

structure PartiesAgree (left right : Party) : Prop where
  attributes : AttributesAgree host names left.attributes right.attributes
  parents : List.Forall₂ (AttributesAgree host names) left.parents right.parents

end

section
variable {host : Host} {names : String → Prop}

theorem AttributesAgree.symm (agree : AttributesAgree host names left right) :
    AttributesAgree host names right left where
  bound := fun norm known => (agree.bound norm known).symm
  within := fun norm expr known found => agree.within norm expr known ((agree.bound norm known).trans found)

theorem PartiesAgree.symm (agree : PartiesAgree host names left right) : PartiesAgree host names right left :=
  ⟨agree.attributes.symm, agree.parents.flip.imp fun _ _ same => same.symm⟩

theorem PartiesAgree.refl (own : Closed host names party.attributes)
    (parents : ∀ attributes ∈ party.parents, Closed host names attributes) : PartiesAgree host names party party :=
  ⟨⟨fun _ _ => rfl, own⟩, List.forall₂_same.mpr fun attributes member => ⟨fun _ _ => rfl, parents attributes member⟩⟩

/-- Corresponding elements stay so when both lists are mapped with their positions. -/
theorem forall₂_mapIdx {left : List α} {right : List β}
    (elements : List.Forall₂ related left right) (f : Nat → α → γ) (g : Nat → β → δ)
    (each : ∀ i a b, related a b → related' (f i a) (g i b)) :
    List.Forall₂ related' (left.mapIdx f) (right.mapIdx g) := by
  induction elements generalizing f g with
  | nil => exact .nil
  | cons head _ ih =>
    rw [List.mapIdx_cons, List.mapIdx_cons]
    exact .cons (each 0 _ _ head) (ih _ _ fun i => each (i + 1))

theorem PartiesAgree.scope (agree : PartiesAgree host names left right) (number : Nat)
    (target : Option Nat) :
    List.Forall₂ (FramesAgree host true names) (left.scope number target) (right.scope number target) := by
  refine .cons ⟨rfl, rfl, agree.attributes.bound, agree.attributes.within⟩ ?_
  exact forall₂_mapIdx agree.parents _ _ fun i _ _ same => ⟨rfl, rfl, same.bound, same.within⟩

variable {job job' slot slot' : Party}

/-- The comparison of the two matches. -/
def matchComparison (jobs : PartiesAgree host names job job') (slots : PartiesAgree host names slot slot')
    (guard guard' : DepthGuard) : Comparison where
  host := host
  targets := true
  names := names
  frames := FramesAgree host true names
  guard := guard
  guard' := guard'
  world := matchWorld job slot
  world' := matchWorld job' slot'
  framesAgree := fun _ _ agree => agree
  untargeted := nofun
  nestedFrames := fun _ _ within => nested_agree within
  worldsAgree := fun _ number => match number with
    | 0 => jobs.scope 0 (some 1)
    | 1 => slots.scope 1 (some 0)
    | _ + 2 => .nil

variable (jobs : PartiesAgree host names job job') (slots : PartiesAgree host names slot slot')

include jobs slots in
/-- What an expression evaluates to in one match it evaluates to in the other, as far as
operators can tell. -/
theorem evaluates_agree (scopes : List.Forall₂ (FramesAgree host true names) scope scope')
    (within : Within host true names expr) (evaluates : Evaluates host (matchWorld job slot) scope expr value) :
    ∃ value', Evaluates host (matchWorld job' slot') scope' expr value' ∧ erase value' = erase value := by
  obtain ⟨fuel, ran⟩ := evaluates
  let cmp := matchComparison jobs slots .panics .panics
  have agree : EvaluatorsAgree cmp (newEvaluator scope) (newEvaluator scope') :=
    ⟨scopes, .inr ⟨rfl, rfl⟩, rfl, trivial⟩
  have simulated := (evaluate_sim cmp (Nat.le_refl fuel) _ _ expr agree within).recover
    (show ValuesAgree cmp .error .error from .error)
  obtain ⟨value', returned, same⟩ := simulated.ok_inv ran
  exact ⟨value', ⟨fuel, returned⟩, same.erase.symm⟩

end

theorem erase_true : erase value = .boolean true ↔ value = .boolean true := by
  cases value <;> simp [erase]

section
variable {host : Host} {names : String → Prop} {job job' slot slot' : Party}
variable (jobs : PartiesAgree host names job job') (slots : PartiesAgree host names slot slot')

include jobs slots in
/-- An expression of the agreed names is true in both matches or in neither. -/
theorem evaluates_true_agree (scopes : List.Forall₂ (FramesAgree host true names) scope scope')
    (within : Within host true names expr) :
    Evaluates host (matchWorld job slot) scope expr (.boolean true) ↔
      Evaluates host (matchWorld job' slot') scope' expr (.boolean true) := by
  constructor
  · intro evaluates
    obtain ⟨value, other, same⟩ := evaluates_agree jobs slots scopes within evaluates
    rwa [erase_true.mp same] at other
  · intro evaluates
    have flipped := scopes.flip.imp fun _ _ (same : FramesAgree host true names _ _) =>
      (⟨same.id.symm, same.target.symm, fun norm known => (same.bound norm known).symm,
        fun norm expr known found => same.within norm expr known ((same.bound norm known).trans found)⟩ :
        FramesAgree host true names _ _)
    obtain ⟨value, other, same⟩ := evaluates_agree jobs.symm slots.symm flipped within evaluates
    rwa [erase_true.mp same] at other

end

/-! ## Answers from a depth -/

section
variable (host : Host) (world : World) (scope : Scope)

/-- Started at the given depth, the evaluation of an expression ends with the value, as far as
operators can tell, and never meets the recursion limit. -/
def AnswersFrom (depth : Nat) (expr : Expr) (value : Value) : Prop :=
  ∃ fuel answer, evaluate host world .observed fuel ⟨scope, depth, [], none⟩ expr = .ok answer ∧ erase answer = value

variable {host world scope}

/-- With enough fuel, the same answer comes from every smaller depth. -/
theorem AnswersFrom.shallower (answers : AnswersFrom host world scope depth expr value) (shallower : depth' ≤ depth) :
    ∃ fuel, ∀ fuel', fuel ≤ fuel' → ∃ answer,
      evaluate host world .observed fuel' ⟨scope, depth', [], none⟩ expr = .ok answer ∧ erase answer = value := by
  obtain ⟨fuel, answer, ran, rfl⟩ := answers
  refine ⟨fuel, fun fuel' more => ?_⟩
  have simulated := evaluate_sim (selfComparison host world .observed .observed) more _ _ expr
    (self_agree (.inl ⟨rfl, shallower⟩) scope []) (within_of_all (fun _ => trivial) expr)
  obtain ⟨answer', returned, same⟩ := simulated.ok_inv ran
  exact ⟨answer', returned, same.erase.symm⟩

/-- An answer from the start is the value of the expression. -/
theorem AnswersFrom.evaluates (answers : AnswersFrom host world scope 0 expr value) :
    ∃ answer, Evaluates host world scope expr answer ∧ erase answer = value := by
  obtain ⟨fuel, answer, ran, rfl⟩ := answers
  obtain ⟨answer', evaluates, same⟩ := evaluates_of_answer ran
  exact ⟨answer', evaluates, same.erase.symm⟩

theorem AnswersFrom.evaluates_true (answers : AnswersFrom host world scope 0 expr value) :
    Evaluates host world scope expr (.boolean true) ↔ value = .boolean true := by
  obtain ⟨answer, evaluates, rfl⟩ := answers.evaluates
  rw [erase_true]
  constructor
  · intro holds
    exact evaluates_unique evaluates holds
  · intro same
    rwa [same] at evaluates

end

/-- An answer in one match is an answer in the other. -/
theorem AnswersFrom.agree {names : String → Prop}
    (jobs : PartiesAgree host names job job') (slots : PartiesAgree host names slot slot')
    (scopes : List.Forall₂ (FramesAgree host true names) scope scope')
    (within : Within host true names expr) (answers : AnswersFrom host (matchWorld job slot) scope depth expr value) :
    AnswersFrom host (matchWorld job' slot') scope' depth expr value := by
  obtain ⟨fuel, answer, ran, rfl⟩ := answers
  let cmp := matchComparison jobs slots .observed .observed
  have agree : EvaluatorsAgree cmp ⟨scope, depth, [], none⟩ ⟨scope', depth, [], none⟩ :=
    ⟨scopes, .inr ⟨rfl, rfl⟩, rfl, trivial⟩
  obtain ⟨answer', returned, same⟩ := (evaluate_sim cmp (Nat.le_refl fuel) _ _ expr agree within).ok_inv ran
  exact ⟨fuel, answer', returned, same.erase.symm⟩

end Classad.MatchComparison
