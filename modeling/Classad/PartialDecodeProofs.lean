import Classad.PartialDecode
import Classad.QueryProbeProofs

/-! The part of an ad that some seeds lead to: the loop finds exactly that. And ads that agree on all
names a query can reach get one verdict from it, by the simulation of the two evaluations. -/
namespace Classad.PartialDecodeProofs
open Syntax Operators TreeWalk TreeWalkSimulation VmCompile VmSimulation Option
open List hiding keys
open QueryProbe QueryProbeProofs PartialDecode

section
variable {host : Host} {norm : String}

/-- An attribute is bound under its folded name, if perhaps to a later assignment. -/
theorem bound_ne_none {host : Host} (member : (name, expr) ∈ attributes) :
    bound host (host.toLower name) attributes ≠ none := by
  induction attributes with
  | nil => cases member
  | cons head rest ih =>
    intro missing
    cases later : bound host (host.toLower name) rest with
    | some _ => simp [bound, later] at missing
    | none =>
      rcases mem_cons.mp member with equal | member
      · cases equal
        simp [bound, later, normalizeName] at missing
      · exact ih member later

/-- Where all assignments to a name agree, their common expression is its binding. -/
theorem bound_of_mem (member : (name, expr) ∈ attributes)
    (agree : ∀ other value, (other, value) ∈ attributes → host.toLower other = host.toLower name →
      value = expr) : bound host (host.toLower name) attributes = some expr := by
  obtain ⟨value, found⟩ := ne_none_iff_exists'.mp (bound_ne_none member)
  obtain ⟨other, same, mine⟩ := bound_mem found
  rw [found, agree other value mine same]

/-- Collecting attributes under their folded names binds the names the search gets to, and only those. -/
theorem search_bound {host : Host} (keyed : g.key = host.toLower) {seeds : List String}
    (covered : ∀ k, Worklist.Reaches g seeds k → (g.find k).isSome → k ∈ keys) {norm : String} :
    (Worklist.Reaches g seeds norm → bound host norm (Worklist.search g keys seeds) = g.find norm) ∧
    (¬ Worklist.Reaches g seeds norm → bound host norm (Worklist.search g keys seeds) = none) := by
  obtain ⟨sound, complete⟩ := Worklist.search_spec seeds covered
  rw [keyed] at sound complete
  have absent : g.find norm = none ∨ ¬ Worklist.Reaches g seeds norm →
      bound host norm (Worklist.search g keys seeds) = none := by
    intro missing
    by_contra present
    obtain ⟨expr, found⟩ := ne_none_iff_exists'.mp present
    obtain ⟨name, rfl, member⟩ := bound_mem found
    obtain ⟨reached, lookup⟩ := sound name expr member
    rcases missing with missing | missing
    · cases lookup.symm.trans missing
    · exact missing reached
  constructor
  · intro reached
    cases found : g.find norm with
    | none => exact absent (.inl found)
    | some expr =>
      obtain ⟨name, rfl, member⟩ := complete norm expr reached found
      refine bound_of_mem member fun other value mine same => ?_
      have lookup := (sound other value mine).2
      rw [same] at lookup
      exact some.inj (lookup.symm.trans found)
  · intro missing
    exact absent (.inr missing)

variable (host : Host) (attributes : Attributes) (seeds : List String)

/-- The names of an ad that some seeds lead to. -/
abbrev Decoded : String → Prop :=
  Worklist.Reaches (wireGraph host attributes) seeds

/-- The part of the ad has the bindings of the names the seeds lead to, and only those. -/
theorem partialDecode_bound {norm : String} :
    (Decoded host attributes seeds norm →
      bound host norm (partialDecode host attributes seeds) = bound host norm attributes) ∧
    (¬ Decoded host attributes seeds norm → bound host norm (partialDecode host attributes seeds) = none) := by
  refine search_bound rfl (fun k _ present => ?_)
  obtain ⟨expr, found⟩ := isSome_iff_exists.mp present
  obtain ⟨name, same, member⟩ := bound_mem found
  exact mem_map.mpr ⟨(name, expr), member, same⟩

end

section
variable {host : Host} {names : String → Prop}

/-- Ads without a target that agree on the names in question. -/
def untargetedComparison (host : Host) (world : World) (names : String → Prop) : Comparison where
  host := host
  targets := false
  names := names
  frames left right := FramesAgree host false names left right ∧ left.target = none
  guard := .panics
  guard' := .panics
  world := world
  world' := world
  framesAgree := fun _ _ agree => agree.1
  untargeted := fun _ _ _ agree => agree.2
  nestedFrames := fun _ _ within => ⟨nested_agree within, rfl⟩
  worldsAgree := nofun

theorem frames_symm (agree : FramesAgree host targets names left right) :
    FramesAgree host targets names right left where
  id := agree.id.symm
  target := agree.target.symm
  bound := fun norm known => (agree.bound norm known).symm
  within := fun norm expr known found =>
    agree.within norm expr known ((agree.bound norm known).trans found)

theorem scopes_symm (agree : ScopesAgree (untargetedComparison host world names) left right) :
    ScopesAgree (untargetedComparison host world names) right left := by
  refine Forall₂.flip (Forall₂.imp ?_ agree)
  intro left right ⟨frames, free⟩
  exact ⟨frames_symm frames, frames.target.symm.trans free⟩

/-- Scopes that agree on what a query can reach get the same verdict from it. -/
theorem matches_of_agree (within : Within host false names (compile host expr).prog.expr)
    (agree : ScopesAgree (untargetedComparison host world names) left right)
    (matched : (compile host expr).Matches host world left) : (compile host expr).Matches host world right := by
  have program : ProgramAgrees (untargetedComparison host world names) (compile host expr).prog := by
    rw [compile_prog]
    exact compileProgram_agrees within
  obtain ⟨value, yields, same⟩ := yields_agree ⟨rfl, rfl⟩ program agree matched
  cases same
  exact yields

end

end Classad.PartialDecodeProofs
