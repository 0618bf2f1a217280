import Mathlib.Data.List.Perm.Basic
import Mathlib.Tactic.Common

/-! Chains that are evaluated from left to right and stop at the first operand that decides
them. Besides deciding states there is a neutral one, which leaves the result to the rest of the
chain, and an unknown one, which stays unless a later operand decides. The operator is
associative and not commutative; the order of a chain matters only between operands that decide
it differently. Nothing here mentions a particular program. -/
namespace Classad.SequentialChain
open List

variable {S : Type} [DecidableEq S]

/-- The state of a two-operand chain. -/
def combine (neutral unknown left right : S) : S :=
  if left = neutral then right
  else if left = unknown then (if right = neutral then unknown else right)
  else left

/-- The state of a chain; the empty chain is neutral. -/
def result (neutral unknown : S) (states : List S) : S := states.foldr (combine neutral unknown) neutral

/-- A state that settles every chain it is reached in. -/
def Decides (neutral unknown state : S) : Prop := state ≠ neutral ∧ state ≠ unknown

instance (neutral unknown : S) : DecidablePred (Decides neutral unknown) := fun state =>
  inferInstanceAs (Decidable (state ≠ neutral ∧ state ≠ unknown))

variable {neutral unknown : S}

@[simp] theorem combine_neutral_left (right : S) : combine neutral unknown neutral right = right := by
  simp [combine]

@[simp] theorem combine_neutral_right (left : S) : combine neutral unknown left neutral = left := by
  unfold combine
  split
  next same =>
    exact same.symm
  · split
    next same =>
      rw [if_pos rfl, same]
    · rfl

theorem combine_decides (decides : Decides neutral unknown left) (right : S) :
    combine neutral unknown left right = left := by
  rw [combine, if_neg decides.1, if_neg decides.2]

theorem combine_assoc (a b c : S) :
    combine neutral unknown (combine neutral unknown a b) c =
      combine neutral unknown a (combine neutral unknown b c) := by
  unfold combine
  grind

theorem result_append (first second : List S) : result neutral unknown (first ++ second) =
    combine neutral unknown (result neutral unknown first) (result neutral unknown second) := by
  induction first with
  | nil => exact (combine_neutral_left _).symm
  | cons head rest ih =>
    change combine neutral unknown head (result neutral unknown (rest ++ second)) = _
    rw [ih, ← combine_assoc]
    rfl

theorem result_singleton (state : S) : result neutral unknown [state] = state := combine_neutral_right state

section
variable (distinct : neutral ≠ unknown)
include distinct

/-- The first deciding operand settles a chain; without one it is unknown or neutral. -/
theorem result_eq (states : List S) :
    result neutral unknown states = (states.find? fun state => decide (Decides neutral unknown state)).getD
        (if unknown ∈ states then unknown else neutral) := by
  induction states with
  | nil => rfl
  | cons head rest ih =>
    change combine neutral unknown head (result neutral unknown rest) = _
    by_cases decides : Decides neutral unknown head
    · simp [combine_decides decides, decides]
    · rw [find?_cons_of_neg (by simpa using decides), ih]
      by_cases first : head = neutral
      · subst first
        simp [distinct.symm]
      · have second : head = unknown := by
          by_contra other
          exact decides ⟨first, other⟩
        subst second
        cases found : rest.find? fun state => decide (Decides neutral head state) with
        | none => by_cases later : head ∈ rest <;> simp [combine, distinct.symm, later]
        | some state =>
          have settles : Decides neutral head state := by simpa using find?_some found
          simp [combine, distinct.symm, settles.1]

/-- The order does not matter to a chain that all its deciding operands decide alike. -/
theorem result_perm (perm : states.Perm states')
    (alike : ∀ a ∈ states, ∀ b ∈ states, Decides neutral unknown a → Decides neutral unknown b → a = b) :
    result neutral unknown states = result neutral unknown states' := by
  have same : (states.find? fun state => decide (Decides neutral unknown state)) =
      states'.find? fun state => decide (Decides neutral unknown state) := by
    cases found : states.find? fun state => decide (Decides neutral unknown state) with
    | none =>
      refine (find?_eq_none.mpr fun state member => ?_).symm
      exact find?_eq_none.mp found state (perm.mem_iff.mpr member)
    | some first =>
      have member := mem_of_find?_eq_some found
      have decides : Decides neutral unknown first := by simpa using find?_some found
      cases found' : states'.find? fun state => decide (Decides neutral unknown state) with
      | none => exact absurd (by simpa using decides) (find?_eq_none.mp found' first (perm.mem_iff.mp member))
      | some second =>
        have member' := perm.mem_iff.mpr (mem_of_find?_eq_some found')
        have decides' : Decides neutral unknown second := by simpa using find?_some found'
        rw [alike first member second member' decides decides']
  simp [result_eq distinct, same, perm.mem_iff]

/-- A chain is neutral exactly if all its operands are, in whatever order. -/
theorem result_neutral (states : List S) :
    result neutral unknown states = neutral ↔ ∀ state ∈ states, state = neutral := by
  induction states with
  | nil => simp [result]
  | cons head rest ih =>
    change combine neutral unknown head (result neutral unknown rest) = neutral ↔ _
    rw [forall_mem_cons, ← ih]
    unfold combine
    grind

end

end Classad.SequentialChain
