import Mathlib.Tactic.Common

/-! Binary search for the first index a predicate holds at. Nothing here mentions a
particular program. -/
namespace Classad.BinarySearch

/-- Halve the interval `[i, j)` until it is empty. -/
def searchBetween (pred : Nat → Bool) : Nat → Nat → Nat → Nat
  | 0, i, _ => i
  | fuel + 1, i, j =>
    if i < j then
      if pred ((i + j) / 2) then searchBetween pred fuel i ((i + j) / 2)
      else searchBetween pred fuel ((i + j) / 2 + 1) j
    else i

/-- The first index below `n` at which the predicate holds, or `n`. -/
def search (n : Nat) (pred : Nat → Bool) : Nat := searchBetween pred n 0 n

variable {pred : Nat → Bool} {n : Nat}

section
variable (monotone : ∀ a b, a ≤ b → b < n → pred a = true → pred b = true)
include monotone

/-- What every halving keeps: false before the interval, true from its end on. -/
theorem searchBetween_spec :
    ∀ fuel i j, j - i ≤ fuel → i ≤ j → j ≤ n → (∀ m, m < i → pred m = false) → (∀ m, j ≤ m → m < n → pred m = true) →
      searchBetween pred fuel i j ≤ n ∧ (∀ m, m < searchBetween pred fuel i j → pred m = false) ∧
      ∀ m, searchBetween pred fuel i j ≤ m → m < n → pred m = true := by
  intro fuel
  induction fuel with
  | zero =>
    intro i j enough ordered bounded before after
    have empty : i = j := by omega
    subst empty
    exact ⟨bounded, before, after⟩
  | succ fuel ih =>
    intro i j enough ordered bounded before after
    unfold searchBetween
    split
    · split
      next holds =>
        refine ih i _ (by omega) (by omega) (by omega) before fun m past inside => ?_
        exact monotone _ m past inside holds
      next holds =>
        refine ih _ j (by omega) (by omega) bounded (fun m early => ?_) after
        by_contra other
        exact holds (monotone m _ (by omega) (by omega) (by simpa using other))
    · have empty : i = j := by omega
      subst empty
      exact ⟨bounded, before, after⟩

/-- On a predicate that stays true once it is, the search finds the boundary. -/
theorem search_spec :
    search n pred ≤ n ∧ (∀ m, m < search n pred → pred m = false) ∧ ∀ m, search n pred ≤ m → m < n → pred m = true := by
  refine searchBetween_spec monotone n 0 n (by omega) (Nat.zero_le n) (Nat.le_refl n) ?_ ?_
  · omega
  · omega

end

/-! ## In a list -/

section
open List
variable {xs : List α} {reached : α → Bool}

/-- Where an entry that is reached has only such after it, the search stops before the first. -/
theorem search_list (asked : ∀ {i x}, xs[i]? = some x → pred i = reached x)
    (upward : xs.Pairwise fun a b => reached a = true → reached b = true) (held : xs[i]? = some x) :
    i < search xs.length pred ↔ reached x = false := by
  have monotone : ∀ a b, a ≤ b → b < xs.length → pred a = true → pred b = true := by
    intro a b ordered inside holds
    rcases Nat.lt_or_eq_of_le ordered with less | rfl
    · rw [asked (getElem?_eq_getElem inside)]
      rw [asked (getElem?_eq_getElem (Nat.lt_trans less inside))] at holds
      exact pairwise_iff_getElem.mp upward a b _ inside less holds
    · exact holds
  obtain ⟨_, before, after⟩ := search_spec monotone
  obtain ⟨inside, _⟩ := List.getElem?_eq_some_iff.mp held
  rw [← asked held]
  constructor
  · exact before i
  · intro unreached
    by_contra late
    exact Bool.false_ne_true (unreached.symm.trans (after i (Nat.le_of_not_lt late) inside))

/-- What is taken while a test holds is all that passes it, where none passes after a failure. -/
theorem takeWhile_eq_filter (downward : xs.Pairwise fun a b => reached b = true → reached a = true) :
    xs.takeWhile reached = xs.filter reached := by
  induction xs with
  | nil => rfl
  | cons x rest ih =>
    obtain ⟨first, downward⟩ := pairwise_cons.mp downward
    cases test : reached x with
    | true => rw [takeWhile_cons_of_pos test, filter_cons_of_pos test, ih downward]
    | false =>
      have none : ∀ y ∈ rest, reached y = false := fun y member => by simpa [test] using first y member
      simpa [test] using none

end

end Classad.BinarySearch
