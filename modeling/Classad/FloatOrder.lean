import Mathlib

/-! The order of IEEE numbers away from NaN: it is total there, so a comparison that fails
is a comparison that holds the other way round, and comparisons chain. -/
namespace Classad.FloatOrder
open Float.Model (UnpackedFloat)

/-- Swapping the operands of a comparison swaps its result. -/
theorem compare_swap (b : UnpackedFloat) : b.compare a = (a.compare b).map Ordering.swap := by
  have signs : ∀ s t : UnpackedFloat.Sign, compare t s = (compare s t).swap := by
    rintro (_ | _) (_ | _) <;> rfl
  have ints : ∀ s t : Int, compare t s = (compare s t).swap := fun _ _ => Std.OrientedCmp.eq_swap
  have nats : ∀ s t : Nat, compare t s = (compare s t).swap := fun _ _ => Std.OrientedCmp.eq_swap
  cases a with
  | notANumber => cases b <;> rfl
  | infinity s =>
    cases b with
    | infinity t => simp [UnpackedFloat.compare, signs s t]
    | _ => cases s <;> rfl
  | zero s =>
    cases b with
    | finite t => cases t <;> rfl
    | infinity t => cases t <;> rfl
    | _ => rfl
  | finite s m e v =>
    cases b with
    | finite t m' e' v' =>
      cases s <;> cases t <;>
        simp [UnpackedFloat.compare, Ordering.swap_then, ints e e', nats m m']
    | infinity t => cases s <;> cases t <;> rfl
    | _ => cases s <;> rfl

/-- Two numbers that are not NaN compare. -/
theorem compare_isSome {a b : UnpackedFloat} (left : a.isNaN = false) (right : b.isNaN = false) :
    ∃ order, a.compare b = some order := by
  cases a with
  | notANumber => cases left
  | infinity s =>
    cases b with
    | notANumber => cases right
    | infinity t => exact ⟨_, rfl⟩
    | _ => cases s <;> exact ⟨_, rfl⟩
  | zero s =>
    cases b with
    | notANumber => cases right
    | infinity t => cases t <;> exact ⟨_, rfl⟩
    | finite t => cases t <;> exact ⟨_, rfl⟩
    | zero t => exact ⟨_, rfl⟩
  | finite s m e v =>
    cases b with
    | notANumber => cases right
    | infinity t => cases s <;> cases t <;> exact ⟨_, rfl⟩
    | finite t => cases s <;> cases t <;> exact ⟨_, rfl⟩
    | zero t => cases s <;> exact ⟨_, rfl⟩

theorem beq_comm (a b : Float) : (a == b) = (b == a) := by
  have viaCompare : ∀ a b : Float, (a == b) = (a.toModel.unpack.compare b.toModel.unpack == some .eq) :=
    fun _ _ => rfl
  rw [viaCompare, viaCompare, compare_swap b.toModel.unpack]
  cases a.toModel.unpack.compare b.toModel.unpack with
  | none => rfl
  | some order => cases order <;> rfl

theorem lt_iff (a b : Float) : a < b ↔ a.toModel.unpack.compare b.toModel.unpack = some .lt := by
  change decide (a.toModel < b.toModel) = true ↔ _
  rw [decide_eq_true_iff]
  exact beq_iff_eq

theorem le_iff (a b : Float) : a ≤ b ↔
    ∃ order, a.toModel.unpack.compare b.toModel.unpack = some order ∧ order.isLE = true := by
  change decide (a.toModel ≤ b.toModel) = true ↔ _
  rw [decide_eq_true_iff]
  change (a.toModel.unpack.compare b.toModel.unpack).any (·.isLE) = true ↔ _
  simp [Option.any_eq_true]

/-- Away from NaN, what is not less is at least. -/
theorem not_lt_iff {a b : Float} (left : a.isNaN = false) (right : b.isNaN = false) : ¬a < b ↔ b ≤ a := by
  obtain ⟨order, compared⟩ := compare_isSome left right
  rw [lt_iff, le_iff, compare_swap b.toModel.unpack, compared]
  cases order <;> simp

/-- Away from NaN, what is not at most is greater. -/
theorem not_le_iff {a b : Float} (left : a.isNaN = false) (right : b.isNaN = false) : ¬a ≤ b ↔ b < a := by
  rw [← not_lt_iff right left, not_not]

/-! ## Places

A number's place is its side of zero, its exponent and its mantissa, each counted upwards.
Comparing numbers is comparing places, one component after the other. -/

/-- Below zero, at it, above it, or one of the ends. -/
def side : UnpackedFloat → Int
  | .infinity .negative => -2
  | .finite .negative _ _ _ => -1
  | .zero _ | .notANumber => 0
  | .finite .positive _ _ _ => 1
  | .infinity .positive => 2

def scale : UnpackedFloat → Int
  | .finite .negative _ exponent _ => -exponent
  | .finite .positive _ exponent _ => exponent
  | _ => 0

def size : UnpackedFloat → Int
  | .finite .negative mantissa _ _ => -mantissa
  | .finite .positive mantissa _ _ => mantissa
  | _ => 0

theorem compare_places (left : a.isNaN = false) (right : b.isNaN = false) :
    a.compare b = some ((compare (side a) (side b)).then
      ((compare (scale a) (scale b)).then (compare (size a) (size b)))) := by
  have negated : ∀ x y : Int, compare (-x) (-y) = (compare x y).swap := by
    simp only [compare, compareOfLessAndEq]
    grind [Ordering.swap]
  have nats : ∀ x y : Nat, compare (x : Int) (y : Int) = compare x y := by
    simp only [compare, compareOfLessAndEq]
    grind
  cases a with
  | notANumber => cases left
  | infinity s =>
    cases b with
    | notANumber => cases right
    | infinity t => cases s <;> cases t <;> rfl
    | finite t => cases s <;> cases t <;> rfl
    | zero t => cases s <;> rfl
  | zero s =>
    cases b with
    | notANumber => cases right
    | infinity t => cases t <;> rfl
    | finite t => cases t <;> rfl
    | zero t => rfl
  | finite s m e v =>
    cases b with
    | notANumber => cases right
    | infinity t => cases s <;> cases t <;> rfl
    | zero t => cases s <;> rfl
    | finite t m' e' v' =>
      cases s <;> cases t
      · simp [UnpackedFloat.compare, side, scale, size, negated, nats, Ordering.swap_then]
      · rfl
      · rfl
      · simp [UnpackedFloat.compare, side, scale, size, nats]

/-- A comparison that has a result has two numbers. -/
theorem numbers_of_compare {a b : UnpackedFloat} (compared : a.compare b = some order) :
    a.isNaN = false ∧ b.isNaN = false := by
  cases a with
  | notANumber => cases compared
  | _ =>
    cases b with
    | notANumber => cases compared
    | _ => exact ⟨rfl, rfl⟩

/-- The place of `a` comes before the place of `b`. -/
def Before (a b : Float) : Prop :=
  side a.toModel.unpack < side b.toModel.unpack ∨ side a.toModel.unpack = side b.toModel.unpack ∧
    (scale a.toModel.unpack < scale b.toModel.unpack ∨ scale a.toModel.unpack = scale b.toModel.unpack ∧
      size a.toModel.unpack < size b.toModel.unpack)

/-- The two numbers have one place; zero has one whatever its sign. -/
def SamePlace (a b : Float) : Prop :=
  side a.toModel.unpack = side b.toModel.unpack ∧ scale a.toModel.unpack = scale b.toModel.unpack ∧
    size a.toModel.unpack = size b.toModel.unpack

theorem lt_iff_before (a b : Float) : a < b ↔ a.isNaN = false ∧ b.isNaN = false ∧ Before a b := by
  rw [lt_iff]
  constructor
  · intro compared
    obtain ⟨left, right⟩ := numbers_of_compare compared
    rw [compare_places left right] at compared
    exact ⟨left, right, by simpa [Before, Ordering.then_eq_lt, Std.compare_eq_lt] using compared⟩
  · rintro ⟨left, right, before⟩
    rw [compare_places left right]
    simpa [Before, Ordering.then_eq_lt, Std.compare_eq_lt] using before

theorem beq_iff_samePlace (a b : Float) : (a == b) = true ↔ a.isNaN = false ∧ b.isNaN = false ∧ SamePlace a b := by
  change (a.toModel.unpack.compare b.toModel.unpack == some .eq) = true ↔ _
  rw [beq_iff_eq]
  constructor
  · intro compared
    obtain ⟨left, right⟩ := numbers_of_compare compared
    rw [compare_places left right] at compared
    exact ⟨left, right, by simpa [SamePlace, Ordering.then_eq_eq] using compared⟩
  · rintro ⟨left, right, same⟩
    rw [compare_places left right]
    simpa [SamePlace, Ordering.then_eq_eq] using same

theorem le_iff_places : a ≤ b ↔ a.isNaN = false ∧ b.isNaN = false ∧ (Before a b ∨ SamePlace a b) := by
  constructor
  · intro below
    obtain ⟨order, compared, _⟩ := (le_iff a b).mp below
    obtain ⟨left, right⟩ := numbers_of_compare compared
    refine ⟨left, right, ?_⟩
    have unordered : ¬b < a := (not_lt_iff right left).mpr below
    rw [lt_iff_before] at unordered
    have behind : ¬Before b a := fun before => unordered ⟨right, left, before⟩
    unfold Before at behind
    unfold Before SamePlace
    omega
  · rintro ⟨left, right, placed⟩
    rw [← not_lt_iff right left, lt_iff_before]
    rintro ⟨_, _, before⟩
    unfold Before SamePlace at placed
    unfold Before at before
    omega

theorem le_trans {a b c : Float} (first : a ≤ b) (second : b ≤ c) : a ≤ c := by
  rw [le_iff_places] at *
  refine ⟨first.1, second.2.1, ?_⟩
  unfold Before SamePlace at *
  omega

theorem lt_of_le_of_lt {a b c : Float} (first : a ≤ b) (second : b < c) : a < c := by
  rw [le_iff_places] at first
  rw [lt_iff_before] at *
  refine ⟨first.1, second.2.1, ?_⟩
  unfold Before SamePlace at *
  omega

theorem lt_of_lt_of_le {a b c : Float} (first : a < b) (second : b ≤ c) : a < c := by
  rw [le_iff_places] at second
  rw [lt_iff_before] at *
  refine ⟨first.1, second.2.1, ?_⟩
  unfold Before SamePlace at *
  omega

theorem le_of_lt {a b : Float} (less : a < b) : a ≤ b := by
  rw [lt_iff_before] at less
  rw [le_iff_places]
  exact ⟨less.1, less.2.1, .inl less.2.2⟩

theorem le_refl {a : Float} (number : a.isNaN = false) : a ≤ a := by
  rw [le_iff_places]
  exact ⟨number, number, .inr ⟨rfl, rfl, rfl⟩⟩

/-- Equality of floats is reflexive on numbers only. -/
instance partialEquivBEq : PartialEquivBEq Float where
  symm {a b} same := by rwa [beq_comm]
  trans {a b c} first second := by
    rw [beq_iff_samePlace] at *
    obtain ⟨left, _, place, place', place''⟩ := first
    obtain ⟨_, right, next, next', next''⟩ := second
    exact ⟨left, right, place.trans next, place'.trans next', place''.trans next''⟩

/-- Numbers that compare equal are below each other. -/
theorem le_of_beq {a b : Float} (equal : (a == b) = true) : a ≤ b ∧ b ≤ a := by
  rw [beq_iff_samePlace] at equal
  obtain ⟨left, right, place, place', place''⟩ := equal
  rw [le_iff_places, le_iff_places]
  exact ⟨⟨left, right, .inr ⟨place, place', place''⟩⟩, ⟨right, left, .inr ⟨place.symm, place'.symm, place''.symm⟩⟩⟩

end Classad.FloatOrder
