import Mathlib.Tactic.Common

/-! Bit planes: one bit for each of `n` records, packed 64 to a word. Bits past the last
record may hold anything. Nothing here mentions a particular program. -/
namespace Classad.BitPlanes

abbrev Word := BitVec 64

def maskWords (n : Nat) : Nat := (n + 63) / 64

abbrev Plane (n : Nat) := Vector Word (maskWords n)

variable {n : Nat}

theorem word_lt (i : Fin n) : i / 64 < maskWords n := by
  unfold maskWords
  omega

variable (plane : Plane n)

/-- Read one record's bit. -/
def bitAt (i : Fin n) : Bool :=
  (plane.get ⟨i / 64, word_lt i⟩).getLsbD (i % 64)

/-- Assemble a word from the bits of `count` records, the first at bit zero. -/
def packWord (bit : Nat → Bool) (base : Nat) : Nat → Word
  | 0 => 0
  | count + 1 => packWord bit base count ||| (if bit (base + count) then 1#64 <<< count else 0)

variable (bit : Fin n → Bool)

/-- A bit of a record, false past the last one. -/
def within (i : Nat) : Bool :=
  if inside : i < n then bit ⟨i, inside⟩ else false

/-- Build a plane a word at a time; the last word stops at the last record. -/
def packPlane : Plane n :=
  Vector.ofFn fun w => packWord (within bit) (w * 64) (min 64 (n - w * 64))

def fillPlane (n : Nat) (bit : Bool) : Plane n :=
  Vector.replicate _ (if bit then BitVec.allOnes 64 else 0)

/-- Clear the bits past the last record. -/
def clearTail : Plane n :=
  Vector.ofFn fun w =>
    if n % 64 ≠ 0 ∧ w + 1 = maskWords n then plane.get w &&& ((1#64 <<< (n % 64)) - 1) else plane.get w

/-- Work on two planes a word at a time. -/
def zipWords (combine : Word → Word → Word) (left right : Plane n) : Plane n :=
  Vector.ofFn fun w => combine (left.get w) (right.get w)

def mapWords (change : Word → Word) (plane : Plane n) : Plane n :=
  Vector.ofFn fun w => change (plane.get w)

theorem get_ofFn (f : Fin m → α) (w : Fin m) : (Vector.ofFn f).get w = f w := by
  change (Vector.ofFn f)[w.val] = f w
  simp

theorem packWord_bit {bit : Nat → Bool} (base count : Nat) (small : count ≤ 64) (b : Nat) :
    (packWord bit base count).getLsbD b = (decide (b < count) && bit (base + b)) := by
  induction count with
  | zero => simp [packWord]
  | succ count ih =>
    rw [packWord, BitVec.getLsbD_or, ih (by omega)]
    by_cases last : b = count
    · subst last
      by_cases set : bit (base + b)
      · simp [set, BitVec.getLsbD_shiftLeft]
        omega
      · simp [set]
    · have other : (if bit (base + count) then 1#64 <<< count else 0#64).getLsbD b = false := by
        split
        · by_cases before : b < count
          · simp [before]
          · have past : b - count ≠ 0 := by omega
            simp [past]
        · simp
      have same : decide (b < count + 1) = decide (b < count) := by
        rw [decide_eq_decide]
        omega
      rw [same]
      exact (congrArg _ other).trans (Bool.or_false _)

/-- Packing and reading back. -/
@[simp] theorem bitAt_packPlane (i : Fin n) : bitAt (packPlane bit) i = bit i := by
  have inside := i.isLt
  have position : i / 64 * 64 + i % 64 = i.val := by omega
  have counted : i % 64 < min 64 (n - i / 64 * 64) := by omega
  simp only [bitAt, packPlane, get_ofFn]
  rw [packWord_bit _ _ (by omega), decide_eq_true counted, Bool.true_and, position, within, dif_pos inside]

@[simp] theorem bitAt_fillPlane (bit : Bool) (i : Fin n) : bitAt (fillPlane n bit) i = bit := by
  have small : i.val % 64 < 64 := Nat.mod_lt _ (by decide)
  have word : (fillPlane n bit).get ⟨i / 64, word_lt i⟩ = if bit then BitVec.allOnes 64 else 0 := by
    have bound := word_lt i
    change (fillPlane n bit)[i.val / 64] = _
    simp [fillPlane]
  rw [bitAt, word]
  cases bit
  · simp
  · simp only [if_true, BitVec.getLsbD_allOnes, small, decide_true]

theorem tailMask_bit (tail b : Nat) (small : tail < 64) : ((1#64 <<< tail) - 1).getLsbD b = decide (b < tail) := by
  have power : 2 ^ tail < 2 ^ 64 := Nat.pow_lt_pow_right (by decide) small
  have positive : 0 < 2 ^ tail := Nat.two_pow_pos tail
  have shifted : (1#64 <<< tail).toNat = 2 ^ tail := by
    rw [BitVec.toNat_shiftLeft, BitVec.toNat_ofNat, Nat.shiftLeft_eq, Nat.mod_eq_of_lt (by decide : 1 < 2 ^ 64),
      Nat.one_mul, Nat.mod_eq_of_lt power]
  have value : ((1#64 <<< tail) - 1).toNat = 2 ^ tail - 1 := by
    have below : (1 : Word) ≤ 1#64 <<< tail := by
      rw [BitVec.le_def, shifted]
      exact positive
    rw [BitVec.toNat_sub_of_le below, shifted]
    rfl
  rw [BitVec.getLsbD, value, Nat.testBit_two_pow_sub_one]

/-- Clearing the tail touches no record. -/
@[simp] theorem bitAt_clearTail (i : Fin n) : bitAt (clearTail plane) i = bitAt plane i := by
  simp only [bitAt, clearTail, get_ofFn]
  split
  next last =>
    have early : i % 64 < n % 64 := by
      unfold maskWords at last
      omega
    rw [BitVec.getLsbD_and, tailMask_bit _ _ (Nat.mod_lt _ (by decide)), decide_eq_true early, Bool.and_true]
  · rfl

theorem bitAt_zipWords {onBits : Bool → Bool → Bool}
    (bitwise : ∀ x y b, b < 64 → (combine x y).getLsbD b = onBits (x.getLsbD b) (y.getLsbD b))
    (left right : Plane n) (i : Fin n) : bitAt (zipWords combine left right) i = onBits (bitAt left i)
    (bitAt right i) := by
  simp only [bitAt, zipWords, get_ofFn]
  exact bitwise _ _ _ (Nat.mod_lt _ (by decide))

theorem bitAt_mapWords {onBit : Bool → Bool}
    (bitwise : ∀ x b, b < 64 → (change x).getLsbD b = onBit (x.getLsbD b)) (plane : Plane n) (i : Fin n) :
    bitAt (mapWords change plane) i = onBit (bitAt plane i) := by
  simp only [bitAt, mapWords, get_ofFn]
  exact bitwise _ _ (Nat.mod_lt _ (by decide))

end Classad.BitPlanes
