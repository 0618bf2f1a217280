import Classad.VecColumnProofs
import Classad.VecEval

/-! Comparing a stored column with a literal. The engines compare at the column's own width
and the fallback compares widened integers; bit for bit they give the 64-bit comparison. -/
namespace Classad.VecSimdProofs
open Operators BitPlanes VecColumns VecColumnProofs VecEval

/-! ## Lanes -/

section
variable {raw : RawColumn}

/-- Bits that are zero from `width` on survive a round trip through that width. -/
theorem setWidth_round (u : Word) (high : ∀ b, width ≤ b → u.getLsbD b = false) :
    (u.setWidth width).setWidth 64 = u := by
  apply BitVec.eq_of_getLsbD_eq
  intro i inside
  by_cases low : i < width
  · simp [inside, low]
  · simp [low, high i (by omega)]

theorem toInt_of_small (u : Word) (width : Nat) (short : width < 64)
    (high : ∀ b, width ≤ b → u.getLsbD b = false) : ((u.setWidth width).toNat : Int) = u.toInt := by
  have power : 2 ^ width ≤ 2 ^ 63 := Nat.pow_le_pow_right (by decide) (by omega)
  have same : u.toNat = (u.setWidth width).toNat := by
    have round := congrArg BitVec.toNat (setWidth_round u high)
    rw [BitVec.toNat_setWidth] at round
    rw [← round]
    exact Nat.mod_eq_of_lt (by omega)
  rw [BitVec.toInt_eq_toNat_of_lt (by omega), same]

/-- A lane holds the integer that reading the column gives. -/
theorem laneValue_column (k : Nat) (width : raw.width = 2 ∨ raw.width = 4) :
    laneValue raw (littleEndian raw.bytes (k * raw.width) raw.width) =
      (readIntLE raw.bytes (k * raw.width) raw.width raw.unsigned).toInt := by
  have high : ∀ b, 8 * raw.width ≤ b →
      (littleEndian raw.bytes (k * raw.width) raw.width).getLsbD b = false :=
    fun b past => littleEndian_high _ _ _ past
  have common : raw.width = 1 ∨ raw.width = 2 ∨ raw.width = 4 := .inr width
  rw [← widenTyped_eq, widenTyped, if_pos common, laneValue]
  split
  · exact toInt_of_small _ _ (by omega) high
  · rw [BitVec.toInt_signExtend_of_le (by omega)]

/-- A literal that fits a lane is itself there. -/
theorem laneValue_literal (lit : Int64) (width : raw.width = 2 ∨ raw.width = 4)
    (fits : fitsLane raw lit = true) : laneValue raw lit.toBitVec = lit.toInt := by
  unfold fitsLane at fits
  unfold laneValue
  have whole : lit.toBitVec.toInt = lit.toInt := rfl
  by_cases unsigned : raw.unsigned = true
  · rw [if_pos unsigned, Bool.and_eq_true, decide_eq_true_eq, decide_eq_true_eq] at fits
    obtain ⟨positive, below⟩ := fits
    have unsignedValue : (lit.toBitVec.toNat : Int) = lit.toInt := by
      have defined := BitVec.toInt_eq_toNat_cond lit.toBitVec
      split at defined <;> omega
    rw [if_pos unsigned, BitVec.toNat_setWidth, Int.natCast_emod, unsignedValue]
    rcases width with width | width
    · exact Int.emod_eq_of_lt positive below
    · exact Int.emod_eq_of_lt positive below
  · rw [if_neg unsigned, Bool.and_eq_true, decide_eq_true_eq, decide_eq_true_eq] at fits
    obtain ⟨above, below⟩ := fits
    rw [if_neg unsigned, BitVec.toInt_setWidth]
    have wrapped : (lit.toBitVec.toNat : Int).bmod (2 ^ (8 * raw.width)) = lit.toInt.bmod (2 ^ (8 * raw.width)) := by
      have defined := BitVec.toInt_eq_toNat_cond lit.toBitVec
      rw [whole] at defined
      split at defined
      · rw [defined]
      · have shifted : (lit.toBitVec.toNat : Int) =
            lit.toInt + ((2 ^ (8 * raw.width) : Nat) : Int) * 2 ^ (64 - 8 * raw.width) := by
          rcases width with width | width
          · rw [width]
            omega
          · rw [width]
            omega
        rw [shifted, Int.add_mul_bmod_self_left]
    rw [wrapped]
    rcases width with width | width
    · rw [width] at above below ⊢
      exact Int.bmod_eq_of_le (by omega) (by omega)
    · rw [width] at above below ⊢
      exact Int.bmod_eq_of_le (by omega) (by omega)

end

/-! ## Words -/

section
variable {base : CmpBase} {raw : RawColumn} {lit : Int64}

/-- The base comparison of one stored value, as the scalar kernel makes it. -/
def baseAt (base : CmpBase) (raw : RawColumn) (lit : Int64) (k : Nat) : Bool :=
  base.onInts (readIntLE raw.bytes (k * raw.width) raw.width raw.unsigned).toInt lit.toInt

theorem scalarTailInt_bit (start stop wordStart b : Nat) (inWord : wordStart ≤ start) (inside : b < 64) :
    (scalarTailInt base raw lit start stop wordStart).getLsbD b =
      (decide (start ≤ wordStart + b) && (decide (wordStart + b < stop) && baseAt base raw lit (wordStart + b))) := by
  rw [scalarTailInt, BitVec.getLsbD_shiftLeft, packWord_bit _ _ (by omega)]
  by_cases early : start ≤ wordStart + b
  · have position : start + (b - (start - wordStart)) = wordStart + b := by omega
    have reached : ¬ b < start - wordStart := by omega
    have counted : decide (b - (start - wordStart) < min stop (wordStart + 64) - start) =
        decide (wordStart + b < stop) := by
      rw [decide_eq_decide]
      omega
    rw [position, counted]
    simp [inside, reached, early, baseAt]
  · have before : b < start - wordStart := by omega
    simp [before, early]

/-- One word of an engine: the groups from `g` on. -/
theorem laneWord_bit (width : raw.width = 2 ∨ raw.width = 4) (fits : fitsLane raw lit = true)
    (stop wordStart b : Nat) (inside : b < 64) : ∀ groups g, (g + groups) * lanes = 64 →
    (laneWord lanes base raw lit stop wordStart g groups).getLsbD b =
      (decide (g * lanes ≤ b) && (decide (wordStart + b < stop) && baseAt base raw lit (wordStart + b))) := by
  intro groups
  induction groups with
  | zero =>
    intro g whole
    have past : ¬ g * lanes ≤ b := by
      rw [Nat.add_zero] at whole
      omega
    simp [laneWord, past]
  | succ groups ih =>
    intro g whole
    have next : (g + 1) * lanes = g * lanes + lanes := Nat.succ_mul g lanes
    have split : (g + (groups + 1)) * lanes = g * lanes + lanes + groups * lanes := by
      rw [Nat.add_mul, Nat.succ_mul]
      omega
    have later := ih (g + 1) (by rw [← whole]; congr 1; omega)
    unfold laneWord
    by_cases tail : stop < wordStart + g * lanes + lanes
    · simp only [if_pos tail]
      rw [scalarTailInt_bit _ _ _ _ (by omega) inside]
      congr 1
      rw [decide_eq_decide]
      omega
    · simp only [if_neg tail]
      rw [BitVec.getLsbD_or, later, BitVec.getLsbD_shiftLeft, packWord_bit _ _ (by omega)]
      by_cases reached : g * lanes ≤ b
      · have position : wordStart + g * lanes + (b - g * lanes) = wordStart + b := by omega
        rw [position, laneValue_column _ width, laneValue_literal _ width fits]
        by_cases here : b < g * lanes + lanes
        · have counted : b - g * lanes < lanes := by omega
          have notLater : ¬ (g + 1) * lanes ≤ b := by omega
          have live : wordStart + b < stop := by omega
          simp [inside, reached, counted, notLater, live, baseAt]
        · have counted : ¬ b - g * lanes < lanes := by omega
          have isLater : (g + 1) * lanes ≤ b := by omega
          simp [reached, counted, isLater]
      · have notLater : ¬ (g + 1) * lanes ≤ b := by omega
        have before : b < g * lanes := by omega
        simp [reached, notLater, before]

theorem lanes_spec (found : Engine.lanes engine width = some lanes) :
    (width = 2 ∨ width = 4) ∧ 64 / lanes * lanes = 64 := by
  unfold Engine.lanes at found
  split at found <;> cases found <;> simp

variable {n : Nat}

/-- What an engine answers is the comparison of every record. -/
theorem simdBaseMask_bit (answered : simdBaseMask engine base raw lit = some lo) (i : Fin n) :
    bitAt lo i = baseAt base raw lit i := by
  unfold simdBaseMask at answered
  split at answered
  · cases answered
  next lanes found =>
    obtain ⟨width, whole⟩ := lanes_spec found
    by_cases fits : fitsLane raw lit = true
    · rw [if_pos fits] at answered
      cases answered
      have small : i.val % 64 < 64 := Nat.mod_lt _ (by decide)
      have position : i.val / 64 * 64 + i.val % 64 = i.val := by omega
      rw [bitAt, get_ofFn, laneWord_bit width fits _ _ _ small _ 0 (by rw [Nat.zero_add]; exact whole), position]
      simp
    · rw [if_neg fits] at answered
      cases answered

theorem complementPlane_bit (plane : Plane n) (i : Fin n) : bitAt (complementPlane plane) i = !bitAt plane i := by
  rw [complementPlane, bitAt_clearTail]
  have flips : ∀ (x : Word) b, b < 64 → (~~~x).getLsbD b = !x.getLsbD b := by
    intro x b inside
    simp [inside]
  exact @bitAt_mapWords n (fun word => ~~~word) (fun bit => !bit) flips plane i

end

/-! ## Whole columns -/

section
variable {n : Nat} {engine : Engine} {l : Vec n} {raw : RawColumn} {i : Fin n} {lit : Int64}

/-- Each comparison is a base comparison or its complement. -/
theorem baseFor_spec (op : CmpOp) (a b : Int64) :
    cmpInt op a b = ((baseFor op).2 ^^ (baseFor op).1.onInts a.toInt b.toInt) := by
  have equal : (a = b) ↔ a.toInt = b.toInt := Int64.toInt_inj.symm
  have complement (x y : Int) : decide (x ≤ y) = !decide (y < x) := by
    rw [← decide_not, decide_eq_decide]
    exact Int.not_lt.symm
  cases op with
  | lt => simp [cmpInt, baseFor, CmpBase.onInts, Int64.lt_iff_toInt_lt]
  | le => simp [cmpInt, baseFor, CmpBase.onInts, Int64.le_iff_toInt_le, complement]
  | gt => simp [cmpInt, baseFor, CmpBase.onInts, Int64.lt_iff_toInt_lt]
  | ge => simp [cmpInt, baseFor, CmpBase.onInts, Int64.le_iff_toInt_le, complement]
  | eq => simp [cmpInt, baseFor, CmpBase.onInts, beq_eq_decide, equal]
  | ne => simp [cmpInt, baseFor, CmpBase.onInts, bne, beq_eq_decide, equal]

theorem boolMask_state (b : Bool) : stateOf false b = boolMask b := by cases b <;> rfl

theorem boolMask_value (b : Bool) : mapState (boolMask b) = .boolean b := by cases b <;> rfl

/-- A two-valued result: the high plane is zero. -/
theorem reads_bits (b : Bool) (raw : l.raw = none) (const : l.const = false) (bit : bitAt lo i = b) :
    Reads engine { l with lo := lo, hi := fillPlane n false, mask := true } i (.boolean b) := by
  rw [← boolMask_value]
  refine reads_states (boolMask b) raw const rfl ?_
  simp only [Vec.stateAt, bitAt_fillPlane, bit]
  exact boolMask_state b

/-- A stored column against an integer literal, by an engine or by widening. -/
theorem simdCompareRaw_reads (reads : Reads engine l i (.integer x))
    (mask : l.mask = false) (stored : l.raw = some raw) (real : raw.real = false)
    (computed : simdCompareRaw engine op l raw lit = some out) : Reads engine out i (.boolean (cmpInt op x lit)) := by
  obtain ⟨supported, _⟩ := reads.valid.stored raw stored
  have const : l.const = false := by
    by_contra constant
    cases stored.symm.trans (reads.valid.alone (by simpa using constant)).2
  have number : x.toInt = (readIntLE raw.bytes (i * raw.width) raw.width raw.unsigned).toInt := by
    have value := reads.value
    rw [value_raw mask const stored supported, RawColumn.elem, real] at value
    cases value
    rfl
  have finish : ∀ lo : Plane n, bitAt lo i = baseAt (baseFor op).1 raw lit i →
      bitAt (finishBase op lo) i = cmpInt op x lit := by
    intro lo bit
    rw [baseFor_spec, number, finishBase]
    cases (baseFor op).2 with
    | false => simpa [baseAt] using bit
    | true => simpa [baseAt, complementPlane_bit] using bit
  rw [simdCompareRaw] at computed
  split at computed
  · cases computed
  · cases answered : (simdBaseMask engine (baseFor op).1 raw lit : Option (Plane n)) with
    | some lo =>
      rw [answered] at computed
      cases computed
      exact reads_bits (l := { l with raw := none }) _ rfl const (finish lo (simdBaseMask_bit answered i))
    | none =>
      rw [answered] at computed
      cases computed
      obtain ⟨widened, gone, _, still, _⟩ := reads.ensureInts
      refine reads_bits _ gone (still.trans const) (finish _ ?_)
      rw [scalarBaseMaskInts, bitAt_packPlane, ensureInts_some stored supported, get_ofFn, RawColumn.elem,
        real, widenTyped_eq]
      rfl

end
end Classad.VecSimdProofs
