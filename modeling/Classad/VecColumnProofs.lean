import Classad.ProbeComparisons
import Classad.VecColumns

/-! Changing the form of a vector never changes a record's value. Every statement is about
one record: what the other elements hold does not matter to it. -/
namespace Classad.VecColumnProofs
open Operators OperatorProofs ProbeComparisons BitPlanes VecColumns

/-! ## Stored integers -/

theorem littleEndian_high (bytes : List UInt8) (start width : Nat) (past : 8 * width ≤ b) :
    (littleEndian bytes start width).getLsbD b = false := by
  induction width with
  | zero => simp [littleEndian]
  | succ width ih =>
    rw [littleEndian, BitVec.getLsbD_or, ih (by omega), BitVec.getLsbD_shiftLeft]
    have late : 8 ≤ b - 8 * width := by omega
    have empty : ((bytes.getD (start + width) 0).toBitVec.setWidth 64).getLsbD (b - 8 * width) = false := by
      rw [BitVec.getLsbD_setWidth, BitVec.getLsbD_of_ge _ _ late, Bool.and_false]
    rw [empty, Bool.and_false, Bool.or_false]

/-- Sign extension of the low bits, by shifting up and back down or by width. -/
theorem shifted_eq_signExtend (u : Word) (some_ : 0 < width) (short : width < 64)
    (negative : u.getLsbD (width - 1) = true) :
    (u <<< (64 - width)).sshiftRight (64 - width) = (u.setWidth width).signExtend 64 := by
  apply BitVec.eq_of_getLsbD_eq
  intro i inside
  have top : (u <<< (64 - width)).msb = true := by
    rw [BitVec.msb_eq_getLsbD_last, BitVec.getLsbD_shiftLeft]
    have position : 64 - 1 - (64 - width) = width - 1 := by omega
    rw [position, negative]
    simp
    omega
  have sign : (u.setWidth width).msb = true := by
    rw [BitVec.msb_eq_getLsbD_last, BitVec.getLsbD_setWidth, negative]
    simp
    omega
  rw [BitVec.getLsbD_sshiftRight, BitVec.getLsbD_signExtend, top, sign, BitVec.getLsbD_setWidth,
    BitVec.getLsbD_shiftLeft]
  by_cases low : i < width
  · have reach : 64 - width + i < 64 := by omega
    have back : 64 - width + i - (64 - width) = i := by omega
    simp [inside, low, reach, back, not_le.mpr inside]
  · have reach : ¬ 64 - width + i < 64 := by omega
    simp [inside, low, reach, not_le.mpr inside]

/-- A value without a sign bit is its own sign extension. -/
theorem signExtend_eq_self (u : Word) (high : ∀ b, width ≤ b → u.getLsbD b = false)
    (positive : u.getLsbD (width - 1) = false) : (u.setWidth width).signExtend 64 = u := by
  apply BitVec.eq_of_getLsbD_eq
  intro i inside
  have sign : (u.setWidth width).msb = false := by
    rw [BitVec.msb_eq_getLsbD_last, BitVec.getLsbD_setWidth, positive, Bool.and_false]
  rw [BitVec.getLsbD_signExtend, sign, BitVec.getLsbD_setWidth]
  by_cases low : i < width
  · simp [inside, low]
  · simp [low, high i (by omega)]

/-- The loads of a fixed width read what the byte loop reads. -/
theorem widenTyped_eq (raw : RawColumn) (k : Nat) :
    widenTyped raw k = readIntLE raw.bytes (k * raw.width) raw.width raw.unsigned := by
  have high : ∀ b, 8 * raw.width ≤ b →
      (littleEndian raw.bytes (k * raw.width) raw.width).getLsbD b = false :=
    fun b past => littleEndian_high _ _ _ past
  unfold widenTyped
  split
  next common =>
    have short : raw.width < 8 := by omega
    simp only [readIntLE, short, decide_true, Bool.and_true]
    by_cases unsigned : raw.unsigned = true
    · simp [unsigned]
    · by_cases negative : (littleEndian raw.bytes (k * raw.width) raw.width).getLsbD (8 * raw.width - 1) = true
      · rw [shifted_eq_signExtend _ (by omega) (by omega) negative]
        simp [unsigned, negative]
      · rw [signExtend_eq_self _ high (by simpa using negative)]
        simp [unsigned, negative]
  · by_cases full : raw.width = 8
    · simp [full, readIntLE]
    · rw [if_neg full]

/-! ## Elements -/

/-- An element that is not a dictionary code has its value without a dictionary. -/
def Elem.NotCode : Elem → Prop
  | .dictCode _ => False
  | _ => True

theorem toValue_dict (dict dict' : Option Dict) (plain : Elem.NotCode elem) :
    elem.toValue dict = elem.toValue dict' := by
  cases elem with
  | dictCode => exact absurd plain id
  | _ => rfl

theorem ofValue_spec (held : Elem.ofValue value = some elem) :
    Elem.NotCode elem ∧ ∀ dict, elem.toValue dict = value := by
  cases value <;> cases held <;> exact ⟨trivial, fun _ => rfl⟩

theorem rawElem_notCode (raw : RawColumn) (bits : Word) : Elem.NotCode (raw.elem bits) := by
  unfold RawColumn.elem
  split <;> trivial

/-- A logical operator sees the same truth in an element as in its value. -/
theorem toMask_view (elem : Elem) : elem.toMask = logicalView (elem.toValue dict) := by
  cases elem with
  | dictCode code =>
    simp only [Elem.toMask, Elem.toValue]
    split <;> rfl
  | _ => rfl

variable (state : LogicalState)

theorem ofState_value (dict : Option Dict) : (Elem.ofState state).toValue dict = mapState state := by
  cases state <;> rfl

theorem ofState_notCode : Elem.NotCode (Elem.ofState state) := by
  cases state <;> trivial

@[simp] theorem stateOf_bits : stateOf (hiBit state) (loBit state) = state := by
  cases state <;> rfl

/-! ## Forms of a vector -/

section
variable {n : Nat} {engine : Engine} {v : Vec n} {i : Fin n} {value : Value}

/-- A valid vector and the value it has for one record. -/
structure Reads (engine : Engine) (v : Vec n) (i : Fin n) (value : Value) : Prop where
  valid : v.Valid engine
  value : v.value engine i = value

/-- A vector whose elements are its values: every record has one of its own. -/
structure Spread (v : Vec n) : Prop where
  mask : v.mask = false
  raw : v.raw = none
  const : v.const = false

theorem index_self (const : v.const = false) (i : Fin n) : v.index i = i := by
  rw [Vec.index, const]
  rfl

theorem value_data (mask : v.mask = false) (raw : v.raw = none) :
    v.value engine i = (v.data.get (v.index i)).toValue v.dict := by
  rw [Vec.value, mask, Vec.valueData, raw]
  cases engine.rawSupported <;> rfl

theorem spread_value (spread : Spread v) : v.value engine i = (v.data.get i).toValue v.dict := by
  rw [value_data spread.mask spread.raw, index_self spread.const]

/-- Elements that are not codes, or codes with an entry, make a valid vector. -/
theorem reads_spread (spread : Spread v)
    (coded : ∀ k code, v.data.get k = .dictCode code → ∃ dict text, v.dict = some dict ∧ dict.at code = some text)
    (here : (v.data.get i).toValue v.dict = value) : Reads engine v i value := by
  refine ⟨⟨?_, fun _ => spread.raw, ?_, ?_⟩, (spread_value spread).trans here⟩
  · intro constant
    cases constant.symm.trans spread.const
  · intro column stored
    cases stored.symm.trans spread.raw
  · intro _ _ k code found
    rw [index_self spread.const] at found
    exact coded k code found

theorem Reads.coded (reads : Reads engine v i value) (spread : Spread v) (k : Fin n)
    (found : v.data.get k = .dictCode code) : ∃ dict text, v.dict = some dict ∧ dict.at code = some text := by
  refine reads.valid.coded spread.mask spread.raw k code ?_
  rw [index_self spread.const, found]

theorem value_raw (mask : v.mask = false) (const : v.const = false) (raw : v.raw = some column)
    (supported : engine.rawSupported = true) :
    v.value engine i =
      (column.elem (readIntLE column.bytes (i * column.width) column.width column.unsigned)).toValue none := by
  rw [Vec.value, mask, Vec.valueData, raw, supported, index_self const]
  rfl

theorem value_mask (mask : v.mask = true) : v.value engine i = mapState (v.stateAt i) := by
  rw [Vec.value, mask]
  rfl

theorem ensureInts_none (raw : v.raw = none) : v.ensureInts engine = v := by
  rw [Vec.ensureInts, raw]
  cases engine.rawSupported <;> rfl

theorem ensureInts_some (raw : v.raw = some column) (supported : engine.rawSupported = true) :
    v.ensureInts engine = { v with data := Vector.ofFn fun k => column.elem (widenTyped column k), raw := none } := by
  rw [Vec.ensureInts, raw, supported]

theorem get_ofFn_elem (f : Fin n → Elem) (k : Fin n) : (Vector.ofFn f).get k = f k := get_ofFn f k

section
variable (reads : Reads engine v i value)
include reads

/-- Widening a stored column. -/
theorem Reads.ensureInts : Reads engine (v.ensureInts engine) i value ∧
    (v.ensureInts engine).raw = none ∧ (v.ensureInts engine).mask = v.mask ∧
    (v.ensureInts engine).const = v.const ∧ (v.ensureInts engine).dict = v.dict := by
  cases raw : v.raw with
  | none =>
    rw [ensureInts_none raw]
    exact ⟨reads, raw, rfl, rfl, rfl⟩
  | some column =>
    obtain ⟨supported, _, _, _⟩ := reads.valid.stored column raw
    have mask : v.mask = false := by
      by_contra masked
      cases raw.symm.trans (reads.valid.masked (by simpa using masked))
    have const : v.const = false := by
      by_contra constant
      cases raw.symm.trans (reads.valid.alone (by simpa using constant)).2
    rw [ensureInts_some raw supported]
    refine ⟨reads_spread ⟨mask, rfl, const⟩ ?_ ?_, rfl, rfl, rfl, rfl⟩
    · intro k code found
      rw [get_ofFn_elem] at found
      have plain := rawElem_notCode column (widenTyped column k)
      rw [found] at plain
      exact absurd plain id
    · rw [← reads.value, value_raw mask const raw supported, get_ofFn_elem, widenTyped_eq]
      exact toValue_dict _ _ (rawElem_notCode column _)

/-- Out of mask form. -/
theorem Reads.toData : Reads engine v.toData i value ∧ v.toData.mask = false := by
  by_cases mask : v.mask = true
  · have shape : v.toData = { v with
        raw := none, data := Vector.ofFn fun k => .ofState (v.stateAt k), mask := false, const := false } := by
      rw [Vec.toData, if_pos mask]
    rw [shape]
    refine ⟨reads_spread ⟨rfl, rfl, rfl⟩ ?_ ?_, rfl⟩
    · intro k code found
      rw [get_ofFn_elem] at found
      have plain := ofState_notCode (v.stateAt k)
      rw [found] at plain
      exact absurd plain id
    · rw [← reads.value, value_mask mask, get_ofFn_elem, ofState_value]
  · rw [Vec.toData, if_neg mask]
    exact ⟨reads, by simpa using mask⟩

/-- Spreading a constant out. -/
theorem Reads.materialize :
    Reads engine v.materialize i value ∧ v.materialize.const = false ∧ v.materialize.mask = v.mask ∧
    v.materialize.raw = v.raw ∧ v.materialize.dict = v.dict := by
  by_cases const : v.const = true
  · obtain ⟨mask, raw⟩ := reads.valid.alone const
    have shape : v.materialize = { v with
        raw := none, const := false, data := Vector.ofFn fun k => v.data.get (v.index k) } := by
      rw [Vec.materialize, if_pos const]
    rw [shape]
    refine ⟨reads_spread ⟨mask, rfl, rfl⟩ ?_ ?_, rfl, rfl, raw.symm, rfl⟩
    · intro k code found
      rw [get_ofFn_elem] at found
      exact reads.valid.coded mask raw k code found
    · rw [← reads.value, value_data mask raw, get_ofFn_elem]
  · rw [Vec.materialize, if_neg const]
    exact ⟨reads, by simpa using const, rfl, rfl, rfl⟩

/-- The operand of an elementwise kernel. -/
theorem Reads.wide : Reads engine (v.wide engine) i value ∧ Spread (v.wide engine) := by
  obtain ⟨widened, raw, _⟩ := reads.ensureInts
  obtain ⟨data, mask⟩ := widened.toData
  have stillRaw : (v.ensureInts engine).toData.raw = none := by
    unfold Vec.toData
    split
    · rfl
    · exact raw
  obtain ⟨spread, const, mask', raw', _⟩ := data.materialize
  exact ⟨spread, mask'.trans mask, raw'.trans stillRaw, const⟩

end

/-- A vector whose planes have been filled in. -/
theorem reads_states (state : LogicalState) (raw : v.raw = none) (const : v.const = false)
    (mask : v.mask = true) (here : v.stateAt i = state) : Reads engine v i (mapState state) := by
  refine ⟨⟨?_, fun _ => raw, ?_, ?_⟩, ?_⟩
  · intro constant
    cases constant.symm.trans const
  · intro column stored
    cases stored.symm.trans raw
  · intro unmasked
    cases unmasked.symm.trans mask
  · rw [value_mask mask, here]

theorem withStates_reads {state : Fin n → LogicalState} (raw : v.raw = none) (const : v.const = false) :
    Reads engine (v.withStates state) i (mapState (state i)) := by
  refine reads_states (state i) raw const rfl ?_
  simp [Vec.withStates, Vec.stateAt]

/-- Into mask form: what is left of a value is its truth as an operand. -/
theorem Reads.toMask (reads : Reads engine v i value) :
    (v.toMask engine).raw = none ∧ (v.toMask engine).const = false ∧ (v.toMask engine).mask = true ∧
    (v.toMask engine).stateAt i = logicalView value := by
  by_cases mask : v.mask = true
  · have const : v.const = false := by
      by_contra constant
      cases mask.symm.trans (reads.valid.alone (by simpa using constant)).1
    have state : v.stateAt i = logicalView value := by
      rw [← reads.value, value_mask mask, logicalView_mapState]
    rw [Vec.toMask, if_pos mask]
    exact ⟨reads.valid.masked mask, const, mask, state⟩
  · obtain ⟨widened, raw, mask', _⟩ := reads.ensureInts
    have unmasked : (v.ensureInts engine).mask = false := by
      rw [mask']
      simpa using mask
    have truth : (((v.ensureInts engine).data.get ((v.ensureInts engine).index i)).toMask) = logicalView value := by
      rw [toMask_view, ← value_data unmasked raw, widened.value]
    by_cases const : (v.ensureInts engine).const = true
    · have nonempty : 0 < n := Nat.zero_lt_of_lt i.isLt
      have first : (v.ensureInts engine).index i = ⟨0, nonempty⟩ := by rw [Vec.index, if_pos const]
      rw [first] at truth
      have shape : v.toMask engine = { v.ensureInts engine with
          hi := clearTail (fillPlane n (hiBit (logicalView value))),
          lo := clearTail (fillPlane n (loBit (logicalView value))), const := false, mask := true } := by
        rw [Vec.toMask, if_neg mask, if_pos const, dif_pos nonempty, truth]
      rw [shape]
      refine ⟨raw, rfl, rfl, ?_⟩
      simp [Vec.stateAt]
    · have own : (v.ensureInts engine).const = false := by simpa using const
      rw [index_self own] at truth
      have shape : v.toMask engine =
          (v.ensureInts engine).withStates fun k => ((v.ensureInts engine).data.get k).toMask := by
        rw [Vec.toMask, if_neg mask, if_neg const]
      rw [shape]
      refine ⟨raw, own, rfl, ?_⟩
      simp [Vec.withStates, Vec.stateAt, truth]

/-- A record counts as a match exactly when its value is the boolean true. -/
theorem Reads.isTrue (reads : Reads engine v i value) : v.isTrue i = true ↔ value = .boolean true := by
  rw [← reads.value]
  by_cases mask : v.mask = true
  · rw [value_mask mask, Vec.isTrue, if_pos mask]
    cases v.stateAt i <;> simp [mapState]
  · have unmasked : v.mask = false := by simpa using mask
    cases raw : v.raw with
    | none =>
      have shape : v.isTrue i = (v.data.get (v.index i)).isTrue := by simp [Vec.isTrue, unmasked, raw]
      rw [value_data unmasked raw, shape]
      cases v.data.get (v.index i) with
      | dictCode code =>
        cases found : v.dict.bind (·.at code) <;> simp [Elem.toValue, Elem.isTrue, found]
      | _ => simp [Elem.toValue, Elem.isTrue]
    | some column =>
      obtain ⟨supported, _⟩ := reads.valid.stored column raw
      have const : v.const = false := by
        by_contra constant
        cases raw.symm.trans (reads.valid.alone (by simpa using constant)).2
      have shape : v.isTrue i = false := by simp [Vec.isTrue, unmasked, raw]
      rw [value_raw unmasked const raw supported, shape, RawColumn.elem]
      by_cases real : column.real = true
      · simp [real, Elem.toValue]
      · simp [real, Elem.toValue]

/-- A broadcast constant. -/
theorem broadcast_reads {slot : Vec n} (plain : Elem.NotCode elem)
    (filled : slot.broadcast elem = .ok v) (i : Fin n) : Reads engine v i (elem.toValue none) := by
  have nonempty : 0 < n := Nat.zero_lt_of_lt i.isLt
  rw [Vec.broadcast, dif_pos nonempty] at filled
  cases filled
  have first : ∀ k : Fin n, (slot.data.set 0 elem nonempty).get
      (if true = true then ⟨0, Nat.zero_lt_of_lt k.isLt⟩ else k) = elem := by
    intro k
    change (slot.data.set 0 elem nonempty)[0] = elem
    simp
  refine ⟨⟨fun _ => ⟨rfl, rfl⟩, nofun, nofun, ?_⟩, ?_⟩
  · intro _ _ k code found
    rw [(first k).symm.trans found] at plain
    exact absurd plain id
  · rw [value_data rfl rfl]
    rw [toValue_dict none slot.dict plain]
    exact congrArg (Elem.toValue slot.dict) (first i)

end
end Classad.VecColumnProofs
