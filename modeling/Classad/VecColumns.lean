import Classad.BinarySearch
import Classad.BitPlanes
import Classad.Operators

/-! Vectors of values, one for each record of a batch, in the forms the vectorized executor
keeps them in: element by element, as two bit planes of three-valued logic, as a stored
integer column, as dictionary codes, or as one constant for all records. -/
namespace Classad.VecColumns
open Operators BitPlanes

/-! ## Stored integers -/

/-- The build's vector engine. Without one no column is kept in its stored form. -/
inductive Engine where
  | off
  | amd64 (avx2 : Bool)
  | arm64
  deriving DecidableEq, Repr

def Engine.rawSupported : Engine → Bool
  | off => false
  | amd64 _ | arm64 => true

/-- A column as the block stores it: values of `width` bytes each, lowest byte first. -/
structure RawColumn where
  bytes : List UInt8
  width : Nat
  unsigned : Bool
  real : Bool
  deriving DecidableEq, Repr

/-- The `width` bytes from `start` on, lowest byte first. -/
def littleEndian (bytes : List UInt8) (start : Nat) : Nat → Word
  | 0 => 0
  | i + 1 => littleEndian bytes start i |||
      ((bytes.getD (start + i) 0).toBitVec.setWidth 64 <<< (8 * i))

/-- Read one integer a byte at a time, sign-extending unless unsigned. -/
def readIntLE (bytes : List UInt8) (start width : Nat) (unsigned : Bool) : Word :=
  let u := littleEndian bytes start width
  if !unsigned && decide (width < 8) && u.getLsbD (8 * width - 1) then
    (u <<< (64 - 8 * width)).sshiftRight (64 - 8 * width)
  else u

/-- Widen one value; the common widths are single loads of that width. -/
def widenTyped (raw : RawColumn) (k : Nat) : Word :=
  let u := littleEndian raw.bytes (k * raw.width) raw.width
  if raw.width = 1 ∨ raw.width = 2 ∨ raw.width = 4 then
    if raw.unsigned then u else (u.setWidth (8 * raw.width)).signExtend 64
  else if raw.width = 8 then u
  else readIntLE raw.bytes (k * raw.width) raw.width raw.unsigned

/-! ## Dictionaries -/

/-- The sorted string entries of one block's column. Entries that differ in case only are
neighbours, so the entries equal to a literal form a range of codes. -/
structure Dict where
  entries : List String
  sorted : entries.Pairwise fun a b => compareStringsFold a b ≠ .gt

def Dict.at (dict : Dict) (code : Int) : Option String :=
  if code < 0 then none else dict.entries[code.toNat]?

def Dict.entry (dict : Dict) (j : Nat) : String := dict.entries.getD j ""

/-- The codes whose entries compare equal to the literal. -/
def Dict.range (dict : Dict) (lit : String) : Nat × Nat :=
  let lo := BinarySearch.search dict.entries.length fun j => compareStringsFold (dict.entry j) lit != .lt
  let hi := lo + BinarySearch.search (dict.entries.length - lo) fun j =>
    compareStringsFold (dict.entry (lo + j)) lit == .gt
  (lo, hi)

/-! ## Vectors -/

/-- One element: its state with the payload that state makes valid. -/
inductive Elem where
  | int (value : Int64)
  | real (value : Float)
  | bool (value : Bool)
  | undef
  | error
  | string (value : String)
  | dictCode (code : Int)

def Elem.toValue (dict : Option Dict) : Elem → Value
  | .int value => .integer value
  | .real value => .real value
  | .bool value => .boolean value
  | .string value => .string value
  | .dictCode code => match dict.bind (·.at code) with
    | some text => .string text
    | none => .error
  | .undef => .undefined
  | .error => .error

/-- What an element can hold; lists and ads have no place in a vector. -/
def Elem.ofValue : Value → Option Elem
  | .integer value => some (.int value)
  | .real value => some (.real value)
  | .boolean value => some (.bool value)
  | .string value => some (.string value)
  | .undefined => some .undef
  | .error => some .error
  | _ => none

def Elem.numeric : Elem → Bool
  | .int _ | .real _ => true
  | _ => false

/-- The number an element stands for, as a real. -/
def Elem.float : Elem → Float
  | .int value => Float.ofInt value.toInt
  | .real value => value
  | _ => Float.ofInt 0

def Elem.isTrue : Elem → Bool
  | .bool value => value
  | _ => false

/-- Stored bits as an element of the column's type. -/
def RawColumn.elem (raw : RawColumn) (bits : Word) : Elem :=
  if raw.real then .real (Float.ofBits ⟨bits⟩) else .int (.ofBitVec bits)

structure Vec (n : Nat) where
  data : Vector Elem n
  hi : Plane n
  lo : Plane n
  raw : Option RawColumn
  dict : Option Dict
  const : Bool
  mask : Bool

/-- The high and the low bit of a three-valued result. -/
def hiBit : LogicalState → Bool
  | .isFalse | .isTrue => false
  | .isUndef | .isErr => true

def loBit : LogicalState → Bool
  | .isFalse | .isUndef => false
  | .isTrue | .isErr => true

def stateOf (hi lo : Bool) : LogicalState :=
  match hi, lo with
  | false, false => .isFalse
  | false, true => .isTrue
  | true, false => .isUndef
  | true, true => .isErr

section
variable {n : Nat} (engine : Engine)

variable (v : Vec n)

/-- Where an element is read: a constant is kept in element zero. -/
def Vec.index (i : Fin n) : Fin n :=
  if v.const then ⟨0, Nat.zero_lt_of_lt i.isLt⟩ else i

def Vec.valueData (i : Fin n) : Value :=
  match engine.rawSupported, v.raw with
  | true, some raw =>
    (raw.elem (readIntLE raw.bytes (v.index i * raw.width) raw.width raw.unsigned)).toValue none
  | _, _ => (v.data.get (v.index i)).toValue v.dict

def Vec.stateAt (i : Fin n) : LogicalState := stateOf (bitAt v.hi i) (bitAt v.lo i)

/-- The value of one record, in whichever form the vector holds it. -/
def Vec.value (i : Fin n) : Value :=
  if v.mask then mapState (v.stateAt i) else v.valueData engine i

/-- Whether a record counts as a match: the boolean true and nothing else. -/
def Vec.isTrue (i : Fin n) : Bool :=
  if v.mask then v.stateAt i == .isTrue
  else if v.raw.isSome then false
  else (v.data.get (v.index i)).isTrue

/-- Widen a stored column, for a kernel that reads elements. -/
def Vec.ensureInts : Vec n :=
  match engine.rawSupported, v.raw with
  | true, some raw =>
    { v with data := Vector.ofFn fun k => raw.elem (widenTyped raw k), raw := none }
  | _, _ => v

/-- Spread a constant over all elements. -/
def Vec.materialize : Vec n :=
  if v.const then
    { v with raw := none, const := false, data := Vector.ofFn fun i => v.data.get (v.index i) }
  else v

/-- The truth of an element as an operand of a logical operator. -/
def Elem.toMask : Elem → LogicalState
  | .bool value => if value then .isTrue else .isFalse
  | .int value => if value = 0 then .isFalse else .isTrue
  | .real value => if value == Float.ofInt 0 then .isFalse else .isTrue
  | .undef => .isUndef
  | .error | .string _ | .dictCode _ => .isErr

/-- The planes of a state for every record. -/
def Vec.withStates (state : Fin n → LogicalState) : Vec n :=
  { v with hi := packPlane fun i => hiBit (state i), lo := packPlane fun i => loBit (state i), mask := true }

/-- To mask form. A constant fills whole words, and then the bits past the last record are
cleared. -/
def Vec.toMask : Vec n :=
  if v.mask then v
  else
    let wide := v.ensureInts engine
    if wide.const then
      if some_ : 0 < n then
        let state := (wide.data.get ⟨0, some_⟩).toMask
        { wide with
          hi := clearTail (fillPlane n (hiBit state)), lo := clearTail (fillPlane n (loBit state)),
          const := false, mask := true }
      else { wide with const := false, mask := true }
    else wide.withStates fun i => (wide.data.get i).toMask

def Elem.ofState : LogicalState → Elem
  | .isTrue => .bool true
  | .isFalse => .bool false
  | .isUndef => .undef
  | .isErr => .error

/-- To data form; a constant stays one. -/
def Vec.toData : Vec n :=
  if v.mask then
    { v with
      raw := none, data := Vector.ofFn fun i => .ofState (v.stateAt i), mask := false, const := false }
  else v

/-- The operand of a kernel that reads elements one by one. -/
def Vec.wide : Vec n := ((v.ensureInts engine).toData).materialize

/-- The operand of a comparison in data form, spread out but not widened. -/
def Vec.spread : Vec n := v.toData.materialize

end

/-! ## The vector stack -/

/-- Why a batch has no answer: the executor declined it, or indexed out of range. -/
inductive Fault where
  | declined
  | outOfRange
  deriving DecidableEq, Repr

section
variable {n : Nat}

/-- A slot of the vector stack as it is handed out: the forms are reset, but what the slot
held before is still there. -/
def Vec.pushed (slot : Vec n) : Vec n := { slot with mask := false, const := false, raw := none }

/-- A constant is written to element zero, which an empty batch does not have. -/
def Vec.broadcast (slot : Vec n) (elem : Elem) : Except Fault (Vec n) :=
  if some_ : 0 < n then
    .ok { slot.pushed with data := slot.data.set 0 elem some_, const := true }
  else .error .outOfRange

/-- A vector that describes `n` records: its codes have entries, its stored column has
bytes for every record, and it is in one form at a time. -/
structure Vec.Valid (engine : Engine) (v : Vec n) : Prop where
  alone : v.const = true → v.mask = false ∧ v.raw = none
  masked : v.mask = true → v.raw = none
  stored : ∀ raw, v.raw = some raw → engine.rawSupported = true ∧ 1 ≤ raw.width ∧ raw.width ≤ 8 ∧
    n * raw.width ≤ raw.bytes.length
  coded : v.mask = false → v.raw = none → ∀ i code, v.data.get (v.index i) = .dictCode code →
    ∃ dict text, v.dict = some dict ∧ dict.at code = some text

end
end Classad.VecColumns
