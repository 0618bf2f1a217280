import Mathlib.Algebra.Group.Int.Defs
import Classad.QueryProbe
import Classad.VecColumns

/-! The vectorized executor. It runs a compiled program over a whole batch: an instruction
works on vectors, and the short-circuit jumps are ignored, both operands being evaluated
for every record and merged by the combining instruction. Elements a kernel has no fast
path for go to the evaluator's own operators. -/
namespace Classad.VecEval
open Syntax Operators TreeWalk VmCompile BitPlanes VecColumns

/-! ## Comparing a stored column with a literal -/

inductive CmpOp where
  | lt | le | gt | ge | eq | ne
  deriving DecidableEq, Repr

def parseCmpOp : BinaryOperator → Option CmpOp
  | .less => some .lt
  | .lessEqual => some .le
  | .greater => some .gt
  | .greaterEqual => some .ge
  | .equal => some .eq
  | .notEqual => some .ne
  | _ => none

def cmpInt (op : CmpOp) (a b : Int64) : Bool :=
  match op with
  | .lt => decide (a < b)
  | .le => decide (a ≤ b)
  | .gt => decide (b < a)
  | .ge => decide (b ≤ a)
  | .eq => a == b
  | .ne => a != b

def cmpFloat (op : CmpOp) (a b : Float) : Bool :=
  match op with
  | .lt => decide (a < b)
  | .le => decide (a ≤ b)
  | .gt => decide (b < a)
  | .ge => decide (b ≤ a)
  | .eq => a == b
  | .ne => a != b

def cmpOrder (op : CmpOp) (o : Ordering) : Bool :=
  match op with
  | .lt => o == .lt
  | .le => o != .gt
  | .gt => o == .gt
  | .ge => o != .lt
  | .eq => o == .eq
  | .ne => o != .eq

/-- The comparisons an engine implements; the others are complements. -/
inductive CmpBase where
  | eq | gt | lt
  deriving DecidableEq, Repr

def baseFor : CmpOp → CmpBase × Bool
  | .eq => (.eq, false)
  | .ne => (.eq, true)
  | .gt => (.gt, false)
  | .le => (.gt, true)
  | .lt => (.lt, false)
  | .ge => (.lt, true)

def CmpBase.onInts (base : CmpBase) (a b : Int) : Bool :=
  match base with
  | .eq => decide (a = b)
  | .gt => decide (b < a)
  | .lt => decide (a < b)

section
variable {n : Nat}

def complementPlane (plane : Plane n) : Plane n := clearTail (mapWords (fun word => ~~~word) plane)

/-- The result words of an already widened column. -/
def scalarBaseMaskInts (base : CmpBase) (vals : Vector Elem n) (lit : Int64) : Plane n :=
  packPlane fun i => match vals.get i with
    | .int value => base.onInts value.toInt lit.toInt
    | _ => base.onInts 0 lit.toInt

/-- The bits for the records from `start` to the end of the word, one at a time. -/
def scalarTailInt (base : CmpBase) (raw : RawColumn) (lit : Int64) (start stop wordStart : Nat) : Word :=
  packWord (fun i => base.onInts (readIntLE raw.bytes (i * raw.width) raw.width raw.unsigned).toInt lit.toInt)
    start (min stop (wordStart + 64) - start) <<< (start - wordStart)

/-- A lane as the integer its type makes of it. -/
def laneValue (raw : RawColumn) (bits : Word) : Int :=
  if raw.unsigned then (bits.setWidth (8 * raw.width)).toNat else (bits.setWidth (8 * raw.width)).toInt

/-- One word, `lanes` records to a vector; where a vector would read past the end, the
remaining records are done one at a time. -/
def laneWord (lanes : Nat) (base : CmpBase) (raw : RawColumn) (lit : Int64) (stop wordStart : Nat) :
    Nat → Nat → Word
  | _, 0 => 0
  | g, groups + 1 =>
    let i := wordStart + g * lanes
    if stop < i + lanes then scalarTailInt base raw lit i stop wordStart
    else
      packWord (fun k => base.onInts (laneValue raw (littleEndian raw.bytes (k * raw.width) raw.width))
          (laneValue raw lit.toBitVec)) i lanes <<< (g * lanes) |||
        laneWord lanes base raw lit stop wordStart (g + 1) groups

def Engine.lanes : Engine → Nat → Option Nat
  | .amd64 true, 2 => some 16
  | .amd64 true, 4 => some 8
  | .arm64, 2 => some 8
  | .arm64, 4 => some 4
  | _, _ => none

/-- Whether the literal is a value of the lane's type. -/
def fitsLane (raw : RawColumn) (lit : Int64) : Bool :=
  if raw.unsigned then decide (0 ≤ lit.toInt) && decide (lit.toInt < 2 ^ (8 * raw.width))
  else decide (-(2 ^ (8 * raw.width - 1) : Int) ≤ lit.toInt) && decide (lit.toInt < 2 ^ (8 * raw.width - 1))

variable (engine : Engine)

/-- An engine declines a width it has no lanes for and a literal that does not fit them. -/
def simdBaseMask (base : CmpBase) (raw : RawColumn) (lit : Int64) : Option (Plane n) :=
  match Engine.lanes engine raw.width with
  | none => none
  | some lanes =>
    if fitsLane raw lit then
      some (Vector.ofFn fun w => laneWord lanes base raw lit n (w * 64) 0 (64 / lanes))
    else none

/-- The comparison itself, from the base comparison an engine made. -/
def finishBase (op : CmpOp) (lo : Plane n) : Plane n := if (baseFor op).2 then complementPlane lo else lo

/-- A stored value is never undefined, so the high plane stays zero. -/
def simdCompareRaw (op : CmpOp) (l : Vec n) (raw : RawColumn) (lit : Int64) :
    Option (Vec n) :=
  if !engine.rawSupported || decide (raw.width < 1) || decide (8 < raw.width) ||
      decide (raw.bytes.length < n * raw.width) then none
  else
    match simdBaseMask engine (baseFor op).1 raw lit with
    | some lo => some { l with lo := finishBase op lo, hi := fillPlane n false, mask := true, raw := none }
    | none =>
      let wide := l.ensureInts engine
      some { wide with
        lo := finishBase op (scalarBaseMaskInts (baseFor op).1 wide.data lit), hi := fillPlane n false, mask := true }

/-! ## Kernels -/

/-- All elements, or none when one of them cannot be computed. -/
def forEach {α : Type} (f : Fin n → Option α) : Option (Vector α n) :=
  if all : ∀ i, (f i).isSome then some (Vector.ofFn fun i => (f i).get (all i)) else none

variable (op : BinaryOperator)

/-- The evaluator's own operator on two boxed elements. -/
def hookOne (l r : Value) : Option Elem := Elem.ofValue (applyBinaryValues op l r)

def hookOneUn (op : UnaryOperator) (value : Value) : Option Elem := Elem.ofValue (applyUnaryValue op value)

/-- The exact result of integer arithmetic, and whether it wrapped. -/
def intArith (a b : Int64) : Option (Int64 × Bool) :=
  match op with
  | .add => some (a + b, decide (a < a + b) != decide (0 < b))
  | .subtract => some (a - b, decide (a - b < a) != decide (0 < b))
  | .multiply => some (a * b, a != 0 && ((a * b) / a != b || (a == -1 && b == Int64.minValue)))
  | _ => none

def realArith (a b : Float) : Option Float :=
  match op with
  | .add => some (a + b)
  | .subtract => some (a - b)
  | .multiply => some (a * b)
  | _ => none

/-- One element of `+`, `-` or `*`. -/
def arithElem (ld rd : Option Dict) (l r : Elem) : Option Elem :=
  match l, r with
  | .int a, .int b => do
    let (x, overflow) ← intArith op a b
    if overflow then hookOne op (l.toValue ld) (r.toValue rd) else some (.int x)
  | l, r =>
    if l.numeric && r.numeric then (realArith op l.float r.float).map .real
    else hookOne op (l.toValue ld) (r.toValue rd)

variable (l r : Vec n)

def arithVec : Option (Vec n) := do
  let left := l.wide engine
  let right := r.wide engine
  let data ← forEach fun i => arithElem op left.dict right.dict (left.data.get i) (right.data.get i)
  some { left with data := data }

/-- Any other operator: every element goes to the evaluator. -/
def hookAll : Option (Vec n) := do
  let left := l.wide engine
  let right := r.wide engine
  let data ← forEach fun i =>
    hookOne op ((left.data.get i).toValue left.dict) ((right.data.get i).toValue right.dict)
  some { left with data := data }

def boolMask (b : Bool) : LogicalState := if b then .isTrue else .isFalse

/-- The state a comparison's value has in a mask; a number or a string has none. -/
def valueToMaskState : Value → Option LogicalState
  | .boolean b => some (boolMask b)
  | .undefined => some .isUndef
  | .error => some .isErr
  | _ => none

/-- One element of a comparison. -/
def compareElem (c : CmpOp) (ld rd : Option Dict) (l r : Elem) :
    Option LogicalState :=
  match l, r with
  | .string a, .string b => some (boolMask (cmpOrder c (compareStringsFold a b)))
  | .int a, .int b => some (boolMask (cmpInt c a b))
  | l, r =>
    if l.numeric && r.numeric then some (boolMask (cmpFloat c l.float r.float))
    else valueToMaskState (applyBinaryValues op (l.toValue ld) (r.toValue rd))

/-- Where a code sits relative to the range of the literal. -/
def compareCode (c : CmpOp) (lo hi : Nat) (code : Int) : Bool :=
  match c with
  | .eq => decide ((lo : Int) ≤ code) && decide (code < hi)
  | .ne => decide (code < lo) || decide ((hi : Int) ≤ code)
  | .lt => decide (code < lo)
  | .le => decide (code < hi)
  | .gt => decide ((hi : Int) ≤ code)
  | .ge => decide ((lo : Int) ≤ code)

/-- The codes of a column that holds nothing else. -/
def allCodes (data : Vector Elem n) : Option (Vector Int n) :=
  forEach fun i => match data.get i with
    | .dictCode code => some code
    | _ => none

/-- A dictionary column against a literal: a test of the codes, no string is looked at. -/
def compareVecDict (c : CmpOp) (l : Vec n) (dict : Dict) (lit : String) : Option (Vec n) :=
  match allCodes l.data with
  | none => none
  | some codes =>
    let (lo, hi) := dict.range lit
    some { l with
      lo := packPlane fun i => compareCode c lo hi (codes.get i), hi := fillPlane n false, mask := true }

def compareVecConst (c : CmpOp) (l : Vec n) (rd : Option Dict) (lit : Elem) :
    Option (Vec n) := do
  let states ← forEach fun i => compareElem op c l.dict rd (l.data.get i) lit
  some (l.withStates states.get)

/-- The comparison at the stored width, when there is one to make. -/
def compareNative (c : CmpOp) (l : Vec n) (lit : Elem) : Option (Vec n) :=
  match engine.rawSupported, l.raw, lit with
  | true, some raw, .int value => if raw.real then none else simdCompareRaw engine c l raw value
  | _, _, _ => none

/-- The comparison of codes, when there is one to make. -/
def compareCoded (c : CmpOp) (l : Vec n) (lit : Elem) : Option (Vec n) :=
  match l.dict, lit with
  | some dict, .string text => compareVecDict c l dict text
  | _, _ => none

/-- A column against a literal: at its stored width, by its codes, or element by element. -/
def compareLiteral (c : CmpOp) (l : Vec n) (rd : Option Dict)
    (lit : Elem) : Option (Vec n) :=
  match compareNative engine c l lit with
  | some done => some done
  | none => match compareCoded c (l.ensureInts engine) lit with
    | some done => some done
    | none => compareVecConst op c (l.ensureInts engine) rd lit

def compareColumns (c : CmpOp) (l r : Vec n) : Option (Vec n) := do
  let states ← forEach fun i => compareElem op c l.dict r.dict (l.data.get i) (r.data.get i)
  some (l.withStates states.get)

/-- The left operand is spread out; a constant on the right is not. -/
def compareVec (c : CmpOp) (l r : Vec n) : Option (Vec n) :=
  if r.toData.const then
    if some_ : 0 < n then compareLiteral engine op c l.spread r.toData.dict (r.toData.data.get ⟨0, some_⟩)
    else none
  else compareColumns op c (l.spread.ensureInts engine) (r.toData.ensureInts engine)

/-- `&&` on 64 records at once: which of them come out true, undefined or in error. -/
def andWord (xh xl yh yl : Word) : Word × Word :=
  if xh ||| yh = 0 then (0, xl &&& yl)
  else
    let isTx := ~~~xh &&& xl
    let isUx := xh &&& ~~~xl
    let isEx := xh &&& xl
    let isTy := ~~~yh &&& yl
    let isUy := yh &&& ~~~yl
    let isEy := yh &&& yl
    let hands := isTx ||| isUx
    let resE := isEx ||| (hands &&& isEy)
    let resT := isTx &&& isTy
    let resU := (isTx &&& isUy) ||| (isUx &&& (isTy ||| isUy))
    (resU ||| resE, resT ||| resE)

def orWord (xh xl yh yl : Word) : Word × Word :=
  if xh ||| yh = 0 then (0, xl ||| yl)
  else
    let isFx := ~~~xh &&& ~~~xl
    let isTx := ~~~xh &&& xl
    let isUx := xh &&& ~~~xl
    let isEx := xh &&& xl
    let isFy := ~~~yh &&& ~~~yl
    let isTy := ~~~yh &&& yl
    let isUy := yh &&& ~~~yl
    let isEy := yh &&& yl
    let hands := isFx ||| isUx
    let resE := isEx ||| (hands &&& isEy)
    let resT := isTx ||| (hands &&& isTy)
    let resU := (isFx &&& isUy) ||| (isUx &&& (isFy ||| isUy))
    (resU ||| resE, resT ||| resE)

def notWord (h l : Word) : Word := (~~~h &&& ~~~l) ||| (h &&& l)

def logicalVec (word : Word → Word → Word → Word → Word × Word) (l r : Vec n) : Vec n :=
  let left := l.toMask engine
  let right := r.toMask engine
  let merged (w : Fin (maskWords n)) : Word × Word :=
    word (left.hi.get w) (left.lo.get w) (right.hi.get w) (right.lo.get w)
  { left with hi := Vector.ofFn fun w => (merged w).1, lo := Vector.ofFn fun w => (merged w).2 }

def binopVec : Option (Vec n) :=
  match parseCmpOp op with
  | some c => compareVec engine op c l r
  | none =>
    if op = .add ∨ op = .subtract ∨ op = .multiply then arithVec engine op l r
    else hookAll engine op l r

def negateElem (dict : Option Dict) (elem : Elem) : Option Elem :=
  match elem with
  | .int value =>
    if value = Int64.minValue then hookOneUn .negate (elem.toValue dict) else some (.int (-value))
  | .real value => some (.real (-value))
  | _ => hookOneUn .negate (elem.toValue dict)

def unopVec (op : UnaryOperator) (v : Vec n) : Option (Vec n) :=
  match op with
  | .not =>
    let masked := (v.ensureInts engine).toMask engine
    some { masked with lo := zipWords notWord masked.hi masked.lo }
  | op => do
    let wide := v.wide engine
    let data ← forEach fun i =>
      if op = .negate then negateElem wide.dict (wide.data.get i)
      else hookOneUn op ((wide.data.get i).toValue wide.dict)
    some { wide with data := data }

end

/-! ## The executor -/

def orDecline {α : Type} : Option α → Except Fault α
  | some a => .ok a
  | none => .error .declined

def pooled {α : Type} (pool : List α) (a : Int) : Except Fault α :=
  if a < 0 then .error .outOfRange
  else match pool[a.toNat]? with
    | some item => .ok item
    | none => .error .outOfRange

section
variable {n : Nat}

/-- A batch of `n` records, read a column at a time. A column it delivers is a valid vector
of the records' values. -/
structure ColumnSource (engine : Engine) (n : Nat) where
  value : Fin n → String → AttributeScope → Value
  loadColumn : String → AttributeScope → Vec n → Option (Vec n)
  valid : ∀ name scope slot v, loadColumn name scope slot = some v → v.Valid engine
  exact : ∀ name scope slot v, loadColumn name scope slot = some v →
    ∀ i, v.value engine i = value i name scope

variable (engine : Engine) (p : Program) (src : ColumnSource engine n)

/-- One instruction. The stack's top is the head of the list. -/
def stepVec (instr : Instr) (slot : Vec n) (stack : List (Vec n)) : Except Fault (List (Vec n)) :=
  match instr.op, stack with
  | .pushConst, stack => do
    let const ← pooled p.consts instr.a
    let elem ← orDecline (Elem.ofValue const)
    let v ← slot.broadcast elem
    .ok (v :: stack)
  | .pushTrue, stack => do
    let v ← slot.broadcast (.bool true)
    .ok (v :: stack)
  | .pushFalse, stack => do
    let v ← slot.broadcast (.bool false)
    .ok (v :: stack)
  | .pushUndef, stack => do
    let v ← slot.broadcast .undef
    .ok (v :: stack)
  | .pushError, stack => do
    let v ← slot.broadcast .error
    .ok (v :: stack)
  | .loadRef, stack => do
    let (name, scope) ← pooled p.refs instr.a
    let v ← orDecline (src.loadColumn name scope slot.pushed)
    .ok (v :: stack)
  | .binop, r :: l :: rest => do
    let op ← pooled p.ops instr.a
    match op with
    | .binary op => do
      let v ← orDecline (binopVec engine op l r)
      .ok (v :: rest)
    | .unary _ => .error .declined
  | .unop, v :: rest => do
    let op ← pooled p.ops instr.a
    match op with
    | .unary op => do
      let v ← orDecline (unopVec engine op v)
      .ok (v :: rest)
    | .binary _ => .error .declined
  | .shortAnd, stack | .shortOr, stack => .ok stack
  | .combineAnd, r :: l :: rest => .ok (logicalVec engine andWord l r :: rest)
  | .combineOr, r :: l :: rest => .ok (logicalVec engine orWord l r :: rest)
  | .jmpIfNotUndef, _ | .evalNode, _ => .error .declined
  | _, _ => .error .outOfRange

/-- The loop over the remaining code. `slots` is what the stack slot used by each
instruction held before. -/
def execVec (slots : Nat → Vec n) : List Instr → Nat → List (Vec n) → Except Fault (Vec n)
  | [], _, stack => match stack with
    | [v] => .ok v
    | _ => .error .declined
  | instr :: code, ip, stack => do
    let stack' ← stepVec engine p src instr (slots ip) stack
    execVec slots code (ip + 1) stack'

/-- `VecEval`: a program with delegated nodes is declined. -/
def vecEval (slots : Nat → Vec n) : Except Fault (Vec n) :=
  if p.nodes ≠ [] then .error .declined else execVec engine p src slots p.code 0 []

end

/-! ## The scalar counterpart -/

/-- `EvalResolved`: run a program for one record, its references going to a resolver. -/
def evalResolved (host : Host) (fuel steps : Nat) (p : Program)
    (resolve : String → AttributeScope → Value) : PartialRun.Run Value :=
  exec host (fun _ => []) (evaluate host (fun _ => []) .panics fuel) ⟨[], 0, [], some resolve⟩ p steps 0 []

/-- The value a program has for one record. -/
def ResolvesTo (host : Host) (p : Program) (resolve : String → AttributeScope → Value) (value : Value) :
    Prop :=
  ∃ fuel steps, evalResolved host fuel steps p resolve = .ok value

end Classad.VecEval
