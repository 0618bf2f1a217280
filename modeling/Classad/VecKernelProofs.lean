import Classad.TreeWalkSimulation
import Classad.VecSimdProofs

/-! Every kernel computes the evaluator's own operator, record by record. The two places
where a fast path differs from the evaluator are kept as conditions on the operands. -/
namespace Classad.VecKernelProofs
open Syntax Operators OperatorProofs TreeWalkSimulation BitPlanes VecColumns VecColumnProofs VecEval VecSimdProofs

/-! ## Dictionaries -/

/-- The fold comparison is the lexicographic order of the folded bytes. -/
theorem compareBytesFold_eq (a b : List UInt8) :
    compareBytesFold a b = compare (a.map lowerASCII) (b.map lowerASCII) := by
  induction a generalizing b with
  | nil => cases b <;> rfl
  | cons x xs ih =>
    cases b with
    | nil => rfl
    | cons y ys =>
      rw [compareBytesFold, List.map_cons, List.map_cons, List.compare_cons_cons, ih]
      split
      next below =>
        have order : compare (lowerASCII x) (lowerASCII y) = .lt := Std.compare_eq_lt.mpr below
        rw [order]
        rfl
      next below =>
        split
        next above =>
          have order : compare (lowerASCII x) (lowerASCII y) = .gt := Std.compare_eq_gt.mpr above
          rw [order]
          rfl
        next above =>
          have same : lowerASCII x = lowerASCII y :=
            UInt8.le_antisymm (UInt8.not_lt.mp above) (UInt8.not_lt.mp below)
          have order : compare (lowerASCII x) (lowerASCII y) = .eq := Std.compare_eq_iff_eq.mpr same
          rw [order]
          rfl

/-- The bytes two strings are compared by. -/
def foldedBytes (s : String) : List UInt8 := s.toUTF8.data.toList.map lowerASCII

theorem compareStringsFold_eq (a b : String) :
    compareStringsFold a b = compare (foldedBytes a) (foldedBytes b) := compareBytesFold_eq _ _

theorem isLE_of_not_gt {order : Ordering} (other : order ≠ .gt) : order.isLE = true := by
  cases order with
  | gt => exact absurd rfl other
  | lt | eq => rfl

theorem fold_lt_of_le_of_lt (first : compareStringsFold a b ≠ .gt)
    (second : compareStringsFold b c = .lt) : compareStringsFold a c = .lt := by
  rw [compareStringsFold_eq] at first second ⊢
  exact Std.TransCmp.lt_of_isLE_of_lt (isLE_of_not_gt first) second

theorem fold_le_trans (first : compareStringsFold a b ≠ .gt)
    (second : compareStringsFold b c ≠ .gt) : compareStringsFold a c ≠ .gt := by
  rw [compareStringsFold_eq] at first second ⊢
  have joined : (compare (foldedBytes a) (foldedBytes c)).isLE = true :=
    Std.TransCmp.isLE_trans (isLE_of_not_gt first) (isLE_of_not_gt second)
  intro above
  rw [above] at joined
  cases joined

theorem fold_refl (a : String) : compareStringsFold a a ≠ .gt := by
  have same : compare (foldedBytes a) (foldedBytes a) = .eq := Std.ReflOrd.compare_self
  rw [compareStringsFold_eq, same]
  nofun

section
variable (dict : Dict) (lit : String)

theorem entry_eq (inside : k < dict.entries.length) : dict.entry k = dict.entries[k] := by
  simp [Dict.entry, inside]

theorem entries_ordered (below : a ≤ b) (inside : b < dict.entries.length) :
    compareStringsFold (dict.entry a) (dict.entry b) ≠ .gt := by
  rcases Nat.eq_or_lt_of_le below with rfl | strictly
  · exact fold_refl _
  · rw [entry_eq dict inside, entry_eq dict (lt_trans strictly inside)]
    exact List.pairwise_iff_getElem.mp dict.sorted a b (by omega) inside strictly

/-- The start of the range: entries before it fold below the literal, the others do not. -/
theorem range_start (inside : k < dict.entries.length) :
    k < (dict.range lit).1 ↔ compareStringsFold (dict.entry k) lit = .lt := by
  have boundary := @BinarySearch.search_spec (fun j => compareStringsFold (dict.entry j) lit != .lt)
    dict.entries.length (by
      intro a b below inside holds
      simp only [bne_iff_ne, ne_eq] at holds ⊢
      intro less
      exact holds (fold_lt_of_le_of_lt (entries_ordered dict below inside) less))
  obtain ⟨_, before, after⟩ := boundary
  constructor
  · intro early
    simpa using before k early
  · intro less
    by_contra late
    have holds := after k (not_lt.mp late) inside
    simp [less] at holds

/-- The end of the range: entries from it on fold above the literal, the others do not. -/
theorem range_stop (inside : k < dict.entries.length) :
    (dict.range lit).2 ≤ k ↔ compareStringsFold (dict.entry k) lit = .gt := by
  have start := range_start dict lit inside
  have stop : (dict.range lit).2 = (dict.range lit).1 +
      BinarySearch.search (dict.entries.length - (dict.range lit).1)
        (fun j => compareStringsFold (dict.entry ((dict.range lit).1 + j)) lit == .gt) := rfl
  generalize (dict.range lit).1 = lo at start stop
  have boundary := @BinarySearch.search_spec (fun j => compareStringsFold (dict.entry (lo + j)) lit == .gt)
    (dict.entries.length - lo) (by
      intro a b below inside holds
      simp only [beq_iff_eq] at holds ⊢
      by_contra other
      exact fold_le_trans (entries_ordered dict (Nat.add_le_add_left below lo) (by omega)) other holds)
  obtain ⟨_, before, after⟩ := boundary
  constructor
  · intro late
    have holds := after (k - lo) (by omega) (by omega)
    have position : lo + (k - lo) = k := by omega
    rw [position] at holds
    simpa using holds
  · intro greater
    by_contra early
    have reached : ¬ k < lo := by simp [start, greater]
    have holds := before (k - lo) (by omega)
    have position : lo + (k - lo) = k := by omega
    rw [position] at holds
    simp [greater] at holds

/-- Comparing codes is comparing strings. -/
theorem compareCode_spec (c : CmpOp) (found : dict.at code = some text) :
    compareCode c (dict.range lit).1 (dict.range lit).2 code = cmpOrder c (compareStringsFold text lit) := by
  unfold Dict.at at found
  split at found
  · cases found
  · obtain ⟨inside, entry⟩ := List.getElem?_eq_some_iff.mp found
    have before := range_start dict lit inside
    have after := range_stop dict lit inside
    rw [entry_eq dict inside, entry] at before after
    have low : code < (dict.range lit).1 ↔ compareStringsFold text lit = .lt := by
      rw [← before]
      omega
    have high : ((dict.range lit).2 : Int) ≤ code ↔ compareStringsFold text lit = .gt := by
      rw [← after]
      omega
    have notLow : ((dict.range lit).1 : Int) ≤ code ↔ ¬ compareStringsFold text lit = .lt := by
      rw [← low]
      omega
    have notHigh : code < ((dict.range lit).2 : Int) ↔ ¬ compareStringsFold text lit = .gt := by
      rw [← high]
      omega
    cases c <;> simp only [compareCode, cmpOrder, low, high, notLow, notHigh] <;>
      cases compareStringsFold text lit <;> rfl

end

/-! ## What the fast paths rely on -/

/-- Two numbers that are not both integers, as reals. -/
def mixedReals : Value → Value → Option (Float × Float)
  | .integer a, .real b => some (Float.ofInt a.toInt, b)
  | .real a, .integer b => some (a, Float.ofInt b.toInt)
  | .real a, .real b => some (a, b)
  | _, _ => none

/-- Operands on which a fast path does what the evaluator does. The evaluator orders two
integers as reals, the kernels as integers; the evaluator turns a real result of positive
infinity into an error, the kernels keep it. -/
def operandsExact (op : BinaryOperator) (l r : Value) : Bool :=
  match parseCmpOp op, l, r with
  | some c, .integer a, .integer b =>
    c == .eq || c == .ne || cmpInt c a b == cmpFloat c (Float.ofInt a.toInt) (Float.ofInt b.toInt)
  | _, l, r => match mixedReals l r with
    | some (a, b) => match realArith op a b with
      | some f => !isPositiveInf f
      | none => true
    | none => true

section
variable {op : BinaryOperator} {c : CmpOp}

section
variable (parsed : parseCmpOp op = some c)
include parsed

theorem compare_strings (a b : String) :
    applyBinaryValues op (.string a) (.string b) = .boolean (cmpOrder c (compareStringsFold a b)) := by
  cases op <;> cases parsed <;> rfl

theorem compare_ints (a b : Int64)
    (exact : operandsExact op (.integer a) (.integer b) = true) :
    applyBinaryValues op (.integer a) (.integer b) = .boolean (cmpInt c a b) := by
  have alike : c = .eq ∨ c = .ne ∨ cmpInt c a b = cmpFloat c (Float.ofInt a.toInt) (Float.ofInt b.toInt) := by
    simpa [operandsExact, parsed, or_assoc] using exact
  rcases alike with rfl | rfl | alike
  · cases op <;> cases parsed
    rfl
  · cases op <;> cases parsed
    rfl
  · cases op with
    | less | greater | lessEqual | greaterEqual =>
      cases parsed
      rw [alike]
      rfl
    | equal | notEqual =>
      cases parsed
      rfl
    | _ => cases parsed

theorem compare_reals (reals : mixedReals l r = some (a, b)) :
    applyBinaryValues op l r = .boolean (cmpFloat c a b) := by
  unfold mixedReals at reals
  split at reals <;> cases reals <;> cases op <;> cases parsed <;> rfl

end

/-- Two numeric elements that are not both integers. -/
theorem mixedReals_elem {l r : Elem} {ld rd : Option Dict} (numbers : (l.numeric && r.numeric) = true)
    (mixed : ∀ a b, l = .int a → r = .int b → False) :
    mixedReals (l.toValue ld) (r.toValue rd) = some (l.float, r.float) := by
  cases l with
  | int a => cases r with
    | int b => exact (mixed a b rfl rfl).elim
    | real b => rfl
    | _ => simp [Elem.numeric] at numbers
  | real a => cases r with
    | int b | real b => rfl
    | _ => simp [Elem.numeric] at numbers
  | _ => simp [Elem.numeric] at numbers

theorem valueToMaskState_value (held : valueToMaskState value = some state) : mapState state = value := by
  cases value <;> cases held
  · rfl
  · rfl
  · exact boolMask_value _

/-- One element of a comparison. -/
theorem compareElem_value (parsed : parseCmpOp op = some c) {ld rd : Option Dict}
    (computed : compareElem op c ld rd l r = some state)
    (exact : operandsExact op (l.toValue ld) (r.toValue rd) = true) :
    mapState state = applyBinaryValues op (l.toValue ld) (r.toValue rd) := by
  unfold compareElem at computed
  split at computed
  next a b =>
    cases computed
    rw [boolMask_value]
    exact (compare_strings parsed a b).symm
  next a b =>
    cases computed
    rw [boolMask_value]
    exact (compare_ints parsed a b exact).symm
  next mixed =>
    split at computed
    next numbers =>
      cases computed
      rw [boolMask_value, compare_reals parsed (mixedReals_elem numbers fun a b => mixed a b)]
    · exact valueToMaskState_value computed

end

/-! ## Arithmetic elements -/

section
variable {op : BinaryOperator}

theorem arith_ints {overflow : Bool} (computed : intArith op a b = some (x, overflow)) :
    applyBinaryValues op (.integer a) (.integer b) = .integer x := by
  cases op <;> cases computed <;> rfl

section
variable {r l : Value} {f a b : Float} (reals : mixedReals l r = some (a, b)) (computed : realArith op a b = some f)
include reals computed

theorem arith_reals : applyBinaryValues op l r = realArithResult f := by
  unfold mixedReals at reals
  split at reals <;> cases reals <;> cases op <;> cases computed <;> rfl

theorem finite_of_exact (exact : operandsExact op l r = true) : isPositiveInf f = false := by
  have unparsed : parseCmpOp op = none := by
    cases op <;> first | rfl | cases computed
  simpa [operandsExact, unparsed, reals, computed] using exact

end

/-- One element of `+`, `-` or `*`. -/
theorem arithElem_value {ld rd : Option Dict} {l r e : Elem} (computed : arithElem op ld rd l r = some e) :
    Elem.NotCode e ∧ (operandsExact op (l.toValue ld) (r.toValue rd) = true →
      ∀ dict, e.toValue dict = applyBinaryValues op (l.toValue ld) (r.toValue rd)) := by
  unfold arithElem at computed
  split at computed
  next a b =>
    cases results : intArith op a b with
    | none =>
      rw [results] at computed
      cases computed
    | some result =>
      obtain ⟨x, overflow⟩ := result
      rw [results] at computed
      cases overflow with
      | true =>
        obtain ⟨plain, value⟩ := ofValue_spec computed
        exact ⟨plain, fun _ => value⟩
      | false =>
        cases computed
        exact ⟨trivial, fun _ _ => (arith_ints results).symm⟩
  next mixed =>
    split at computed
    next numbers =>
      obtain ⟨f, result, rfl⟩ := Option.map_eq_some_iff.mp computed
      have reals := @mixedReals_elem l r ld rd numbers fun a b => mixed a b
      refine ⟨trivial, fun exact dict => ?_⟩
      rw [arith_reals reals result, realArithResult, finite_of_exact reals result exact]
      rfl
    · obtain ⟨plain, value⟩ := ofValue_spec computed
      exact ⟨plain, fun _ => value⟩

theorem negateElem_value (computed : negateElem dict elem = some e) :
    Elem.NotCode e ∧ ∀ other, e.toValue other = applyUnaryValue .negate (elem.toValue dict) := by
  unfold negateElem at computed
  split at computed
  · split at computed
    · exact ofValue_spec computed
    · cases computed
      exact ⟨trivial, fun _ => rfl⟩
  · cases computed
    exact ⟨trivial, fun _ => rfl⟩
  · exact ofValue_spec computed

end

/-! ## Whole kernels -/

section
variable {n : Nat} {engine : Engine} {i : Fin n} {l r out : Vec n} {lv rv : Value}

theorem forEach_spec (computed : forEach f = some data)
    (k : Fin n) : f k = some (data.get k) := by
  unfold forEach at computed
  split at computed
  · cases computed
    simp
  · cases computed

/-- A kernel that replaces the elements of a spread vector. -/
theorem elementwise_reads
    (spread : Spread l) (computed : forEach f = some data) (plain : ∀ k e, f k = some e → Elem.NotCode e)
    (here : ∀ e, f i = some e → ∀ dict, e.toValue dict = value) : Reads engine { l with data := data } i value := by
  refine reads_spread ⟨spread.mask, spread.raw, spread.const⟩ ?_ ?_
  · intro k code found
    have notCode := plain k _ (forEach_spec computed k)
    have coded : data.get k = .dictCode code := found
    rw [coded] at notCode
    exact notCode.elim
  · exact here _ (forEach_spec computed i) _

/-- A kernel that computes each element from the two operands' elements. -/
theorem binaryElements_reads {value : Value} {f : Option Dict → Option Dict → Elem → Elem → Option Elem}
    (left : Reads engine l i lv) (right : Reads engine r i rv) (plain : ∀ ld rd x y e, f ld rd x y = some e →
      Elem.NotCode e)
    (here : ∀ ld rd x y e, x.toValue ld = lv → y.toValue rd = rv → f ld rd x y = some e →
      ∀ dict, e.toValue dict = value)
    (computed : (forEach fun k => f (l.wide engine).dict (r.wide engine).dict ((l.wide engine).data.get k)
      ((r.wide engine).data.get k)) = some data) : Reads engine { l.wide engine with data := data } i value := by
  obtain ⟨leftWide, leftSpread⟩ := left.wide
  obtain ⟨rightWide, rightSpread⟩ := right.wide
  refine elementwise_reads leftSpread computed (fun k e found => plain _ _ _ _ e found) ?_
  intro e found
  exact here _ _ _ _ e ((spread_value leftSpread).symm.trans leftWide.value)
    ((spread_value rightSpread).symm.trans rightWide.value) found

theorem arithVec_reads {op : BinaryOperator} (left : Reads engine l i lv) (right : Reads engine r i rv)
    (exact : operandsExact op lv rv = true) (computed : arithVec engine op l r = some out) :
    Reads engine out i (applyBinaryValues op lv rv) := by
  obtain ⟨data, elements, shape⟩ := Option.bind_eq_some_iff.mp computed
  cases shape
  refine @binaryElements_reads n engine i l r lv rv data _ (arithElem op) left right ?_ ?_ elements
  · intro ld rd x y e found
    exact (arithElem_value found).1
  · rintro ld rd x y e rfl rfl found
    exact (arithElem_value found).2 exact

theorem hookAll_reads {op : BinaryOperator} (left : Reads engine l i lv) (right : Reads engine r i rv)
    (computed : hookAll engine op l r = some out) : Reads engine out i (applyBinaryValues op lv rv) := by
  obtain ⟨data, elements, shape⟩ := Option.bind_eq_some_iff.mp computed
  cases shape
  refine @binaryElements_reads n engine i l r lv rv data _
    (fun ld rd x y => hookOne op (x.toValue ld) (y.toValue rd)) left right ?_ ?_ elements
  · intro ld rd x y e found
    exact (ofValue_spec found).1
  · rintro ld rd x y e rfl rfl found
    exact (ofValue_spec found).2

/-! ### Comparisons -/

/-- A kernel that fills the planes from a computed state. -/
theorem states_reads
    (raw : l.raw = none) (const : l.const = false) (computed : forEach f = some states)
    (here : ∀ state, f i = some state → mapState state = value) : Reads engine (l.withStates states.get) i value := by
  rw [← here _ (forEach_spec computed i)]
  exact withStates_reads raw const

theorem Reads.spread (reads : Reads engine l i value) :
    Reads engine l.spread i value ∧ l.spread.mask = false ∧ l.spread.const = false := by
  obtain ⟨data, mask⟩ := reads.toData
  obtain ⟨spread, const, mask', _⟩ := data.materialize
  exact ⟨spread, mask'.trans mask, const⟩

theorem compareColumns_reads (parsed : parseCmpOp op = some c)
    (left : Reads engine l i lv) (leftSpread : Spread l) (right : Reads engine r i rv) (rightSpread : Spread r)
    (exact : operandsExact op lv rv = true) (computed : compareColumns op c l r = some out) :
    Reads engine out i (applyBinaryValues op lv rv) := by
  have leftValue := (spread_value leftSpread).symm.trans left.value
  have rightValue := (spread_value rightSpread).symm.trans right.value
  obtain ⟨states, elements, shape⟩ := Option.bind_eq_some_iff.mp computed
  cases shape
  refine states_reads leftSpread.raw leftSpread.const elements fun state found => ?_
  rw [← leftValue, ← rightValue] at exact ⊢
  exact compareElem_value parsed found exact

theorem compareVecConst_reads (parsed : parseCmpOp op = some c) (left : Reads engine l i lv) (leftSpread : Spread l)
    (exact : operandsExact op lv (lit.toValue rd) = true) (computed : compareVecConst op c l rd lit = some out) :
    Reads engine out i (applyBinaryValues op lv (lit.toValue rd)) := by
  have leftValue := (spread_value leftSpread).symm.trans left.value
  obtain ⟨states, elements, shape⟩ := Option.bind_eq_some_iff.mp computed
  cases shape
  refine states_reads leftSpread.raw leftSpread.const elements fun state found => ?_
  rw [← leftValue] at exact ⊢
  exact compareElem_value parsed found exact

/-- Codes are compared where the whole column is coded. -/
theorem compareCoded_reads {op : BinaryOperator} {c : CmpOp}
    (parsed : parseCmpOp op = some c) (left : Reads engine l i lv) (leftSpread : Spread l)
    (computed : compareCoded c l lit = some out) : Reads engine out i (applyBinaryValues op lv (lit.toValue rd)) := by
  unfold compareCoded at computed
  split at computed
  next dict text found =>
    unfold compareVecDict at computed
    split at computed
    · cases computed
    next codes allCoded =>
      cases computed
      have coded : l.data.get i = .dictCode (codes.get i) := by
        have here := forEach_spec allCoded i
        split at here
        next code stored =>
          cases here
          exact stored
        · cases here
      obtain ⟨other, entry, same, resolved⟩ := left.coded leftSpread i coded
      cases found.symm.trans same
      have string : lv = .string entry := by
        rw [← left.value, spread_value leftSpread, coded, Elem.toValue, found]
        simp [resolved]
      rw [string, Elem.toValue, compare_strings parsed]
      refine reads_bits _ leftSpread.raw leftSpread.const ?_
      rw [bitAt_packPlane]
      exact compareCode_spec dict text c resolved
  · cases computed

section
variable (parsed : parseCmpOp op = some c) (left : Reads engine l i lv)
include parsed left

/-- A stored column is compared at its own width. -/
theorem compareNative_reads (mask : l.mask = false)
    (exact : operandsExact op lv (lit.toValue rd) = true) (computed : compareNative engine c l lit = some out) :
    Reads engine out i (applyBinaryValues op lv (lit.toValue rd)) := by
  unfold compareNative at computed
  split at computed
  next raw value supported stored =>
    split at computed
    · cases computed
    next real =>
      have integral : raw.real = false := by simpa using real
      have const : l.const = false := by
        by_contra constant
        cases stored.symm.trans (left.valid.alone (by simpa using constant)).2
      have integer : lv = .integer (.ofBitVec (readIntLE raw.bytes (i * raw.width) raw.width raw.unsigned)) := by
        rw [← left.value, value_raw mask const stored supported, RawColumn.elem, integral]
        rfl
      subst integer
      rw [Elem.toValue] at exact ⊢
      rw [compare_ints parsed _ _ exact]
      exact simdCompareRaw_reads left mask stored integral computed
  · cases computed

theorem compareLiteral_reads (mask : l.mask = false)
    (const : l.const = false) (exact : operandsExact op lv (lit.toValue rd) = true)
    (computed : compareLiteral engine op c l rd lit = some out) :
    Reads engine out i (applyBinaryValues op lv (lit.toValue rd)) := by
  obtain ⟨widened, raw, mask', const', _⟩ := left.ensureInts
  have spread : Spread (l.ensureInts engine) := ⟨mask'.trans mask, raw, const'.trans const⟩
  unfold compareLiteral at computed
  split at computed
  next native =>
    cases computed
    exact compareNative_reads parsed left mask exact native
  · split at computed
    next coded =>
      cases computed
      exact compareCoded_reads parsed widened spread coded
    · exact compareVecConst_reads parsed widened spread exact computed

theorem compareVec_reads (right : Reads engine r i rv) (exact : operandsExact op lv rv = true)
    (computed : compareVec engine op c l r = some out) : Reads engine out i (applyBinaryValues op lv rv) := by
  obtain ⟨spread, mask, const⟩ := Reads.spread left
  obtain ⟨data, rightMask⟩ := right.toData
  unfold compareVec at computed
  by_cases literal : r.toData.const = true
  · have nonempty : 0 < n := Nat.zero_lt_of_lt i.isLt
    rw [if_pos literal, dif_pos nonempty] at computed
    have raw := (data.valid.alone literal).2
    have first : r.toData.index i = ⟨0, nonempty⟩ := by rw [Vec.index, if_pos literal]
    have value : (r.toData.data.get ⟨0, nonempty⟩).toValue r.toData.dict = rv := by
      rw [← first, ← value_data rightMask raw, data.value]
    subst value
    exact compareLiteral_reads parsed spread mask const exact computed
  · rw [if_neg literal] at computed
    obtain ⟨leftWide, leftRaw, leftMask, leftConst, _⟩ := spread.ensureInts
    obtain ⟨rightWide, rightRaw, rightMask', rightConst, _⟩ := data.ensureInts
    exact compareColumns_reads parsed leftWide ⟨leftMask.trans mask, leftRaw, leftConst.trans const⟩ rightWide
      ⟨rightMask'.trans rightMask, rightRaw, rightConst.trans (by simpa using literal)⟩ exact computed

end

/-! ### Logic -/

/-- `&&` and `||` on the states a mask can hold. -/
def combineStates (op : BinaryOperator) (x y : LogicalState) : LogicalState :=
  logicalView (applyBinaryValues op (mapState x) (mapState y))

theorem combineStates_value (logical : op = .and ∨ op = .or) (left right : Value) :
    mapState (combineStates op (logicalView left) (logicalView right)) = applyBinaryValues op left right := by
  have first : SameLogic left (mapState (logicalView left)) := (logicalView_mapState _).symm
  have second : SameLogic right (mapState (logicalView right)) := (logicalView_mapState _).symm
  rw [SameLogic.applyLogical logical first second, combineStates]
  rcases logical with rfl | rfl
  · cases logicalView left <;> cases logicalView right <;> rfl
  · cases logicalView left <;> cases logicalView right <;> rfl

/-- A word operation that merges two planes of states bit by bit. -/
def Merges (word : Word → Word → Word → Word → Word × Word) (op : BinaryOperator) : Prop :=
  ∀ xh xl yh yl b, b < 64 →
    stateOf ((word xh xl yh yl).1.getLsbD b) ((word xh xl yh yl).2.getLsbD b) =
      combineStates op (stateOf (xh.getLsbD b) (xl.getLsbD b)) (stateOf (yh.getLsbD b) (yl.getLsbD b))

/-- Without an undefined or error result the high planes are zero. -/
theorem high_bits_zero {xh yh : Word} (zero : xh ||| yh = 0) (b : Nat) :
    xh.getLsbD b = false ∧ yh.getLsbD b = false := by
  have bit : (xh ||| yh).getLsbD b = false := by simp [zero]
  simpa using bit

theorem andWord_merges : Merges andWord .and := by
  intro xh xl yh yl b inside
  unfold andWord
  by_cases zero : xh ||| yh = 0
  · obtain ⟨first, second⟩ := high_bits_zero zero b
    simp only [if_pos zero, first, second, BitVec.getLsbD_and]
    cases xl.getLsbD b <;> cases yl.getLsbD b <;> simp <;> rfl
  · simp only [if_neg zero, BitVec.getLsbD_or, BitVec.getLsbD_and, BitVec.getLsbD_not, inside, decide_true,
      Bool.true_and]
    cases xh.getLsbD b <;> cases xl.getLsbD b <;> cases yh.getLsbD b <;> cases yl.getLsbD b <;> rfl

theorem orWord_merges : Merges orWord .or := by
  intro xh xl yh yl b inside
  unfold orWord
  by_cases zero : xh ||| yh = 0
  · obtain ⟨first, second⟩ := high_bits_zero zero b
    simp only [if_pos zero, first, second, BitVec.getLsbD_or]
    cases xl.getLsbD b <;> cases yl.getLsbD b <;> simp <;> rfl
  · simp only [if_neg zero, BitVec.getLsbD_or, BitVec.getLsbD_and, BitVec.getLsbD_not, inside, decide_true,
      Bool.true_and]
    cases xh.getLsbD b <;> cases xl.getLsbD b <;> cases yh.getLsbD b <;> cases yl.getLsbD b <;> rfl

theorem logicalVec_reads
    (logical : op = .and ∨ op = .or) (merges : Merges word op) (left : Reads engine l i lv)
    (right : Reads engine r i rv) :
    Reads engine (logicalVec engine word l r) i (applyBinaryValues op lv rv) := by
  obtain ⟨raw, const, mask, leftState⟩ := left.toMask
  obtain ⟨_, _, _, rightState⟩ := right.toMask
  have small : i.val % 64 < 64 := Nat.mod_lt _ (by decide)
  rw [← combineStates_value logical, ← leftState, ← rightState]
  refine reads_states _ raw const mask ?_
  simp only [logicalVec, Vec.stateAt, bitAt, get_ofFn]
  exact merges _ _ _ _ _ small

theorem notWord_bit (h l : Word) (b : Nat) (inside : b < 64) :
    (notWord h l).getLsbD b = !(h.getLsbD b ^^ l.getLsbD b) := by
  simp only [notWord, BitVec.getLsbD_or, BitVec.getLsbD_and, BitVec.getLsbD_not, inside, decide_true, Bool.true_and]
  cases h.getLsbD b <;> cases l.getLsbD b <;> rfl

/-- `!` swaps true and false and keeps the rest. -/
theorem not_state (hi lo : Bool) (state : stateOf hi lo = logicalView value) :
    mapState (stateOf hi (!(hi ^^ lo))) = applyUnaryValue .not value := by
  have viaState : applyUnaryValue .not value = applyUnaryValue .not (mapState (stateOf hi lo)) := by
    refine SameLogic.applyNot ?_
    rw [SameLogic, logicalView_mapState, state]
  rw [viaState]
  cases hi <;> cases lo <;> rfl

theorem unopVec_reads (reads : Reads engine l i lv)
    (computed : unopVec engine op l = some out) : Reads engine out i (applyUnaryValue op lv) := by
  have elements : op ≠ .not → Reads engine out i (applyUnaryValue op lv) := by
    intro other
    obtain ⟨wide, spread⟩ := reads.wide
    have value := (spread_value spread).symm.trans wide.value
    have shape : unopVec engine op l = (forEach fun k =>
        if op = .negate then negateElem (l.wide engine).dict ((l.wide engine).data.get k)
        else hookOneUn op (((l.wide engine).data.get k).toValue (l.wide engine).dict)).bind
          fun data => some { l.wide engine with data := data } := by
      cases op <;> first | rfl | exact absurd rfl other
    rw [shape] at computed
    obtain ⟨data, each, same⟩ := Option.bind_eq_some_iff.mp computed
    cases same
    refine elementwise_reads spread each ?_ ?_
    · intro k e found
      split at found
      · exact (negateElem_value found).1
      · exact (ofValue_spec found).1
    · intro e found
      rw [← value]
      split at found
      next negate =>
        subst negate
        exact (negateElem_value found).2
      · exact (ofValue_spec found).2
  cases op with
  | not =>
    obtain ⟨widened, _⟩ := reads.ensureInts
    obtain ⟨raw, const, mask, state⟩ := widened.toMask
    cases computed
    rw [← not_state _ _ state]
    refine reads_states _ raw const mask ?_
    have flipped := @bitAt_zipWords n notWord (fun h l => !(h ^^ l)) notWord_bit
      ((l.ensureInts engine).toMask engine).hi ((l.ensureInts engine).toMask engine).lo i
    rw [Vec.stateAt]
    simp [flipped]
  | _ => exact elements UnaryOperator.noConfusion

/-- Every binary operator, on operands its fast paths are exact for. -/
theorem binopVec_reads (left : Reads engine l i lv) (right : Reads engine r i rv)
    (exact : operandsExact op lv rv = true) (computed : binopVec engine op l r = some out) :
    Reads engine out i (applyBinaryValues op lv rv) := by
  unfold binopVec at computed
  split at computed
  next c parsed =>
    exact compareVec_reads parsed left right exact computed
  · split at computed
    · exact arithVec_reads left right exact computed
    · exact hookAll_reads left right computed

end

end Classad.VecKernelProofs
