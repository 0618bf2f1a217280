import Classad.SegIndexProofs

/-! Index candidates against the evaluator. From what the index files about a record, which
probes find the record follows operator by operator; a probe the record passes may still miss
it where one key stands for values the operator tells apart, or where the exceptions are left
out. -/
namespace Classad.SegProbeProofs
open Syntax Operators TreeWalk TreeWalkSimulation ConstantFold ConstantFoldProofs QueryProbe QueryProbeProofs FloatOrder
open Option hiding all_eq_false all
open List
open ProbeComparisons Wire WireProofs ZoneMap ZoneMapProofs PostingLists AsciiFolding SegmentIndex SegIndexProofs
open CatPostings (canSkip probeOffsets)
open Probe (accepts)

/-! ## Acceptance -/

/-- What passes an operator that returns undefined for an undefined operand is defined. -/
theorem defined_of_strict (passed : strict operation value val = .boolean true)
    (propagates : value.isUndefined = true → operation value val = .undefined) : value.isUndefined = false := by
  have returned := operation_of_strict passed
  cases defined : value.isUndefined with
  | false => rfl
  | true =>
    rw [propagates defined] at returned
    cases returned

theorem defined_of_equal (passed : applyBinaryValues .equal value val = .boolean true) : value.isUndefined = false :=
  defined_of_strict passed fun undefined => by simp [valuesEqual, undefined]

theorem defined_of_ordering
    (passed : strict (ordering onReals onStrings) value val = .boolean true) : value.isUndefined = false :=
  defined_of_strict passed fun undefined => by simp [ordering, undefined]

/-- Values with texts are equal exactly if both are strings that fold alike or both the same
boolean. -/
theorem valuesEqual_texts (left : catExact value = some text) (right : catExact val = some text') :
    (∃ s t, value = .string s ∧ val = .string t ∧ text = s ∧ text' = t ∧
      valuesEqual value val = .boolean (compareStringsFold s t == .eq)) ∨
    (∃ a b, value = .boolean a ∧ val = .boolean b ∧ text = boolText a ∧ text' = boolText b ∧
      valuesEqual value val = .boolean (a == b)) ∨ valuesEqual value val = .error := by
  cases value <;> cases val <;> cases left <;> cases right <;> simp [valuesEqual, Value.isUndefined, numericOperand]

/-- Equal values with texts are filed under one key. -/
theorem fold_of_equal (lowers : LowersASCII host) (passed : applyBinaryValues .equal value val = .boolean true)
    (left : catExact value = some text) (right : catExact val = some text') :
    host.toLower text = host.toLower text' := by
  have equal := operation_of_strict passed
  rcases valuesEqual_texts left right with ⟨s, t, -, -, rfl, rfl, same⟩ | ⟨a, b, -, -, rfl, rfl, same⟩ | error
  · rw [same] at equal
    exact lowers.folds _ _ (by simpa using equal)
  · rw [same] at equal
    have same : a = b := by simpa using equal
    rw [same]
  · rw [error] at equal
    cases equal

/-! ## Categorical probes -/

/-- Where a categorical index can answer a probe about a record. For `is`, the record must be
filed at all, or not have the value asked for; for `isnt`, it must not have another value of the
same text, as a boolean and a string can be; for `!=`, not a string that `ToLower` takes for the
one asked for and the evaluator does not. -/
def CatFiled (host : Host) (probe : Probe) (node : Option Node) (value : Value) : Prop :=
  match probe.op, probe.vals with
  | .compare .is, val :: _ => (node.bind nodeText).isSome ∨ evaluateIs value val ≠ .boolean true
  | .compare .isnt, val :: _ => ∀ literal text, node.bind literalValue = some literal →
      catExact literal = some text → catExact val = some text → evaluateIs literal val = .boolean true
  | .compare .notEqual, val :: _ => ∀ s t, node.bind literalValue = some (.string s) → val = .string t →
      host.toLower s = host.toLower t → compareStringsFold s t = .eq
  | _, _ => True

section
variable {host : Host} {cp : CatPostings} {offset : Nat} {node : Option Node} {value : Value} {all : Bitmap}

/-- What evaluation makes of the attribute: undefined if it is not there, the literal if it is one. -/
structure ReadsAs (node : Option Node) (value : Value) : Prop where
  absent : node = none → value = .undefined
  literal : ∀ literal, node.bind literalValue = some literal → value = literal

/-- A record filed under a key is filed under the key of its value. -/
theorem ReadsAs.key {key : κ} (reads : ReadsAs node value)
    (filed : (node.bind fun node => (literalValue node).bind keyOf) = some key) :
    node.bind literalValue = some value ∧ keyOf value = some key := by
  obtain ⟨held, rfl, found⟩ := bind_eq_some_iff.mp filed
  obtain ⟨literal, read, exact⟩ := bind_eq_some_iff.mp found
  cases reads.literal literal read
  exact ⟨read, exact⟩

theorem filed_literal (read : node.bind literalValue = some literal) :
    (node.bind fun node => (literalValue node).bind keyOf) = keyOf literal := by
  rw [← bind_assoc, read, bind_some]

theorem ReadsAs.held (reads : ReadsAs node value) (defined : value.isUndefined = false) : node.isSome := by
  cases node with
  | none => simp [reads.absent rfl, Value.isUndefined] at defined
  | some _ => rfl

/-- A record that holds the attribute is posted or an exception. -/
theorem mem_filed {read : Node → Option κ} {posted exc : Bitmap} (held : node.isSome)
    (isPosted : offset ∈ posted ↔ (node.bind read).isSome)
    (isExc : offset ∈ exc ↔ node.isSome ∧ node.bind read = none) :
    offset ∈ posted ++ exc := by
  rw [mem_append, isPosted, isExc]
  cases node.bind read with
  | none => exact .inr ⟨held, rfl⟩
  | some _ => exact .inl rfl

theorem mem_andNot : offset ∈ andNot left right ↔ offset ∈ left ∧ offset ∉ right := by
  simp [andNot]

section
variable (files : FilesText host cp offset node) (reads : ReadsAs node value)
include files reads

/-- A probe for equality finds the record, whichever way it is filed. -/
theorem cat_equality
    (op : up.op = .compare .equal ∨ up.op = .member) (defined : value.isUndefined = false)
    (asked : ∀ text, catExact value = some text → host.toLower text ∈ up.svals) :
    offset ∈ cp.probeOffsets host all up ∧ cp.canSkip up = false := by
  have candidates : cp.probeOffsets host all up = up.svals.flatMap (offsets cp.post) ++ cp.exc := by
    unfold probeOffsets
    rcases op with op | op <;> rw [op]
  have skips : cp.canSkip up = (cp.exc.isEmpty && cp.bloomAbsent up) := by
    unfold canSkip
    rcases op with op | op <;> rw [op]
  rw [candidates, skips]
  cases filed : node.bind nodeText with
  | some text =>
    have key := asked text (reads.key filed).2
    constructor
    · exact mem_append_left _ (mem_flatMap.mpr ⟨_, key, (files.post _).mpr ⟨text, filed, rfl⟩⟩)
    · have present : cp.bloomAbsent up = false := by
        rw [CatPostings.bloomAbsent, all_eq_false]
        exact ⟨_, key, by simp [files.bloom text filed]⟩
      rw [present, Bool.and_false]
  | none =>
    have exceptional := files.exc.mpr ⟨reads.held defined, filed⟩
    refine ⟨mem_append_right _ exceptional, ?_⟩
    have nonempty : cp.exc.isEmpty = false := by
      rw [isEmpty_eq_false_iff]
      exact ne_nil_of_mem exceptional
    rw [nonempty, Bool.false_and]

/-- Identity is settled by the exact text, where the record is filed under one. -/
theorem cat_is (exact : catExact val = some text)
    (op : up.op = .compare .is) (asked : up.svals = [text]) :
    (evaluateIs value val = .boolean true → offset ∈ cp.probeOffsets host all up ∧ cp.canSkip up = false) ↔
      ((node.bind nodeText).isSome ∨ evaluateIs value val ≠ .boolean true) := by
  have candidates : offset ∈ cp.probeOffsets host all up ↔ node.bind nodeText = some text := by
    simp [probeOffsets, op, asked, files.exact]
  have skips : cp.canSkip up = false := by simp [canSkip, op]
  rw [candidates, skips]
  constructor
  · intro found
    by_cases identical : evaluateIs value val = .boolean true
    · rw [(found identical).1]
      exact .inl rfl
    · exact .inr identical
  · rintro (filed | different) identical
    · obtain ⟨other, filed⟩ := isSome_iff_exists.mp filed
      have spelled := (reads.key filed).2
      refine ⟨?_, rfl⟩
      rw [filed]
      cases value <;> cases val <;> cases spelled <;> cases exact <;> simp_all [evaluateIs]
    · exact absurd identical different

/-- A record is dropped for `isnt` if it is filed under the text asked for. -/
theorem cat_isnt (listed : offset ∈ all)
    (exact : catExact val = some text) (op : up.op = .compare .isnt) (asked : up.svals = [text]) :
    (evaluateIsnt value val = .boolean true → offset ∈ cp.probeOffsets host all up ∧ cp.canSkip up = false) ↔
      ∀ literal text, node.bind literalValue = some literal → catExact literal = some text →
        catExact val = some text → evaluateIs literal val = .boolean true := by
  have candidates : offset ∈ cp.probeOffsets host all up ↔ ¬node.bind nodeText = some text := by
    simp [probeOffsets, op, asked, mem_andNot, files.exact, listed]
  have skips : cp.canSkip up = false := by simp [canSkip, op]
  rw [candidates, skips]
  constructor
  · intro found literal text' read spelled same
    cases exact.symm.trans same
    cases reads.literal literal read
    by_contra different
    refine (found ?_).1 ((filed_literal read).trans spelled)
    cases value <;> cases val <;> cases spelled <;> simp_all [evaluateIs, evaluateIsnt]
  · intro distinct different
    refine ⟨fun filed => ?_, rfl⟩
    obtain ⟨read, spelled⟩ := reads.key filed
    have identical := distinct value text read spelled exact
    simp [evaluateIsnt, identical] at different

end

/-- A record is dropped for `!=` if its text folds to the one asked for. -/
theorem cat_notEqual (lowers : LowersASCII host) (files : FilesText host cp offset node) (reads : ReadsAs node value)
    (listed : offset ∈ all)
    (exact : catExact val = some text) (op : up.op = .compare .notEqual) (asked : up.svals = [host.toLower text]) :
    (applyBinaryValues .notEqual value val = .boolean true → offset ∈ cp.probeOffsets host all up ∧
      cp.canSkip up = false) ↔
      ∀ s t, node.bind literalValue = some (.string s) → val = .string t →
        host.toLower s = host.toLower t → compareStringsFold s t = .eq := by
  have candidates : offset ∈ cp.probeOffsets host all up ↔
      ¬∃ spelled, node.bind nodeText = some spelled ∧ host.toLower spelled = host.toLower text := by
    simp [probeOffsets, op, asked, mem_andNot, files.post, listed]
  have skips : cp.canSkip up = false := by simp [canSkip, op]
  rw [candidates, skips]
  constructor
  · rintro found s t read rfl folds
    cases reads.literal _ read
    cases exact
    by_contra different
    refine (found ?_).1 ⟨s, filed_literal read, folds⟩
    simp [applyBinaryValues, strict, evaluateNotEqual, valuesEqual, Value.isError, Value.isUndefined, different]
  · intro agree passed
    refine ⟨?_, rfl⟩
    rintro ⟨spelled, filed, folds⟩
    obtain ⟨read, left⟩ := reads.key filed
    have unequal : evaluateNotEqual value val = .boolean true := operation_of_strict passed
    unfold evaluateNotEqual at unequal
    rcases valuesEqual_texts left exact with ⟨s, t, rfl, rfl, rfl, rfl, same⟩ | ⟨a, b, rfl, rfl, rfl, rfl, same⟩ | error
    · rw [same, agree _ _ read rfl folds] at unequal
      cases unequal
    · rw [toLower_boolText lowers, toLower_boolText lowers] at folds
      have equal : a = b := by revert folds; cases a <;> cases b <;> decide
      rw [same, equal, beq_self_eq_true] at unequal
      cases unequal
    · rw [error] at unequal
      cases unequal

theorem planned_single {f : α → Option β} (planned : ([item].mapM f).map g = some up) :
    ∃ result, f item = some result ∧ g [result] = up := by
  cases here : f item with
  | none => simp [here] at planned
  | some result => exact ⟨result, rfl, by simpa [here] using planned⟩

section
variable (lowers : LowersASCII host) (files : FilesText host cp offset node) (reads : ReadsAs node value)
include lowers files reads

/-- The test whether an attribute counts as true or false asks for a boolean. -/
theorem cat_truth (truth : Bool)
    (view : logicalView value = logicalView (.boolean truth)) (op : up.op = .compare .equal)
    (asked : up.svals = [boolText truth]) :
    offset ∈ cp.probeOffsets host all up ∧ cp.canSkip up = false := by
  refine cat_equality files reads (.inl op) ?_ fun text exact => ?_
  · cases value <;> cases truth <;> simp_all [Value.isUndefined, logicalView]
  · rw [asked]
    cases value with
    | boolean value =>
      cases exact
      rw [toLower_boolText lowers,
        show value = truth by revert view; cases value <;> cases truth <;> simp [logicalView]]
      exact .head _
    | string value => cases truth <;> simp [logicalView] at view
    | _ => cases exact

/-- A categorical index finds a record it has filed for the probe, and only such. -/
theorem cat_found
    (listed : offset ∈ all) (shape : ∀ op, probe.op = .compare op → ∃ val, probe.vals = [val])
    {id : Nat} {up : UsableProbe} (planned : catUsable host id probe = some up) :
    (probe.accepts value = true → offset ∈ cp.probeOffsets host all up ∧ cp.canSkip up = false) ↔
      CatFiled host probe node value := by
  obtain ⟨attr, op, vals⟩ := probe
  cases op with
  | present =>
    cases planned
    refine iff_true_intro fun accepted => ⟨mem_filed ?_ files.posted files.exc, by simp [canSkip]⟩
    exact reads.held (by simpa [accepts] using accepted)
  | absent =>
    cases planned
    refine iff_true_intro fun accepted => ⟨?_, by simp [canSkip]⟩
    simp only [probeOffsets, mem_andNot, files.posted, listed, true_and]
    intro posted
    obtain ⟨text, spelled⟩ := isSome_iff_exists.mp posted
    have exact := (reads.key spelled).2
    simp only [accepts] at accepted
    cases value <;> simp_all [Value.isUndefined, catExact]
  | truthy =>
    cases planned
    exact iff_true_intro fun accepted => cat_truth lowers files reads true (by simpa [accepts] using accepted) rfl rfl
  | untruthy =>
    cases planned
    exact iff_true_intro fun accepted => cat_truth lowers files reads false (by simpa [accepts] using accepted) rfl rfl
  | member =>
    obtain ⟨svals, mapped, rfl⟩ := map_eq_some_iff.mp planned
    refine iff_true_intro fun accepted => ?_
    obtain ⟨val, offered, passed⟩ := accepts_member.mp accepted
    refine cat_equality files reads (.inr rfl) (defined_of_equal passed) fun text exact => ?_
    obtain ⟨key, asked, folded⟩ := mapM_mem mapped offered
    obtain ⟨text', exact', rfl⟩ := map_eq_some_iff.mp folded
    rw [fold_of_equal lowers passed exact exact']
    exact asked
  | compare op =>
    obtain ⟨val, rfl⟩ := shape op rfl
    rw [accepts_compare]
    cases op with
    | less | lessEqual | greater | greaterEqual => cases planned
    | equal =>
      obtain ⟨key, folded, rfl⟩ := planned_single planned
      refine iff_true_intro fun passed => ?_
      refine cat_equality files reads (.inl rfl) (defined_of_equal passed) fun text exact => ?_
      obtain ⟨text', exact', rfl⟩ := map_eq_some_iff.mp folded
      rw [fold_of_equal lowers passed exact exact']
      exact .head _
    | notEqual =>
      obtain ⟨key, folded, rfl⟩ := planned_single planned
      obtain ⟨text, exact, rfl⟩ := map_eq_some_iff.mp folded
      exact cat_notEqual lowers files reads listed exact rfl rfl
    | is =>
      obtain ⟨text, exact, rfl⟩ := map_eq_some_iff.mp planned
      exact cat_is files reads exact rfl rfl
    | isnt =>
      obtain ⟨text, exact, rfl⟩ := map_eq_some_iff.mp planned
      exact cat_isnt files reads listed exact rfl rfl

end

end

/-! ## Value probes -/

/-- Two numbers the evaluator tells apart, integer from integer, are two keys. -/
def KeptApart (literal : Option Value) (asked : Numeric) : Prop :=
  ∀ i j number, literal = some number → numericOperand number = some (.int i) → asked = .int j →
    (Float.ofInt i.toInt == Float.ofInt j.toInt) = true → i = j

/-- Where a value index can answer a probe about a record: for `!=`, and for the test whether the
attribute counts as true, no integer literal other than the one asked for has its key. -/
def ValFiled (probe : Probe) (node : Option Node) : Prop :=
  match probe.op, probe.vals with
  | .compare .notEqual, val :: _ => ∀ asked, numericOperand val = some asked → KeptApart (node.bind literalValue) asked
  | .truthy, _ => KeptApart (node.bind literalValue) (.int 0)
  | _, _ => True

/-- Equality of numbers: exact on integers, of reals otherwise. -/
def sameNumber : Numeric → Numeric → Bool
  | .int l, .int r => l == r
  | l, r => l.toReal == r.toReal

theorem valuesEqual_numbers (left : numericOperand value = some a) (right : numericOperand val = some b) :
    valuesEqual value val = .boolean (sameNumber a b) := by
  have bools : ∀ l r : Bool, (l == r) = ((if l then 1 else 0 : Int64) == if r then 1 else 0) := by decide
  cases value <;> cases val <;> cases left <;> cases right <;>
    simp [valuesEqual, Value.isUndefined, numericOperand, sameNumber, Numeric.toReal, bools]

theorem logicalView_number (number : numericOperand value = some a) :
    logicalView value = if sameNumber a (.int 0) then .isFalse else .isTrue := by
  cases value with
  | boolean value =>
    cases number
    cases value
    · rfl
    · rfl
  | integer value =>
    cases number
    by_cases zero : value = 0 <;> simp [logicalView, sameNumber, zero]
  | real value =>
    cases number
    rfl
  | _ => cases number

theorem notEqual_numbers (left : numericOperand value = some a) (right : numericOperand val = some b) :
    applyBinaryValues .notEqual value val = .boolean true ↔ sameNumber a b = false := by
  have fine : ∀ {value : Value} {a}, numericOperand value = some a → value.isError = false := by
    intro value a number
    cases value <;> first | rfl | cases number
  simp [applyBinaryValues, strict, fine left, fine right, evaluateNotEqual, valuesEqual_numbers left right]

theorem beq_of_number {number : Float} (finite : number.isNaN = false) : (number == number) = true :=
  (beq_iff_samePlace _ _).mpr ⟨finite, finite, rfl, rfl, rfl⟩

theorem beq_of_sameNumber (same : sameNumber a b = true) (finite : a.toReal.isNaN = false) :
    (a.toReal == b.toReal) = true := by
  cases a with
  | int i =>
    cases b with
    | int j =>
      have equal : i = j := by simpa [sameNumber] using same
      subst equal
      exact beq_of_number finite
    | real r => exact same
  | real r => exact same

/-- What is identical to a number is a number equal to it. -/
theorem number_of_is (passed : evaluateIs value val = .boolean true) (number : numericFloat val = some t) :
    value.isUndefined = false ∧ ∀ f, numericFloat value = some f → f = t ∨ (f == t) = true := by
  cases value <;> cases val <;>
    simp_all [evaluateIs, Value.isUndefined, numericFloat, numericOperand, Numeric.toReal]

section
variable {vp : ValPostings} {offset : Nat} {node : Option Node} {value : Value} {all : Bitmap}

section
variable (files : FilesNumber vp offset node) (reads : ReadsAs node value)
include files reads

/-- An exceptional record is a candidate wherever the exceptions are, and no skip is made then. -/
theorem val_exceptional
    (defined : value.isUndefined = false) (unfiled : node.bind literalFloat = none) :
    offset ∈ vp.exc ∧ vp.exc.isEmpty = false := by
  have exceptional := files.exc.mpr ⟨reads.held defined, unfiled⟩
  exact ⟨exceptional, isEmpty_eq_false_iff.mpr (ne_nil_of_mem exceptional)⟩

theorem val_equality
    (op : up.op = .compare .equal ∨ up.op = .member) (defined : value.isUndefined = false)
    (asked : ∀ number, numericFloat value = some number → number.isNaN = false → ∃ t ∈ up.fvals, (number == t) = true) :
    offset ∈ vp.probeOffsets all up ∧ vp.canSkip up = false := by
  have candidates : vp.probeOffsets all up = up.fvals.flatMap (offsets vp.post) ++ vp.exc := by
    unfold ValPostings.probeOffsets
    rcases op with op | op <;> rw [op]
  rw [candidates]
  cases filed : node.bind literalFloat with
  | some number =>
    obtain ⟨key, _, keyed⟩ := files.keyed number filed
    obtain ⟨t, offered, same⟩ := asked number (reads.key filed).2 (number_of_beq keyed).1
    obtain ⟨range, held, low, high⟩ := files.spans number filed
    obtain ⟨below, above⟩ := le_of_beq same
    constructor
    · exact mem_append_left _ (mem_flatMap.mpr ⟨t, offered, (files.post t).mpr ⟨number, filed, same⟩⟩)
    · have spanned : (up.fvals.all fun t => !(decide (range.min ≤ t) && decide (t ≤ range.max))) = false := by
        rw [all_eq_false]
        refine ⟨t, offered, ?_⟩
        simp [le_trans low below, le_trans above high]
      unfold ValPostings.canSkip
      rcases op with op | op <;> simp only [op, held, spanned, Bool.and_false]
  | none =>
    obtain ⟨exceptional, nonempty⟩ := val_exceptional files reads defined filed
    exact ⟨mem_append_right _ exceptional, by simp [ValPostings.canSkip, nonempty]⟩

theorem val_range
    (compares : up.op = .compare op) (ranged : isRangeOp op = true) (asks : up.fvals = [t])
    (unbounded : up.hi = none) (defined : value.isUndefined = false)
    (asked : ∀ number, numericFloat value = some number → InRange op number t) :
    offset ∈ vp.probeOffsets all up ∧ vp.canSkip up = false := by
  have candidates : vp.probeOffsets all up = vp.rangeOffsets op t none := by
    unfold ValPostings.probeOffsets
    cases op with
    | equal | notEqual | is | isnt => cases ranged
    | less | lessEqual | greater | greaterEqual => rw [compares, asks, unbounded]
  rw [candidates, ValPostings.rangeOffsets]
  cases filed : node.bind literalFloat with
  | some number =>
    have inside := asked number (reads.key filed).2
    obtain ⟨key, member, same⟩ := files.keyed number filed
    constructor
    · have run := mem_rangeSpan files.sorted member (inRange_congr same inside)
      exact mem_append_left _ (mem_flatMap.mpr ⟨key, run, (files.post key).mpr ⟨number, filed, same⟩⟩)
    · obtain ⟨range, held, low, high⟩ := files.spans number filed
      have admits : rangeBoundSkips range op t = false := by
        cases op with
        | less => exact decide_eq_false (not_le_of_lt (lt_of_le_of_lt low inside))
        | lessEqual => exact decide_eq_false (not_lt_of_le (le_trans low inside))
        | greater => exact decide_eq_false (not_le_of_lt (lt_of_lt_of_le inside high))
        | greaterEqual => exact decide_eq_false (not_lt_of_le (le_trans inside high))
        | equal | notEqual | is | isnt => cases inside
      cases op with
      | equal | notEqual | is | isnt => cases ranged
      | less | lessEqual | greater | greaterEqual =>
        simp [ValPostings.canSkip, compares, held, asks, unbounded, admits]
  | none =>
    obtain ⟨exceptional, nonempty⟩ := val_exceptional files reads defined filed
    exact ⟨mem_append_right _ exceptional, by simp [ValPostings.canSkip, nonempty]⟩

/-- A record is dropped for `!=` if its number has the key asked for. -/
theorem val_notEqual (listed : offset ∈ all)
    (op : up.op = .compare .notEqual) (asks : up.fvals = [asked.toReal])
    (verdict : ∀ a, numericOperand value = some a → (accepted ↔ sameNumber a asked = false)) :
    (accepted → offset ∈ vp.probeOffsets all up ∧ vp.canSkip up = false) ↔
    KeptApart (node.bind literalValue) asked := by
  have candidates : offset ∈ vp.probeOffsets all up ↔
      ¬∃ number, node.bind literalFloat = some number ∧ (number == asked.toReal) = true := by
    simp [ValPostings.probeOffsets, op, asks, mem_andNot, files.post, listed]
  have skips : vp.canSkip up = false := by
    unfold ValPostings.canSkip
    rw [op]
    cases vp.range <;> simp [isRangeOp]
  rw [candidates, skips]
  constructor
  · rintro found i j literal read number rfl same
    cases reads.literal literal read
    by_contra different
    refine (found ((verdict _ number).mpr (by simpa [sameNumber] using different))).1 ⟨_, ?_, same⟩
    refine (filed_literal read).trans ?_
    rw [numericFloat, number]
    rfl
  · intro apart accepted
    refine ⟨?_, rfl⟩
    rintro ⟨number, filed, same⟩
    obtain ⟨read, float⟩ := reads.key filed
    obtain ⟨a, operand, rfl⟩ := numericFloat_eq float
    have differs := (verdict a operand).mp accepted
    cases a with
    | int i =>
      cases asked with
      | int j => simp [sameNumber, apart i j value read operand rfl same] at differs
      | real r => simp [sameNumber, same] at differs
    | real r => simp [sameNumber, same] at differs

/-- A value index finds a record it has filed for the probe, and only such. -/
theorem val_found
    (listed : offset ∈ all) (shape : ∀ op, probe.op = .compare op → ∃ val, probe.vals = [val])
    {id : Nat} {up : UsableProbe} (planned : valUsable id probe = some up) :
    (probe.accepts value = true → offset ∈ vp.probeOffsets all up ∧ vp.canSkip up = false) ↔ ValFiled probe node := by
  obtain ⟨attr, op, vals⟩ := probe
  have equals : ∀ {val t}, numericFloat val = some t → applyBinaryValues .equal value val = .boolean true →
      ∀ number, numericFloat value = some number → number.isNaN = false → (number == t) = true := by
    intro val t float' passed number float finite
    obtain ⟨f, read, same⟩ := equal_number float' (operation_of_strict passed)
    cases float.symm.trans read
    rcases same with rfl | same
    · exact beq_of_number finite
    · exact same
  have zeroReal : (Numeric.int 0).toReal = Float.ofInt 0 := by
    rw [Numeric.toReal, Int64.toInt_zero]
  cases op with
  | present =>
    cases planned
    refine iff_true_intro fun accepted => ⟨mem_filed ?_ files.posted files.exc, by simp [ValPostings.canSkip]⟩
    exact reads.held (by simpa [accepts] using accepted)
  | absent =>
    cases planned
    refine iff_true_intro fun accepted => ⟨?_, by simp [ValPostings.canSkip]⟩
    simp only [ValPostings.probeOffsets, mem_andNot, files.posted, listed, true_and]
    intro posted
    obtain ⟨number, float⟩ := isSome_iff_exists.mp posted
    have number := (reads.key float).2
    simp only [accepts] at accepted
    cases value <;> simp_all [Value.isUndefined, numericFloat, numericOperand]
  | truthy =>
    cases planned
    refine val_notEqual files reads listed rfl (congrArg (fun t => [t]) zeroReal.symm) fun a number => ?_
    simp [accepts, logicalView_number number]
  | untruthy =>
    cases planned
    refine iff_true_intro fun accepted => val_equality files reads (.inl rfl) ?_ ?_
    · simp only [accepts] at accepted
      cases value <;> simp_all [Value.isUndefined, logicalView]
    · intro number float finite
      obtain ⟨a, operand, rfl⟩ := numericFloat_eq float
      simp only [accepts, logicalView_number operand] at accepted
      have zero : sameNumber a (.int 0) = true := by
        by_contra other
        simp [other] at accepted
      exact ⟨_, mem_singleton.mpr zeroReal, beq_of_sameNumber zero finite⟩
  | member =>
    obtain ⟨fvals, mapped, rfl⟩ := map_eq_some_iff.mp planned
    refine iff_true_intro fun accepted => ?_
    obtain ⟨val, offered, passed⟩ := accepts_member.mp accepted
    refine val_equality files reads (.inr rfl) (defined_of_equal passed) fun number float finite => ?_
    obtain ⟨t, asked, float'⟩ := mapM_mem mapped offered
    exact ⟨t, asked, equals float' passed number float finite⟩
  | compare op =>
    obtain ⟨val, rfl⟩ := shape op rfl
    rw [accepts_compare]
    cases op with
    | isnt => cases planned
    | equal =>
      obtain ⟨t, float', rfl⟩ := planned_single planned
      refine iff_true_intro fun passed => ?_
      refine val_equality files reads (.inl rfl) (defined_of_equal passed) fun number float finite => ?_
      exact ⟨t, .head _, equals float' passed number float finite⟩
    | is =>
      obtain ⟨t, float', rfl⟩ := planned_single planned
      refine iff_true_intro fun passed => ?_
      obtain ⟨defined, same⟩ := number_of_is passed float'
      refine val_equality files reads (.inl rfl) defined fun number float finite => ⟨t, .head _, ?_⟩
      rcases same number float with rfl | same
      · exact beq_of_number finite
      · exact same
    | notEqual =>
      obtain ⟨t, float', rfl⟩ := planned_single planned
      obtain ⟨b, operand, rfl⟩ := numericFloat_eq float'
      refine (val_notEqual files reads listed rfl rfl fun a number => notEqual_numbers number operand).trans ?_
      simp [ValFiled, operand]
    | less | lessEqual | greater | greaterEqual =>
      obtain ⟨t, float', rfl⟩ := planned_single planned
      refine iff_true_intro fun passed => ?_
      refine val_range files reads rfl rfl rfl rfl (defined_of_ordering passed) fun number float => ?_
      obtain ⟨f, read, ordered⟩ := ordering_number float' (operation_of_strict passed)
      cases float.symm.trans read
      simpa [InRange] using ordered

end

end
/-! ## Segments -/

theorem catUsable_plain {id : Nat} (planned : catUsable host id probe = some up) :
    up.attrID = id ∧ up.cat = true ∧ up.neverMatches = false := by
  unfold catUsable at planned
  split at planned
  all_goals first
    | (cases planned; exact ⟨rfl, rfl, rfl⟩)
    | cases planned
    | (obtain ⟨_, _, rfl⟩ := map_eq_some_iff.mp planned; exact ⟨rfl, rfl, rfl⟩)

theorem valUsable_plain {id : Nat} (planned : valUsable id probe = some up) :
    up.attrID = id ∧ up.cat = false ∧ up.neverMatches = false := by
  unfold valUsable at planned
  split at planned
  all_goals first
    | (cases planned; exact ⟨rfl, rfl, rfl⟩)
    | cases planned
    | (obtain ⟨_, _, rfl⟩ := map_eq_some_iff.mp planned; exact ⟨rfl, rfl, rfl⟩)

section
variable {host : Host} {spec : IndexSpec} {mode : KeyMode host} {id : Nat} {records : List StoredRecord}

theorem build_all (built : buildSegIndex spec mode upto records = some si)
    (visited : (offset, some ad) ∈ walkRecords upto 0 records) : offset ∈ si.all := by
  simp only [buildSegIndex] at built
  split at built
  · cases built
    rw [visit_all]
    exact mem_append_left _ (mem_reverse.mpr (mem_map_of_mem visited))
  · cases built

/-- The index of a segment files each of its records by the record's node. -/
theorem build_cat (lowers : LowersASCII host) (built : buildSegIndex spec mode upto records = some si)
    (visited : (offset, some ad) ∈ walkRecords upto 0 records) (indexed : id ∈ spec.catIDs) :
    ∃ cp, si.cat id = some cp ∧ FilesText host cp offset (spec.attrNode mode ad id) := by
  simp only [buildSegIndex] at built
  split at built
  · cases built
    have filed := visit_postings spec mode id (fun si => si.cat id) (indexCat host)
      (fun _ _ => rfl) (fun si offset ad => by cases ad <;> rfl) (walkRecords upto 0 records) (.empty spec) .empty
      (if_pos indexed)
    exact ⟨_, by dsimp only; rw [filed, map_some], indexCat_files lowers fun node => mem_heldNodes visited⟩
  · cases built

theorem build_val (built : buildSegIndex spec mode upto records = some si)
    (visited : (offset, some ad) ∈ walkRecords upto 0 records) (indexed : id ∈ spec.valIDs) :
    ∃ vp, si.val id = some vp ∧ FilesNumber vp offset (spec.attrNode mode ad id) := by
  simp only [buildSegIndex] at built
  split at built
  next finished =>
    cases built
    have filed := visit_postings spec mode id (fun si => si.val id) indexVal
      (fun _ _ => rfl) (fun si offset ad => by cases ad <;> rfl) (walkRecords upto 0 records) (.empty spec) .empty
      (if_pos indexed)
    obtain ⟨vp, done⟩ := isSome_iff_exists.mp (all_eq_true.mp finished id indexed)
    refine ⟨vp, done, ?_⟩
    rw [filed, bind_some] at done
    exact indexVal_files (fun node => mem_heldNodes visited) done
  · cases built

/-- What the evaluator makes of an attribute, in terms of the record's node for it. -/
theorem evaluates_readsAs (stored : StoredWire host) (decoded : stored.decode opening = some attributes)
    (distinct : Distinct host attributes) (recognizes : Recognizes stored name)
    (folds : host.toLower asked = host.toLower name) (timeless : host.toLower asked ≠ currentTimeAttr)
    (evaluates : Evaluates host world (adScope adId attributes) (.reference asked .none) value) :
    ReadsAs (stored.lookup name) value := by
  have held := lookup_bound stored decoded distinct recognizes
  rw [← folds] at held
  constructor
  · intro absent
    rw [absent, bind_none] at held
    have read : Evaluates host world (adScope adId attributes) (.reference asked .none) _ :=
      evaluates_reference timeless fun expr bound => by simp [held] at bound
    rw [held] at read
    exact evaluates_unique evaluates read
  · intro literal read
    obtain ⟨node, looked, read⟩ := bind_eq_some_iff.mp read
    obtain ⟨expr, rfl, plain, rfl⟩ := literalValue_some read
    have found : bound host (host.toLower asked) attributes = some expr := by
      rw [held, looked]
      cases opening <;> rfl
    have literal : ∀ other, bound host (host.toLower asked) attributes = some other → isLiteralExpr other = true := by
      intro other same
      cases found.symm.trans same
      exact plain
    have read : Evaluates host world (adScope adId attributes) (.reference asked .none) _ :=
      evaluates_reference timeless literal
    rw [found] at read
    exact evaluates_unique evaluates read

end

/-- Where the index of a segment can answer a probe about a record. -/
def Filed (host : Host) (spec : IndexSpec) (id : Nat) (probe : Probe) (node : Option Node) (value : Value) : Prop :=
  if id ∈ spec.catIDs then CatFiled host probe node value else ValFiled probe node

/-- A record that passes a usable probe is among the candidates and its segment is not skipped,
exactly if the index has it filed for that probe. -/
theorem probeOffsets_complete (host : Host) (lowers : LowersASCII host) (world : World) (spec : IndexSpec)
    (mode : KeyMode host) (upto : Nat) (records : List StoredRecord) (si : SegIndex)
    (built : buildSegIndex spec mode upto records = some si) (offset : Nat) (ad : Ad)
    (visited : (offset, some ad) ∈ walkRecords upto 0 records) (opening : Opening) (attributes : Attributes)
    (decoded : decodeWire mode opening ad = some attributes) (distinct : Distinct host attributes) (id : Nat)
    (probe : Probe) (shape : ∀ op, probe.op = .compare op → ∃ val, probe.vals = [val])
    (folds : host.toLower probe.attr = host.toLower (spec.names id))
    (recognizes : Recognizes ⟨mode, ad⟩ (spec.names id)) (timeless : host.toLower probe.attr ≠ currentTimeAttr)
    (up : UsableProbe) (planned : spec.usable host id probe = some up) (adId : AdId) (value : Value)
    (evaluates : Evaluates host world (adScope adId attributes) (.reference probe.attr .none) value) :
    (probe.accepts value = true → offset ∈ si.probeOffsets host up ∧ si.canSkip up = false) ↔
      Filed host spec id probe (spec.attrNode mode ad id) value := by
  have reads := evaluates_readsAs ⟨mode, ad⟩ decoded distinct recognizes folds timeless evaluates
  have listed := build_all built visited
  unfold IndexSpec.usable at planned
  split at planned
  next indexed =>
    obtain ⟨cp, held, files⟩ := build_cat lowers built visited indexed
    obtain ⟨rfl, categorical, possible⟩ := catUsable_plain planned
    simp only [SegIndex.probeOffsets, SegIndex.canSkip, categorical, possible, held, Filed, indexed, if_true,
      elim_some, Bool.false_or]
    exact cat_found lowers files reads listed shape planned
  next unindexed =>
    split at planned
    next indexed =>
      obtain ⟨vp, held, files⟩ := build_val built visited indexed
      obtain ⟨rfl, numeric, possible⟩ := valUsable_plain planned
      simp only [SegIndex.probeOffsets, SegIndex.canSkip, numeric, possible, held, Filed, unindexed, if_false,
        elim_some, Bool.false_or, Bool.false_eq_true]
      exact val_found files reads listed shape planned
    · cases planned

/-- The attribute `x`, indexed by text. -/
def sampleSpec : IndexSpec := ⟨[0], [], fun _ => "x"⟩

/-- A record that holds one expression for `x`. -/
def sampleRecord (expr : Expr) : Ad := ⟨[(.name "x", .plain expr)], []⟩

def sampleSegment : List StoredRecord := [⟨40, some (sampleRecord (.string "ab"))⟩,
      ⟨40, some (sampleRecord (.string "AB"))⟩]

theorem probeOffsets_complete_on_sample :
    ∃ si up, buildSegIndex sampleSpec (.inline : KeyMode (asciiHost 0)) 80 sampleSegment = some si ∧
      sampleSpec.usable (asciiHost 0) 0 ⟨"x", .compare .equal, [.string "Ab"]⟩ = some up ∧
      40 ∈ si.probeOffsets (asciiHost 0) up ∧ si.canSkip up = false := by
  refine ⟨_, _, rfl, rfl, ?_⟩
  refine (probeOffsets_complete (asciiHost 0) (lowersASCII_asciiHost 0) (fun _ => []) sampleSpec .inline 80
    sampleSegment _ rfl 40 (sampleRecord (.string "AB")) (.tail _ (.head _)) .keyed [("x", .string "AB")] rfl
    (nodup_singleton _) 0 ⟨"x", .compare .equal, [.string "Ab"]⟩ ?_ rfl ?_ (by decide) _ rfl (.root 0)
    (.string "AB") ⟨12, rfl⟩).mpr trivial (by decide +kernel)
  · rintro op ⟨⟩
    exact ⟨_, rfl⟩
  · intro spelled node _
    exact Iff.rfl

/-- A record `[x = y; y = "ab"]` passes `x =?= "ab"` and is no candidate for it. -/
theorem probeOffsets_lose_expression :
    let computed : Attributes := [("x", .reference "y" .none), ("y", .string "ab")]
    let records : List StoredRecord := [⟨40, some ⟨computed.map fun attr => (.name attr.1, .plain attr.2), []⟩⟩]
    let probe : Probe := ⟨"x", .compare .is, [.string "ab"]⟩
    Evaluates (asciiHost 0) (fun _ => []) (adScope (.root 0) computed) (.reference "x" .none) (.string "ab") ∧
      probe.accepts (.string "ab") = true ∧
      ∃ si up, buildSegIndex sampleSpec (.inline : KeyMode (asciiHost 0)) 40 records = some si ∧
        sampleSpec.usable (asciiHost 0) 0 probe = some up ∧ si.probeOffsets (asciiHost 0) up = [] :=
  ⟨⟨12, rfl⟩, by decide +kernel, _, _, rfl, rfl, by decide +kernel⟩

end Classad.SegProbeProofs
