import Classad.FloatOrder
import Classad.WireProofs
import Classad.ZoneMap

/-! Zone pruning against the evaluator. A span covers every number a record of the segment
holds for the attribute as a literal; a probe that a record passes with such a number does
not exclude the segment. Values that never entered a span are what remains: those of
attributes that are expressions. -/
namespace Classad.ZoneMapProofs
open Syntax Operators PartialRun TreeWalk ConstantFold ConstantFoldProofs TreeWalkSimulation FloatOrder
open Option hiding any_eq_false
open List hiding range
open QueryProbe QueryProbeProofs ProbeComparisons Wire WireProofs ZoneMap

/-! ## Comparing with a number -/

theorem numericFloat_eq (number : numericFloat value = some f) :
    ∃ operand, numericOperand value = some operand ∧ operand.toReal = f :=
  map_eq_some_iff.mp number

/-- What passes an ordering against a number is a number that passes it. -/
theorem ordering_number
    (number : numericFloat val = some v) (passed : ordering onReals onStrings value val = .boolean true) :
    ∃ f, numericFloat value = some f ∧ onReals f v = true := by
  obtain ⟨operand, read, rfl⟩ := numericFloat_eq number
  unfold ordering at passed
  split at passed
  · cases passed
  · cases left : numericOperand value with
    | some l =>
      simp only [left, read, Value.boolean.injEq] at passed
      exact ⟨l.toReal, by simp [numericFloat, left], passed⟩
    | none =>
      simp only [left, read] at passed
      split at passed
      · cases read
      · cases passed

/-- What equals a number is a number that equals it. -/
theorem equal_number (number : numericFloat val = some v) (passed : valuesEqual value val = .boolean true) :
    ∃ f, numericFloat value = some f ∧ (f = v ∨ (f == v) = true) := by
  obtain ⟨operand, read, rfl⟩ := numericFloat_eq number
  unfold valuesEqual at passed
  split at passed
  · cases passed
  · split at passed
    · cases read
      simp only [Value.boolean.injEq, beq_iff_eq] at passed
      subst passed
      exact ⟨_, rfl, .inl rfl⟩
    · cases read
      simp only [Value.boolean.injEq, beq_iff_eq] at passed
      subst passed
      exact ⟨_, rfl, .inl rfl⟩
    · cases read
      exact ⟨_, rfl, .inr (Value.boolean.inj passed)⟩
    · cases read
    · cases left : numericOperand value with
      | none => simp [left] at passed
      | some l =>
        refine ⟨l.toReal, by simp [numericFloat, left], ?_⟩
        simp only [left, read] at passed
        split at passed
        next first second =>
          cases first
          cases second
          simp only [Value.boolean.injEq, beq_iff_eq] at passed
          exact .inl (by rw [passed])
        next first second =>
          cases first
          cases second
          exact .inr (by simpa using passed)
        · cases passed

/-! ## Spans -/

/-- The span has the number in it. -/
def Spans (zone : Option ZoneRange) (number : Float) : Prop :=
  ∃ range, zone = some range ∧ range.min ≤ number ∧ number ≤ range.max

/-- Neither end of the span is a NaN. -/
def Sane (zone : Option ZoneRange) : Prop :=
  ∀ range, zone = some range → range.min.isNaN = false ∧ range.max.isNaN = false

theorem widen_sane (sane : Sane zone) (number : f.isNaN = false) : Sane (some (widen zone f)) := by
  rintro _ ⟨⟩
  cases zone with
  | none => exact ⟨number, number⟩
  | some range =>
    obtain ⟨low, high⟩ := sane range rfl
    simp only [widen]
    constructor
    · split
      · exact number
      · exact low
    · split
      · exact number
      · exact high

theorem widen_spans (sane : Sane zone) (number : f.isNaN = false) : Spans (some (widen zone f)) f := by
  refine ⟨_, rfl, ?_⟩
  cases zone with
  | none => exact ⟨le_refl number, le_refl number⟩
  | some range =>
    obtain ⟨low, high⟩ := sane range rfl
    simp only [widen]
    constructor
    · split
      · exact le_refl number
      next unordered =>
        exact (not_lt_iff number low).mp unordered
    · split
      · exact le_refl number
      next unordered =>
        exact (not_lt_iff high number).mp unordered

theorem widen_keeps (spans : Spans zone g) : Spans (some (widen zone f)) g := by
  obtain ⟨range, rfl, low, high⟩ := spans
  refine ⟨_, rfl, ?_⟩
  simp only [widen]
  constructor
  · split
    next less =>
      exact le_of_lt (lt_of_lt_of_le less low)
    · exact low
  · split
    next greater =>
      exact le_of_lt (lt_of_le_of_lt high greater)
    · exact high

/-- A number in the span that passes the probe is one the span does not exclude. -/
theorem zoneMayMatch_of_spans (spans : Spans (some range) f) (passed : match op with
      | .equal => f = v ∨ (f == v) = true
      | .less => f < v
      | .lessEqual => f ≤ v
      | .greater => v < f
      | .greaterEqual => v ≤ f
      | _ => True) : zoneMayMatch range (.compare op) (v :: vals) = true := by
  obtain ⟨_, ⟨⟩, low, high⟩ := spans
  cases op with
  | equal =>
    simp only [zoneMayMatch, any_cons, Bool.or_eq_true, Bool.and_eq_true, decide_eq_true_eq]
    left
    rcases passed with rfl | equal
    · exact ⟨low, high⟩
    · obtain ⟨below, above⟩ := le_of_beq equal
      exact ⟨le_trans low below, le_trans above high⟩
  | less => exact decide_eq_true (lt_of_le_of_lt low passed)
  | lessEqual => exact decide_eq_true (le_trans low passed)
  | greater => exact decide_eq_true (lt_of_lt_of_le passed high)
  | greaterEqual => exact decide_eq_true (le_trans passed high)
  | notEqual | is | isnt => rfl

/-! ## Segments -/

/-- A fact that every step keeps and one of them brings about holds in the end. -/
theorem foldl_brings (inv goal : β → Prop) {items : List α}
    (keeps : ∀ state, inv state → ∀ item ∈ items, inv (step state item))
    (stays : ∀ state, inv state → goal state → ∀ item ∈ items, goal (step state item))
    (member : item ∈ items) (brings : ∀ state, inv state → goal (step state item))
    (start : inv state) : goal (items.foldl step state) := by
  obtain ⟨before, after, rfl⟩ := append_of_mem member
  rw [foldl_append, foldl_cons]
  have reached : inv (before.foldl step state) :=
    foldlRecOn before step start fun state sound item found =>
      keeps state sound item (mem_append_left _ found)
  have brought : inv (step (before.foldl step state) item) ∧ goal (step (before.foldl step state) item) :=
    ⟨keeps _ reached item member, brings _ reached⟩
  refine (foldlRecOn after step (motive := fun state => inv state ∧ goal state) brought ?_).2
  intro state held later found
  have inside : later ∈ before ++ item :: after := mem_append_right _ (.tail _ found)
  exact ⟨keeps state held.1 later inside, stays state held.1 held.2 later inside⟩

section
variable {host : Host} {intern : InternTable host} {mode : KeyMode host} {attrs : List (ZoneAttr intern)}

/-- No record holds a NaN that would enter the zone. -/
def NaNFree (mode : KeyMode host) (attrs : List (ZoneAttr intern)) (records : List Ad) (id : Nat) : Prop :=
  ∀ ad ∈ records, ∀ attr ∈ attrs, attr.id = id → ∀ number, attrNumber mode ad attr = some number → number.isNaN = false

theorem noteAttr_apply (mode : KeyMode host) (ad : Ad) (zones : Zones) (attr : ZoneAttr intern) (id : Nat) :
    noteAttr mode ad zones attr id = match attrNumber mode ad attr with
      | none => zones id
      | some number => if id = attr.id then some (widen (zones id) number) else zones id := by
  unfold noteAttr
  cases attrNumber mode ad attr <;> rfl

theorem noteAttr_sane {id : Nat} (sane : Sane (zones id))
    (number : attr.id = id → ∀ f, attrNumber mode ad attr = some f → f.isNaN = false) :
    Sane (noteAttr mode ad zones attr id) := by
  rw [noteAttr_apply]
  split
  · exact sane
  next f held =>
    split
    next same => exact widen_sane sane (number same.symm f held)
    · exact sane

theorem noteAttr_keeps {id : Nat} (spans : Spans (zones id) g) :
    Spans (noteAttr mode ad zones attr id) g := by
  rw [noteAttr_apply]
  split
  · exact spans
  · split
    · exact widen_keeps spans
    · exact spans

theorem noteAttr_brings (sane : Sane (zones attr.id)) (held : attrNumber mode ad attr = some f)
    (number : f.isNaN = false) :
    Spans (noteAttr mode ad zones attr attr.id) f := by
  simp only [noteAttr_apply, held, if_true]
  exact widen_spans sane number

/-- The zones of a segment span every number its records hold for a zone attribute. -/
theorem computeSegZones_spans
    (computed : computeSegZones mode attrs records = some zones) (numbers : NaNFree mode attrs records attr.id)
    (visited : ad ∈ records) (zoned : attr ∈ attrs) (held : attrNumber mode ad attr = some f) :
    Spans (zones attr.id) f := by
  unfold computeSegZones at computed
  split at computed
  · cases computed
  · cases computed
    let clear (zones : Zones) : Prop := Sane (zones attr.id)
    let covered (zones : Zones) : Prop := Spans (zones attr.id) f
    apply foldl_brings clear covered _ _ visited
    · intro zones sane
      apply foldl_brings clear covered _ _ zoned _ sane
      · exact fun _ sane other zoned => noteAttr_sane sane (numbers ad visited other zoned)
      · exact fun _ _ spans _ _ => noteAttr_keeps spans
      · exact fun _ sane => noteAttr_brings sane held (numbers ad visited attr zoned rfl f held)
    · rintro range ⟨⟩
    · intro zones sane ad visited
      exact foldlRecOn attrs _ (motive := clear) sane
        fun _ sane other zoned => noteAttr_sane sane (numbers ad visited other zoned)
    · intro zones _ spans ad _
      exact foldlRecOn attrs _ (motive := covered) spans fun _ spans _ _ => noteAttr_keeps spans

/-- Only zone attributes have zones. -/
theorem computeSegZones_zoned {id : Nat}
    (computed : computeSegZones mode attrs records = some zones) (held : zones id = some range) :
    ∃ attr ∈ attrs, attr.id = id := by
  unfold computeSegZones at computed
  split at computed
  · cases computed
  · cases computed
    by_contra unzoned
    have empty : ∀ zones : Zones, zones id = none → ∀ ad, attrs.foldl (noteAttr mode ad) zones id = none := by
      intro zones absent ad
      apply foldlRecOn attrs (noteAttr mode ad) (motive := fun zones : Zones => zones id = none) absent
      intro zones absent attr zoned
      rw [noteAttr_apply]
      split
      · exact absent
      · rw [if_neg fun same => unzoned ⟨attr, zoned, same.symm⟩, absent]
    have nothing := foldlRecOn records (fun zones ad => attrs.foldl (noteAttr mode ad) zones)
      (motive := fun zones : Zones => zones id = none) (b := fun _ => none) rfl
      (fun zones absent ad _ => empty zones absent ad)
    rw [held] at nothing
    cases nothing

end

/-! ## Probes -/

section
variable {host : Host}

theorem cmpProbe_single (probed : cmpProbe op left right = some probe) : ∃ val, probe.vals = [val] := by
  unfold cmpProbe at probed
  split at probed
  · cases probed
    exact ⟨_, rfl⟩
  · split at probed
    · cases probed
      exact ⟨_, rfl⟩
    · cases probed

theorem undefinedFuncProbe_plain (probed : undefinedFuncProbe host name args negated = some probe) :
    probe.op ≠ .compare op := by
  unfold undefinedFuncProbe at probed
  split at probed
  · split at probed
    · obtain ⟨attr, _, rfl⟩ := map_eq_some_iff.mp probed
      cases negated <;> simp
    · cases probed
  · cases probed

/-- A probe that compares has one value to compare with. -/
theorem leafProbe_single (probed : leafProbe host leaf = some probe)
    (compares : probe.op = .compare op) : ∃ val, probe.vals = [val] := by
  have tests : ∀ {attr : Option String} {op' : ProbeOp},
      attr.map (fun attr => (⟨attr, op', []⟩ : Probe)) = some probe → (∀ op, op' ≠ .compare op) → False := by
    intro attr op' mapped other
    obtain ⟨_, _, rfl⟩ := map_eq_some_iff.mp mapped
    exact other op compares
  have identity : ∀ {op' : CompareOp} {undefinedOp : ProbeOp} {left right},
      identityProbe op' undefinedOp left right = some probe → (∀ op, undefinedOp ≠ .compare op) →
      ∃ val, probe.vals = [val] := by
    intro op' undefinedOp left right probed other
    unfold identityProbe at probed
    split at probed
    · cases probed
      exact absurd compares (other op)
    · exact cmpProbe_single probed
  unfold leafProbe at probed
  split at probed
  · unfold negatedProbe at probed
    split at probed
    · exact absurd compares (undefinedFuncProbe_plain probed)
    · split at probed
      · exact cmpProbe_single probed
      · split at probed
        · exact (tests probed nofun).elim
        · split at probed
          · exact (tests probed nofun).elim
          · cases probed
    · exact (tests probed nofun).elim
  · exact absurd compares (undefinedFuncProbe_plain probed)
  · cases probed
    cases compares
  · cases probed
    cases compares
  · exact cmpProbe_single probed
  · exact cmpProbe_single probed
  · exact cmpProbe_single probed
  · exact cmpProbe_single probed
  · exact cmpProbe_single probed
  · exact cmpProbe_single probed
  · exact identity probed nofun
  · exact identity probed nofun
  · cases probed

theorem probeFrom_single (probed : probeFrom host conjunct = some probe)
    (compares : probe.op = .compare op) : ∃ val, probe.vals = [val] := by
  unfold probeFrom at probed
  split at probed
  · unfold orEqProbe at probed
    split at probed
    · split at probed
      · cases probed
      · cases probed
        cases compares
    · cases probed
  · exact leafProbe_single probed compares

theorem mapM_mem {items : List α} (mapped : items.mapM f = some results)
    (member : item ∈ items) : ∃ result ∈ results, f item = some result := by
  induction items generalizing results with
  | nil => cases member
  | cons head rest ih =>
    simp only [mapM_cons, bind_eq_bind, bind_eq_some_iff] at mapped
    obtain ⟨first, here, others, later, same⟩ := mapped
    cases same
    rcases mem_cons.mp member with rfl | member
    · exact ⟨first, .head _, here⟩
    · obtain ⟨result, found, same⟩ := ih later member
      exact ⟨result, .tail _ found, same⟩

/-- What passes a comparison with a number is a number, and no span that has it excludes it. -/
theorem compared_number (number : numericFloat val = some v)
    (passed : applyBinaryValues op.toBinary value val = .boolean true) :
    (∀ range, zoneMayMatch range (.compare op) [v] = true) ∨ ∃ f, numericFloat value = some f ∧
        ∀ range, Spans (some range) f → zoneMayMatch range (.compare op) [v] = true := by
  cases op with
  | notEqual | is | isnt => exact .inl fun _ => rfl
  | equal =>
    obtain ⟨f, read, equal⟩ := equal_number number (operation_of_strict passed)
    exact .inr ⟨f, read, fun range spans => zoneMayMatch_of_spans spans equal⟩
  | less | lessEqual | greater | greaterEqual =>
    obtain ⟨f, read, ordered⟩ := ordering_number number (operation_of_strict passed)
    exact .inr ⟨f, read, fun range spans => zoneMayMatch_of_spans spans (of_decide_eq_true ordered)⟩

/-- What passes a probe for a number is a number, and no span that has it excludes it; the
other probes exclude no segment at all. -/
theorem accepted_number (shape : ∀ op, probe.op = .compare op → ∃ val, probe.vals = [val])
    (numbers : probeFloats probe = some (v :: vals)) (accepted : probe.accepts value = true) :
    (∀ range, zoneMayMatch range probe.op (v :: vals) = true) ∨ ∃ f, numericFloat value = some f ∧
        ∀ range, Spans (some range) f → zoneMayMatch range probe.op (v :: vals) = true := by
  obtain ⟨attr, op, probeVals⟩ := probe
  cases op with
  | present | absent | truthy | untruthy => exact .inl fun _ => rfl
  | compare op =>
    obtain ⟨val, single⟩ := shape op rfl
    subst single
    have alone : (numericFloat val).bind (fun w => some [w]) = some (v :: vals) := by
      simpa [probeFloats] using numbers
    obtain ⟨_, number, ⟨⟩⟩ := bind_eq_some_iff.mp alone
    exact compared_number number (accepts_compare.mp accepted)
  | member =>
    obtain ⟨val, offered, passed⟩ := accepts_member.mp accepted
    obtain ⟨w, found, number⟩ := mapM_mem numbers offered
    obtain ⟨f, read, equal⟩ := equal_number number (operation_of_strict passed)
    refine .inr ⟨f, read, fun range spans => ?_⟩
    have admitted : zoneMayMatch range (.compare .equal) [w] = true := zoneMayMatch_of_spans spans equal
    simp only [zoneMayMatch, any_cons, any_nil, Bool.or_false] at admitted
    exact any_eq_true.mpr ⟨w, found, admitted⟩

/-! ## Records -/

variable {world : World} {id : AdId} {attributes : Attributes} {name : String}

/-- A reference to a literal attribute, or to one that is not there, is worth what it reads;
only the clock stands in for an attribute. -/
theorem evaluates_reference (timeless : host.toLower name ≠ currentTimeAttr)
    (literal : ∀ expr, bound host (host.toLower name) attributes = some expr → isLiteralExpr expr = true) :
    Evaluates host world (adScope id attributes) (.reference name .none)
      ((bound host (host.toLower name) attributes).elim .undefined exprToValue) := by
  have clock : isCurrentTimeRef host name .none = false := by
    simpa [isCurrentTimeRef, normalizeName] using timeless
  refine ⟨2, ?_⟩
  rw [evaluate_succ (by simp), if_neg (by simp [newEvaluator, maxEvalDepth]), evalNode, evaluateAttributeReference]
  simp only [clock, Bool.and_false, Bool.false_eq_true, if_false, resolveAttributeReference, newEvaluator,
    normalizeName, lookupInScope]
  cases found : bound host (host.toLower name) attributes with
  | none =>
    rw [lookupNorm_none found]
    rfl
  | some expr =>
    have read : evaluate host world .panics 1 ⟨adScope id attributes, 1, [], none⟩ expr = .ok (exprToValue expr) :=
      evaluate_literal (literal expr found) (by simp [maxEvalDepth])
    simp only [lookupNorm_literal found (literal expr found), evalAttrExpr, literal expr found, if_true]
    rw [read]
    rfl

variable {intern : InternTable host} {mode : KeyMode host} {attrs : List (ZoneAttr intern)}

/-- A probe that asks for numbers in a range. -/
def asksRange (probe : Probe) : Bool := match probe.op with
  | .member | .compare .equal | .compare .less | .compare .lessEqual | .compare .greater | .compare .greaterEqual =>
    probe.vals.all fun val => (numericFloat val).isSome
  | _ => false

/-- The zone attribute has a probe that its zone can fail. -/
def Asked (probes : List Probe) (attr : ZoneAttr intern) : Prop :=
  ∃ probe ∈ probes, asksRange probe = true ∧ host.toLower probe.attr = host.toLower attr.name

/-- A record with a zone attribute in the open: it is a literal or not there at all, it is not the
clock, and looking it up is unambiguous. -/
structure ZoneReadable (mode : KeyMode host) (attr : ZoneAttr intern) (ad : Ad) (attributes : Attributes) : Prop where
  distinct : Distinct host attributes
  recognized : Recognizes ⟨mode, ad⟩ attr.name
  literal : ∀ node, wireLookup mode ad attr.name = some node → (literalValue node).isSome
  timeless : host.toLower attr.name ≠ currentTimeAttr

/-- What a readable record binds a zone attribute to is what its node holds. -/
theorem ZoneReadable.value (world : World) (id : AdId) (readable : ZoneReadable mode attr ad attributes)
    (decoded : decodeWire mode opening ad = some attributes)
    (folds : host.toLower name = host.toLower attr.name) :
    ∃ value, Evaluates host world (adScope id attributes) (.reference name .none) value ∧
      (numericFloat value = some f → attrNumber mode ad attr = some f) := by
  have held := lookup_bound ⟨mode, ad⟩ decoded readable.distinct readable.recognized
  have open' : ∀ node, wireLookup mode ad attr.name = some node →
      ∃ expr, node = .plain expr ∧ isLiteralExpr expr = true ∧ literalValue node = some (exprToValue expr) := by
    intro node found
    obtain ⟨value, read⟩ := isSome_iff_exists.mp (readable.literal node found)
    obtain ⟨expr, rfl, literal, rfl⟩ := literalValue_some read
    exact ⟨expr, rfl, literal, read⟩
  rw [← folds] at held
  refine ⟨_, evaluates_reference (folds ▸ readable.timeless) ?_, ?_⟩
  · intro expr found
    rw [held] at found
    obtain ⟨node, looked, opened⟩ := bind_eq_some_iff.mp found
    obtain ⟨expr', rfl, literal, _⟩ := open' node looked
    cases opening <;> cases opened <;> exact literal
  · intro number
    rw [held] at number
    unfold attrNumber
    cases looked : wireLookup mode ad attr.name with
    | none => simp [StoredWire.lookup, looked, numericFloat, numericOperand] at number
    | some node =>
      obtain ⟨expr, rfl, literal, read⟩ := open' node looked
      rw [bind_some, literalFloat, read, bind_some]
      rw [StoredWire.lookup, looked] at number
      cases opening <;> exact number

theorem zoneMayMatch_unranged (unranged : asksRange probe = false) (floats : probeFloats probe = some vals) :
    zoneMayMatch zone probe.op vals = true := by
  have numbers : probe.vals.all (fun val => (numericFloat val).isSome) = true := by
    refine all_eq_true.mpr fun val member => ?_
    obtain ⟨number, _, read⟩ := mapM_mem floats member
    exact isSome_iff_exists.mpr ⟨number, read⟩
  unfold asksRange at unranged
  rw [numbers] at unranged
  unfold zoneMayMatch
  split <;> simp_all

/-- A probe that a readable record of the segment satisfies does not exclude the segment. -/
theorem zoneExcludes_sound (shape : ∀ op, probe.op = .compare op → ∃ val, probe.vals = [val])
    (computed : computeSegZones mode attrs records = some zones)
    (visited : ad ∈ records) (decoded : decodeWire mode opening ad = some attributes)
    (asked : ∀ attr ∈ attrs, asksRange probe = true → host.toLower probe.attr = host.toLower attr.name →
      NaNFree mode attrs records attr.id ∧ ZoneReadable mode attr ad attributes)
    (satisfied : SatisfiedBy host world (adScope id attributes) probe) : zoneExcludes intern zones probe = false := by
  unfold zoneExcludes
  split
  next zone v vals numbered floats =>
    cases ranged : asksRange probe with
    | false => rw [zoneMayMatch_unranged ranged floats]; rfl
    | true =>
      obtain ⟨number, interned, zoned⟩ := bind_eq_some_iff.mp numbered
      obtain ⟨attr, member, rfl⟩ := computeSegZones_zoned computed zoned
      obtain ⟨stored, spelled, folds⟩ := dictionary_lookup_some (intern_recognizes) interned
      obtain ⟨stored', spelled', folds'⟩ := dictionary_lookup_some (intern_recognizes) attr.interned
      cases spelled.symm.trans spelled'
      obtain ⟨numbers, readable⟩ := asked attr member ranged (folds.symm.trans folds')
      obtain ⟨value, evaluates, accepted⟩ := satisfied
      rcases accepted_number shape floats accepted with always | ⟨f, number, admits⟩
      · rw [always zone]
        rfl
      · obtain ⟨value', evaluates', held⟩ :=
          readable.value world id decoded (folds.symm.trans folds')
        cases evaluates_unique evaluates evaluates'
        have spans := computeSegZones_spans computed numbers visited member (held number)
        rw [zoned] at spans
        rw [admits zone spans]
        rfl
  · rfl

end

/-- A segment with the records `[x = 1]` and `[x = 99]`. -/
def sampleIntern : InternTable (asciiHost 0) := ⟨["x"], by decide⟩

def sampleZoneAttr : ZoneAttr sampleIntern := ⟨"x", 0, by decide⟩

def literalRecord (value : Int64) : Ad := ⟨[(.name "x", .plain (.integer value))], []⟩

def sampleWindow (records : List Ad) : Window (asciiHost 0) :=
  ⟨.inline, records, computeSegZones .inline [sampleZoneAttr] records⟩

/-- The query `x > 50`. -/
def sampleRange : Expr := .binary .greater (.reference "x" .none) (.integer 50)

end Classad.ZoneMapProofs
