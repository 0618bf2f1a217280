import Classad.DepthAccounting
import Classad.PartialDecodeProofs

/-! Two decisions the database takes from a constraint alone: that it matches every ad or none,
so that no ad is read, and that it reads no private attribute, so that an unprivileged client
may use it. Each trusts a walk over the expression to find the names the evaluator can reach;
the results say for which expressions the walk does find them. -/
namespace Classad.ConstraintGates
open Syntax Operators PartialRun TreeWalk TreeWalkSimulation VmCompile VmSimulation VmCompileProofs DepthAccounting List
open ConstantFold QueryProbe QueryProbeProofs PartialDecodeProofs

/-- The parser of constraints. Blanks around a constraint do not count, and `true` is a keyword
in any case. -/
structure Parser (host : Host) where
  trimSpace : String → String
  parseExpr : String → Option Expr
  trimmed : ∀ constraint, parseExpr (trimSpace constraint) = parseExpr constraint
  keyword : ∀ constraint, host.equalFold constraint "true" = true →
    parseExpr constraint = some (.boolean true)

/-- An ad of a table, with neither a parent nor a target. -/
def scopeOf (ad : Attributes) : Scope := [⟨.root 0, ad, none⟩]

section
variable (host : Host) (parser : Parser host)

/-- A constraint of blanks filters nothing; one that does not parse matches nothing. -/
def MatchesConstraint (constraint : String) (ad : Attributes) : Prop :=
  parser.trimSpace constraint = "" ∨ ∃ expr, parser.parseExpr constraint = some expr ∧
    (compile host expr).Matches host (fun _ => []) (scopeOf ad)

end

/-! ## Constant constraints -/

mutual

/-- The names `collectRefsHelper` finds: unscoped ones only, and none inside a record literal,
which is not the `ast.ClassAd` the walk looks for. -/
def collectRefs : Expr → List String
  | .reference name scope => if scope = .none then [name] else []
  | .paren inner => collectRefs inner
  | .unary _ operand => collectRefs operand
  | .binary _ left right | .elvis left right => collectRefs left ++ collectRefs right
  | .conditional condition whenTrue whenFalse =>
    collectRefs condition ++ collectRefs whenTrue ++ collectRefs whenFalse
  | .call _ args => collectAllRefs args
  | .list elements => collectAllRefs elements
  | .select record _ => collectRefs record
  | .subscript container index => collectRefs container ++ collectRefs index
  | .record _ | .nil | .integer _ | .real _ | .string _ | .boolean _ | .undefined | .error => []

def collectAllRefs : List Expr → List String
  | [] => []
  | head :: rest => collectRefs head ++ collectAllRefs rest

end

section
variable (host : Host) (parser : Parser host)

/-- In the empty ad every reference is an external one. -/
def IsMatchAll (constraint : String) : Prop :=
  parser.trimSpace constraint = "" ∨ host.equalFold (parser.trimSpace constraint) "true" = true ∨
    ∃ expr, parser.parseExpr (parser.trimSpace constraint) = some expr ∧ collectRefs expr = [] ∧
      Evaluates host (fun _ => []) (scopeOf []) expr (.boolean true)

def IsMatchNone (constraint : String) : Prop :=
  parser.trimSpace constraint ≠ "" ∧
    ∃ expr, parser.parseExpr (parser.trimSpace constraint) = some expr ∧ collectRefs expr = [] ∧
      ∃ value, Evaluates host (fun _ => []) (scopeOf []) expr value ∧ value ≠ .boolean true

end

/-- The constraint mentions no attribute of the ad, in any scope, by selection or through `eval`,
it does not read the clock, and the two engines count its depth alike. -/
structure IsClosed (host : Host) (expr : Expr) : Prop where
  mentions : Within host false (fun _ => False) expr
  timeless : referencesCurrentTime host expr = false
  room : StaysBelowMaxDepth host (fun _ => []) (scopeOf []) expr ∨ DelegatedWhole expr

section
variable {host : Host} {names : String → Prop} {expr : Expr}

/-- Ads that bind the names in question alike, to literals, agree for every query that stays
within these names. -/
theorem scopeOf_agree (same : ∀ norm, names norm → bound host norm left = bound host norm right ∧
      ∀ expr, bound host norm left = some expr → isLiteralExpr expr = true) :
    ScopesAgree (untargetedComparison host (fun _ => []) names) (scopeOf left) (scopeOf right) := by
  refine .cons ⟨⟨rfl, rfl, fun norm known => (same norm known).1, ?_⟩, rfl⟩ .nil
  intro norm expr known found
  have literal := (same norm known).2 expr found
  cases expr <;> trivial

/-- The engines agree on booleans where the tree walker stays below its guard, and where it is
called for the whole expression. -/
theorem yields_boolean (room : StaysBelowMaxDepth host world scope expr ∨ DelegatedWhole expr) (verdict : Bool) :
    Yields host world (compileProgram expr) scope (.boolean verdict) ↔
    Evaluates host world scope expr (.boolean verdict) := by
  obtain shallow | whole := room
  · refine ⟨evaluates_of_yields shallow, fun evaluated => ?_⟩
    obtain ⟨fuel, answered⟩ := shallow
    cases tree : evaluate host world .observed fuel (newEvaluator scope) expr with
    | stuck => exact absurd tree answered
    | panic => cases evaluates_unique evaluated (evaluates_of_panic tree)
    | ok value =>
      obtain ⟨walked, evaluated', same⟩ := evaluates_of_answer tree
      obtain ⟨value', yields, same'⟩ := yields_of_answer tree
      cases evaluates_unique evaluated evaluated'
      cases same
      cases same'
      exact yields
  · rw [yields_delegated whole]
    refine exists_congr fun fuel => ?_
    cases evaluate host world .panics fuel (newEvaluator scope) expr <;> simp [Run.recover]

/-- A closed constraint matches every ad or none, as the tree walker finds in the empty ad. -/
theorem IsClosed.matches_iff (closed : IsClosed host expr)
    (evaluated : Evaluates host (fun _ => []) (scopeOf []) expr value) {ad : Attributes} :
    (compile host expr).Matches host (fun _ => []) (scopeOf ad) ↔ value = .boolean true := by
  have compiled : compile host expr = ⟨compileProgram expr⟩ := by
    rw [compile, closed.timeless]
    rfl
  have within : Within host false (fun _ => False) (compile host expr).prog.expr := by
    rw [compiled]
    exact closed.mentions
  have agree (left right : Attributes) :
      ScopesAgree (untargetedComparison host (fun _ => []) fun _ => False) (scopeOf left) (scopeOf right) :=
    scopeOf_agree fun _ => False.elim
  constructor
  · intro matched
    have empty := matches_of_agree within (agree ad []) matched
    rw [compiled] at empty
    exact evaluates_unique evaluated ((yields_boolean closed.room true).mp empty)
  · rintro rfl
    have empty : (compile host expr).Matches host (fun _ => []) (scopeOf []) := by
      rw [compiled]
      exact (yields_boolean closed.room true).mpr evaluated
    exact matches_of_agree within (agree [] ad) empty

end

/-- Folding is sound for every constraint in which the walk finds a name, and so folds nothing,
and for every closed one. -/
theorem constraint_folding_sound (host : Host) (parser : Parser host) (constraint : String)
    (covered : ∀ expr, parser.parseExpr constraint = some expr → collectRefs expr ≠ [] ∨ IsClosed host expr) :
    (IsMatchAll host parser constraint → ∀ ad, MatchesConstraint host parser constraint ad) ∧
    (IsMatchNone host parser constraint → ∀ ad, ¬ MatchesConstraint host parser constraint ad) := by
  constructor
  · rintro (blank | keyword | ⟨expr, parsed, unread, evaluated⟩) ad
    · exact .inl blank
    · have parsed := parser.keyword _ keyword
      rw [parser.trimmed] at parsed
      exact .inr ⟨_, parsed, ⟨0, 2, rfl⟩⟩
    · rw [parser.trimmed] at parsed
      obtain found | closed := covered expr parsed
      · exact absurd unread found
      · exact .inr ⟨expr, parsed, (closed.matches_iff evaluated).mpr rfl⟩
  · rintro ⟨filters, expr, parsed, unread, value, evaluated, untrue⟩ ad (blank | ⟨other, parsed', matched⟩)
    · exact filters blank
    · rw [parser.trimmed] at parsed
      cases parsed.symm.trans parsed'
      obtain found | closed := covered expr parsed
      · exact found unread
      · exact untrue ((closed.matches_iff evaluated).mp matched)

/-- A parser that knows `true`, one more constraint and no blanks. -/
def sampleParser (text : String) (expr : Expr) : Parser (asciiHost 0) where
  trimSpace := id
  parseExpr constraint :=
    if (asciiHost 0).equalFold constraint "true" = true then some (.boolean true)
    else if constraint = text then some expr else none
  trimmed _ := rfl
  keyword _ known := if_pos known

theorem constraint_folding_on_sample :
    IsClosed (asciiHost 0) (.binary .equal (.integer 1) (.integer 2)) ∧ ∀ ad, ¬ MatchesConstraint (asciiHost 0)
      (sampleParser "1 == 2" (.binary .equal (.integer 1) (.integer 2))) "1 == 2" ad := by
  have closed : IsClosed (asciiHost 0) (.binary .equal (.integer 1) (.integer 2)) :=
    ⟨⟨trivial, trivial⟩, rfl, .inl ⟨3, nofun⟩⟩
  refine ⟨closed, (constraint_folding_sound (asciiHost 0) _ "1 == 2" ?_).2 ?_⟩
  · intro expr parsed
    cases parsed
    exact .inr closed
  · exact ⟨by decide, _, rfl, rfl, .boolean false, ⟨3, rfl⟩, nofun⟩

/-- `MY.JobStatus == 2` is folded to a constraint that matches nothing. -/
theorem scoped_constraint_folded :
    let parser := sampleParser "MY.JobStatus == 2" (.binary .equal (.reference "JobStatus" .my) (.integer 2))
    IsMatchNone (asciiHost 0) parser "MY.JobStatus == 2" ∧
    MatchesConstraint (asciiHost 0) parser "MY.JobStatus == 2" [("JobStatus", .integer 2)] := by
  refine ⟨⟨by decide, _, rfl, rfl, .undefined, ⟨4, rfl⟩, nofun⟩, .inr ⟨_, rfl, ⟨5, 5, rfl⟩⟩⟩

/-! ## Reported references -/

/-- `InternalRefs`: the names found that the ad binds. -/
def internalRefs (host : Host) (ad : Attributes) (expr : Expr) : List String :=
  (collectRefs expr).filter fun name => (bound host (normalizeName host name) ad).isSome

/-- `ExternalRefs`: the others. -/
def externalRefs (host : Host) (ad : Attributes) (expr : Expr) : List String :=
  (collectRefs expr).filter fun name => (bound host (normalizeName host name) ad).isNone

/-- A folded name that is reported for an expression. -/
def Reported (host : Host) (expr : Expr) (norm : String) : Prop :=
  ∃ name ∈ collectRefs expr, normalizeName host name = norm

/-- Two ads give an expression the same value. Lists have the same elements, and bind whatever
the elements mention alike. -/
def SameValue (host : Host) (left right : Attributes) (expr : Expr) : Prop :=
  ∀ value, Evaluates host (fun _ => []) (scopeOf left) expr value →
    ∃ value', Evaluates host (fun _ => []) (scopeOf right) expr value' ∧
      ValuesAgree (untargetedComparison host (fun _ => []) (Reported host expr)) value value'

theorem sameValue_of_agree (reported : Within host false (Reported host expr) expr)
    (agree : ScopesAgree (untargetedComparison host (fun _ => []) (Reported host expr)) (scopeOf left)
      (scopeOf right)) :
    SameValue host left right expr := by
  rintro value ⟨fuel, ran⟩
  have walked := evaluate_sim (untargetedComparison host (fun _ => []) (Reported host expr)) (Nat.le_refl fuel)
    (newEvaluator (scopeOf left)) (newEvaluator (scopeOf right)) expr ⟨agree, .inr ⟨rfl, rfl⟩, rfl, trivial⟩ reported
  obtain ⟨value', ran', same⟩ := (walked.recover .error).ok_inv ran
  exact ⟨value', ⟨fuel, ran'⟩, same⟩

/-- Ads of literals that agree on the names reported for an expression give it the same value,
if the expression mentions no other, in a record literal or by selection. -/
theorem reported_names_decide (host : Host) (expr : Expr) (reported : Within host false (Reported host expr) expr)
    (left right : Attributes) (literals : ∀ attr ∈ left ++ right, isLiteralExpr attr.2 = true)
    (same : ∀ name ∈ internalRefs host left expr ++ externalRefs host left expr,
      bound host (normalizeName host name) left = bound host (normalizeName host name) right) :
    SameValue host left right expr ∧ SameValue host right left expr := by
  have agree : ScopesAgree (untargetedComparison host (fun _ => []) (Reported host expr)) (scopeOf left)
      (scopeOf right) := by
    refine scopeOf_agree ?_
    rintro _ ⟨name, found, rfl⟩
    refine ⟨same name ?_, fun expr held => ?_⟩
    · cases held : bound host (normalizeName host name) left <;> simp [internalRefs, externalRefs, found, held]
    · obtain ⟨spelled, -, member⟩ := bound_mem held
      exact literals _ (mem_append_left right member)
  exact ⟨sameValue_of_agree reported agree, sameValue_of_agree reported (scopes_symm agree)⟩

theorem reported_names_decide_sum : SameValue (asciiHost 0) [("x", .integer 1), ("y", .integer 2)] [("x", .integer 1)]
    (.binary .add (.reference "X" .none) (.integer 1)) := by
  refine (reported_names_decide (asciiHost 0) _ ?_ _ _ ?_ ?_).1
  · exact ⟨fun _ => ⟨"X", .head _, rfl⟩, trivial⟩
  · simp [isLiteralExpr]
  · intro name member
    obtain rfl : name = "X" := mem_singleton.mp member
    rfl

/-- Nothing is reported for `[].x`, which reads `x` in the ad around it. -/
theorem selection_not_reported :
    let expr : Expr := .select (.record []) "x"
    internalRefs (asciiHost 0) [("x", .integer 1)] expr ++ externalRefs (asciiHost 0) [("x", .integer 1)] expr = [] ∧
    ¬SameValue (asciiHost 0) [("x", .integer 1)] [("x", .integer 2)] expr := by
  refine ⟨rfl, fun same => ?_⟩
  obtain ⟨value, evaluated, agree⟩ := same (.integer 1) ⟨6, rfl⟩
  cases agree
  cases evaluates_unique evaluated ⟨6, rfl⟩

/-! ## The private-attribute gate -/

def privateAttrsV1 : List String :=
  ["capability", "childclaimids", "claimid", "claimidlist", "claimids", "transferkey"]

def privateV2Prefix : String := "_condor_priv"

/-- Only ASCII letters are folded. -/
def foldName (name : String) : List Char := name.toList.map Char.toLower

def isPrivateAttributeV1 (name : String) : Bool := privateAttrsV1.any fun known => known.toList == foldName name

def isPrivateAttributeV2 (name : String) : Bool := privateV2Prefix.toList.isPrefixOf (foldName name)

def isPrivateAttribute (name : String) : Bool := isPrivateAttributeV1 name || isPrivateAttributeV2 name

def maxWalkDepth : Nat := 512

/-- What the walk reports of a node: a name, or text for `eval` that is not known yet. -/
inductive Found where
  | name (name : String)
  | dynamic
  deriving DecidableEq

/-- A node is looked at through the interface that holds it, one level above its pointer. -/
def seenAt (depth : Nat) (found : List Found) : List Found :=
  if depth ≤ maxWalkDepth + 1 then found else []

/-- Constant text for `eval` is taken for the name of an attribute. -/
def evalArgument : List Expr → Found
  | [.string text] => .name text
  | _ => .dynamic

mutual

/-- The reflective walk. `depth` counts the values between the root and the node's pointer: from
one node to the next there are a struct, a field and the pointer, in a slice the slice as well,
and in a record literal the ad, its attributes and an assignment. The text of a selection is a
field of no interest. -/
def walkExpr (host : Host) : Nat → Expr → List Found
  | depth, .reference name _ => seenAt depth [.name name]
  | depth, .call name args =>
    seenAt depth (if host.equalFold name "eval" then [evalArgument args] else []) ++
      walkAll host (depth + 4) args
  | depth, .paren inner => walkExpr host (depth + 3) inner
  | depth, .unary _ operand => walkExpr host (depth + 3) operand
  | depth, .binary _ left right | depth, .elvis left right =>
    walkExpr host (depth + 3) left ++ walkExpr host (depth + 3) right
  | depth, .conditional condition whenTrue whenFalse =>
    walkExpr host (depth + 3) condition ++ walkExpr host (depth + 3) whenTrue ++
      walkExpr host (depth + 3) whenFalse
  | depth, .list elements => walkAll host (depth + 4) elements
  | depth, .record attributes => walkAttributes host (depth + 8) attributes
  | depth, .select record _ => walkExpr host (depth + 3) record
  | depth, .subscript container index =>
    walkExpr host (depth + 3) container ++ walkExpr host (depth + 3) index
  | _, .nil | _, .integer _ | _, .real _ | _, .string _ | _, .boolean _ | _, .undefined | _, .error => []

def walkAll (host : Host) : Nat → List Expr → List Found
  | _, [] => []
  | depth, head :: rest => walkExpr host depth head ++ walkAll host depth rest

def walkAttributes (host : Host) : Nat → List (String × Expr) → List Found
  | _, [] => []
  | depth, (_, value) :: rest => walkExpr host depth value ++ walkAttributes host depth rest

end

section
variable (host : Host) (parser : Parser host)

/-- What the walk finds in a constraint: the expression it sees is the compiled query's. -/
def constraintRefs (constraint : String) : List Found :=
  if parser.trimSpace constraint = "" then []
  else match parser.parseExpr constraint with
    | none => []
    | some expr => walkExpr host 0 (compile host expr).prog.expr

def Found.asName : Found → Option String
  | .name text => some text
  | .dynamic => none

/-- The first private name and whether there is text that is not known. -/
def privateConstraintRef (constraint : String) : String × Bool :=
  let found := constraintRefs host parser constraint
  (((found.filterMap Found.asName).find? isPrivateAttribute).getD "", found.contains .dynamic)

end

/-- The names an unprivileged client may read. -/
def IsPublic (norm : String) : Prop := isPrivateAttribute norm = false

section
variable (host : Host)

/-- A name above the cut-off, as private as the folded name it is looked up by. -/
def Seen (depth : Nat) (name : String) : Prop :=
  depth ≤ maxWalkDepth + 1 ∧ (isPrivateAttribute (normalizeName host name) = true → isPrivateAttribute name = true)

/-- The text of an `eval` is constant, and is the name of an attribute or mentions public names only. -/
def SeenText (depth : Nat) (args : List Expr) : Prop :=
  ∃ text, args = [.string text] ∧ (TextWithin host false IsPublic text ∨ Seen host depth text ∧
    ∀ label expr, host.parse ("[__eval_tmp = " ++ text ++ "]") = some [(label, expr)] →
      ∃ scope, expr = .reference text scope)

mutual

/-- What the evaluator can read, the walk can see: every reference, constant text for `eval`, and
no selection asks for a private name. -/
def Visible : Nat → Expr → Prop
  | depth, .reference name _ => Seen host depth name
  | depth, .call name args => VisibleAll (depth + 4) args ∧
    (host.toLower name = "eval" → host.equalFold name "eval" = true ∧ SeenText host depth args)
  | depth, .paren inner => Visible (depth + 3) inner
  | depth, .unary _ operand => Visible (depth + 3) operand
  | depth, .binary _ left right | depth, .elvis left right =>
    Visible (depth + 3) left ∧ Visible (depth + 3) right
  | depth, .conditional condition whenTrue whenFalse =>
    Visible (depth + 3) condition ∧ Visible (depth + 3) whenTrue ∧ Visible (depth + 3) whenFalse
  | depth, .list elements => VisibleAll (depth + 4) elements
  | depth, .record attributes => VisibleAttributes (depth + 8) attributes
  | depth, .select record attr =>
    Visible (depth + 3) record ∧ isPrivateAttribute (normalizeName host attr) = false
  | depth, .subscript container index => Visible (depth + 3) container ∧ Visible (depth + 3) index
  | _, .nil | _, .integer _ | _, .real _ | _, .string _ | _, .boolean _ | _, .undefined | _, .error => True

def VisibleAll : Nat → List Expr → Prop
  | _, [] => True
  | depth, head :: rest => Visible depth head ∧ VisibleAll depth rest

def VisibleAttributes : Nat → List (String × Expr) → Prop
  | _, [] => True
  | depth, (_, value) :: rest => Visible depth value ∧ VisibleAttributes depth rest

end

end

/-- No name the walk has found is private. -/
def AllPublic (found : List Found) : Prop := ∀ name, .name name ∈ found → isPrivateAttribute name = false

theorem AllPublic.left (all : AllPublic (first ++ second)) : AllPublic first :=
  fun name member => all name (mem_append_left second member)

theorem AllPublic.right (all : AllPublic (first ++ second)) : AllPublic second :=
  fun name member => all name (mem_append_right first member)

theorem Seen.isPublic (seen : Seen host depth name) (all : AllPublic (seenAt depth [.name name])) :
    IsPublic (normalizeName host name) := by
  have found : Found.name name ∈ seenAt depth [.name name] := by
    rw [seenAt, if_pos seen.1]
    exact mem_singleton_self _
  have shown : isPrivateAttribute name = false := all name found
  by_contra hidden
  have folded := seen.2 (Bool.eq_true_of_not_eq_false hidden)
  exact Bool.false_ne_true (shown.symm.trans folded)

theorem SeenText.within (seen : SeenText host depth args) (all : AllPublic (seenAt depth [evalArgument args])) :
    ∃ text, args = [.string text] ∧ TextWithin host false IsPublic text := by
  obtain ⟨text, rfl, within | ⟨named, refers⟩⟩ := seen
  · exact ⟨text, rfl, within⟩
  · refine ⟨text, rfl, fun label expr parsed => ?_⟩
    obtain ⟨scope, rfl⟩ := refers label expr parsed
    exact fun _ => named.isPublic all

mutual

/-- Where the walk sees what the evaluator reads and finds nothing private, the evaluator stays
within the public names. -/
theorem within_public {host : Host} : ∀ depth expr, Visible host depth expr →
    AllPublic (walkExpr host depth expr) → Within host false IsPublic expr
  | _, .reference _ _, visible, all => fun _ => Seen.isPublic visible all
  | depth, .call name args, visible, all => by
    refine ⟨withinAll_public _ args visible.1 all.right, fun isEval => .inr ?_⟩
    obtain ⟨folds, seen⟩ := visible.2 isEval
    have text := all.left
    rw [if_pos folds] at text
    exact seen.within text
  | _, .paren inner, visible, all => within_public _ inner visible all
  | _, .unary _ operand, visible, all => within_public _ operand visible all
  | _, .binary _ left right, visible, all | _, .elvis left right, visible, all =>
    ⟨within_public _ left visible.1 all.left, within_public _ right visible.2 all.right⟩
  | _, .conditional condition whenTrue whenFalse, visible, all =>
    ⟨within_public _ condition visible.1 all.left.left,
      within_public _ whenTrue visible.2.1 all.left.right,
      within_public _ whenFalse visible.2.2 all.right⟩
  | _, .list elements, visible, all => withinAll_public _ elements visible all
  | _, .record attributes, visible, all => withinAttributes_public _ attributes visible all
  | _, .select record _, visible, all => ⟨within_public _ record visible.1 all, visible.2⟩
  | _, .subscript container index, visible, all =>
    ⟨within_public _ container visible.1 all.left, within_public _ index visible.2 all.right⟩
  | _, .nil, _, _ | _, .integer _, _, _ | _, .real _, _, _ | _, .string _, _, _ | _, .boolean _, _, _
  | _, .undefined, _, _ | _, .error, _, _ => trivial

theorem withinAll_public {host : Host} : ∀ depth elements, VisibleAll host depth elements →
    AllPublic (walkAll host depth elements) → WithinAll host false IsPublic elements
  | _, [], _, _ => trivial
  | depth, head :: rest, visible, all =>
    ⟨within_public depth head visible.1 all.left, withinAll_public depth rest visible.2 all.right⟩

theorem withinAttributes_public {host : Host} : ∀ depth attributes, VisibleAttributes host depth attributes →
    AllPublic (walkAttributes host depth attributes) → WithinAttributes host false IsPublic attributes
  | _, [], _, _ => trivial
  | depth, (_, value) :: rest, visible, all =>
    ⟨within_public depth value visible.1 all.left,
      withinAttributes_public depth rest visible.2 all.right⟩

end

/-- A constraint without a private name has only public ones. -/
theorem allPublic_of_accepted (accepted : privateConstraintRef host parser constraint = ("", false)) :
    AllPublic (constraintRefs host parser constraint) := by
  intro name member
  have named : name ∈ (constraintRefs host parser constraint).filterMap Found.asName :=
    mem_filterMap.mpr ⟨_, member, rfl⟩
  have first := congrArg Prod.fst accepted
  cases reported : ((constraintRefs host parser constraint).filterMap Found.asName).find? isPrivateAttribute with
  | none => exact Bool.eq_false_of_not_eq_true (find?_eq_none.mp reported name named)
  | some other =>
    simp only [privateConstraintRef, reported, Option.getD_some] at first
    have hidden := find?_some reported
    rw [first] at hidden
    exact absurd hidden (by decide)

/-- Two ads with the same public attributes, all of them literals. -/
def DifferInPrivate (host : Host) (left right : Attributes) : Prop :=
  ∀ norm, IsPublic norm → bound host norm left = bound host norm right ∧
    ∀ expr, bound host norm left = some expr → isLiteralExpr expr = true

/-- The gate is sound for the constraints in which the walk sees everything that the evaluator
can read. -/
theorem private_gate_sound (host : Host) (parser : Parser host) (constraint : String)
    (visible : ∀ expr, parser.parseExpr constraint = some expr → Visible host 0 (compile host expr).prog.expr)
    (accepted : privateConstraintRef host parser constraint = ("", false)) (left right : Attributes)
    (differ : DifferInPrivate host left right) :
    MatchesConstraint host parser constraint left ↔ MatchesConstraint host parser constraint right := by
  by_cases blank : parser.trimSpace constraint = ""
  · exact iff_of_true (.inl blank) (.inl blank)
  have found := allPublic_of_accepted accepted
  have agree := scopeOf_agree differ
  refine or_congr_right (exists_congr fun expr => and_congr_right fun parsed => ?_)
  simp only [constraintRefs, blank, if_false, parsed] at found
  have within := within_public 0 _ (visible expr parsed) found
  exact ⟨matches_of_agree within agree, matches_of_agree within (scopes_symm agree)⟩

/-- Two claims on the same job. -/
def claimed (claim : Int64) : Attributes := [("ClaimId", .integer claim), ("Owner", .integer 1)]

theorem claimed_differ (claim claim' : Int64) : DifferInPrivate (asciiHost 0) (claimed claim) (claimed claim') := by
  intro norm shown
  have folded : normalizeName (asciiHost 0) "ClaimId" = "claimid" := rfl
  have other : "claimid" ≠ norm := by
    rintro rfl
    cases shown
  have owner (claim : Int64) : bound (asciiHost 0) norm (claimed claim) =
      if normalizeName (asciiHost 0) "Owner" = norm then some (.integer 1) else none := by
    simp only [claimed, bound, folded, if_neg other]
    split <;> simp_all
  rw [owner, owner]
  refine ⟨rfl, fun expr found => ?_⟩
  split at found <;> cases found
  rfl

theorem private_gate_on_sample :
    let parser := sampleParser "Owner == 1" (.binary .equal (.reference "Owner" .none) (.integer 1))
    privateConstraintRef (asciiHost 0) parser "Owner == 1" = ("", false) ∧
    (MatchesConstraint (asciiHost 0) parser "Owner == 1" (claimed 5) ↔
      MatchesConstraint (asciiHost 0) parser "Owner == 1" (claimed 6)) := by
  refine ⟨rfl, private_gate_sound (asciiHost 0) _ "Owner == 1" ?_ rfl _ _ (claimed_differ 5 6)⟩
  intro expr parsed
  cases parsed
  exact ⟨⟨by decide, by decide +kernel⟩, trivial⟩

/-- `[].ClaimId == 5` is accepted, and tells two ads apart by their claims. -/
theorem selection_passes_gate :
    let parser := sampleParser "[].ClaimId == 5" (.binary .equal (.select (.record []) "ClaimId") (.integer 5))
    privateConstraintRef (asciiHost 0) parser "[].ClaimId == 5" = ("", false) ∧
    DifferInPrivate (asciiHost 0) (claimed 5) (claimed 6) ∧
    MatchesConstraint (asciiHost 0) parser "[].ClaimId == 5" (claimed 5) ∧
    ¬ MatchesConstraint (asciiHost 0) parser "[].ClaimId == 5" (claimed 6) := by
  refine ⟨rfl, claimed_differ 5 6, .inr ⟨_, rfl, ⟨9, 9, rfl⟩⟩, ?_⟩
  rintro (blank | ⟨expr, parsed, matched⟩)
  · exact absurd blank (by decide)
  · cases parsed
    have unequal : Yields (asciiHost 0) (fun _ => [])
        (compile (asciiHost 0) (.binary .equal (.select (.record []) "ClaimId") (.integer 5))).prog
        (scopeOf (claimed 6)) (.boolean false) := ⟨9, 9, rfl⟩
    cases yields_unique matched unequal

end Classad.ConstraintGates
