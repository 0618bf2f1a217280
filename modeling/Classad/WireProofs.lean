import Classad.ConstantFoldProofs
import Classad.PartialDecodeProofs
import Classad.Wire

/-! Reading an attribute from an encoded ad against evaluating a reference to it in the
decoded one. Where an ad's names are distinct and the ways of folding a name agree on them,
every lookup finds the binding the evaluator uses; what remains is which ads each scope
searches. -/
namespace Classad.WireProofs
open Syntax Operators PartialRun TreeWalk PartialDecode PartialDecodeProofs ConstantFold ConstantFoldProofs Wire
open TreeWalkSimulation (bound_mem)
open Option
open List

/-! ## Lookups -/

variable {ad : Ad}

theorem hotEntries_mem (member : entry ∈ ad.hotEntries) : entry ∈ ad.entries := by
  obtain ⟨position, _, found⟩ := mem_filterMap.mp member
  exact mem_of_getElem? found

theorem lookup_mem (found : ad.lookup number = some node) : (.id number, node) ∈ ad.entries := by
  have named : ∀ entry : Key × Node, entry ∈ ad.entries → entry.1 = .id number → entry.2 = node →
      (.id number, node) ∈ ad.entries := by
    rintro ⟨key, value⟩ member rfl rfl
    exact member
  unfold Ad.lookup at found
  split at found
  next entry hit =>
    have member := hotEntries_mem (mem_reverse.mp (mem_of_find?_eq_some hit))
    exact named entry member (by simpa using find?_some hit) (by simpa using found)
  · obtain ⟨entry, hit, same⟩ := map_eq_some_iff.mp found
    exact named entry (mem_of_find?_eq_some hit) (by simpa using find?_some hit) same

theorem lookup_none (missing : ad.lookup number = none) : (.id number, node) ∉ ad.entries := by
  intro member
  unfold Ad.lookup at missing
  split at missing
  · cases missing
  · simp only [map_eq_none_iff, find?_eq_none] at missing
    exact missing _ member (by simp)

/-- What is found under a name is an entry that has the name, ASCII case aside. -/
theorem lookupByName_mem (found : ad.lookupByName name = some node) :
    ∃ key, (key, node) ∈ ad.entries ∧ key.foldEqual name = true := by
  unfold Ad.lookupByName at found
  split at found
  next entry hit =>
    obtain ⟨hinted, named⟩ := filter_eq_some_iff.mp hit
    have member := hotEntries_mem (mem_reverse.mp (mem_of_find?_eq_some hinted))
    cases found
    exact ⟨entry.1, member, named⟩
  · obtain ⟨entry, hit, rfl⟩ := map_eq_some_iff.mp found
    exact ⟨entry.1, mem_of_find?_eq_some hit, by simpa using find?_some hit⟩

theorem lookupByName_none (missing : ad.lookupByName name = none)
    (member : (key, node) ∈ ad.entries) : key.foldEqual name = false := by
  unfold Ad.lookupByName at missing
  split at missing
  · cases missing
  · simp only [map_eq_none_iff, find?_eq_none] at missing
    simpa using missing _ member

section
variable {host : Host}

/-- A name the dictionary search gets right: the number proposed for it is taken only if its
spelling folds alike. -/
def Dictionary.Recognizes (dict : Dictionary host) (name : String) : Prop :=
  ∀ number stored, dict.proposal (host.toLower name) = some number → dict.names[number]? = some stored →
    host.equalFold stored name = true → host.toLower stored = host.toLower name

/-- An intern table proposes nothing. -/
theorem intern_recognizes {table : InternTable host} {name : String} : Dictionary.Recognizes table.dictionary name := by
  rintro _ _ ⟨⟩

theorem dictionary_lookup_some {dict : Dictionary host} (recognizes : Dictionary.Recognizes dict name)
    (found : dict.lookup name = some number) :
    ∃ stored, dict.names[number]? = some stored ∧ host.toLower stored = host.toLower name := by
  unfold Dictionary.lookup at found
  rw [orElse_eq_orElse, orElse_eq_or, or_eq_some_iff] at found
  rcases found with proposed | ⟨_, searched⟩
  · obtain ⟨proposed, accepted⟩ := filter_eq_some_iff.mp proposed
    cases held : dict.names[number]? with
    | none => simp [held] at accepted
    | some stored =>
      refine ⟨stored, rfl, recognizes number stored proposed held ?_⟩
      simpa [held] using accepted
  · obtain ⟨inside, folds, _⟩ := findIdx?_eq_some_iff_getElem.mp searched
    exact ⟨dict.names[number], getElem?_eq_getElem inside, by simpa using folds⟩

theorem dictionary_lookup_none {dict : Dictionary host} (missing : dict.lookup name = none)
    (member : stored ∈ dict.names) : host.toLower stored ≠ host.toLower name := by
  unfold Dictionary.lookup at missing
  rw [orElse_eq_orElse, orElse_eq_or, or_eq_none_iff] at missing
  simpa using findIdx?_eq_none_iff.mp missing.2 stored member

/-- Two numbers of one folded name are one number. -/
theorem dictionary_unique {i j : Nat} (dict : Dictionary host) (first : dict.names[i]? = some stored)
    (second : dict.names[j]? = some stored') (same : host.toLower stored = host.toLower stored') : i = j := by
  have left : (dict.names.map host.toLower)[i]? = some (host.toLower stored) := by simp [first]
  have right : (dict.names.map host.toLower)[j]? = some (host.toLower stored) := by simp [second, same]
  obtain ⟨inside, _⟩ := List.getElem?_eq_some_iff.mp left
  exact (getElem?_inj inside dict.distinct).mp (left.trans right.symm)

/-! ## Bindings -/

theorem decodeEntries_mem (decoded : decodeEntries mode opening entries = some (attributes : Attributes))
    (member : (key, node) ∈ entries) :
    ∃ name expr, (mode : KeyMode host).spelling key = some name ∧ decodeNode opening node = some expr ∧
      (name, expr) ∈ attributes := by
  induction entries generalizing attributes with
  | nil => cases member
  | cons head rest ih =>
    simp only [decodeEntries, bind_eq_bind, bind_eq_some_iff, some.injEq] at decoded
    obtain ⟨name, spelled, expr, opened, others, later, rfl⟩ := decoded
    rcases mem_cons.mp member with rfl | member
    · exact ⟨name, expr, spelled, opened, .head _⟩
    · obtain ⟨other, value, spelled', opened', found⟩ := ih later member
      exact ⟨other, value, spelled', opened', .tail _ found⟩

theorem mem_decodeEntries (decoded : decodeEntries mode opening entries = some (attributes : Attributes))
    (member : (name, expr) ∈ attributes) :
    ∃ key node, (key, node) ∈ entries ∧ (mode : KeyMode host).spelling key = some name ∧
      decodeNode opening node = some expr := by
  induction entries generalizing attributes with
  | nil =>
    cases decoded
    cases member
  | cons head rest ih =>
    simp only [decodeEntries, bind_eq_bind, bind_eq_some_iff, some.injEq] at decoded
    obtain ⟨first, spelled, value, opened, others, later, rfl⟩ := decoded
    rcases mem_cons.mp member with same | member
    · cases same
      exact ⟨head.1, head.2, .head _, spelled, opened⟩
    · obtain ⟨key, node, found, spelled', opened'⟩ := ih later member
      exact ⟨key, node, .tail _ found, spelled', opened'⟩

/-- The lookup of a name compares it with the ad's names as folding them does: by ASCII case
where names are stored, and through `EqualFold` where a dictionary proposes a number. -/
def Recognizes (stored : StoredWire host) (name : String) : Prop :=
  match stored.mode with
  | .inline => ∀ spelled node, (.name spelled, node) ∈ stored.ad.entries →
      (foldASCII spelled = foldASCII name ↔ host.toLower spelled = host.toLower name)
  | .interned dict => Dictionary.Recognizes dict name

/-- No two attributes of the ad have names that fold alike. -/
def Distinct (host : Host) (attributes : Attributes) : Prop := (attributes.map fun attr => host.toLower attr.1).Nodup

theorem bound_of_distinct (distinct : Distinct host attributes)
    (member : (name, expr) ∈ attributes) : bound host (host.toLower name) attributes = some expr := by
  refine bound_of_mem member fun other value mine same => ?_
  have equal := inj_on_of_nodup_map distinct mine member same
  exact congrArg Prod.snd equal

variable {stored : StoredWire host}

/-- The entry found under a name has a spelling that folds to it. -/
theorem spelling_of_lookup (recognizes : Recognizes stored name)
    (found : stored.lookup name = some node) :
    ∃ key, (key, node) ∈ stored.ad.entries ∧
      ∀ spelled, stored.mode.spelling key = some spelled → host.toLower spelled = host.toLower name := by
  obtain ⟨mode, ad⟩ := stored
  cases mode with
  | inline =>
    obtain ⟨key, member, named⟩ := lookupByName_mem found
    refine ⟨key, member, ?_⟩
    cases key with
    | id number => cases named
    | name stored =>
      rintro spelled ⟨⟩
      exact (recognizes stored node member).mp (by simpa [Key.foldEqual] using named)
  | interned dict =>
    obtain ⟨number, numbered, found⟩ := bind_eq_some_iff.mp found
    refine ⟨.id number, lookup_mem found, ?_⟩
    intro spelled same
    obtain ⟨stored, held, folds⟩ := dictionary_lookup_some recognizes numbered
    cases held.symm.trans same
    exact folds

/-- No entry has a spelling that folds to a name which is not found. -/
theorem spelling_of_missing (recognizes : Recognizes stored name)
    (missing : stored.lookup name = none) (member : (key, node) ∈ stored.ad.entries)
    (spelled : stored.mode.spelling key = some spelling) : host.toLower spelling ≠ host.toLower name := by
  obtain ⟨mode, ad⟩ := stored
  intro same
  cases mode with
  | inline =>
    cases key with
    | id number => cases spelled
    | name stored =>
      cases spelled
      have unequal := lookupByName_none missing member
      rw [Key.foldEqual, (recognizes spelling node member).mpr same, beq_self_eq_true] at unequal
      cases unequal
  | interned dict =>
    cases key with
    | name stored => cases spelled
    | id number =>
      cases numbered : dict.lookup name with
      | none => exact dictionary_lookup_none numbered (mem_of_getElem? spelled) same
      | some other =>
        obtain ⟨stored, held, folds⟩ := dictionary_lookup_some recognizes numbered
        obtain rfl := dictionary_unique dict held spelled (folds.trans same.symm)
        simp only [StoredWire.lookup, wireLookup, numbered, bind_some] at missing
        exact lookup_none missing member

/-- Looking a name up in an encoded ad finds what the decoded ad binds it to. -/
theorem lookup_bound (stored : StoredWire host) (decoded : stored.decode opening = some attributes)
    (distinct : Distinct host attributes) (recognizes : Recognizes stored name) :
    bound host (host.toLower name) attributes = (stored.lookup name).bind (decodeNode opening) := by
  cases found : stored.lookup name with
  | some node =>
    obtain ⟨key, member, folds⟩ := spelling_of_lookup recognizes found
    obtain ⟨spelled, expr, same, opened, held⟩ := decodeEntries_mem decoded member
    rw [← folds spelled same, bound_of_distinct distinct held, bind_some, opened]
  | none =>
    cases held : bound host (host.toLower name) attributes with
    | none => rfl
    | some expr =>
      obtain ⟨spelled, same, mine⟩ := bound_mem held
      obtain ⟨key, node, member, spelling, _⟩ := mem_decodeEntries decoded mine
      exact absurd same (spelling_of_missing recognizes found member spelling)

/-! ## Resolution -/

theorem literalValue_some (read : literalValue node = some value) :
    ∃ expr, node = .plain expr ∧ isLiteralExpr expr = true ∧ exprToValue expr = value := by
  unfold literalValue at read
  split at read <;> first | (cases read; exact ⟨_, rfl, rfl, rfl⟩) | cases read

/-- What reading one encoded ad says about the binding of the name in the decoded ad. -/
theorem tryResolve_bound (decoded : stored.decode opening = some attributes)
    (distinct : Distinct host attributes) (recognizes : Recognizes stored name) :
    match tryResolve stored name with
    | .absent => bound host (host.toLower name) attributes = none
    | .fellBack => True
    | .value value => ∃ expr, bound host (host.toLower name) attributes = some expr ∧
        isLiteralExpr expr = true ∧ exprToValue expr = value := by
  have found := lookup_bound stored decoded distinct recognizes
  cases held : stored.lookup name with
  | none => simpa [tryResolve, held] using found
  | some node =>
    cases read : literalValue node with
    | none => simp [tryResolve, held, read]
    | some value =>
      simp only [tryResolve, held, read]
      obtain ⟨expr, rfl, literal, same⟩ := literalValue_some read
      refine ⟨expr, ?_, literal, same⟩
      rw [found, held]
      cases opening <;> rfl

end

/-- The decoded ads a scope stands for. -/
def decodeScope {host : Host} (ws : WireScope host) (opening : Opening) : Option StoredAd := do
  let child ← ws.ad.decode opening
  match ws.parent with
  | none => some ⟨child, none⟩
  | some parent => do
    let attributes ← parent.decode opening
    some ⟨child, some attributes⟩

section
variable {host : Host} {world : World} {guard : DepthGuard} {norm : String}

/-- Evaluating a bound literal is reading it. -/
theorem evalAttrExpr_literal (literal : isLiteralExpr expr = true) (below : ev.depth < maxEvalDepth)
    (fuel : Nat) {scope : Scope} {frame : Frame} (norm : String) :
    evalAttrExpr (evaluate host world guard (fuel + 1)) ev scope frame norm expr = .ok (exprToValue expr) := by
  rw [evalAttrExpr, if_pos literal, evaluate_literal literal below]

theorem lookupNorm_literal (found : bound host norm attributes = some expr)
    (literal : isLiteralExpr expr = true) : lookupNorm host attributes norm = some expr := by
  unfold lookupNorm
  rw [found]
  cases expr <;> first | rfl | cases literal

theorem lookupNorm_none (missing : bound host norm attributes = none) : lookupNorm host attributes norm = none := by
  unfold lookupNorm
  rw [missing]

/-- The ads of a scope name their attributes so that every lookup of `name` is unambiguous. -/
structure WellNamed (ws : WireScope host) (stored : StoredAd) (name : String) : Prop where
  distinct : ∀ attributes ∈ stored.ads, Distinct host attributes
  child : Recognizes ws.ad name
  parent : ∀ parent, ws.parent = some parent → Recognizes parent name

/-- The parent of a stored ad, as a scope of its own. -/
def parentScope (stored : StoredAd) : Scope := stored.parent.toList.map fun parent => ⟨.root 1, parent, none⟩

theorem decodeScope_child (decoded : decodeScope ws opening = some stored) :
    ws.ad.decode opening = some stored.child := by
  obtain ⟨child, opened, rest⟩ := bind_eq_some_iff.mp decoded
  cases chained : ws.parent with
  | none =>
    simp only [chained, some.injEq] at rest
    rw [← rest, opened]
  | some parent =>
    simp only [chained, bind_eq_bind, bind_eq_some_iff, some.injEq] at rest
    obtain ⟨_, _, rfl⟩ := rest
    exact opened

theorem decodeScope_parent (decoded : decodeScope ws opening = some stored) :
    ws.parent = none ∧ stored.parent = none ∨
      ∃ parent attributes, ws.parent = some parent ∧ stored.parent = some attributes ∧
        parent.decode opening = some attributes := by
  obtain ⟨child, _, rest⟩ := bind_eq_some_iff.mp decoded
  cases chained : ws.parent with
  | none =>
    simp only [chained, some.injEq] at rest
    rw [← rest]
    exact .inl ⟨rfl, rfl⟩
  | some parent =>
    simp only [chained, bind_eq_bind, bind_eq_some_iff, some.injEq] at rest
    obtain ⟨attributes, opened, rfl⟩ := rest
    exact .inr ⟨parent, attributes, rfl, rfl, opened⟩

section
variable {ws : WireScope host} (decoded : decodeScope ws opening = some stored) (named : WellNamed ws stored name)
  (answered : ws.resolveParent name = some value)
include decoded named answered

/-- A parent that answers binds the name to nothing, or to the literal it answers with. -/
theorem resolveParent_cases :
    value = .undefined ∧ (∀ attributes, stored.parent = some attributes →
      bound host (host.toLower name) attributes = none) ∨
    ∃ attributes expr, stored.parent = some attributes ∧ bound host (host.toLower name) attributes = some expr ∧
      isLiteralExpr expr = true ∧ exprToValue expr = value := by
  rcases decodeScope_parent decoded with ⟨unchained, alone⟩ | ⟨parent, attributes, chained, linked, opened⟩
  · simp only [WireScope.resolveParent, unchained, some.injEq] at answered
    exact .inl ⟨answered.symm, by simp [alone]⟩
  · have read := tryResolve_bound opened (named.distinct attributes (by simp [StoredAd.ads, linked]))
      (named.parent parent chained)
    simp only [WireScope.resolveParent, chained] at answered
    cases resolved : tryResolve parent name with
    | fellBack => simp [resolved, Found.answer] at answered
    | absent =>
      simp only [resolved, Found.answer, some.injEq] at read answered
      exact .inl ⟨answered.symm, by simp [linked, read]⟩
    | value =>
      simp only [resolved, Found.answer, some.injEq] at read answered
      subst answered
      obtain ⟨expr, found, literal, same⟩ := read
      exact .inr ⟨attributes, expr, linked, found, literal, same⟩

/-- Searching the parent answers as the evaluator does, whether it names the parent or comes to
it after the child. -/
theorem resolveParent_exact (below : ev.depth < maxEvalDepth) :
    evalAttrIn host (evaluate host world guard (fuel + 1)) ev (parentScope stored) (host.toLower name) = .ok value ∧
    (match lookupInScope host (host.toLower name) (parentScope stored) with
      | some (found, frame, expr) =>
        evalAttrExpr (evaluate host world guard (fuel + 1)) ev found frame (host.toLower name) expr
      | none => .ok .undefined) = .ok value := by
  unfold parentScope
  rcases resolveParent_cases decoded named answered with ⟨rfl, unbound⟩ | ⟨attributes, expr, linked, found,
    literal, rfl⟩
  · cases linked : stored.parent with
    | none => exact ⟨rfl, rfl⟩
    | some attributes => simp [evalAttrIn, lookupInScope, lookupNorm_none (unbound attributes linked)]
  · simp only [linked, toList_some, map_cons, map_nil, evalAttrIn, lookupInScope, lookupNorm_literal found literal]
    exact ⟨evalAttrExpr_literal literal below .., evalAttrExpr_literal literal below ..⟩

/-- A parent that answers undefined binds the name to nothing else. -/
theorem resolveParent_undefined :
    value = .undefined ↔ ∀ attributes, stored.parent = some attributes →
    bound host (host.toLower name) attributes = none ∨
        bound host (host.toLower name) attributes = some .undefined := by
  rcases resolveParent_cases decoded named answered with ⟨rfl, unbound⟩ | ⟨attributes, expr, linked, found,
    literal, rfl⟩
  · exact iff_of_true rfl fun attributes linked => .inl (unbound attributes linked)
  · simp only [linked, some.injEq, forall_eq', found]
    cases expr <;> simp_all [exprToValue, isLiteralExpr]

end

/-- Resolving a reference over encoded ads gives what the evaluator gives over the decoded
ones, except for a `MY` reference to a name that only the parent binds: the evaluator does
not search the parent for it. -/
theorem resolve_exact (world : World) (opening : Opening) (ws : WireScope host) (stored : StoredAd)
    (decoded : decodeScope ws opening = some stored) (named : WellNamed ws stored name)
    (answered : ws.resolve name scope = some value) (guard : DepthGuard) (fuel : Nat) (ev : Evaluator)
    (chain : ev.scope = stored.scope) (unresolved : ev.resolver = none) (below : ev.depth < maxEvalDepth) :
    resolveAttributeReference host world (evaluate host world guard (fuel + 1)) ev name scope = .ok value ↔
      (scope = .my → bound host (host.toLower name) stored.child = none →
        ∀ attributes, stored.parent = some attributes →
          bound host (host.toLower name) attributes = none ∨
            bound host (host.toLower name) attributes = some .undefined) := by
  have read := tryResolve_bound (decodeScope_child decoded) (named.distinct stored.child (.head _)) named.child
  have untargeted : targetOf world ev.scope = [] := by
    rw [chain]
    rfl
  have parents : ev.scope.tail = parentScope stored := by
    rw [chain]
    rfl
  simp only [resolveAttributeReference, unresolved, normalizeName]
  cases scope with
  | target =>
    cases answered
    simp [untargeted, evalAttrIn]
  | parent =>
    rw [parents]
    simp [(resolveParent_exact decoded named answered below).1]
  | none =>
    simp only [WireScope.resolve] at answered
    rw [untargeted, chain]
    simp only [StoredAd.scope, lookupInScope, reduceCtorEq, false_implies, iff_true]
    cases resolved : tryResolve ws.ad name with
    | fellBack => simp [resolved, Found.answer] at answered
    | absent =>
      simp only [resolved] at read answered
      rw [lookupNorm_none read]
      exact (resolveParent_exact decoded named answered below).2
    | value =>
      simp only [resolved, Found.answer, some.injEq] at read answered
      obtain ⟨expr, found, literal, rfl⟩ := read
      subst answered
      rw [lookupNorm_literal found literal]
      exact evalAttrExpr_literal literal below ..
  | my =>
    simp only [WireScope.resolve] at answered
    rw [chain]
    simp only [StoredAd.scope, evalAttrIn, true_implies]
    cases resolved : tryResolve ws.ad name with
    | fellBack => simp [resolved, Found.answer] at answered
    | absent =>
      simp only [resolved] at read answered
      rw [lookupNorm_none read, ← resolveParent_undefined decoded named answered]
      simp only [read, true_implies, Run.ok.injEq]
      exact eq_comm
    | value =>
      simp only [resolved, Found.answer, some.injEq] at read answered
      obtain ⟨expr, found, literal, rfl⟩ := read
      subst answered
      simp [lookupNorm_literal found literal, evalAttrExpr_literal literal below, found]

end

/-- A child from an interned segment, `[Memory = 4096]`, chained to the inline parent
`[x = 3]`. -/
def sampleWire : WireScope (asciiHost 0) where
  ad := ⟨.interned ⟨["Memory"], fun _ => some 0, by decide⟩, ⟨[(.id 0, .plain (.integer 4096))], [0]⟩⟩
  parent := some ⟨.inline, ⟨[(.name "x", .plain (.integer 3))], []⟩⟩

def sampleStored : StoredAd := ⟨[("Memory", .integer 4096)], some [("x", .integer 3)]⟩

theorem resolve_exact_on_sample :
    sampleWire.resolve "memory" .my = some (.integer 4096) ∧
    resolveAttributeReference (asciiHost 0) (fun _ => []) (evaluate (asciiHost 0) (fun _ => []) .panics 1)
      (newEvaluator sampleStored.scope) "memory" .my = .ok (.integer 4096) := by
  refine ⟨rfl, (resolve_exact (fun _ => []) .keyed sampleWire sampleStored rfl ?_ rfl .panics 0 _ rfl rfl
    (by decide)).mpr ?_⟩
  · refine ⟨?_, ?_, ?_⟩
    · intro attributes member
      simp only [StoredAd.ads, sampleStored, toList_some, mem_cons, not_mem_nil, or_false] at member
      rcases member with rfl | rfl
      · exact nodup_singleton _
      · exact nodup_singleton _
    · intro number stored _ _ folds
      exact String.ofList_inj.mpr (by simpa [asciiHost] using folds)
    · rintro parent ⟨⟩ spelled node _
      exact Iff.rfl
  · intro _ unbound
    cases unbound

/-- `MY.x` where only the parent binds `x`. -/
theorem resolve_searches_parent_for_my :
    let ws : WireScope (asciiHost 0) := ⟨⟨.inline, ⟨[], []⟩⟩,
      some ⟨.inline, ⟨[(.name "x", .plain (.integer 3))], []⟩⟩⟩
    let stored : StoredAd := ⟨[], some [("x", .integer 3)]⟩
    decodeScope ws .keyed = some stored ∧ ws.resolve "x" .my = some (.integer 3) ∧
      resolveAttributeReference (asciiHost 0) (fun _ => []) (evaluate (asciiHost 0) (fun _ => []) .panics 1)
        (newEvaluator stored.scope) "x" .my = .ok .undefined :=
  ⟨rfl, rfl, rfl⟩

end Classad.WireProofs
