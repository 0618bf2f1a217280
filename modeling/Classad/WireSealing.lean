import Classad.WireCodecProofs

/-! What a reader without the key learns about sealed values. Two ads that differ in nothing
else are compared with the ad in which every sealed value is undefined: a reader sees that
ad exactly when sealing never fell back to the clear. -/
namespace Classad.WireSealing
open Ast ByteParser TableWriter WireCodec WireNodeProofs WireCodecProofs List
open Encoder (encNode entry node putKey)

/-- The ads agree except on the values the policy seals. -/
def SameButSealed (policy : Sealing) (left right : ClassAd) : Prop :=
  Forall₂ (fun l r => l.1 = r.1 ∧ (policy.encrypt l.1 = false → l.2 = r.2)) left right

/-- The ad with undefined for every value the policy seals. -/
def blanked (policy : Sealing) (ad : ClassAd) : ClassAd :=
  ad.map fun attr => (attr.1, if policy.encrypt attr.1 then .undefined else attr.2)

section Agreement
variable {policy : Sealing} {left right : ClassAd}

theorem blanked_same : SameButSealed policy ad (blanked policy ad) := by
  induction ad with
  | nil => exact .nil
  | cons attr rest ih =>
    exact .cons ⟨rfl, fun clear => by simp [clear]⟩ ih

theorem SameButSealed.blanked_eq (same : SameButSealed policy left right) :
    blanked policy left = blanked policy right := by
  induction same with
  | nil => rfl
  | @cons l r _ _ head _ ih =>
    obtain ⟨name, value⟩ := head
    simp only [blanked, map_cons] at ih ⊢
    rw [ih, ← name]
    cases sealed : policy.encrypt l.1 with
    | true => rfl
    | false => simp [value sealed]

theorem SameButSealed.trans_blanked (same : SameButSealed policy left right) :
    SameButSealed policy left (blanked policy right) := by
  rw [← same.blanked_eq]
  exact blanked_same

theorem sealerFor_policy (policy : Sealing) (name : Text) :
    sealerFor (some policy) name = if policy.encrypt name then some policy.sealer else none := by
  rw [sealerFor, Option.filter_some]
  split <;> rfl

theorem blanked_storable (storable : Storable (some policy) left) : Storable (some policy) (blanked policy left) := by
  refine ⟨by simpa [blanked] using storable.few, ?_, ?_⟩
  · intro attr member
    obtain ⟨old, oldMember, rfl⟩ := mem_map.mp member
    obtain ⟨short, sized⟩ := storable.sized old oldMember
    refine ⟨short, ?_⟩
    split
    · simp [Sized]
    · exact sized
  · intro attr member
    obtain ⟨old, oldMember, rfl⟩ := mem_map.mp member
    have deep := storable.nested old oldMember
    rw [sealerFor_policy] at deep ⊢
    cases sealed : policy.encrypt old.1 with
    | true => simp [levels, maxDepth]
    | false => simpa [sealed] using deep

theorem filter_blanked (p : Text → Bool) (ad : ClassAd) :
    (blanked policy ad).filter (fun attr => p attr.1) = blanked policy (ad.filter fun attr => p attr.1) := by
  rw [blanked, filter_map]
  rfl

/-- Hot attributes are not sealed. -/
theorem hot_blanked (hot : Text → Bool) (ad : ClassAd) :
    (blanked policy ad).filter (fun attr => isHot (some policy) hot attr.1) =
      ad.filter fun attr => isHot (some policy) hot attr.1 := by
  rw [filter_blanked]
  refine (map_congr_left fun attr member => ?_).trans (map_id _)
  have hot := (mem_filter.mp member).2
  rw [isHot, sealerFor_policy] at hot
  cases sealed : policy.encrypt attr.1 with
  | true => simp [sealed] at hot
  | false => rfl

end Agreement

theorem policy_keyed (lawful : Lawful policy.sealer) : Keyed (some policy) (some policy.sealer) := by
  intro given member
  obtain rfl := Option.mem_some_iff.mp member
  exact ⟨lawful, rfl⟩

section Keyless
variable {e : Encoder} {d : Decoder} {final : List Text} {policy : Sealing}

/-- Without the key a sealed value reads as undefined, where the reader redacts. -/
theorem encNode_redacted (lawful : Lawful policy.sealer) (keyless : d.opener = none) (redacts : d.redactSealed = true)
    (sealed : (policy.sealer.seals call ((e.node value).run names).1).isSome) :
    Reads (d.node (left + 1)) ((e.encNode policy.sealer call value).run names).1 .undefined := by
  obtain ⟨pair, sealed⟩ := Option.isSome_iff_exists.mp sealed
  rw [encNode]
  simp only [sealed]
  apply encrypted_reads (lawful.short sealed)
  rw [keyless]
  simp only [Decoder.unopened, redacts]
  exact Reads.pure _

/-- A value whose sealing failed is there for everyone to read. -/
theorem encNode_exposed (failed : sealer.seals call ((e.node value).run names).1 = none) :
    (e.encNode sealer call value).run names = (e.node value).run ((e.node value).run names).2 := by
  rw [encNode]
  simp [failed]

end Keyless

section Inline
variable {policy : Sealing}

/-- What a reader without the key makes of a value: undefined, unless it is in the clear. -/
def visible (policy : Sealing) (call : Nat) (name : Text) (value : Expr) : Expr :=
  if policy.encrypt name && (policy.sealer.seals call ((inlineEncoder.node value).run []).1).isSome then .undefined
  else respelled (fun name => name) value

theorem redacted_reads (lawful : Lawful policy.sealer) (storable : Storable (some policy) ad) (call : Nat)
    (attr : Text × Expr) (member : attr ∈ ad) :
    Reads ((inlineDecoder none true).attribute ((inlineDecoder none true).node maxDepth))
      ((inlineEncoder.entry (some policy) call attr.1 attr.2).run []).1 (attr.1,
        visible policy call attr.1 attr.2) := by
  obtain ⟨short, sized⟩ := storable.sized attr member
  have deep := storable.nested attr member
  have key := readString_reads short
  have suits : ∀ final, Suits (inlineDecoder none true) inlineEncoder final := fun _ => inline_suits
  have node := fun names => ((reads_nodes (suits _) maxDepth).1 attr.2 (by omega) sized).reads names prefix_rfl
  rw [entry, sealerFor_policy, visible]
  cases policy.encrypt attr.1 with
  | false => exact key.bind ((node []).map _)
  | true =>
    have value : Reads ((inlineDecoder none true).node maxDepth)
      ((inlineEncoder.encNode policy.sealer call attr.2).run []).1
        (if (policy.sealer.seals call ((inlineEncoder.node attr.2).run []).1).isSome then .undefined
          else respelled (fun name => name) attr.2) := by
      split
      next sealed => exact encNode_redacted lawful rfl rfl sealed
      next failed =>
        rw [encNode_exposed (by simpa using failed)]
        exact node _
    exact key.bind (value.map _)

/-- The sealed encoding of an ad as a reader without the key decodes it. -/
def redacted (hot : Text → Bool) (policy : Sealing) (ad : ClassAd) : Except Fault ClassAd :=
  decodeInlineEnc none true (encodeInlineWithHotEnc hot (some policy) ad)

theorem redacted_eq (lawful : Lawful policy.sealer) (storable : Storable (some policy) ad) :
    redacted hot policy ad =
      .ok (respelledAd (fun name => name) (ad.filter fun attr => isHot (some policy) hot attr.1) ++
      shown (fun name => name) (visible policy) (some policy)
      (ad.filter fun attr => !isHot (some policy) hot attr.1) 0) :=
  decodeInlineEnc_shown storable (redacted_reads lawful (storable.filter _))

/-- Sealing fails on none of the values to be sealed but undefined ones. `call` counts those
sealed before. -/
def Concealed (policy : Sealing) : ClassAd → Nat → Prop
  | [], _ => True
  | (name, value) :: rest, call =>
    (policy.encrypt name → policy.sealer.seals call ((inlineEncoder.node value).run []).1 = none → value = .nil ∨
      value = .undefined) ∧
      Concealed policy rest (nextCall (some policy) call name)

theorem respelled_undefined :
    respelled spell value = .undefined ↔ value = .nil ∨ value = .undefined := by
  cases value <;> simp [respelled]

theorem visible_blank (policy : Sealing) (call : Nat) (name : Text) :
    visible policy call name .undefined = .undefined := by
  rw [visible]
  split <;> rfl

/-- The same, on none of the values to be sealed. -/
def SealsInline (policy : Sealing) : ClassAd → Nat → Prop
  | [], _ => True
  | (name, value) :: rest, call =>
    (policy.encrypt name → (policy.sealer.seals call ((inlineEncoder.node value).run []).1).isSome) ∧
      SealsInline policy rest (nextCall (some policy) call name)

/-- A reader sees no sealed value of an ad exactly when sealing has kept them all. -/
theorem shown_blanked_iff (ad : ClassAd) (call : Nat) :
    shown (fun name => name) (visible policy) (some policy) ad call =
      shown (fun name => name) (visible policy) (some policy) (blanked policy ad) call ↔ Concealed policy ad call := by
  induction ad generalizing call with
  | nil => simp [blanked, shown, Concealed]
  | cons attr rest ih =>
    obtain ⟨name, value⟩ := attr
    have tail := ih (nextCall (some policy) call name)
    simp only [blanked, map_cons, shown, cons.injEq, Prod.mk.injEq, true_and, Concealed] at tail ⊢
    refine and_congr ?_ tail
    cases sealed : policy.encrypt name with
    | false => simp
    | true =>
      rw [if_pos rfl, visible_blank, visible, sealed]
      cases policy.sealer.seals call ((inlineEncoder.node value).run []).1 with
      | none => simp [respelled_undefined]
      | some pair => simp

theorem redacted_blanked_iff (lawful : Lawful policy.sealer) (storable : Storable (some policy) ad) :
    redacted hot policy ad = redacted hot policy (blanked policy ad) ↔
      Concealed policy (ad.filter fun attr => !isHot (some policy) hot attr.1) 0 := by
  rw [redacted_eq lawful storable, redacted_eq lawful (blanked_storable storable), hot_blanked,
    filter_blanked fun name => !isHot (some policy) hot name, Except.ok.injEq, append_cancel_left_eq]
  exact shown_blanked_iff _ 0

/-- Whatever the sealed values of an ad are, a reader without the key decodes the same ad,
exactly when sealing fails on none of them but undefined ones. -/
theorem redacted_same_iff (lawful : Lawful policy.sealer) :
    (∀ left right, SameButSealed policy ad left → SameButSealed policy ad right → Storable (some policy) left →
      Storable (some policy) right → redacted hot policy left = redacted hot policy right) ↔
    ∀ left, SameButSealed policy ad left → Storable (some policy) left →
      Concealed policy (left.filter fun attr => !isHot (some policy) hot attr.1) 0 := by
  constructor
  · intro same left agrees storable
    rw [← redacted_blanked_iff lawful storable]
    exact same left _ agrees agrees.trans_blanked storable (blanked_storable storable)
  · intro concealed left right leftAgrees rightAgrees leftStorable rightStorable
    rw [(redacted_blanked_iff lawful leftStorable).mpr (concealed left leftAgrees leftStorable),
      (redacted_blanked_iff lawful rightStorable).mpr (concealed right rightAgrees rightStorable),
      ← leftAgrees.blanked_eq, ← rightAgrees.blanked_eq]

end Inline

section Interned
variable {toLower : Text → Text} {policy : Sealing} {final : List Text}

/-- Sealing succeeds wherever the encoder asks for it, with a number of values sealed before and
the table as it is then. -/
def Seals (e : Encoder) (policy : Sealing) : ClassAd → Nat → List Text → Prop
  | [], _, _ => True
  | (name, value) :: rest, call, names =>
    (policy.encrypt name → (policy.sealer.seals call ((e.node value).run ((e.putKey name).run names).2).1).isSome) ∧
      Seals e policy rest (nextCall (some policy) call name) ((e.entry (some policy) call name value).run names).2

/-- The names a reader without the key comes across. -/
def publicNames (policy : Sealing) : ClassAd → List Text
  | [] => []
  | (name, value) :: rest => name :: ((if policy.encrypt name then [] else namesOf value) ++ publicNames policy rest)

/-- The table already has the names that occur in sealed values. -/
def SealedNamesKnown (toLower : Text → Text) (policy : Sealing) (names : List Text) (ad : ClassAd) : Prop :=
  ∀ attr ∈ ad, policy.encrypt attr.1 → ∀ name ∈ namesOf attr.2, ∃ old ∈ names, toLower old = toLower name

theorem SameButSealed.publicNames_eq (same : SameButSealed policy left right) :
    publicNames policy left = publicNames policy right := by
  induction same with
  | nil => rfl
  | @cons l r _ _ head _ ih =>
    obtain ⟨name, value⟩ := head
    rw [publicNames, publicNames, ih, ← name]
    cases sealed : policy.encrypt l.1 with
    | true => rfl
    | false => rw [value sealed]

theorem internAll_grows (added names : List Text) : names <+: internAll toLower added names := by
  induction added generalizing names with
  | nil => exact prefix_rfl
  | cons name rest ih => exact (intern_grows toLower).trans (ih _)

/-- Sealed values then leave no trace in the table. -/
theorem sealedEntries_table (seals : Seals ⟨toLower, false⟩ policy ad call table)
    (known : SealedNamesKnown toLower policy names ad) (grown : names <+: table) :
    ((sealedEntries ⟨toLower, false⟩ (some policy) ad call).run table).2 =
      internAll toLower (publicNames policy ad) table := by
  induction ad generalizing call table with
  | nil => rfl
  | cons attr rest ih =>
    obtain ⟨name, value⟩ := attr
    obtain ⟨headKnown, restKnown⟩ := forall_mem_cons.mp known
    have keyed : names <+: (intern toLower name table).2 := grown.trans (intern_grows toLower)
    have entry : ((entry ⟨toLower, false⟩ (some policy) call name value).run table).2 =
        internAll toLower (name :: if policy.encrypt name then [] else namesOf value) table := by
      rw [entry, sealerFor_policy]
      cases sealed : policy.encrypt name with
      | false => exact node_table _
      | true =>
        obtain ⟨pair, success⟩ := Option.isSome_iff_exists.mp (seals.1 sealed)
        rw [show ((putKey ⟨toLower, false⟩ name).run table).2 = (intern toLower name table).2 from rfl] at success
        have unchanged : internAll toLower (namesOf value) (intern toLower name table).2 =
            (intern toLower name table).2 := by
          refine internAll_known fun used member => ?_
          obtain ⟨old, oldMember, same⟩ := headKnown sealed used member
          exact ⟨old, keyed.subset oldMember, same⟩
        have node : ((node ⟨toLower, false⟩ value).run (intern toLower name table).2).2 = _ := node_table _
        simp [putKey, Encoder.interned, encNode, success, internAll, node, unchanged]
    have rest := seals.2
    rw [entry] at rest
    rw [sealedEntries, Writer.append_run, entry, publicNames, ← cons_append, internAll_append]
    exact ih rest restKnown (grown.trans (internAll_grows _ _))

theorem interned_table_same (leftSeals : Seals ⟨toLower, false⟩ policy left 0 names)
    (rightSeals : Seals ⟨toLower, false⟩ policy right 0 names) (same : SameButSealed policy left right)
    (leftKnown : SealedNamesKnown toLower policy names left)
    (rightKnown : SealedNamesKnown toLower policy names right) :
    (encodeWithHotEnc toLower hot (some policy) left names).2 =
      (encodeWithHotEnc toLower hot (some policy) right names).2 := by
  have table : ∀ ad, Seals ⟨toLower, false⟩ policy ad 0 names → SealedNamesKnown toLower policy names ad →
      (encodeWithHotEnc toLower hot (some policy) ad names).2 = internAll toLower (publicNames policy ad) names := by
    intro ad seals known
    rw [← sealedEntries_table seals known prefix_rfl]
    exact (internedEntries_run (some policy) hot ad 0 0 names).2
  rw [table left leftSeals leftKnown, table right rightSeals rightKnown, same.publicNames_eq]

/-- What a reader without the key makes of a value when no sealing has failed. -/
def unsealed (policy : Sealing) (spell : Text → Text) (_ : Nat) (name : Text) (value : Expr) : Expr :=
  if policy.encrypt name then .undefined else respelled spell value

theorem SameButSealed.shown_eq (same : SameButSealed policy left right) (call : Nat) :
    shown spell (unsealed policy spell) (some policy) left call = shown spell (unsealed policy spell)
    (some policy) right call := by
  induction same generalizing call with
  | nil => rfl
  | @cons l r _ _ head _ ih =>
    obtain ⟨name, value⟩ := head
    rw [shown, shown, ← name, ih, unsealed, unsealed]
    cases sealed : policy.encrypt l.1 with
    | true => rfl
    | false => rw [value sealed]

end Interned

section Refusal
variable {e : Encoder} {d : Decoder} {final : List Text} {policy : Sealing} {ad : ClassAd}

theorem entry_unsealed (clear : policy.encrypt name = false) (call : Nat) (value : Expr) :
    e.entry (some policy) call name value = e.entry none call name value := by
  rw [entry, sealerFor_policy, clear]
  rfl

theorem sealedEntries_grows (suits : Suits d e final) (lawful : Lawful policy.sealer)
    (storable : Storable (some policy) ad) (call : Nat)
    (names : List Text) : names <+: ((sealedEntries e (some policy) ad call).run names).2 := by
  have suits : Suits { d with opener := some policy.sealer } e final := ⟨suits.inline, suits.resolves, suits.small⟩
  have whole : RoundTrips final (sealedEntries e (some policy) ad call) _
      (shown _ (fun _ _ => respelled _) _ ad call) :=
    sealedEntries_roundTrips ad call (entry_roundTrips suits (policy_keyed lawful) storable)
  exact whole.grows names

theorem Storable.rest {rest : ClassAd} (storable : Storable sealing (attr :: rest)) :
    Storable sealing rest :=
  ⟨(Nat.le_succ _).trans storable.few, fun attr member => storable.sized attr (.tail _ member),
    fun attr member => storable.nested attr (.tail _ member)⟩

section
variable (suits : Suits d e final) (lawful : Lawful policy.sealer) (keyless : d.opener = none)
include suits lawful keyless

/-- A sealed attribute, read without the key: undefined, where the reader redacts. -/
theorem entry_redacted (redacts : d.redactSealed = true) (short : Short name) (sized : Sized value)
    (sealed : policy.encrypt name = true)
    (success : (policy.sealer.seals call ((e.node value).run ((e.putKey name).run names).2).1).isSome)
    (grown : ((e.entry (some policy) call name value).run names).2 <+: final) :
    Reads (d.attribute (d.node maxDepth)) ((e.entry (some policy) call name value).run names).1 (spelling e final name,
      .undefined) := by
  rw [entry, sealerFor_policy, if_pos sealed] at grown ⊢
  have key := (putKey_roundTrips suits short).reads names ((encNode_grows suits sized _).trans grown)
  exact key.bind ((encNode_redacted lawful keyless redacts success).map _)

/-- Where the reader does not redact, it makes the ad unreadable. -/
theorem entry_refused (strict : d.redactSealed = false) (short : Short name) (sized : Sized value)
    (sealed : policy.encrypt name = true)
    (success : (policy.sealer.seals call ((e.node value).run ((e.putKey name).run names).2).1).isSome)
    (grown : ((e.entry (some policy) call name value).run names).2 <+: final) :
    Fails (d.attribute (d.node maxDepth)) ((e.entry (some policy) call name value).run names).1
      (.malformed .sealed) := by
  rw [entry, sealerFor_policy, if_pos sealed] at grown ⊢
  have key := (putKey_roundTrips suits short).reads names ((encNode_grows suits sized _).trans grown)
  refine key.fails (Fails.map ?_)
  obtain ⟨pair, success⟩ := Option.isSome_iff_exists.mp success
  have short := lawful.short success
  rw [encNode]
  simp only [success]
  refine (byteAt_reads).fails ?_
  refine (readString_reads short.1).fails ?_
  refine (readString_reads short.2).stop fun rest => ?_
  rw [keyless]
  simp only [Decoder.unopened, strict]
  rfl

/-- What a reader without the key makes of the entries, if it redacts. -/
theorem sealedEntries_redacted (redacts : d.redactSealed = true) (storable : Storable (some policy) ad)
    (seals : Seals e policy ad call names) (grown : ((sealedEntries e (some policy) ad call).run names).2 <+: final) :
    Reads (many (d.attribute (d.node maxDepth)) ad.length) ((sealedEntries e (some policy) ad call).run names).1
      (shown (spelling e final) (unsealed policy (spelling e final)) (some policy) ad call) := by
  induction ad generalizing call names with
  | nil => exact many_reads_nil _
  | cons attr rest ih =>
    have between : ((e.entry (some policy) call attr.1 attr.2).run names).2 <+: final :=
      (sealedEntries_grows suits lawful (Storable.rest storable) _ _).trans grown
    obtain ⟨short, sized⟩ := storable.sized attr (.head _)
    refine many_reads_cons ?_ (ih (Storable.rest storable) seals.2 grown)
    rw [unsealed]
    cases sealed : policy.encrypt attr.1 with
    | true => exact entry_redacted suits lawful keyless redacts short sized sealed (seals.1 sealed) between
    | false =>
      rw [entry_unsealed sealed] at between ⊢
      exact (entry_roundTrips suits keyed_none storable.unsealed call attr (.head _)).reads names between

/-- A strict reader gives up at the first sealed attribute. -/
theorem sealedEntries_refused (strict : d.redactSealed = false) (storable : Storable (some policy) ad)
    (seals : Seals e policy ad call names) (grown : ((sealedEntries e (some policy) ad call).run names).2 <+: final)
    (some_ : ∃ attr ∈ ad, policy.encrypt attr.1) :
    Fails (many (d.attribute (d.node maxDepth)) ad.length)
    ((sealedEntries e (some policy) ad call).run names).1 (.malformed .sealed) := by
  induction ad generalizing call names with
  | nil => simp at some_
  | cons attr rest ih =>
    have between : ((e.entry (some policy) call attr.1 attr.2).run names).2 <+: final :=
      (sealedEntries_grows suits lawful (Storable.rest storable) _ _).trans grown
    obtain ⟨short, sized⟩ := storable.sized attr (.head _)
    cases sealed : policy.encrypt attr.1 with
    | true => exact (entry_refused suits lawful keyless strict short sized sealed (seals.1 sealed) between).bind
    | false =>
      have later : ∃ attr ∈ rest, policy.encrypt attr.1 := by simpa [sealed] using some_
      have tail := ih (Storable.rest storable) seals.2 grown later
      rw [sealedEntries, Writer.append_run]
      rw [entry_unsealed sealed] at between tail ⊢
      exact ((entry_roundTrips suits keyed_none storable.unsealed call attr (.head _)).reads names
        between).fails tail.map

end

theorem result_of_fails (fails : Fails p bytes fault) :
    result p bytes = .error fault := by
  have alone := fails []
  rw [append_nil] at alone
  rw [result, alone]
  rfl

theorem adBody_fails {count left : Nat}
    (pairs : hots.length ≤ count ∧ ∀ pair ∈ hots, pair.1 < 2 ^ 32 ∧ pair.2 < 2 ^ 32) (few : count ≤ sliceLimit 8)
    (fails : Fails (many (d.attribute (d.node left)) count) entries fault) :
    Fails (d.adBody (left + 1)) (hotHeader hots ++ (uvarint count ++ entries)) fault := by
  have small := sliceLimit_lt 8
  rw [hotHeader, append_assoc]
  refine (readNumber_reads (by omega)).fails ?_
  refine (hotHeader_reads pairs.2).fails ?_
  refine (readNumber_reads (by omega)).fails ?_
  exact (makeSlice_reads few).fails fails

theorem interned_refused {hot : Nat → Bool} (lawful : Lawful policy.sealer) (storable : Storable (some policy) ad)
    (seals : Seals ⟨toLower, false⟩ policy ad 0 names) (sealed : ∃ attr ∈ ad, policy.encrypt attr.1)
    (small : final.length ≤ 2 ^ 32)
    (grown : (encodeWithHotEnc toLower hot (some policy) ad names).2 <+: final) :
    decodeResolveEnc final none false (encodeWithHotEnc toLower hot (some policy) ad names).1 =
      .error (.malformed .sealed) := by
  have suits : Suits (tableDecoder final none false) ⟨toLower, false⟩ final := table_suits small
  have run := internedEntries_run (e := ⟨toLower, false⟩) (some policy) hot ad 0 0 names
  rw [encodeWithHotEnc] at grown ⊢
  simp only [run.1, run.2, append_assoc] at grown ⊢
  exact result_of_fails (adBody_fails (internedEntries_hots ad 0 0 names) storable.few
    (sealedEntries_refused suits lawful rfl rfl storable seals grown sealed))

theorem coldEntries_fails (lawful : Lawful policy.sealer) (storable : Storable (some policy) ad)
    (seals : SealsInline policy ad call) (sealed : ∃ attr ∈ ad, policy.encrypt attr.1) :
    Fails (many ((inlineDecoder none false).attribute ((inlineDecoder none false).node maxDepth)) ad.length)
      (coldEntries (some policy) ad call) (.malformed .sealed) := by
  induction ad generalizing call with
  | nil => simp at sealed
  | cons attr rest ih =>
    obtain ⟨short, sized⟩ := storable.sized attr (.head _)
    cases headSealed : policy.encrypt attr.1 with
    | true =>
      exact (entry_refused inline_suits lawful rfl rfl short sized headSealed (seals.1 headSealed) prefix_rfl).bind
    | false =>
      have later : ∃ attr ∈ rest, policy.encrypt attr.1 := by simpa [headSealed] using sealed
      have head := inlineEntry_reads storable.unsealed none false call attr (.head _)
      rw [← entry_unsealed headSealed] at head
      exact head.fails (ih (Storable.rest storable) seals.2 later).map

theorem cold_sealed (hot : Text → Bool) (sealed : ∃ attr ∈ ad, policy.encrypt attr.1) :
    ∃ attr ∈ ad.filter (fun attr => !isHot (some policy) hot attr.1), policy.encrypt attr.1 := by
  obtain ⟨attr, member, encrypts⟩ := sealed
  refine ⟨attr, mem_filter.mpr ⟨member, ?_⟩, encrypts⟩
  simp [isHot, sealerFor_policy, encrypts]

theorem inline_refused (lawful : Lawful policy.sealer) (hot : Text → Bool) (storable : Storable (some policy) ad)
    (seals : SealsInline policy (ad.filter fun attr => !isHot (some policy) hot attr.1) 0)
    (sealed : ∃ attr ∈ ad, policy.encrypt attr.1) :
    decodeInlineEnc none false (encodeInlineWithHotEnc hot (some policy) ad) = .error (.malformed .sealed) := by
  have entries := many_fails_append (hotRegion_reads storable none false hot)
    (coldEntries_fails lawful (storable.filter _) seals (cold_sealed hot sealed))
  rw [filter_length_add] at entries
  have pairs := hotEntries_hots (ad.filter fun attr => isHot (some policy) hot attr.1) 0
  have fewer := length_filter_le (fun attr => isHot (some policy) hot attr.1) ad
  rw [encodeInlineWithHotEnc]
  simp only [hotEntries_cold, append_assoc]
  exact result_of_fails (adBody_fails ⟨pairs.1.trans fewer, pairs.2⟩ storable.few entries)

end Refusal

section Hiding
variable {policy : Sealing} {left right : ClassAd}

/-- Ads in which nothing is to be sealed agree throughout. -/
theorem SameButSealed.eq_of_clear (same : SameButSealed policy left right)
    (clear : ¬∃ attr ∈ left, policy.encrypt attr.1) :
    left = right := by
  induction same with
  | nil => rfl
  | @cons l r _ _ head _ ih =>
    simp only [exists_mem_cons_iff, not_or] at clear
    obtain ⟨name, value⟩ := head
    rw [ih clear.2, Prod.ext name (value (by simpa using clear.1))]

theorem SameButSealed.sealed_iff (same : SameButSealed policy left right) :
    (∃ attr ∈ left, policy.encrypt attr.1) ↔ ∃ attr ∈ right, policy.encrypt attr.1 := by
  induction same with
  | nil => rfl
  | cons head _ ih => simp [ih, head.1]

section
variable (lawful : Lawful policy.sealer) (same : SameButSealed policy left right)
  (leftStorable : Storable (some policy) left)
  (rightStorable : Storable (some policy) right)
include lawful same leftStorable rightStorable

/-- A reader who does not redact gets the same answer too: neither ad, if anything is sealed. -/
theorem refused_same (leftSeals : SealsInline policy (left.filter fun attr => !isHot (some policy) hot attr.1) 0)
    (rightSeals : SealsInline policy (right.filter fun attr => !isHot (some policy) hot attr.1) 0) :
    decodeInlineEnc none false (encodeInlineWithHotEnc hot (some policy) left) =
      decodeInlineEnc none false (encodeInlineWithHotEnc hot (some policy) right) := by
  by_cases sealed : ∃ attr ∈ left, policy.encrypt attr.1
  · rw [inline_refused lawful hot leftStorable leftSeals sealed,
      inline_refused lawful hot rightStorable rightSeals (same.sealed_iff.mp sealed)]
  · rw [same.eq_of_clear sealed]

/-- A reader without the key gets the same answer of an interned ad, once the sealed values bring
no names of their own into the table. -/
theorem interned_same
    (leftSeals : Seals ⟨toLower, false⟩ policy left 0 names) (rightSeals : Seals ⟨toLower, false⟩ policy right 0 names)
    (leftKnown : SealedNamesKnown toLower policy names left) (rightKnown : SealedNamesKnown toLower policy names right)
    (small : final.length ≤ 2 ^ 32) (grown : (encodeWithHotEnc toLower hot (some policy) left names).2 <+: final) :
    decodeResolveEnc final none redact (encodeWithHotEnc toLower hot (some policy) left names).1 =
      decodeResolveEnc final none redact (encodeWithHotEnc toLower hot (some policy) right names).1 := by
  have rightGrown : (encodeWithHotEnc toLower hot (some policy) right names).2 <+: final :=
    interned_table_same leftSeals rightSeals same leftKnown rightKnown ▸ grown
  cases redact with
  | true =>
    have suits : Suits (tableDecoder final none true) ⟨toLower, false⟩ final := table_suits small
    rw [decodeResolveEnc_reads leftStorable.few grown
      (sealedEntries_redacted suits lawful rfl rfl leftStorable leftSeals),
      decodeResolveEnc_reads rightStorable.few rightGrown
        (sealedEntries_redacted suits lawful rfl rfl rightStorable rightSeals),
      same.shown_eq 0]
  | false =>
    by_cases sealed : ∃ attr ∈ left, policy.encrypt attr.1
    · rw [interned_refused lawful leftStorable leftSeals sealed small grown,
        interned_refused lawful rightStorable rightSeals (same.sealed_iff.mp sealed) small rightGrown]
    · rw [same.eq_of_clear sealed]

end

/-- Without that last condition the spelling of a public name gives away a name in a sealed value. -/
example :
    let policy : Sealing := ⟨fun name => name = ascii "ClaimId", clearSealer⟩
    let written := fun secret : Text =>
      encodeWithHotEnc foldASCII (fun _ => false) (some policy) [(ascii "ClaimId", .reference secret noScope),
        (ascii "Foo", .integer 1)] []
    let read := fun secret : Text => decodeResolveEnc (written secret).2 none true (written secret).1
    read (ascii "foo") = .ok [(ascii "ClaimId", .undefined), (ascii "foo", .integer 1)] ∧
      read (ascii "bar") = .ok [(ascii "ClaimId", .undefined), (ascii "Foo", .integer 1)] :=
  ⟨rfl, rfl⟩

end Hiding

end Classad.WireSealing
