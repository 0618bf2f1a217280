import Classad.ShardSystem
import Classad.WireCodecProofs

/-! What a key reads as while its shard is compacted. A round writes every ad again, in a persistent
shard interned against the table of its new segment, so the ad comes back with its names in the casing
the table met first. Which record a key leads to, and all else of the ad, is left alone. -/
namespace Classad.ShardStore
open Arena Listing TableWriter WireCodec WireNodeProofs WireCodecProofs List
open Ast (ClassAd Expr Text ascii)
open ShardStore.System (initial)

/-! ## Encoding an ad again -/

section Casing

mutual

theorem respelled_twice (outer inner : Text → Text) :
    ∀ expr : Expr, respelled outer (respelled inner expr) = respelled (fun name => outer (inner name)) expr
  | .nil | .undefined | .error | .boolean _ | .integer _ | .real _ | .string _ | .reference _ _ => rfl
  | .binary _ left right | .elvis left right | .subscript left right => by
    simp only [respelled, respelled_twice outer inner left, respelled_twice outer inner right]
  | .unary _ operand | .paren operand | .select operand _ => by
    simp only [respelled, respelled_twice outer inner operand]
  | .conditional condition whenTrue whenFalse => by
    simp only [respelled, respelled_twice outer inner condition, respelled_twice outer inner whenTrue,
      respelled_twice outer inner whenFalse]
  | .list items | .call _ items => by simp only [respelled, respelledAll_twice outer inner items]
  | .record attributes => by simp only [respelled, respelledAd_twice outer inner attributes]

theorem respelledAll_twice (outer inner : Text → Text) :
    ∀ items : List Expr, respelledAll outer (respelledAll inner items) =
      respelledAll (fun name => outer (inner name)) items
  | [] => rfl
  | head :: rest => by simp only [respelledAll, respelled_twice outer inner head, respelledAll_twice outer inner rest]

theorem respelledAd_twice (outer inner : Text → Text) :
    ∀ ad : ClassAd, respelledAd outer (respelledAd inner ad) = respelledAd (fun name => outer (inner name)) ad
  | [] => rfl
  | (_, value) :: rest => by
    simp only [respelledAd, respelled_twice outer inner value, respelledAd_twice outer inner rest]

end

theorem respelledAd_perm {ad back : ClassAd} (spell : Text → Text) (same : ad.Perm back) :
    (respelledAd spell ad).Perm (respelledAd spell back) := by
  have mapped (ad : ClassAd) : respelledAd spell ad = ad.map fun attr => (spell attr.1, respelled spell attr.2) := by
    induction ad with
    | nil => rfl
    | cons attr rest ih => rw [respelledAd, ih, map_cons]
  rw [mapped, mapped]
  exact same.map _

/-- The second ad is the first, up to the order of its attributes and the casing of its names. -/
def SameAd (toLower : Text → Text) (ad back : ClassAd) : Prop :=
  ∃ spell : Text → Text, (∀ name, toLower (spell name) = toLower name) ∧ back.Perm (respelledAd spell ad)

theorem SameAd.trans (first : SameAd toLower ad back) (second : SameAd toLower back again) :
    SameAd toLower ad again := by
  obtain ⟨spell, folds, same⟩ := first
  obtain ⟨spell', folds', same'⟩ := second
  refine ⟨fun name => spell' (spell name), fun name => (folds' _).trans (folds name), ?_⟩
  rw [← respelledAd_twice]
  exact same'.trans (respelledAd_perm spell' same)

end Casing

section Encodings
variable {toLower : Text → Text}

/-- What a stored encoding of an ad decodes to: interned against a table that may have grown since, or
inline. -/
inductive Encodes (toLower : Text → Text) (ad : ClassAd) : ClassAd → Prop where
  | interned (hot : Nat → Bool) (names final : List Text) (storable : Storable sealing ad)
    (keyed : Keyed sealing opener)
    (grown : (encodeWithHotEnc toLower hot sealing ad names).2 <+: final) (small : final.length ≤ 2 ^ 32)
    (decoded : decodeResolveEnc final opener false (encodeWithHotEnc toLower hot sealing ad names).1 = .ok back) :
    Encodes toLower ad back
  | inline (hot : Text → Bool) (storable : Storable sealing ad) (keyed : Keyed sealing opener)
    (decoded : decodeInlineEnc opener false (encodeInlineWithHotEnc hot sealing ad) = .ok back) :
      Encodes toLower ad back

theorem canonical_folds (names : List Text) (name : Text) : toLower (canonical toLower names name) = toLower name := by
  unfold canonical
  cases found : names.find? (toLower · = toLower name) with
  | none => rfl
  | some met => simpa using find?_some found

/-- Encoding keeps an ad up to order and casing. -/
theorem Encodes.same (encodes : Encodes toLower ad back) : SameAd toLower ad back := by
  cases encodes with
  | interned hot names final storable keyed grown small decoded =>
    rw [decodeResolveEnc_encodeWithHotEnc storable keyed grown small] at decoded
    cases decoded
    exact ⟨canonical toLower final, canonical_folds final, .refl _⟩
  | inline hot storable keyed decoded =>
    rw [decodeInlineEnc_encodeInlineWithHotEnc storable keyed] at decoded
    cases decoded
    exact ⟨fun name => name, fun _ => rfl, respelledAd_perm _ (filter_append_perm _ ad)⟩

end Encodings

/-! ## Reading a shard -/

section Reading
variable {cfg : Config} {toLower : Text → Text} {decoded : Loc → ClassAd} {s : System ClassAd}

/-- `Get`: what the record under a key decodes to. -/
def Shard.getDecoded (cfg : Config) (decoded : Loc → ClassAd) (σ : Shard ClassAd) (key : Key) : Option ClassAd :=
  (σ.locate cfg key).map decoded

/-- What the encoders make of a run. A record that is new after a step is an encoding of the ad it is
for, or a copy of a record for that ad, as it was or encoded again. No location is written twice. -/
def Recodes (cfg : Config) (toLower : Text → Text) (decoded : Loc → ClassAd) : System ClassAd → List (Op ClassAd) → Prop
  | _, [] => True
  | s, op :: rest =>
    (∀ l r key ad, s.shard.pinnedAt l = none → (s.step cfg op).shard.pinnedAt l = some r → r.body = .ad key ad →
      Encodes toLower ad (decoded l) ∨ ∃ l₀ r₀, s.shard.pinnedAt l₀ = some r₀ ∧ r₀.body = r.body ∧
        (decoded l = decoded l₀ ∨ Encodes toLower (decoded l₀) (decoded l))) ∧
    Recodes cfg toLower decoded (s.step cfg op) rest

/-- Every record decodes to the ad it is for. -/
def Spelled (toLower : Text → Text) (decoded : Loc → ClassAd) (σ : Shard ClassAd) : Prop :=
  ∀ l r key ad, σ.pinnedAt l = some r → r.body = .ad key ad → SameAd toLower ad (decoded l)

theorem Spelled.run (spelled : Spelled toLower decoded s.shard) (valid : s.Valid cfg) (ops : List (Op ClassAd))
    (recodes : Recodes cfg toLower decoded s ops) : Spelled toLower decoded (s.run cfg ops).shard := by
  induction ops generalizing s with
  | nil => exact spelled
  | cons op rest ih =>
    obtain ⟨valid', keeps, -⟩ := valid.step op
    refine ih (fun l r key ad here body => ?_) valid' recodes.2
    cases before : s.shard.pinnedAt l with
    | some r₀ =>
      obtain ⟨r', here', aged⟩ := keeps l r₀ before
      cases here.symm.trans here'
      exact spelled l r₀ key ad before (aged.body.symm.trans body)
    | none =>
      rcases recodes.1 l r key ad before here body with fresh | ⟨l₀, r₀, source, same, copied | again⟩
      · exact fresh.same
      · rw [copied]
        exact spelled l₀ r₀ key ad source (same.trans body)
      · exact (spelled l₀ r₀ key ad source (same.trans body)).trans again.same

/-- Readers of the present do not notice a compaction: after any interleaving of its phases with
writers each key has one current record at most, `Get` returns what was last put and not deleted, up to
the order of the attributes and the casing of the names, and the count is the number of keys. -/
theorem compaction_invisible (cfg : Config) (toLower : Text → Text) (decoded : Loc → ClassAd) (ops : List (Op ClassAd))
    (among : ∀ op ∈ ops, op.isWriteOrRound = true) (recodes : Recodes cfg toLower decoded initial ops) :
    let σ := ((initial : System ClassAd).run cfg ops).shard
    let contents := (initial : System ClassAd).contents cfg (fun _ => none) ops
    (∀ l l' key seq seq' ad ad', σ.IsCurrent l key seq ad → σ.IsCurrent l' key seq' ad' → l = l') ∧
      (∀ key, contents key = none → σ.getDecoded cfg decoded key = none) ∧
      (∀ key seq ad, contents key = some (seq, ad) → ∃ back, σ.getDecoded cfg decoded key = some back ∧
        SameAd toLower ad back) ∧
      ∃ pairs : List (Key × Nat × ClassAd), Lists pairs contents ∧ σ.count = pairs.length := by
  intro σ contents
  have unprobed : ∀ id, (initial : System ClassAd).shard.isProbed id = false := fun _ => rfl
  obtain ⟨allowed, after⟩ := allowedRun_of_unprobed (faithful_initial cfg) unprobed among
  have faithful := (faithful_initial cfg).run ops allowed
  have stored := faithful.stored
  have left : (initial : System ClassAd).history cfg (fun _ _ => none) ops σ.commitSeq = contents :=
    (faithful_initial cfg).contents ops allowed
  have held : Lists σ.currents contents := left ▸ stored.listed
  have empty : Spelled toLower decoded (initial : System ClassAd).shard := fun l r key ad here =>
    absurd here (by simp [Shard.pinnedAt, initial, Shard.empty])
  have spelled : Spelled toLower decoded σ := empty.run valid_initial ops recodes
  have missing {key} (nowhere : σ.locate cfg key = none) : contents key = none :=
    left ▸ stored.toSound.absent (locate_none stored.toLinked nowhere)
  have located {key l} (found : σ.locate cfg key = some l) :
      ∃ seq ad, contents key = some (seq, ad) ∧ SameAd toLower ad (decoded l) := by
    obtain ⟨r, found⟩ := locate_some stored.toLinked found
    obtain ⟨ad, r', here, body, current⟩ := found.isCurrent (admits_of_unprobed after)
    exact ⟨_, ad, (held.exact _ _).mp (mem_currents.mpr ⟨l, r', here, body, current⟩),
      spelled l r' key ad (pinnedAt_of_recordAt here) body⟩
  refine ⟨fun l l' key seq seq' ad ad' => stored.current_unique, fun key absent => ?_, fun key seq ad present => ?_,
    σ.currents, held, ?_⟩
  · cases found : σ.locate cfg key with
    | none => simp [Shard.getDecoded, found]
    | some l =>
      obtain ⟨seq, ad, is, -⟩ := located found
      cases absent.symm.trans is
  · cases found : σ.locate cfg key with
    | none => cases present.symm.trans (missing found)
    | some l =>
      obtain ⟨seq', ad', is, same⟩ := located found
      cases present.symm.trans is
      exact ⟨decoded l, by simp [Shard.getDecoded, found], same⟩
  · rw [stored.count]
    simp [Shard.tally, σ]

end Reading

/-- The ads `[Foo = 1]` and `[foo = 2]`, put and then compacted. -/
def recasedRun : List (Op ClassAd) :=
  [.commit [⟨[1], [(ascii "Foo", .integer 1)], 8, 0, true⟩, ⟨[2], [(ascii "foo", .integer 2)], 8, 0, true⟩],
    .beginRound, .copy ⟨8, 0, false, 8⟩, .copy ⟨8, 0, false, 8⟩, .install 8 8]

/-- Stored inline, the ads keep their names; in the new segment both have the first one's. -/
def recasedReads (l : Loc) : ClassAd :=
  if l.off = 0 then [(ascii "Foo", .integer 1)]
  else [(if l.seg = 0 then ascii "foo" else ascii "Foo", .integer 2)]

theorem storable_small {name : Text} (short : name.length < 2 ^ 63) (value : Int64) :
    Storable none [(name, .integer value)] := by
  refine ⟨by simp [sliceLimit], ?_, ?_⟩
  · simpa [Short, Sized] using short
  · simp [levels, maxDepth, sealerFor]

theorem encodes_inline {name : Text} (short : name.length < 2 ^ 63) (value : Int64) :
    Encodes foldASCII [(name, .integer value)] [(name, .integer value)] :=
  .inline (fun _ => false) (storable_small short value) (show Keyed none none from keyed_none)
    (decodeInlineEnc_encodeInlineWithHotEnc (storable_small short value) keyed_none)

theorem encodes_interned {name met : Text} (short : name.length < 2 ^ 63) (value : Int64)
    (known : (encodeWithHotEnc foldASCII (fun _ => false) none [(name, .integer value)] [met]).2 = [met])
    (spelled : canonical foldASCII [met] name = met) :
    Encodes foldASCII [(name, .integer value)] [(met, .integer value)] := by
  have storable := storable_small short value
  have keyed : Keyed none none := keyed_none
  have grown : (encodeWithHotEnc foldASCII (fun _ => false) none [(name, .integer value)] [met]).2 <+: [met] := by
    rw [known]
  refine .interned (fun _ => false) [met] [met] storable keyed grown (by simp) ?_
  rw [decodeResolveEnc_encodeWithHotEnc storable keyed grown (by simp), respelledAd, respelledAd, respelled, spelled]

/-- Passing records adds none to the shard. -/
theorem recodes_idle {s τ : System ClassAd} (same : τ.shard.segs = s.shard.segs) (before : s.shard.pinnedAt l = none)
    (after : τ.shard.pinnedAt l = some r) : False := by
  rw [Shard.pinnedAt, same, ← Shard.pinnedAt, before] at after
  cases after

theorem recasedRun_recodes : Recodes sampleConfig foldASCII recasedReads initial recasedRun := by
  refine ⟨?_, ?_, ?_, ?_, ?_, trivial⟩
  · rintro ⟨_ | _, _ | _ | _⟩ r key ad before after body
    · cases after
      cases body
      exact .inl (encodes_inline (by decide) 1)
    · cases after
      cases body
      exact .inl (encodes_inline (by decide) 2)
    all_goals cases after
  · exact fun l r key ad before after body => (recodes_idle rfl before after).elim
  · exact fun l r key ad before after body => (recodes_idle rfl before after).elim
  · exact fun l r key ad before after body => (recodes_idle rfl before after).elim
  · rintro ⟨_ | _ | _, _ | _ | _ | _⟩ r key ad before after body
    case succ.zero.zero =>
      cases after
      cases body
      exact .inr ⟨⟨0, 0⟩, _, rfl, rfl, .inr (encodes_interned (by decide) 1 (by decide +kernel) (by decide))⟩
    case succ.zero.succ.zero =>
      cases after
      cases body
      exact .inr ⟨⟨0, 1⟩, _, rfl, rfl, .inr (encodes_interned (by decide) 2 (by decide +kernel) (by decide))⟩
    all_goals first | (cases before; done) | (cases after; done) | (cases after; cases body)

theorem compaction_invisible_on_sample :
    let σ := ((initial : System ClassAd).run sampleConfig recasedRun).shard
    ∃ back, σ.getDecoded sampleConfig recasedReads [2] = some back ∧
      SameAd foldASCII [(ascii "foo", .integer 2)] back :=
  (compaction_invisible sampleConfig foldASCII recasedReads recasedRun (by decide) recasedRun_recodes).2.2.1 [2] 1 _ rfl

/-- The second ad was put with `foo` and is read with `Foo`, the first one's name. -/
theorem compaction_recases :
    let σ := ((initial : System ClassAd).run sampleConfig recasedRun).shard
    Recodes sampleConfig foldASCII recasedReads initial recasedRun ∧
      (initial : System ClassAd).contents sampleConfig (fun _ => none) recasedRun [2] =
        some (1, [(ascii "foo", .integer 2)]) ∧
      σ.getDecoded sampleConfig recasedReads [2] = some [(ascii "Foo", .integer 2)] ∧ ascii "foo" ≠ ascii "Foo" :=
  ⟨recasedRun_recodes, rfl, rfl, by decide⟩

end Classad.ShardStore
