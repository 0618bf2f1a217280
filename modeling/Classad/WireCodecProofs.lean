import Classad.WireNodeProofs

/-! Decoding an ad undoes encoding it, with every encoder of the format. An inline ad comes back
with its hot attributes in front, and an interned one with its names in the spelling the table
first met them under; sealed values come back with the key. -/
namespace Classad.WireCodecProofs
open Ast ByteParser TableWriter WireCodec WireNodeProofs List Option

/-- What is sealed opens to what it was. -/
structure Lawful (sealer : Sealer) : Prop where
  opens_sealed : ∀ {call plain nonce ciphertext}, sealer.seals call plain = some (nonce, ciphertext) →
    sealer.opens nonce ciphertext = some plain
  short : ∀ {call plain nonce ciphertext}, sealer.seals call plain = some (nonce, ciphertext) →
    Short nonce ∧ Short ciphertext

section Entries
variable {e : Encoder} {d : Decoder} {final : List Text}

theorem within_reads (read : Reads p bytes value) :
    Reads (within p bytes) [] value := by
  intro rest
  have alone := read []
  rw [append_nil] at alone
  rw [within, alone]
  rfl

variable {left : Nat}

/-- The framing of a sealed node; what becomes of it is up to the decoder. -/
theorem encrypted_reads (short : Short nonce ∧ Short ciphertext)
    (opened : Reads (match d.opener with
      | none => d.unopened .sealed
      | some sealer => match sealer.opens nonce ciphertext with
        | none => d.unopened .decrypting
        | some plain => within (d.node left) plain) [] value) :
    Reads (d.node (left + 1)) (Tag.encrypted.byte :: (lengthPrefixed nonce ++ lengthPrefixed ciphertext)) value := by
  refine (byteAt_reads).bind ?_
  exact (readString_reads short.1).bind ((readString_reads short.2).finish opened)

theorem encNode_grows (suits : Suits d e final) (sized : Sized value) (names : List Text) :
    names <+: ((e.encNode sealer call value).run names).2 := by
  have grows := ((reads_nodes suits _).1 value le_rfl sized).grows
  rw [Encoder.encNode]
  dsimp only
  split
  · exact (grows names).trans (grows _)
  · exact grows names

/-- A sealed value is read back with the key, and so is one whose sealing failed. -/
theorem encNode_roundTrips (suits : Suits d e final) (lawful : Lawful sealer) (keyed : d.opener = some sealer)
    (deep : levels value + 1 ≤ left) (sized : Sized value) :
    RoundTrips final (e.encNode sealer call value) (d.node left) (respelled (spelling e final) value) := by
  refine ⟨encNode_grows suits sized, fun names grown => ?_⟩
  obtain ⟨fewer, rfl⟩ : ∃ fewer, left = fewer + 1 := ⟨left - 1, by omega⟩
  have inClear := (reads_nodes suits (fewer + 1)).1 value (by omega) sized
  have inside := (reads_nodes suits fewer).1 value (by omega) sized
  rw [Encoder.encNode] at grown ⊢
  dsimp only at grown ⊢
  cases sealed : sealer.seals call ((e.node value).run names).1 with
  | none =>
    rw [sealed] at grown
    exact inClear.reads _ grown
  | some pair =>
    rw [sealed] at grown
    apply encrypted_reads (lawful.short sealed)
    rw [keyed]
    simp only [lawful.opens_sealed sealed]
    exact within_reads (inside.reads names grown)

/-- The entries of an ad without its hot pairs. -/
def sealedEntries (e : Encoder) (sealing : Option Sealing) : ClassAd → Nat → Writer Text
  | [], _ => .literal []
  | (name, value) :: rest, call =>
    e.entry sealing call name value ++ sealedEntries e sealing rest (nextCall sealing call name)

theorem internedEntries_run (sealing : Option Sealing) (hot : Nat → Bool) (ad : ClassAd) (offset call : Nat)
    (names : List Text) :
    (internedEntries e sealing hot ad offset call names).1 = ((sealedEntries e sealing ad call).run names).1 ∧
      (internedEntries e sealing hot ad offset call names).2.2 = ((sealedEntries e sealing ad call).run names).2 := by
  induction ad generalizing offset call names with
  | nil => exact ⟨rfl, rfl⟩
  | cons attr rest ih => simp [internedEntries, sealedEntries, ih]

variable {sealing : Option Sealing}

variable (ad : ClassAd)

/-- Hot pairs hold 32-bit numbers, and there are no more of them than attributes. -/
theorem internedEntries_hots (offset call : Nat) (names : List Text) :
    (internedEntries e sealing hot ad offset call names).2.1.length ≤ ad.length ∧
      ∀ pair ∈ (internedEntries e sealing hot ad offset call names).2.1, pair.1 < 2 ^ 32 ∧ pair.2 < 2 ^ 32 := by
  induction ad generalizing offset call names with
  | nil => simp [internedEntries]
  | cons attr rest ih =>
    obtain ⟨fewer, small⟩ := ih (offset + ((e.entry sealing call attr.1 attr.2).run names).1.length)
      (nextCall sealing call attr.1) ((e.entry sealing call attr.1 attr.2).run names).2
    simp only [internedEntries, length_cons]
    split
    · refine ⟨by simpa using fewer, fun pair member => ?_⟩
      obtain rfl | member := mem_cons.mp member
      · exact ⟨Nat.mod_lt _ (by decide), Nat.mod_lt _ (by decide)⟩
      · exact small pair member
    · exact ⟨Nat.le_succ_of_le fewer, small⟩

theorem hotEntries_hots (offset : Nat) :
    (hotEntries ad offset).2.length ≤ ad.length ∧ ∀ pair ∈ (hotEntries ad offset).2, pair.1 < 2 ^ 32 ∧
    pair.2 < 2 ^ 32 := by
  induction ad generalizing offset with
  | nil => simp [hotEntries]
  | cons attr rest ih =>
    obtain ⟨fewer, small⟩ := ih (offset + ((inlineEncoder.entry none 0 attr.1 attr.2).run []).1.length)
    simp only [hotEntries, length_cons]
    refine ⟨by simpa using fewer, fun pair member => ?_⟩
    obtain rfl | member := mem_cons.mp member
    · exact ⟨UInt32.toNat_lt _, Nat.mod_lt _ (by decide)⟩
    · exact small pair member

/-- The ad a decoder shows: names as they are spelled, and values as the decoder leaves them,
which may depend on how many were sealed before. -/
def shown (spell : Text → Text) (visible : Nat → Text → Expr → Expr) (sealing : Option Sealing) :
    ClassAd → Nat → ClassAd
  | [], _ => []
  | (name, value) :: rest, call =>
    (spell name, visible call name value) :: shown spell visible sealing rest (nextCall sealing call name)

theorem shown_respelled (ad : ClassAd) :
    shown spell (fun _ _ => respelled spell) sealing ad call = respelledAd spell ad := by
  induction ad generalizing call with
  | nil => rfl
  | cons attr rest ih => rw [shown, respelledAd, ih]

variable {visible : Nat → Text → Expr → Expr}

theorem sealedEntries_roundTrips (call : Nat)
    (each : ∀ call, ∀ attr ∈ ad, RoundTrips final (e.entry sealing call attr.1 attr.2) (d.attribute (d.node left))
      (spelling e final attr.1, visible call attr.1 attr.2)) :
    RoundTrips final (sealedEntries e sealing ad call) (many (d.attribute (d.node left)) ad.length)
      (shown (spelling e final) visible sealing ad call) := by
  induction ad generalizing call with
  | nil => exact .literal (many_reads_nil _)
  | cons attr rest ih =>
    apply RoundTrips.many_cons (each call attr (.head _))
    exact ih _ fun call attr member => each call attr (.tail _ member)

theorem coldEntries_reads (call : Nat)
    (each : ∀ call, ∀ attr ∈ ad, Reads (d.attribute (d.node left))
      ((inlineEncoder.entry sealing call attr.1 attr.2).run []).1
      (attr.1, visible call attr.1 attr.2)) :
    Reads (many (d.attribute (d.node left)) ad.length) (coldEntries sealing ad call)
      (shown (fun name => name) visible sealing ad call) := by
  induction ad generalizing call with
  | nil => exact many_reads_nil _
  | cons attr rest ih =>
    apply many_reads_cons (each call attr (.head _))
    exact ih _ fun call attr member => each call attr (.tail _ member)

/-- The hot region is written like the rest of an ad none of whose values is sealed. -/
theorem hotEntries_cold (offset : Nat) : (hotEntries ad offset).1 = coldEntries none ad 0 := by
  induction ad generalizing offset with
  | nil => rfl
  | cons attr rest ih =>
    rw [hotEntries, coldEntries, nextCall]
    simp [ih, sealerFor]

theorem hotHeader_reads {hots : List (Nat × Nat)} (small : ∀ pair ∈ hots, pair.1 < 2 ^ 32 ∧ pair.2 < 2 ^ 32) :
    Reads (many hotPair hots.length) (hots.flatMap fun (key, offset) => uvarint key ++ uvarint offset)
    (hots.map fun _ => ()) := by
  induction hots with
  | nil => exact many_reads_nil _
  | cons pair rest ih =>
    obtain ⟨key, offset⟩ := small pair (.head _)
    refine many_reads_cons ?_ (ih fun pair member => small pair (.tail _ member))
    exact (readNumber_reads (by omega)).bind ((readNumber_reads (by omega)).map _)

/-- The parts of an ad after the header, from a decoder that reads the entries. -/
theorem adBody_reads {hots : List (Nat × Nat)} {count : Nat} {ad : ClassAd}
    (pairs : hots.length ≤ count ∧ ∀ pair ∈ hots, pair.1 < 2 ^ 32 ∧ pair.2 < 2 ^ 32) (few : count ≤ sliceLimit 8)
    (read : Reads (many (d.attribute (d.node left)) count) entries ad) :
    Reads (d.adBody (left + 1)) (hotHeader hots ++ (uvarint count ++ entries)) ad := by
  have small := sliceLimit_lt 8
  rw [hotHeader, append_assoc]
  refine (readNumber_reads (by omega)).bind ?_
  refine (hotHeader_reads pairs.2).bind ?_
  refine (readNumber_reads (by omega)).bind ?_
  exact (makeSlice_reads few).bind read

end Entries

section Ads

/-- An ad a store can hold: no slice in it is longer than the runtime makes them, and no value
is nested deeper than the decoder goes. Sealing a value takes a level of its own. -/
structure Storable (sealing : Option Sealing) (ad : ClassAd) : Prop where
  few : ad.length ≤ sliceLimit 8
  sized : ∀ attr ∈ ad, Short attr.1 ∧ Sized attr.2
  nested : ∀ attr ∈ ad, levels attr.2 + (if (sealerFor sealing attr.1).isSome then 1 else 0) ≤ maxDepth

theorem Storable.unsealed (storable : Storable sealing ad) : Storable none ad :=
  ⟨storable.few, storable.sized, fun attr member => by
    have deep := storable.nested attr member
    simp only [sealerFor, filter_none, map_none, isSome_none, Bool.false_eq_true, ↓reduceIte]
    omega⟩

theorem result_of_reads {value : α} (read : Reads p bytes value) :
    result p bytes = .ok value := by
  have alone := read []
  rw [append_nil] at alone
  rw [result, alone]
  rfl

theorem result_header (f : UInt8 → Decodes α) (flags : UInt8) (rest : Bytes) :
    result (headerFlags >>= f) ([magicByte, formatVer, flags] ++ rest) = result (f flags) rest := rfl

/-- The key the decoder holds is the one the values were sealed with. -/
def Keyed (sealing : Option Sealing) (opener : Option Sealer) : Prop :=
  ∀ policy ∈ sealing, Lawful policy.sealer ∧ opener = some policy.sealer

theorem keyed_none : Keyed none opener :=
  fun policy given => absurd given (not_mem_none policy)

theorem sealerFor_some (sealed : sealerFor sealing name = some sealer) :
    ∃ policy ∈ sealing, policy.encrypt name ∧ sealer = policy.sealer := by
  obtain ⟨policy, filtered, rfl⟩ := map_eq_some_iff.mp sealed
  obtain ⟨given, encrypts⟩ := filter_eq_some_iff.mp filtered
  exact ⟨policy, given, encrypts, rfl⟩

theorem entry_roundTrips
    (suits : Suits d e final) (keyed : Keyed sealing d.opener) (storable : Storable sealing ad) (call : Nat)
    (attr : Text × Expr)
    (member : attr ∈ ad) :
    RoundTrips final (e.entry sealing call attr.1 attr.2) (d.attribute (d.node maxDepth))
      (spelling e final attr.1, respelled (spelling e final) attr.2) := by
  obtain ⟨short, sized⟩ := storable.sized attr member
  have deep := storable.nested attr member
  have key := putKey_roundTrips suits short
  rw [Encoder.entry]
  cases sealed : sealerFor sealing attr.1 with
  | none =>
    refine key.seq ?_
    exact ((reads_nodes suits _).1 attr.2 (by omega) sized).map _
  | some sealer =>
    obtain ⟨policy, given, -, rfl⟩ := sealerFor_some sealed
    obtain ⟨lawful, holds⟩ := keyed policy given
    simp only [sealed, isSome_some, ↓reduceIte] at deep
    refine key.seq ?_
    exact (encNode_roundTrips suits lawful holds deep sized).map _

variable {toLower : Text → Text} {ad : ClassAd} {names final : List Text} {sealing : Option Sealing}
  {opener : Option Sealer}
variable {visible : Nat → Text → Expr → Expr}

/-- What the entries of an interned ad come to is what decoding the ad comes to. -/
theorem decodeResolveEnc_reads {redact : Bool} {read : ClassAd} (few : ad.length ≤ sliceLimit 8)
    (grown : (encodeWithHotEnc toLower hot sealing ad names).2 <+: final)
    (reads : ((sealedEntries ⟨toLower, false⟩ sealing ad 0).run names).2 <+: final →
      Reads (many ((tableDecoder final opener redact).attribute ((tableDecoder final opener redact).node maxDepth))
        ad.length)
        ((sealedEntries ⟨toLower, false⟩ sealing ad 0).run names).1 read) :
    decodeResolveEnc final opener redact (encodeWithHotEnc toLower hot sealing ad names).1 = .ok read := by
  have run := internedEntries_run (e := ⟨toLower, false⟩) sealing hot ad 0 0 names
  rw [encodeWithHotEnc] at grown ⊢
  simp only [run.1, run.2, append_assoc] at grown ⊢
  exact result_of_reads (adBody_reads (internedEntries_hots ad 0 0 names) few (reads grown))

/-- The attributes of an inline ad, hot ones first. -/
def hotFirst (sealing : Option Sealing) (hot : Text → Bool) (ad : ClassAd) : ClassAd :=
  (ad.filter fun attr => isHot sealing hot attr.1) ++ ad.filter fun attr => !isHot sealing hot attr.1

theorem inline_suits : Suits (inlineDecoder opener redact) inlineEncoder final :=
  ⟨rfl, nofun, nofun⟩

/-- An attribute that is not sealed is read back by every decoder. -/
theorem inlineEntry_reads (storable : Storable none ad) (opener : Option Sealer) (redact : Bool) (call : Nat)
    (attr : Text × Expr) (member : attr ∈ ad) :
    Reads ((inlineDecoder opener redact).attribute ((inlineDecoder opener redact).node maxDepth))
      ((inlineEncoder.entry none call attr.1 attr.2).run []).1 (attr.1, respelled (fun name => name) attr.2) :=
  (entry_roundTrips inline_suits keyed_none storable call attr member).reads [] prefix_rfl

theorem Storable.filter (storable : Storable sealing ad) (p : Text × Expr → Bool) :
    Storable sealing (ad.filter p) :=
  ⟨(length_filter_le p ad).trans storable.few, fun attr member => storable.sized attr (mem_of_mem_filter member),
    fun attr member => storable.nested attr (mem_of_mem_filter member)⟩

theorem filter_length_add (ad : ClassAd) (p : Text × Expr → Bool) :
    (ad.filter p).length + (ad.filter fun attr => !p attr).length = ad.length := by
  induction ad with
  | nil => rfl
  | cons attr rest ih =>
    rw [filter_cons, filter_cons]
    cases p attr <;> simp <;> omega

theorem hotRegion_reads (storable : Storable sealing ad) (opener : Option Sealer) (redact : Bool)
    (hot : Text → Bool) :
    Reads (many ((inlineDecoder opener redact).attribute ((inlineDecoder opener redact).node maxDepth))
        (ad.filter fun attr => isHot sealing hot attr.1).length)
      (coldEntries none (ad.filter fun attr => isHot sealing hot attr.1) 0)
      (respelledAd (fun name => name) (ad.filter fun attr => isHot sealing hot attr.1)) := by
  rw [← shown_respelled _]
  exact coldEntries_reads _ 0 (inlineEntry_reads (storable.unsealed.filter _) opener redact)

/-- What the cold entries of an inline ad come to, after the hot ones, is what decoding the ad
comes to. -/
theorem decodeInlineEnc_shown {redact : Bool}
    (storable : Storable sealing ad)
    (each : ∀ call, ∀ attr ∈ ad.filter (fun attr => !isHot sealing hot attr.1),
      Reads ((inlineDecoder opener redact).attribute ((inlineDecoder opener redact).node maxDepth))
        ((inlineEncoder.entry sealing call attr.1 attr.2).run []).1 (attr.1, visible call attr.1 attr.2)) :
    decodeInlineEnc opener redact (encodeInlineWithHotEnc hot sealing ad) =
      .ok (respelledAd (fun name => name) (ad.filter fun attr => isHot sealing hot attr.1) ++
        shown (fun name => name) visible sealing (ad.filter fun attr => !isHot sealing hot attr.1) 0) := by
  have entries := many_reads_append (hotRegion_reads storable opener redact hot) (coldEntries_reads _ 0 each)
  rw [filter_length_add] at entries
  have pairs := hotEntries_hots (ad.filter fun attr => isHot sealing hot attr.1) 0
  have fewer := length_filter_le (fun attr => isHot sealing hot attr.1) ad
  rw [encodeInlineWithHotEnc]
  simp only [hotEntries_cold, append_assoc]
  exact result_of_reads (adBody_reads ⟨pairs.1.trans fewer, pairs.2⟩ storable.few entries)

theorem respelledAd_append (spell : Text → Text) (front back : ClassAd) :
    respelledAd spell (front ++ back) = respelledAd spell front ++ respelledAd spell back := by
  induction front with
  | nil => rfl
  | cons attr rest ih => rw [cons_append, respelledAd, respelledAd, ih, cons_append]

theorem sizedAd_iff {ad : ClassAd} : SizedAd ad ↔ ∀ attr ∈ ad, Short attr.1 ∧ Sized attr.2 := by
  induction ad with
  | nil => simp [SizedAd]
  | cons attr rest ih => rw [SizedAd, ih, forall_mem_cons, and_assoc]

theorem levelsAd_le (nested : ∀ attr ∈ ad, levels attr.2 ≤ bound) : levelsAd ad ≤ bound := by
  induction ad with
  | nil => exact Nat.zero_le _
  | cons attr rest ih =>
    rw [forall_mem_cons] at nested
    exact max_le nested.1 (ih nested.2)

/-- An ad with no sealed attribute, in the format that has neither hot pairs nor inline names. -/
theorem adBody_roundTrips (suits : Suits d e final)
    (storable : Storable none ad) :
    RoundTrips final (e.adBody ad) (d.adBody (maxDepth + 1)) (respelledAd (spelling e final) ad) := by
  apply (reads_nodes suits _).2 ad ?_ storable.few ((sizedAd_iff).mpr storable.sized)
  exact Nat.succ_le_succ (levelsAd_le fun attr member => storable.nested attr member)

theorem table_suits
    (small : final.length ≤ 2 ^ 32) : Suits (tableDecoder final opener redact) ⟨toLower, false⟩ final :=
  ⟨rfl, fun _ => rfl, fun _ => small⟩

theorem decode_encode (storable : Storable none ad)
    (grown : (encode toLower ad names).2 <+: final) (small : final.length ≤ 2 ^ 32) :
    decode (some final) (encode toLower ad names).1 = .ok (respelledAd (canonical toLower final) ad) := by
  exact result_of_reads ((adBody_roundTrips (table_suits small) storable).reads names grown)

theorem decodeResolveEnc_encodeWithHotEnc
    (storable : Storable sealing ad) (keyed : Keyed sealing opener)
    (grown : (encodeWithHotEnc toLower hot sealing ad names).2 <+: final) (small : final.length ≤ 2 ^ 32) :
    decodeResolveEnc final opener redact (encodeWithHotEnc toLower hot sealing ad names).1 =
      .ok (respelledAd (canonical toLower final) ad) := by
  have suits : Suits (tableDecoder final opener redact) ⟨toLower, false⟩ final := table_suits small
  rw [← shown_respelled ad]
  exact decodeResolveEnc_reads storable.few grown
    ((sealedEntries_roundTrips ad 0 (entry_roundTrips suits keyed storable)).reads names)

theorem decodeInlineEnc_encodeInlineWithHotEnc
    (storable : Storable sealing ad) (keyed : Keyed sealing opener) :
    decodeInlineEnc opener redact (encodeInlineWithHotEnc hot sealing ad) =
      .ok (respelledAd (fun name => name) (hotFirst sealing hot ad)) := by
  rw [hotFirst, respelledAd_append, ← shown_respelled (ad.filter fun attr => !isHot sealing hot attr.1)]
  refine decodeInlineEnc_shown storable fun call attr member => ?_
  exact (entry_roundTrips inline_suits keyed (storable.filter _) call attr member).reads [] prefix_rfl

theorem names_reads (short : ∀ name ∈ names, Short name) :
    Reads (many readString names.length) (names.flatMap lengthPrefixed) names := by
  induction names with
  | nil => exact many_reads_nil _
  | cons name rest ih =>
    rw [forall_mem_cons] at short
    exact many_reads_cons (readString_reads short.1) (ih short.2)

/-- The table an ad is written with when it has one of its own. -/
def ownTable (toLower : Text → Text) (ad : ClassAd) : List Text := internAll toLower (namesOfAd ad) []

theorem decodeStandalone_encodeStandalone (storable : Storable none ad)
    (few : (namesOfAd ad).length ≤ 2 ^ 32) :
    decodeStandalone (encodeStandalone toLower ad) =
      .ok (respelledAd (canonical toLower (ownTable toLower ad)) ad) := by
  have sized := (sizedAd_iff).mpr storable.sized
  have table : ((Encoder.adBody ⟨toLower, false⟩ ad).run []).2 = ownTable toLower ad := entries_table []
  have small : (ownTable toLower ad).length ≤ 2 ^ 32 := (internAll_length _ _).trans (by simpa using few)
  have short : ∀ name ∈ ownTable toLower ad, Short name := fun name member =>
    namesOfAd_short sized name ((mem_internAll member).resolve_left (not_mem_nil))
  have slice : (2 : Nat) ^ 32 ≤ sliceLimit 16 := by decide
  have suits : Suits (tableDecoder (ownTable toLower ad) none false) ⟨toLower, false⟩ _ := table_suits small
  have read := (adBody_roundTrips suits storable).reads [] (by rw [table])
  rw [encodeStandalone]
  simp only [table, append_assoc]
  rw [decodeStandalone, result_header]
  apply result_of_reads
  refine (readNumber_reads (by omega)).bind ?_
  refine (makeSlice_reads (small.trans slice)).bind ?_
  refine (names_reads short).bind ?_
  exact read

/-- `Decode` of an interned ad is what the decoder that takes keys does without one. -/
theorem decode_interned (rest : Bytes) :
    decode (some final) ([magicByte, formatVer, 0] ++ rest) =
      decodeResolveEnc final none false ([magicByte, formatVer, 0] ++ rest) :=
  rfl

theorem decode_inline (rest : Bytes) :
    decode table ([magicByte, formatVer, flagInlineNames] ++ rest) =
      decodeInlineEnc none false ([magicByte, formatVer, flagInlineNames] ++ rest) :=
  rfl

end Ads

section Encodings
variable {toLower : Text → Text} {sealing : Option Sealing} {opener : Option Sealer} {ad : ClassAd}

/-- Every encoding of an ad decodes to the ad: interned, with or without hot pairs and sealed
values, whatever the table has come to hold since; inline, its hot attributes first; and with a
table of its own. -/
theorem encodings_decode (storable : Storable sealing ad) (keyed : Keyed sealing opener) (hot : Nat → Bool)
    (hotNames : Text → Bool)
    (names : List Text) :
    (∀ final, (encode toLower ad names).2 <+: final → final.length ≤ 2 ^ 32 →
      decode (some final) (encode toLower ad names).1 = .ok (respelledAd (canonical toLower final) ad)) ∧
    (∀ final, (encodeWithHotEnc toLower hot sealing ad names).2 <+: final → final.length ≤ 2 ^ 32 →
      decodeResolveEnc final opener false (encodeWithHotEnc toLower hot sealing ad names).1 =
        .ok (respelledAd (canonical toLower final) ad)) ∧
    (∀ final, (encodeWithHotEnc toLower hot none ad names).2 <+: final → final.length ≤ 2 ^ 32 →
      decode (some final) (encodeWithHotEnc toLower hot none ad names).1 =
        .ok (respelledAd (canonical toLower final) ad)) ∧
    decodeInlineEnc opener false (encodeInlineWithHotEnc hotNames sealing ad) =
      .ok (respelledAd (fun name => name) (hotFirst sealing hotNames ad)) ∧
    decode none (encodeInlineWithHotEnc hotNames none ad) =
      .ok (respelledAd (fun name => name) (hotFirst none hotNames ad)) ∧
    ((namesOfAd ad).length ≤ 2 ^ 32 → decodeStandalone (encodeStandalone toLower ad) =
      .ok (respelledAd (canonical toLower (ownTable toLower ad)) ad)) := by
  have plain := storable.unsealed
  refine ⟨fun final => decode_encode plain, fun final => decodeResolveEnc_encodeWithHotEnc storable keyed,
    fun final grown small => ?_,
    decodeInlineEnc_encodeInlineWithHotEnc storable keyed, ?_, decodeStandalone_encodeStandalone plain⟩
  · rw [← decodeResolveEnc_encodeWithHotEnc plain keyed_none grown small]
    exact decode_interned _
  · rw [← decodeInlineEnc_encodeInlineWithHotEnc plain keyed_none]
    exact decode_inline _

/-- A sealer that hides nothing, for ads small enough to write down. -/
def clearSealer : Sealer where
  seals _ plain := if plain.length < 2 ^ 63 then some ([], plain) else none
  opens _ ciphertext := some ciphertext

theorem clearSealer_lawful : Lawful clearSealer := by
  have only : ∀ {call plain nonce ciphertext}, clearSealer.seals call plain = some (nonce, ciphertext) →
      plain.length < 2 ^ 63 ∧ nonce = [] ∧ ciphertext = plain := by
    intro call plain nonce ciphertext sealed
    simp only [clearSealer, ite_none_right_eq_some, some.injEq, Prod.mk.injEq] at sealed
    exact ⟨sealed.1, sealed.2.1.symm, sealed.2.2.symm⟩
  constructor
  · intro call plain nonce ciphertext sealed
    obtain ⟨-, -, rfl⟩ := only sealed
    rfl
  · intro call plain nonce ciphertext sealed
    obtain ⟨short, rfl, rfl⟩ := only sealed
    exact ⟨by simp [Short], short⟩

/-- The ad `[A = b; B = a]` with `A` sealed: both references come back as the table spells them. -/
theorem encodings_decode_small :
    let policy : Sealing := ⟨fun name => name = ascii "A", clearSealer⟩
    let ad : ClassAd := [(ascii "A", .reference (ascii "b") noScope), (ascii "B", .reference (ascii "a") noScope)]
    let written := encodeWithHotEnc foldASCII (fun _ => true) (some policy) ad []
    decodeResolveEnc written.2 (some clearSealer) false written.1 =
        .ok (respelledAd (canonical foldASCII written.2) ad) := by
  have storable : Storable (some ⟨fun name => name = ascii "A", clearSealer⟩)
      [(ascii "A", .reference (ascii "b") noScope), (ascii "B", .reference (ascii "a") noScope)] := by
    refine ⟨by decide, ?_, ?_⟩
    · simp [Short, Sized, ascii]
    · simp [levels, maxDepth, sealerFor, ascii]
  have keyed : Keyed (some ⟨fun name => name = ascii "A", clearSealer⟩) (some clearSealer) := by
    intro policy given
    obtain rfl := mem_some_iff.mp given
    exact ⟨clearSealer_lawful, rfl⟩
  exact (encodings_decode storable keyed (fun _ => true) (fun _ => true) []).2.1 _ prefix_rfl (by decide)

/-- With `b` in the hot set, `[a = 1; b = 2]` does not come back in its order. -/
theorem inline_order_changed :
    let ad : ClassAd := [(ascii "a", .integer 1), (ascii "b", .integer 2)]
    let read := decodeInlineEnc none false (encodeInlineWithHotEnc (fun name => name = ascii "b") none ad)
    read = .ok [(ascii "b", .integer 2), (ascii "a", .integer 1)] ∧ read ≠ .ok ad := by
  refine ⟨rfl, fun same => ?_⟩
  have order : [ascii "b", ascii "a"] = [ascii "a", ascii "b"] :=
    congrArg (fun found => (found.toOption.getD []).map Prod.fst) same
  exact absurd order (by decide)

end Encodings

end Classad.WireCodecProofs
