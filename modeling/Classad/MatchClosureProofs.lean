import Classad.MatchClosure
import Classad.PartialDecodeProofs
import Classad.WireProofs

/-! What the encoder promises of a flagged hot header: it brings everything that the match roots
lead to in the slot. -/
namespace Classad.MatchClosureProofs
open Syntax TreeWalk PartialDecode PartialDecodeProofs Wire WireProofs MatchClosure
open TreeWalkSimulation (bound_mem)
open Option
open List

/-! ## The encoder's promise -/

section
variable {host : Host} {table : InternTable host} {opening : Opening} {attributes : Attributes}

theorem entryOf_decoded (opening : Opening) (encoded : entryOf table attr = some entry) :
    ∃ stored, (KeyMode.interned table.dictionary).spelling entry.1 = some stored ∧
    host.toLower stored = host.toLower attr.1 ∧
      decodeNode opening entry.2 = some attr.2 := by
  obtain ⟨number, looked, rfl⟩ := map_eq_some_iff.mp encoded
  obtain ⟨stored, named, same⟩ := dictionary_lookup_some (intern_recognizes) looked
  exact ⟨stored, named, same, rfl⟩

/-- Decoding the entries of an ad gives back its bindings. -/
theorem encoded_bound (encoded : attributes.mapM (entryOf table) = some entries)
    (decoded : decodeEntries (.interned table.dictionary) opening entries = some full) (norm : String) :
    bound host norm full = bound host norm attributes := by
  induction attributes generalizing entries full with
  | nil =>
    cases encoded
    cases decoded
    rfl
  | cons attr rest ih =>
    simp only [mapM_cons, Option.pure_def, Option.bind_eq_bind, Option.bind_eq_some_iff, Option.some.injEq] at encoded
    obtain ⟨entry, first, others, later, rfl⟩ := encoded
    simp only [decodeEntries, Option.bind_eq_bind, Option.bind_eq_some_iff, Option.some.injEq] at decoded
    obtain ⟨name, spelled, expr, opened, decodedRest, remaining, rfl⟩ := decoded
    obtain ⟨stored, spelled', same, opened'⟩ := entryOf_decoded opening first
    cases spelled.symm.trans spelled'
    cases opened.symm.trans opened'
    simp only [bound, normalizeName, ih later remaining, same]
    rfl

theorem mapM_getElem? {items : List α} (mapped : items.mapM f = some images)
    {i : Nat} (found : items[i]? = some item) : ∃ image, images[i]? = some image ∧ f item = some image := by
  induction items generalizing images i with
  | nil => cases found
  | cons head rest ih =>
    simp only [mapM_cons, Option.pure_def, Option.bind_eq_bind, Option.bind_eq_some_iff, Option.some.injEq] at mapped
    obtain ⟨image, first, others, later, rfl⟩ := mapped
    cases i with
    | zero =>
      cases found
      exact ⟨image, rfl, first⟩
    | succ i => exact ih later found

/-- A hot header brings every attribute of the hot set. -/
theorem hotPresent_of_mem (encoded : attributes.mapM (entryOf table) = some entries) {name : String}
    (member : (name, expr) ∈ attributes) (wanted : host.toLower name ∈ hot) :
    host.toLower name ∈ hotPresent table opening ⟨entries, hotPositions host hot attributes⟩ := by
  obtain ⟨i, found⟩ := mem_iff_getElem?.mp member
  obtain ⟨entry, held, image⟩ := mapM_getElem? encoded found
  obtain ⟨stored, spelled, same, opened⟩ := entryOf_decoded opening image
  have position : i ∈ hotPositions host hot attributes := by
    refine mem_filterMap.mpr ⟨((name, expr), i), mem_zipIdx_iff_getElem?.mpr found, if_pos wanted⟩
  refine mem_map.mpr ⟨(stored, expr), mem_filterMap.mpr ⟨entry, ?_, ?_⟩, same⟩
  · exact mem_filterMap.mpr ⟨i, position, held⟩
  · simp [spelled, opened]

/-- The header of a slot that was flagged when it was encoded brings everything that the match roots
lead to in the decoded slot. -/
theorem flagged_header_holds_closure {norm : String}
    (encoded : encodeSlot table base roots attributes = some slot) (flagged : slot.closureComplete = true)
    (decoded : decodeWire (.interned table.dictionary) opening slot.ad = some full)
    (reached : Decoded host full roots norm) (found : bound host norm full = some expr) :
    norm ∈ hotPresent table opening slot.ad := by
  obtain ⟨entries, mapped, rfl⟩ := map_eq_some_iff.mp encoded
  have bindings := encoded_bound mapped decoded
  have graphs : wireGraph host full = wireGraph host attributes := by
    simp only [wireGraph, Worklist.Graph.mk.injEq, true_and, and_true]
    exact funext bindings
  rw [bindings] at found
  obtain ⟨name, rfl, member⟩ := bound_mem found
  refine hotPresent_of_mem mapped member ?_
  have inside : host.toLower name ∈ (astClosure host attributes roots).1 := by
    have reached' : Decoded host attributes roots (host.toLower name) := by
      unfold Decoded at reached ⊢
      rwa [graphs] at reached
    have kept := (partialDecode_bound host attributes roots).1 reached'
    rw [found] at kept
    obtain ⟨other, same, held⟩ := bound_mem kept
    exact mem_map.mpr ⟨(other, expr), held, same⟩
  have promised : (hotSetForEncode host base roots attributes).2 = true := flagged
  unfold hotSetForEncode at promised ⊢
  split at promised
  · cases promised
  next some =>
    rw [if_neg some]
    exact mem_append_right _ inside

end

def sampleTable : InternTable (asciiHost 0) := ⟨["Requirements", "Start", "Memory", "Disk"], by decide⟩

def sampleFull : Attributes :=
  [("Requirements", .binary .and (.reference "Start" .none)
    (.binary .equal (.reference "Owner" .target) (.string "ann"))),
    ("Start", .binary .greater (.reference "Memory" .none) (.integer 512)), ("Memory", .integer 1024),
      ("Disk", .integer 7)]

theorem flagged_header_on_sample : ∃ slot, encodeSlot sampleTable [] ["Requirements"] sampleFull = some slot ∧
    "requirements" ∈ hotPresent sampleTable .keyed slot.ad := by
  have encoded : encodeSlot sampleTable [] ["Requirements"] sampleFull = _ := rfl
  exact ⟨_, encoded, flagged_header_holds_closure encoded rfl rfl (.seed (mem_cons_self (a := "Requirements"))) rfl⟩

end Classad.MatchClosureProofs
