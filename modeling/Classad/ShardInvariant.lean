import Classad.Listing
import Classad.SegmentCounters

/-! The invariant of a shard between two commits: the current records list the contents, every
chain is made of records of its bucket, and every current record is found through its chain or
through the sealed probe. It is stated for the records, the directory and the active segment,
and kept by puts and deletes at one sequence after the other. -/
namespace Classad.ShardStore
open Arena Chains Listing
open List hiding head Chain

variable {A : Type}

/-- The key, sequence and ad of a current record. -/
def Record.currentPair (r : Record A) : Option (Key × Nat × A) :=
  match r.body, r.superseded with
  | .ad key ad, none => some (key, r.seq, ad)
  | _, _ => none

/-- The key, sequence and ad of a record visible at a snapshot. -/
def Record.pairAt (s0 : Nat) (r : Record A) : Option (Key × Nat × A) :=
  match r.body with
  | .ad key ad => if r.visibleAt s0 then some (key, r.seq, ad) else none
  | _ => none

def Shard.currents (σ : Shard A) : List (Key × Nat × A) := σ.arena.flatten.filterMap Record.currentPair

def Shard.visibles (σ : Shard A) (s0 : Nat) : List (Key × Nat × A) := σ.arena.flatten.filterMap (Record.pairAt s0)

/-- What a shard holds under each key: the ad and the sequence of the put that stored it. -/
abbrev Contents (A : Type) := Key → Option (Nat × A)

/-- The current record of a key, at a location. -/
def Shard.IsCurrent (σ : Shard A) (l : Loc) (key : Key) (seq : Nat) (ad : A) : Prop :=
  ∃ r, σ.recordAt l = some r ∧ r.body = .ad key ad ∧ r.superseded = none ∧ r.seq = seq

variable (cfg : Config)

/-- The records of a bucket's chain. -/
def Shard.Bucket (σ : Shard A) (h : UInt64) (nodes : List Loc) : Prop :=
  Chain σ.links (σ.dir h) nodes ∧ nodes.Nodup ∧
    ∀ l ∈ nodes, ∃ r key ad, σ.recordAt l = some r ∧ r.body = .ad key ad ∧ cfg.hash key = h

/-- The active segment is one that the shard finds and that has no key index. -/
def Shard.Writable (σ : Shard A) : Prop :=
  ∀ id, σ.act = some id → ∃ seg, σ.segs[id]? = some seg ∧ seg.retired = false ∧ seg.keyIndexed = false

/-- The part of the invariant that no key and no eviction can break. -/
structure Linked (σ : Shard A) : Prop where
  chained : ∀ h, ∃ nodes, σ.Bucket cfg h nodes
  writable : σ.Writable

/-- An ad and its supersession are from a sequence up to a bound. -/
def Record.StampedBy (bound : Nat) (r : Record A) : Prop :=
  r.isMarker = false → r.seq ≤ bound ∧ ∀ x, r.superseded = some x → x ≤ bound

theorem Record.StampedBy.mono {r : Record A} (stamped : r.StampedBy bound) (later : bound ≤ high) : r.StampedBy high :=
  fun keyed => ⟨Nat.le_trans (stamped keyed).1 later, fun x sup => Nat.le_trans ((stamped keyed).2 x sup) later⟩

/-- What holds of a shard between writes: `contents` is what it holds, and `bound` the last
sequence a record or a supersession is stamped with. -/
structure Sound (σ : Shard A) (bound : Nat) (contents : Contents A) : Prop extends Linked cfg σ where
  stamped : ∀ l r, σ.recordAt l = some r → r.StampedBy bound
  listed : Lists σ.currents contents
  reached : ∀ l key seq ad, σ.IsCurrent l key seq ad →
    (∃ nodes, Chain σ.links (σ.dir (cfg.hash key)) nodes ∧ l ∈ nodes) ∨ σ.isProbed l.seg = true
  counted : ∀ seg ∈ σ.segs, Counted seg

/-! ## Finding the current record -/

section Finding
variable {σ : Shard A} {key : Key} {l : Loc} {r : Record A}

theorem Record.body_of_key (keyed : r.isMarker = false) : ∃ ad, r.body = .ad r.key ad := by
  rw [Record.isMarker] at keyed
  rw [Record.key]
  cases body : r.body with
  | ad key ad => exact ⟨ad, rfl⟩
  | checkpoint _ | dictionary =>
    rw [body] at keyed
    cases keyed

theorem Record.isMarker_of_ad (body : r.body = .ad key ad) : r.isMarker = false := by
  rw [Record.isMarker, body]

theorem Record.isMarker_of_key (same : r.key = key) (nonempty : key ≠ []) : r.isMarker = false := by
  rw [Record.isMarker]
  cases body : r.body with
  | ad key' ad => rfl
  | checkpoint _ | dictionary =>
    rw [Record.key, body] at same
    exact absurd same.symm nonempty

theorem Record.isCurrent_iff : r.isCurrent = true ↔ r.superseded = none := by
  rw [Record.isCurrent, Option.isNone_iff_eq_none]

theorem mem_sealedRecords : l ∈ σ.sealedRecords key ↔ σ.isProbed l.seg = true ∧ ∃ r, σ.recordAt l = some r ∧
    r.key = key := by
  unfold Shard.sealedRecords
  rw [mem_flatMap]
  constructor
  · rintro ⟨id, -, inside⟩
    split at inside
    next probed =>
      obtain ⟨off, -, hit⟩ := mem_filterMap.mp inside
      cases found : σ.recordAt ⟨id, off⟩ with
      | none => rw [found] at hit; cases hit
      | some r =>
        rw [found] at hit
        simp only at hit
        split at hit
        next same =>
          cases hit
          exact ⟨probed, r, found, same⟩
        · cases hit
    · cases inside
  · rintro ⟨probed, r, found, same⟩
    have raw := pinnedAt_of_recordAt found
    obtain ⟨seg, here, at_⟩ := Option.bind_eq_some_iff.mp raw
    have bound := (List.getElem?_eq_some_iff.mp here).1
    have inside := (List.getElem?_eq_some_iff.mp at_).1
    refine ⟨l.seg, mem_range.mpr bound, ?_⟩
    rw [if_pos probed]
    refine mem_filterMap.mpr ⟨l.off, ?_, ?_⟩
    · rw [here]
      exact mem_range.mpr inside
    · rw [show (⟨l.seg, l.off⟩ : Loc) = l from rfl, found]
      exact if_pos same

theorem lookupSealed_none (missing : σ.lookupSealed key = none) (current : σ.IsCurrent l key seq ad) :
    σ.isProbed l.seg = false := by
  obtain ⟨r, here, body, unsuperseded, -⟩ := current
  by_contra probed
  have member : l ∈ σ.sealedRecords key :=
    mem_sealedRecords.mpr ⟨by simpa using probed, r, here, by rw [Record.key, body]⟩
  have passed := find?_eq_none.mp missing l member
  rw [here] at passed
  exact passed (Record.isCurrent_iff.mpr unsuperseded)

/-- A chain has fewer nodes than the walk has steps. -/
theorem chain_lt_walkBound (chain : Chain σ.links head nodes) (distinct : nodes.Nodup) :
    nodes.length < σ.walkBound := by
  have each : ∀ l ∈ nodes, ∃ r, σ.recordAt l = some r := by
    intro l member
    obtain ⟨link, found⟩ := chain.exists member
    obtain ⟨r, here, -⟩ := Option.map_eq_some_iff.mp found
    exact ⟨r, here⟩
  exact Nat.lt_succ_of_le (length_le_flatten distinct each)

theorem findCurrent_chain (chain : Chain σ.links head nodes) (distinct : nodes.Nodup) :
    σ.findCurrent head key = nodes.find? (σ.holdsCurrent key) :=
  findFirst_chain chain (chain_lt_walkBound chain distinct)

/-- Look through a chain and then through the sealed segments. -/
def Shard.search (σ : Shard A) (head : Option Loc) (key : Key) :
    Option Loc := (σ.findCurrent head key).or (σ.lookupSealed key)

theorem locate_eq_search (cfg : Config) : σ.locate cfg key = σ.search (σ.dir (cfg.hash key)) key := by
  rw [Shard.locate, Shard.search]
  cases σ.findCurrent (σ.dir (cfg.hash key)) key <;> rfl

/-- Whether a search for a key can only meet ads: a key index lists the keyless records of its
segment under the empty key. -/
def Shard.Admits (σ : Shard A) (key : Key) : Prop :=
  key = [] → ∀ l r, σ.isProbed l.seg = true → σ.recordAt l = some r → r.isMarker = false

theorem Shard.admits_of_ne (σ : Shard A) (nonempty : key ≠ []) : σ.Admits key := fun empty => absurd empty nonempty

/-- The record a search returns. It is current and has the key; it is an ad where the key is
admitted. -/
structure Shard.Found (σ : Shard A) (key : Key) (l : Loc) (r : Record A) : Prop where
  here : σ.recordAt l = some r
  current : r.superseded = none
  same : r.key = key
  keyed : σ.Admits key → r.isMarker = false

theorem Shard.Found.isCurrent (found : σ.Found key l r) (admits : σ.Admits key) :
    ∃ ad, σ.IsCurrent l key r.seq ad := by
  obtain ⟨ad, body⟩ := Record.body_of_key (found.keyed admits)
  rw [found.same] at body
  exact ⟨ad, r, found.here, body, found.current, rfl⟩

theorem search_some (chain : Chain σ.links head nodes) (distinct : nodes.Nodup)
    (found : σ.search head key = some l) :
    (l ∈ nodes ∨ σ.isProbed l.seg = true) ∧ ∃ r, σ.recordAt l = some r ∧ r.superseded = none ∧ r.key = key := by
  rw [Shard.search, findCurrent_chain chain distinct] at found
  rcases Option.or_eq_some_iff.mp found with inChain | ⟨-, inIndex⟩
  · have holds := find?_some inChain
    unfold Shard.holdsCurrent at holds
    cases here : σ.recordAt l with
    | none => rw [here] at holds; cases holds
    | some r =>
      simp only [here, Bool.and_eq_true, beq_iff_eq] at holds
      exact ⟨.inl (mem_of_find?_eq_some inChain), r, rfl, Record.isCurrent_iff.mp holds.1, holds.2⟩
  · obtain ⟨probed, r, here, same⟩ := mem_sealedRecords.mp (mem_of_find?_eq_some inIndex)
    have current := find?_some inIndex
    rw [here] at current
    exact ⟨.inr probed, r, here, Record.isCurrent_iff.mp current, same⟩

/-- Whether a record came from a chain or from an index, an admitted key leads to an ad. -/
theorem Shard.Bucket.found {cfg : Config} {h : UInt64} (bucket : σ.Bucket cfg h nodes)
    (place : l ∈ nodes ∨ σ.isProbed l.seg = true) (here : σ.recordAt l = some r) (current : r.superseded = none)
    (same : r.key = key) : σ.Found key l r := by
  refine ⟨here, current, same, fun admits => ?_⟩
  rcases place with member | probed
  · obtain ⟨r', key', ad', here', body, -⟩ := bucket.2.2 l member
    rw [here] at here'
    cases here'
    exact Record.isMarker_of_ad body
  · by_cases empty : key = []
    · exact admits empty l r probed here
    · exact Record.isMarker_of_key same empty

/-- A search that fails has missed no current record of its chain or of an indexed segment. -/
theorem search_none (chain : Chain σ.links head nodes) (distinct : nodes.Nodup)
    (missing : σ.search head key = none) (current : σ.IsCurrent l key seq ad) :
    l ∉ nodes ∧ σ.isProbed l.seg = false := by
  rw [Shard.search, findCurrent_chain chain distinct, Option.or_eq_none_iff] at missing
  refine ⟨fun member => ?_, lookupSealed_none missing.2 current⟩
  obtain ⟨r, here, body, unsuperseded, -⟩ := current
  have passed := find?_eq_none.mp missing.1 l member
  apply passed
  simp [Shard.holdsCurrent, here, Record.isCurrent_iff.mpr unsuperseded, Record.key, body]

end Finding

/-! ## The list of current records -/

section Currents
variable {σ σ' : Shard A} {l : Loc} {r : Record A} {key : Key} {ad : A}

theorem Record.currentPair_eq_some {seq : Nat} :
    r.currentPair = some (key, seq, ad) ↔ r.body = .ad key ad ∧ r.superseded = none ∧ r.seq = seq := by
  unfold Record.currentPair
  cases r.body with
  | ad key' ad' =>
    cases r.superseded with
    | none =>
      simp only [Option.some.injEq, Prod.mk.injEq, Body.ad.injEq, true_and]
      exact ⟨fun ⟨sameKey, sameSeq, sameAd⟩ => ⟨⟨sameKey, sameAd⟩, sameSeq⟩,
        fun ⟨⟨sameKey, sameAd⟩, sameSeq⟩ => ⟨sameKey, sameSeq, sameAd⟩⟩
    | some _ => simp
  | checkpoint _ | dictionary => simp

theorem mem_currents : (key, seq, ad) ∈ σ.currents ↔ ∃ l, σ.IsCurrent l key seq ad := by
  unfold Shard.currents
  rw [mem_filterMap]
  constructor
  · rintro ⟨r, member, pair⟩
    obtain ⟨l, here⟩ := mem_records_iff.mp member
    exact ⟨l, r, here, Record.currentPair_eq_some.mp pair⟩
  · rintro ⟨l, r, here, facts⟩
    exact ⟨r, mem_records_iff.mpr ⟨l, here⟩, Record.currentPair_eq_some.mpr facts⟩

theorem currents_of_appends (appends : Appends σ σ' l r) : σ'.currents.Perm (r.currentPair.toList ++ σ.currents) := by
  have same := appends.cells.filterMap Record.currentPair
  rw [filterMap_cons] at same
  cases pair : r.currentPair with
  | none => rw [pair] at same; exact same
  | some _ => rw [pair] at same; exact same

/-- Superseding a current record takes its pair out of the list. -/
theorem currents_supersedeRec (here : σ.recordAt l = some r) (body : r.body = .ad key ad)
    (current : r.superseded = none) (x : Nat) :
    ∃ before after, σ.currents = before ++ (key, r.seq, ad) :: after ∧
    (σ.supersedeRec l x).currents = before ++ after := by
  have found : cellAt σ.arena l = some r := here
  obtain ⟨before, after, whole, changed⟩ := flatten_modifyCell found fun r => { r with superseded := some x }
  refine ⟨before.filterMap Record.currentPair, after.filterMap Record.currentPair, ?_, ?_⟩
  · have pair : r.currentPair = some (key, r.seq, ad) := Record.currentPair_eq_some.mpr ⟨body, current, rfl⟩
    rw [Shard.currents, whole, filterMap_append, filterMap_cons_some pair]
  · have gone : ({ r with superseded := some x } : Record A).currentPair = none := by
      unfold Record.currentPair
      rw [body]
    rw [Shard.currents, arena_supersedeRec, changed, filterMap_append, filterMap_cons_none gone]

/-- A record superseded later than a snapshot is as visible there as a current one. -/
theorem visibles_supersedeRec (here : σ.recordAt l = some r) (current : r.superseded = none) (later : s0 < x) :
    (σ.supersedeRec l x).visibles s0 = σ.visibles s0 := by
  have found : cellAt σ.arena l = some r := here
  obtain ⟨before, after, whole, changed⟩ := flatten_modifyCell found fun r => { r with superseded := some x }
  have same : ({ r with superseded := some x } : Record A).pairAt s0 = r.pairAt s0 := by
    simp [Record.pairAt, Record.visibleAt, Record.supersededAfter, Record.isMarker, current, later]
  rw [Shard.visibles, Shard.visibles, arena_supersedeRec, changed, whole, filterMap_append, filterMap_append,
    filterMap_cons, filterMap_cons, same]

theorem visibles_of_appends (appends : Appends σ σ' l r) (s0 : Nat) :
    (σ'.visibles s0).Perm ((r.pairAt s0).toList ++ σ.visibles s0) := by
  have same := appends.cells.filterMap (Record.pairAt s0)
  rw [filterMap_cons] at same
  cases pair : r.pairAt s0 with
  | none => rw [pair] at same; exact same
  | some _ => rw [pair] at same; exact same

/-- Superseding one record and appending another can be done in either order. -/
theorem Appends.supersedeRec {prev : Record A} (appends : Appends σ σ' new r)
    (here : σ.recordAt old = some prev) (x : Nat) : Appends (σ.supersedeRec old x) (σ'.supersedeRec old x) new r := by
  have differs : old ≠ new := by
    rintro rfl
    rw [appends.free] at here
    cases here
  have here' : σ'.recordAt old = some prev := by rw [appends.recordAt, if_neg differs, here]
  refine ⟨fun l => ?_, ?_, ?_⟩
  · rw [recordAt_supersedeRec, recordAt_supersedeRec]
    by_cases atOld : l = old
    · subst atOld
      rw [if_pos rfl, if_pos rfl, if_neg differs, here, here']
    · rw [if_neg atOld, if_neg atOld, appends.recordAt]
  · rw [recordAt_supersedeRec, if_neg (Ne.symm differs), appends.free]
  · obtain ⟨before, after, whole, changed⟩ := flatten_modifyCell here fun r => { r with superseded := some x }
    obtain ⟨before', after', whole', changed'⟩ := flatten_modifyCell here' fun r => { r with superseded := some x }
    rw [arena_supersedeRec, arena_supersedeRec, changed, changed']
    have cells := appends.cells
    rw [whole, whole'] at cells
    have rest : (before' ++ after').Perm (r :: (before ++ after)) := by
      apply Perm.cons_inv
      calc prev :: (before' ++ after') |>.Perm (before' ++ prev :: after') := perm_middle.symm
        _ |>.Perm (r :: (before ++ prev :: after)) := cells
        _ |>.Perm (r :: prev :: (before ++ after)) := perm_middle.cons r
        _ |>.Perm (prev :: r :: (before ++ after)) := Perm.swap prev r _
    exact perm_middle.trans ((rest.cons _).trans ((Perm.swap r _ _).trans (perm_middle.symm.cons r)))

end Currents

end Classad.ShardStore
