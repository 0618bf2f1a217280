import Mathlib.Data.List.Sort
import Classad.ShardSystem

/-! Evicting the keys of a sealed segment. Their buckets leave the directory, and a lookup finds
them through the key indexes alone: those of the whole chain behind the head, which may lead into
segments that have no index. -/
namespace Classad.ShardStore
open Arena BinarySearch Chains
open List hiding head Chain

/-- The entries of a key index: a hash and the offset of a record. A Bloom filter only spares
lookups that find nothing, and is left out. -/
abbrev KeyIndex := List (UInt64 × Nat)

def entryLe (a b : UInt64 × Nat) : Prop := a.1 < b.1 ∨ a.1 = b.1 ∧ a.2 ≤ b.2

instance : DecidableRel entryLe := fun _ _ => inferInstanceAs (Decidable (_ ∨ _))

def buildKeyIndex (hashes : List UInt64) : KeyIndex := hashes.zipIdx.insertionSort entryLe

def KeyIndex.lookup (ents : KeyIndex) (hash : UInt64) : List Nat :=
  ((ents.drop (search ents.length fun i => (ents[i]?).any (hash ≤ ·.1))).takeWhile (·.1 = hash)).map Prod.snd

/-- In a sorted index the search and the scan that follows it collect all entries of a hash. -/
theorem lookup_sorted {ents : KeyIndex} (sorted : ents.Pairwise entryLe) (hash : UInt64) :
    ents.lookup hash = (ents.filter (·.1 = hash)).map Prod.snd := by
  have ordered : ents.Pairwise fun a b => a.1 ≤ b.1 := sorted.imp (by unfold entryLe; grind)
  have upward : ents.Pairwise fun a b => decide (hash ≤ a.1) = true → decide (hash ≤ b.1) = true :=
    ordered.imp (by grind)
  have side {i e} (held : ents[i]? = some e) : i < search ents.length (fun i => (ents[i]?).any (hash ≤ ·.1)) ↔ _ :=
    search_list (fun held => by simp [held]) upward held
  unfold KeyIndex.lookup
  generalize search ents.length _ = cut at side ⊢
  have before : (ents.take cut).filter (·.1 = hash) = [] := by
    rw [filter_eq_nil_iff]
    intro e member
    obtain ⟨i, inside, rfl⟩ := mem_take_iff_getElem.mp member
    have := (side (i := i) (getElem?_eq_getElem (by omega))).mp (by omega)
    grind
  have after : (ents.drop cut).takeWhile (·.1 = hash) = (ents.drop cut).filter (·.1 = hash) := by
    apply takeWhile_eq_filter
    refine (ordered.sublist (drop_sublist cut ents)).imp_of_mem fun first _ le => ?_
    obtain ⟨i, inside, rfl⟩ := mem_drop_iff_getElem.mp first
    have := (side (i := cut + i) (getElem?_eq_getElem (by omega))).not.mp (by omega)
    grind
  rw [after, ← nil_append (filter _ (drop cut ents)), ← before, ← filter_append, take_append_drop]

/-- An index lists the records of a hash in the order they stand in. -/
theorem lookup_build (hashes : List UInt64) (hash : UInt64) :
    (buildKeyIndex hashes).lookup hash = (hashes.zipIdx.filter (·.1 = hash)).map Prod.snd := by
  have : IsTrans _ entryLe := ⟨fun a b c => by unfold entryLe; grind⟩
  have : Std.Total entryLe := ⟨fun a b => by unfold entryLe; grind⟩
  have : Std.Antisymm entryLe := ⟨fun a b => by unfold entryLe; grind⟩
  have sorted := pairwise_insertionSort entryLe hashes.zipIdx
  have placed : hashes.zipIdx.Pairwise (·.2 < ·.2) := pairwise_map.mp (by rw [zipIdx_map_snd]; exact pairwise_lt_range')
  rw [buildKeyIndex, lookup_sorted sorted]
  refine congrArg _ (((perm_insertionSort entryLe _).filter _).eq_of_pairwise (fun _ _ _ _ => antisymm)
    (sorted.filter _) ?_)
  refine (placed.filter _).imp_of_mem fun left right less => .inr ⟨?_, less.le⟩
  rw [of_decide_eq_true (mem_filter.mp left).2, of_decide_eq_true (mem_filter.mp right).2]

/-- An index finds the records of a hash and no others, each once, in the order they stand in. -/
theorem lookup_exact (hashes : List UInt64) (hash : UInt64) : ((buildKeyIndex hashes).lookup hash).Pairwise (· < ·) ∧
    ∀ off, off ∈ (buildKeyIndex hashes).lookup hash ↔ hashes[off]? = some hash := by
  have placed : hashes.zipIdx.Pairwise (·.2 < ·.2) := pairwise_map.mp (by rw [zipIdx_map_snd]; exact pairwise_lt_range')
  rw [lookup_build]
  exact ⟨pairwise_map.mpr (placed.filter _), fun off => by simp [mem_zipIdx_iff_getElem?]⟩

variable {A : Type}

def Segment.keyIndex (cfg : Config) (seg : Segment A) :
    KeyIndex := buildKeyIndex (seg.records.map fun r => cfg.hash r.key)

namespace Shard
variable (cfg : Config) (σ : Shard A) (key : Key)

def forEachSealedRecord : List Loc :=
  (range σ.segs.length).flatMap fun id =>
    if σ.isProbed id then
      (((σ.segs[id]?).elim [] fun seg => (seg.keyIndex cfg).lookup (cfg.hash key)).filter fun off =>
        (σ.recordAt ⟨id, off⟩).any (·.key = key)).map (Loc.mk id)
    else []

/-- A current record of the key stands in such a place. -/
def HasCurrent (place : Loc → Prop) : Prop := ∃ l seq ad, place l ∧ σ.IsCurrent l key seq ad

end Shard

variable {cfg : Config} {σ : Shard A} {key : Key}

/-- Through its index a segment yields the records that a walk over it would. -/
theorem forEachSealedRecord_eq : σ.forEachSealedRecord cfg key = σ.sealedRecords key := by
  unfold Shard.forEachSealedRecord Shard.sealedRecords
  refine flatMap_congr fun id _ => ?_
  split
  next probed =>
    unfold Shard.isProbed at probed
    cases here : σ.segs[id]? with
    | none => simp [here] at probed
    | some seg =>
      simp only [here, Bool.and_eq_true, Bool.not_eq_true', Option.elim_some] at probed ⊢
      have found off : σ.recordAt ⟨id, off⟩ = seg.records[off]? := by
        simp [recordAt_eq, here, probed]
      have offsets : range seg.records.length = seg.records.zipIdx.map Prod.snd := by
        rw [zipIdx_map_snd, range_eq_range']
      rw [Segment.keyIndex, lookup_build, offsets, zipIdx_map]
      simp only [found, ← filterMap_eq_map, filterMap_filter, filterMap_filterMap]
      refine filterMap_congr ?_
      rintro ⟨r, off⟩ member
      have held : seg.records[off]? = some r := mem_zipIdx_iff_getElem?.mp member
      by_cases same : r.key = key <;> simp [held, same]
  · rfl

/-- The indexes list ads only, whatever the key, but for the keyless records under the empty one. -/
theorem sealed_ads_iff : (∀ l, l ∈ σ.forEachSealedRecord cfg key ↔ σ.isProbed l.seg = true ∧
    ∃ r ad, σ.recordAt l = some r ∧ r.body = .ad key ad) ↔ σ.Admits key := by
  simp only [forEachSealedRecord_eq, mem_sealedRecords, and_congr_right_iff]
  constructor
  · rintro ads rfl l r probed here
    by_cases keyed : r.isMarker = false
    · exact keyed
    · have keyless : r.key = [] := by
        unfold Record.isMarker at keyed
        unfold Record.key
        split <;> simp_all
      obtain ⟨r', ad, here', body⟩ := (ads l probed).mp ⟨r, here, keyless⟩
      rw [here] at here'
      cases here'
      exact Record.isMarker_of_ad body
  · intro admits l probed
    constructor
    · rintro ⟨r, here, rfl⟩
      have keyed : r.isMarker = false := by
        by_cases empty : r.key = []
        · exact admits empty l r probed here
        · exact Record.isMarker_of_key rfl empty
      exact ⟨r, (Record.body_of_key keyed).imp fun ad body => ⟨here, body⟩⟩
    · rintro ⟨r, ad, here, body⟩
      exact ⟨r, here, by rw [Record.key, body]⟩

theorem finds_iff (linked : Linked cfg σ) (admits : σ.Admits key) : σ.HasCurrent key (σ.locate cfg key = some ·) ↔
    σ.HasCurrent key (Reaches σ.links (σ.dir (cfg.hash key))) ∨ σ.HasCurrent key (σ.isProbed ·.seg) := by
  obtain ⟨nodes, bucket⟩ := linked.chained (cfg.hash key)
  rw [locate_eq_search]
  have spec {l} (found : σ.search (σ.dir (cfg.hash key)) key = some l) :
      (l ∈ nodes ∨ σ.isProbed l.seg = true) ∧ ∃ seq ad, σ.IsCurrent l key seq ad := by
    obtain ⟨place, r, here, current, same⟩ := search_some bucket.1 bucket.2.1 found
    exact ⟨place, _, (bucket.found place here current same).isCurrent admits⟩
  cases found : σ.search (σ.dir (cfg.hash key)) key with
  | none =>
    refine iff_of_false (fun ⟨_, _, _, is, _⟩ => by cases is) ?_
    rintro (⟨l, seq, ad, reaches, current⟩ | ⟨l, seq, ad, probed, current⟩)
    · exact (search_none bucket.1 bucket.2.1 found current).1 (bucket.1.mem_of_reaches reaches)
    · rw [(search_none bucket.1 bucket.2.1 found current).2] at probed
      cases probed
  | some l =>
    obtain ⟨place, seq, ad, current⟩ := spec found
    refine iff_of_true ⟨l, seq, ad, rfl, current⟩ ?_
    exact place.imp (fun member => ⟨l, seq, ad, bucket.1.reaches member, current⟩) fun probed =>
      ⟨l, seq, ad, probed, current⟩

/-- After an eviction a lookup finds the current record of a key as before, and the indexes list
its ads and nothing else, exactly where they hold no keyless record under it, and a current record
behind a head that is dropped means that there is one in a segment with an index. -/
theorem evict_keeps_key_iff (cfg : Config) (ops : List (Op A)) (id : Nat) (key : Key) :
    let σ := ((System.initial : System A).run cfg ops).shard
    let τ := σ.evictSegKeys cfg id
    ((τ.HasCurrent key (τ.locate cfg key = some ·) ↔ σ.HasCurrent key (σ.locate cfg key = some ·)) ∧
      ∀ l, l ∈ τ.forEachSealedRecord cfg key ↔ τ.isProbed l.seg = true ∧ ∃ r ad, τ.recordAt l = some r ∧
        r.body = .ad key ad) ↔
      σ.Admits key ∧ ∀ seg head, σ.segs[id]? = some seg → seg.keyIndexed = true → σ.dir (cfg.hash key) = some head →
        head.seg = id → σ.HasCurrent key (Reaches σ.links (some head)) → σ.HasCurrent key (σ.isProbed ·.seg) := by
  intro σ τ
  have linked : Linked cfg σ := (valid_initial.run ops).1.linked
  rw [sealed_ads_iff]
  rcases evict_dir linked with ⟨unindexed, same⟩ | ⟨seg, here, indexed, form⟩
  · have unchanged : τ = σ := same
    rw [unchanged, iff_true_intro Iff.rfl, true_and, iff_self_and]
    intro _ seg head here indexed
    simp [unindexed seg here] at indexed
  · have admits : τ.Admits key ↔ σ.Admits key := by
      simp only [τ, form]
      exact Iff.rfl
    rw [admits, and_comm]
    refine and_congr_right fun admitted => ?_
    have after := finds_iff (linked.evict id) (admits.mpr admitted)
    rw [finds_iff linked admitted, after, form]
    change (σ.HasCurrent key (Reaches σ.links (if _ then none else _)) ∨ σ.HasCurrent key (σ.isProbed ·.seg) ↔ _) ↔ _
    by_cases dropped : (σ.dir (cfg.hash key)).any (fun l => l.seg = id) = true
    · have gone : ¬σ.HasCurrent key (Reaches σ.links none) := fun ⟨_, _, _, reaches, _⟩ =>
        not_mem_nil (Chain.nil.mem_of_reaches reaches)
      obtain ⟨head, isHead, atId⟩ := (Option.any_eq_true _ _).mp dropped
      rw [if_pos dropped, isHead, or_iff_right gone]
      constructor
      · rintro found _ _ _ _ ⟨⟩ _ reached
        exact found.mpr (.inl reached)
      · intro safe
        exact ⟨.inr, fun either => either.elim (safe seg head here indexed rfl (of_decide_eq_true atId))
          fun probed => probed⟩
    · rw [if_neg dropped]
      refine iff_of_true Iff.rfl fun _ head _ _ isHead atId => ?_
      simp [isHead, atId] at dropped

/-- Two keys of one hash, the first in a segment without an index: evicting the second cuts off
both. -/
theorem evict_loses_collision :
    let cfg : Config := ⟨fun key => (key.headD 0 % 2).toUInt64, fun _ => none, 1, true, none⟩
    let ops : List (Op Nat) := [.commit [⟨[1], 10, 8, 0, true⟩], .commit [⟨[3], 30, 8, 0, true⟩],
      .commit [⟨[2], 20, 8, 0, true⟩], .sealSegment 1]
    let σ := ((System.initial : System Nat).run cfg ops).shard
    σ.locate cfg [1] = some ⟨0, 0⟩ ∧ (σ.evictSegKeys cfg 1).locate cfg [1] = none ∧
      (σ.evictSegKeys cfg 1).locate cfg [3] = some ⟨1, 0⟩ := by
  decide +kernel

end Classad.ShardStore
