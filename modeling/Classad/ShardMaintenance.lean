import Classad.ShardHistory

/-! Sealing, evicting and reclaiming. A seal only makes the probe look into one more segment; an
eviction drops bucket heads and relies on that probe for the records behind them; a reclaim
unlinks the dead segments from every chain before their slots are emptied. -/
namespace Classad.ShardStore
open Arena Chains Listing List Function
open Shard (currents dropHead links pinnedAt retire tally visibles)

variable {A : Type}

/-! ## Changing links only -/

section Relinking
variable {cfg : Config} {σ τ ρ : Shard A}

def Record.bare (r : Record A) : Record A := { r with next := none }

/-- Two records that read the same. -/
structure SameReading (r r' : Record A) : Prop where
  seq : r'.seq = r.seq
  body : r'.body = r.body
  superseded : r'.superseded = r.superseded

theorem SameReading.stampedBy (reading : SameReading r r') (stamped : r.StampedBy bound) : r'.StampedBy bound := by
  unfold Record.StampedBy Record.isMarker
  rw [reading.body, reading.seq, reading.superseded]
  exact stamped

theorem pairAt_sameReading (x : Nat) (reading : SameReading r r') : r'.pairAt x = r.pairAt x := by
  unfold Record.pairAt Record.visibleAt Record.supersededAfter Record.isMarker
  rw [reading.body, reading.superseded, reading.seq]

theorem sameReading_of_bare (bare : r.bare = r₀.bare) : SameReading r₀ r := by
  obtain ⟨seq, superseded, -, body, -⟩ := Record.mk.inj bare
  exact ⟨seq, body, superseded⟩

theorem SameReading.isMarker (reading : SameReading r r') : r'.isMarker = r.isMarker := by
  rw [Record.isMarker, Record.isMarker, reading.body]

/-- A segment without the links of its records. -/
def Segment.bare (seg : Segment A) : Segment A := { seg with records := seg.records.map Record.bare }

/-- The directory and the links may differ, nothing else does. -/
structure Relinked (σ τ : Shard A) : Prop where
  segs : τ.segs.map Segment.bare = σ.segs.map Segment.bare
  rest : ∃ segs dir, τ = { σ with segs := segs, dir := dir }

theorem Relinked.refl (σ : Shard A) : Relinked σ σ := ⟨rfl, σ.segs, σ.dir, rfl⟩

theorem Relinked.trans (first : Relinked σ τ) (second : Relinked τ ρ) : Relinked σ ρ := by
  refine ⟨second.segs.trans first.segs, ?_⟩
  obtain ⟨segs, dir, rfl⟩ := first.rest
  obtain ⟨segs', dir', rfl⟩ := second.rest
  exact ⟨segs', dir', rfl⟩

theorem Relinked.setDir (σ : Shard A) (dir : UInt64 → Option Loc) : Relinked σ { σ with dir := dir } :=
    ⟨rfl, σ.segs, dir, rfl⟩

theorem bare_setRecNext {seg : Segment A} {off : Nat} {next : Option Loc} :
    (seg.setRecNext off next).bare = seg.bare := by
  unfold Segment.setRecNext Segment.modifyRecord Segment.bare
  congr 1
  apply ext_getElem?
  intro i
  simp only [getElem?_map, getElem?_modify]
  cases seg.records[i]? with
  | none => simp
  | some r => split <;> simp [Record.bare]

theorem Relinked.setRecNext (σ : Shard A) (l : Loc) (next : Option Loc) : Relinked σ (σ.setRecNext l next) := by
  refine ⟨?_, _, σ.dir, rfl⟩
  apply ext_getElem?
  intro i
  rw [getElem?_map, getElem?_map, Shard.setRecNext, getElem?_modifySeg]
  split
  · rw [Option.map_map]
    congr 1
    funext seg
    exact bare_setRecNext
  · rfl

theorem Relinked.getElem? (relinked : Relinked σ τ) (id : Nat) :
    (τ.segs[id]?).map Segment.bare = (σ.segs[id]?).map Segment.bare := by
  rw [← getElem?_map, ← getElem?_map, relinked.segs]

/-- Each segment is where it was, with the same flags and counters. -/
theorem Relinked.seg (relinked : Relinked σ τ) {id : Nat} {seg : Segment A} (here : τ.segs[id]? = some seg) :
    ∃ seg₀, σ.segs[id]? = some seg₀ ∧ seg.bare = seg₀.bare := by
  have same := relinked.getElem? id
  rw [here] at same
  obtain ⟨seg₀, found, bare⟩ := Option.map_eq_some_iff.mp same.symm
  exact ⟨seg₀, found, bare.symm⟩

theorem Relinked.symm_segs (relinked : Relinked σ τ) : Relinked τ σ := by
  refine ⟨relinked.segs.symm, ?_⟩
  obtain ⟨segs, dir, rfl⟩ := relinked.rest
  exact ⟨σ.segs, σ.dir, rfl⟩

theorem live_bare {seg : Segment A} : seg.bare.live = seg.live.map Record.bare := by
  unfold Segment.live Segment.bare
  cases seg.retired <;> rfl

section
variable (relinked : Relinked σ τ)
include relinked

theorem Relinked.arena : τ.arena.map (map Record.bare) = σ.arena.map (map Record.bare) := by
  have live : ∀ ρ : Shard A, ρ.arena.map (map Record.bare) = (ρ.segs.map Segment.bare).map Segment.live := by
    intro ρ
    rw [Shard.arena, map_map, map_map]
    exact map_congr_left fun seg _ => (live_bare).symm
  rw [live, live, relinked.segs]

theorem Relinked.recordAt (l : Loc) : (τ.recordAt l).map Record.bare = (σ.recordAt l).map Record.bare := by
  have bare : ∀ ρ : Shard A, (ρ.recordAt l).map Record.bare = cellAt (ρ.arena.map (map Record.bare)) l := by
    intro ρ
    unfold Shard.recordAt cellAt
    rw [getElem?_map]
    cases ρ.arena[l.seg]? with
    | none => rfl
    | some cells => simp
  rw [bare, bare, relinked.arena]

theorem Relinked.record (here : τ.recordAt l = some r) :
    ∃ r₀, σ.recordAt l = some r₀ ∧ r.bare = r₀.bare := by
  have same := relinked.recordAt l
  rw [here] at same
  obtain ⟨r₀, found, bare⟩ := Option.map_eq_some_iff.mp same.symm
  exact ⟨r₀, found, bare.symm⟩

/-- What a list of records is projected to does not depend on links. -/
theorem Relinked.filterMap (blind : ∀ r, f r.bare = f r) :
    τ.arena.flatten.filterMap f = σ.arena.flatten.filterMap f := by
  have bare : ∀ ρ : Shard A, ρ.arena.flatten.filterMap f = (ρ.arena.map (map Record.bare)).flatten.filterMap f := by
    intro ρ
    rw [← map_flatten, filterMap_map]
    exact filterMap_congr fun r _ => (blind r).symm
  rw [bare, bare, relinked.arena]

theorem Relinked.currents : τ.currents = σ.currents := relinked.filterMap fun _ => rfl

theorem Relinked.visibles (x : Nat) : τ.visibles x = σ.visibles x := relinked.filterMap fun _ => rfl

theorem Relinked.isProbed (id : Nat) : τ.isProbed id = σ.isProbed id := by
  have act : τ.act = σ.act := by
    obtain ⟨segs, dir, rfl⟩ := relinked.rest
    rfl
  have probed : ∀ ρ : Shard A, ρ.isProbed id =
      (((ρ.segs[id]?).map Segment.bare).elim false fun seg => !seg.retired && seg.keyIndexed && ρ.act != some id) := by
    intro ρ
    unfold Shard.isProbed
    cases ρ.segs[id]? <;> rfl
  rw [probed, probed, relinked.getElem?, act]

theorem Relinked.writable (writable : σ.Writable) : τ.Writable := by
  intro id isActive
  have act : σ.act = some id := by
    obtain ⟨segs, dir, rfl⟩ := relinked.rest
    exact isActive
  obtain ⟨seg, here, notRetired, notIndexed⟩ := writable id act
  obtain ⟨seg', found, bare⟩ := relinked.symm_segs.seg here
  refine ⟨seg', found, ?_, ?_⟩
  · rw [← notRetired]
    exact (congrArg Segment.retired bare).symm
  · rw [← notIndexed]
    exact (congrArg Segment.keyIndexed bare).symm

end

theorem map_of_bare {records records₀ : List (Record A)} (blind : ∀ r, f r.bare = f r)
    (same : records.map Record.bare = records₀.map Record.bare) : records.map f = records₀.map f := by
  have through : ∀ records : List (Record A), records.map f = (records.map Record.bare).map f :=
    fun records => by simp [blind]
  rw [through, same, ← through]

theorem Counted.of_bare {seg seg₀ : Segment A} (counted : Counted seg₀) (bare : seg.bare = seg₀.bare) :
    Counted seg := by
  have records : seg.records.map Record.bare = seg₀.records.map Record.bare := congrArg Segment.records bare
  have dead : seg.bare.dead = seg₀.bare.dead := congrArg Segment.dead bare
  change seg.dead = seg₀.dead at dead
  have minSeq : seg.bare.minSeq = seg₀.bare.minSeq := congrArg Segment.minSeq bare
  change seg.minSeq = seg₀.minSeq at minSeq
  have maxSup : seg.bare.maxSup = seg₀.bare.maxSup := congrArg Segment.maxSup bare
  change seg.maxSup = seg₀.maxSup at maxSup
  have earlier : ∀ r ∈ seg.records, ∃ r₀ ∈ seg₀.records, r.bare = r₀.bare := by
    intro r member
    have image : r.bare ∈ seg₀.records.map Record.bare := records ▸ mem_map_of_mem member
    obtain ⟨r₀, member₀, same⟩ := mem_map.mp image
    exact ⟨r₀, member₀, same.symm⟩
  have used : seg.used = seg₀.used := congrArg sum (map_of_bare (fun _ => rfl) records)
  have live : ∀ (bound : Nat) (records : List (Record A)), openLen bound records =
      openLen bound (records.map Record.bare) := by
    intro bound records
    induction records with
    | nil => rfl
    | cons r rest ih =>
      rw [map_cons, openLen_cons, openLen_cons, ih]
      rfl
  refine ⟨?_, fun r member marker => ?_, fun r member => ?_, ?_⟩
  · rw [live, records, ← live, used, dead, maxSup]
    exact counted.dead
  · obtain ⟨r₀, member₀, same⟩ := earlier r member
    have reading := sameReading_of_bare same
    rw [minSeq, reading.seq]
    exact counted.minSeq r₀ member₀ (reading.isMarker.symm.trans marker)
  · obtain ⟨r₀, member₀, same⟩ := earlier r member
    have lens : r.bare.totalLen = r₀.bare.totalLen := congrArg Record.totalLen same
    change r.totalLen = r₀.totalLen at lens
    rw [lens]
    exact counted.positive r₀ member₀
  · rw [maxSup, map_of_bare (fun _ => rfl) records]
    exact counted.attained

theorem Relinked.counted (relinked : Relinked σ τ) (counted : ∀ seg ∈ σ.segs, Counted seg) :
    ∀ seg ∈ τ.segs, Counted seg := by
  intro seg member
  obtain ⟨id, here⟩ := mem_iff_getElem?.mp member
  obtain ⟨seg₀, found, bare⟩ := relinked.seg here
  exact (counted seg₀ (mem_of_getElem? found)).of_bare bare

end Relinking

/-! ## Seals -/

section Seal
variable {cfg : Config} {σ τ : Shard A} {bound : Nat} {contents : Contents A} {past : History A}

/-- What a seal changes is seen by the probe only. -/
theorem seal_cases {cfg : Config} {id : Nat} :
    σ.sealSegmentIndex cfg id = σ ∨
      (σ.act ≠ some id ∧ σ.sealSegmentIndex cfg id = σ.modifySeg id fun seg => { seg with keyIndexed := true }) := by
  by_cases allowed : cfg.persistent = true ∧ σ.act ≠ some id
  · exact .inr ⟨allowed.2, if_pos allowed⟩
  · exact .inl (if_neg allowed)

theorem arena_seal (σ : Shard A) (id : Nat) :
    (σ.modifySeg id fun seg => { seg with keyIndexed := true }).arena = σ.arena := by
  have same : (σ.modifySeg id fun seg => { seg with keyIndexed := true }).arena =
      σ.arena.modify id fun cells => cells :=
    arena_modifySeg σ fun _ _ => rfl
  rw [same]
  exact modify_id id σ.arena

theorem recordAt_seal {id : Nat} (l : Loc) :
    (σ.modifySeg id fun seg => { seg with keyIndexed := true }).recordAt l = σ.recordAt l := by
  rw [Shard.recordAt, arena_seal]
  rfl

theorem links_of_recordAt (same : ∀ l, τ.recordAt l = σ.recordAt l) : τ.links = σ.links := by
  funext l
  rw [links, links, same]

theorem isProbed_seal {id : Nat} (probed : σ.isProbed i = true) :
    (σ.modifySeg id fun seg => { seg with keyIndexed := true }).isProbed i = true := by
  unfold Shard.isProbed at probed ⊢
  rw [getElem?_modifySeg]
  cases here : σ.segs[i]? with
  | none => rw [here] at probed; cases probed
  | some seg =>
    rw [here] at probed
    simp only [Bool.and_eq_true] at probed
    by_cases same : id = i
    · rw [if_pos same]
      simp only [Option.map_some, Bool.and_true, Bool.and_eq_true]
      exact ⟨probed.1.1, probed.2⟩
    · rw [if_neg same]
      simp only [Bool.and_eq_true]
      exact probed

theorem Linked.sealSegment (linked : Linked cfg σ) (id : Nat) : Linked cfg (σ.sealSegmentIndex cfg id) := by
  rcases seal_cases with same | ⟨inactive, form⟩
  · rw [same]
    exact linked
  · rw [form]
    refine ⟨fun h => ?_, fun i isActive => ?_⟩
    · obtain ⟨nodes, chain, distinct, members⟩ := linked.chained h
      refine ⟨nodes, ?_, distinct, fun l member => ?_⟩
      · rw [links_of_recordAt (recordAt_seal)]
        exact chain
      · rw [recordAt_seal]
        exact members l member
    · obtain ⟨seg, here, notRetired, notIndexed⟩ := linked.writable i isActive
      have differs : id ≠ i := fun same => inactive (same ▸ isActive)
      exact ⟨seg, by rw [getElem?_modifySeg, if_neg differs, here], notRetired, notIndexed⟩

theorem Stored.sealSegment (stored : Stored cfg σ past) (id : Nat) : Stored cfg (σ.sealSegmentIndex cfg id) past := by
  have linked := stored.toLinked.sealSegment id
  rcases seal_cases with same | ⟨-, form⟩
  · rw [same]
    exact stored
  · rw [form] at linked ⊢
    have currents : (σ.modifySeg id fun seg => { seg with keyIndexed := true }).currents = σ.currents := by
      rw [currents, arena_seal]
      rfl
    refine { toLinked := linked, stamped := fun l r here => ?_, listed := ?_, reached := ?_, counted := ?_,
             count := ?_, children := fun parent => ?_, history := fun x above upTo => ?_,
             recorded := fun x upTo key pair member => ?_ }
    · rw [recordAt_seal] at here
      exact stored.stamped l r here
    · rw [currents]
      exact stored.listed
    · rintro l key seq ad ⟨r, here, facts⟩
      rw [recordAt_seal] at here
      rw [links_of_recordAt (recordAt_seal)]
      exact (stored.reached l key seq ad ⟨r, here, facts⟩).imp_right (isProbed_seal)
    · intro seg member
      rcases mem_modifySeg member with old | ⟨seg₀, found, rfl⟩
      · exact stored.counted seg old
      · have counted := stored.counted seg₀ (mem_of_getElem? found)
        exact ⟨counted.dead, counted.minSeq, counted.positive, counted.attained⟩
    · rw [tally, currents]
      exact stored.count
    · rw [tally, currents]
      exact stored.children parent
    · rw [visibles, arena_seal]
      exact stored.history x above upTo
    · rw [visibles, arena_seal] at member
      exact stored.recorded x upTo key pair member

end Seal

/-! ## Evictions -/

section Evict
variable {cfg : Config} {σ : Shard A} {past : History A} {id : Nat}

/-- Dropping heads one hash after the other. -/
theorem foldl_dropHead (id : Nat) (hashes : List UInt64) (dir : UInt64 → Option Loc) (h : UInt64) :
    hashes.foldl (dropHead id) dir h = if h ∈ hashes ∧ (dir h).any (fun l => l.seg = id) then none else dir h := by
  induction hashes generalizing dir with
  | nil => simp
  | cons h' rest ih =>
    rw [foldl_cons, ih]
    by_cases same : h = h'
    · subst same
      by_cases inside : (dir h).any (fun l => l.seg = id) = true
      · simp [dropHead, inside]
      · simp [dropHead, inside]
    · have kept : dropHead id dir h' h = dir h := by
        unfold dropHead
        by_cases inside : (dir h').any (fun l => l.seg = id) = true
        · rw [if_pos inside, update_of_ne same]
        · rw [if_neg inside]
      rw [kept]
      simp [same]

/-- The directory after an eviction: the heads in the segment are gone, since the records of a
bucket are listed under its hash. -/
theorem evict_dir (linked : Linked cfg σ) {id : Nat} :
    (∀ seg, σ.segs[id]? = some seg → seg.keyIndexed = false) ∧ σ.evictSegKeys cfg id = σ ∨
      ∃ seg, σ.segs[id]? = some seg ∧ seg.keyIndexed = true ∧ σ.evictSegKeys cfg id =
        { σ with dir := fun h => if (σ.dir h).any (fun l => l.seg = id) then none else σ.dir h } := by
  unfold Shard.evictSegKeys
  cases here : σ.segs[id]? with
  | none => exact .inl ⟨nofun, rfl⟩
  | some seg =>
    by_cases indexed : seg.keyIndexed = true
    · right
      refine ⟨seg, rfl, indexed, ?_⟩
      simp only [if_pos indexed]
      congr 1
      funext h
      rw [foldl_dropHead]
      by_cases inside : (σ.dir h).any (fun l => l.seg = id) = true
      · have listed : h ∈ seg.records.map fun r => cfg.hash r.key := by
          obtain ⟨l, head, atId⟩ := (Option.any_eq_true _ _).mp inside
          obtain ⟨nodes, chain, -, members⟩ := linked.chained h
          rw [head] at chain
          cases chain with
          | cons found tail =>
            obtain ⟨r, key, ad, at_, body, hash⟩ := members l (.head _)
            have raw := pinnedAt_of_recordAt at_
            rw [pinnedAt, of_decide_eq_true atId, here, Option.bind_some] at raw
            refine mem_map.mpr ⟨r, mem_of_getElem? raw, ?_⟩
            rw [Record.key, body]
            exact hash
        rw [if_pos ⟨listed, inside⟩, if_pos inside]
      · rw [if_neg fun both => inside both.2, if_neg inside]
    · exact .inl ⟨fun _ is => by cases is; simpa using indexed, if_neg indexed⟩

theorem Linked.evict (linked : Linked cfg σ) (id : Nat) : Linked cfg (σ.evictSegKeys cfg id) := by
  rcases evict_dir linked with ⟨-, same⟩ | ⟨seg, -, -, form⟩
  · rw [same]
    exact linked
  · rw [form]
    refine ⟨fun h => ?_, linked.writable⟩
    by_cases dropped : (σ.dir h).any (fun l => l.seg = id) = true
    · refine ⟨[], ?_, nodup_nil, nofun⟩
      simp only [if_pos dropped]
      exact .nil
    · obtain ⟨nodes, chain, distinct, members⟩ := linked.chained h
      refine ⟨nodes, ?_, distinct, members⟩
      simp only [if_neg dropped]
      exact chain

/-- An eviction is safe where the current records behind the heads it drops are all in segments
the probe looks into. -/
def Shard.EvictSafe (σ : Shard A) (id : Nat) : Prop :=
  ∀ h l, σ.dir h = some l → l.seg = id → ∀ node, Reaches σ.links (some l) node →
    ∀ r, σ.recordAt node = some r → r.superseded = none → σ.isProbed node.seg = true

theorem Stored.evict (stored : Stored cfg σ past) (safe : σ.EvictSafe id) :
    Stored cfg (σ.evictSegKeys cfg id) past := by
  have linked := stored.toLinked.evict id
  rcases evict_dir stored.toLinked with ⟨-, same⟩ | ⟨seg, -, -, form⟩
  · rw [same]
    exact stored
  · rw [form] at linked ⊢
    refine { stored with toLinked := linked, reached := fun l key seq ad current => ?_ }
    rcases stored.reached l key seq ad current with ⟨nodes, chain, member⟩ | probed
    · by_cases dropped : (σ.dir (cfg.hash key)).any (fun l => l.seg = id) = true
      · obtain ⟨head, isHead, atId⟩ := (Option.any_eq_true _ _).mp dropped
        obtain ⟨r, here, body, unsuperseded, -⟩ := current
        rw [isHead] at chain
        exact .inr (safe _ head isHead (of_decide_eq_true atId) l (chain.reaches member) r here unsuperseded)
      · left
        refine ⟨nodes, ?_, member⟩
        simp only [if_neg dropped]
        exact chain
    · exact .inr probed

end Evict

/-! ## Taking dead segments out of the chains -/

section Splice
variable {cfg : Config} {σ τ : Shard A} {dead : Nat → Bool}

theorem relink_spec (head : Option Loc) (σ : Shard A) :
    (Shard.spliceDeadFromChain.relink isDead rounds fuel head σ).links = unlinkDead isDead rounds fuel head σ.links ∧
      Relinked σ (Shard.spliceDeadFromChain.relink isDead rounds fuel head σ) ∧
      (Shard.spliceDeadFromChain.relink isDead rounds fuel head σ).dir = σ.dir := by
  induction fuel generalizing head σ with
  | zero => exact ⟨rfl, .refl σ, rfl⟩
  | succ fuel ih =>
    cases head with
    | none => exact ⟨rfl, .refl σ, rfl⟩
    | some l =>
      unfold Shard.spliceDeadFromChain.relink unlinkDead
      cases found : σ.links l with
      | none => exact ⟨rfl, .refl σ, rfl⟩
      | some next =>
        simp only
        split
        · obtain ⟨links, relinked, dir⟩ := ih (skipDead σ.links isDead rounds next)
            (σ.setRecNext l (skipDead σ.links isDead rounds next))
          refine ⟨?_, (Relinked.setRecNext σ l _).trans relinked, dir⟩
          rw [links, links_setRecNext]
        · exact ih (skipDead σ.links isDead rounds next) σ

theorem Relinked.members (relinked : Relinked σ τ) {nodes : List Loc}
    (members : ∀ l ∈ nodes, ∃ r key ad, σ.recordAt l = some r ∧ r.body = .ad key ad ∧ cfg.hash key = h) :
    ∀ l ∈ nodes, ∃ r key ad, τ.recordAt l = some r ∧ r.body = .ad key ad ∧ cfg.hash key = h := by
  intro l member
  obtain ⟨r, key, ad, here, body, hash⟩ := members l member
  obtain ⟨r', here', bare⟩ := relinked.symm_segs.record here
  exact ⟨r', key, ad, here', (sameReading_of_bare bare).body.symm.trans body, hash⟩

/-- The chains of two buckets have no node in common. -/
theorem Shard.Bucket.disjoint (bucket : σ.Bucket cfg h nodes)
    (other : σ.Bucket cfg h' nodes') (differs : h ≠ h') (member : l ∈ nodes) : l ∉ nodes' := by
  intro member'
  obtain ⟨r, key, ad, here, body, hash⟩ := bucket.2.2 l member
  obtain ⟨r', key', ad', here', body', hash'⟩ := other.2.2 l member'
  rw [here] at here'
  cases here'
  rw [body] at body'
  cases body'
  exact differs (hash.symm.trans hash')

/-- Splicing one bucket. -/
theorem splice_spec (bucket : σ.Bucket cfg h nodes) :
    Relinked σ (σ.spliceDeadFromChain dead h) ∧
      Chain (σ.spliceDeadFromChain dead h).links ((σ.spliceDeadFromChain dead h).dir h)
      (nodes.filter fun l => !dead l.seg) ∧
      (∀ h', h' ≠ h → (σ.spliceDeadFromChain dead h).dir h' = σ.dir h') ∧
      ∀ l, l ∉ nodes → (σ.spliceDeadFromChain dead h).links l = σ.links l := by
  have ⟨chain, distinct, members⟩ := bucket
  unfold Shard.spliceDeadFromChain
  cases head : σ.dir h with
  | none =>
    rw [head] at chain
    cases chain
    simp only [head]
    exact ⟨.refl σ, .nil, fun _ _ => trivial, fun _ _ => trivial⟩
  | some first =>
    rw [head] at chain
    have enough := chain_lt_walkBound chain distinct
    have start : Chain σ.links (skipDead σ.links (fun l : Loc => dead l.seg) σ.walkBound (some first))
        (nodes.dropWhile fun l => dead l.seg) := skipDead_chain chain enough
    let σ' : Shard A :=
      { σ with dir := update σ.dir h (skipDead σ.links (fun l : Loc => dead l.seg) σ.walkBound (some first)) }
    obtain ⟨links, relinked, dir⟩ := relink_spec
      (skipDead σ.links (fun l : Loc => dead l.seg) σ.walkBound (some first)) σ'
    have shorter : (nodes.dropWhile fun l : Loc => dead l.seg).length < σ.walkBound :=
      Nat.lt_of_le_of_lt (dropWhile_sublist_length _ nodes) enough
    have unlinked := unlinkDead_chain start (distinct.sublist (dropWhile_sublist _))
      (fun node rest first => dropWhile_head_alive first) shorter shorter
    have sameLinks : σ'.links = σ.links := links_of_segs rfl
    refine ⟨(Relinked.setDir σ _).trans relinked, ?_, fun h' differs => ?_, fun l outside => ?_⟩
    · have alive := unlinked.1
      rw [filter_dropWhile] at alive
      have starts : σ'.dir h = skipDead σ.links (fun l : Loc => dead l.seg) σ.walkBound (some first) :=
        update_self _ _ _
      rw [links, dir, starts]
      exact alive
    · rw [dir]
      exact update_of_ne differs _ _
    · rw [links]
      exact unlinked.2 l fun inside => outside ((dropWhile_sublist _).subset inside)

/-- The nodes of every chain once a bucket is spliced. -/
def dropDead (dead : Nat → Bool) (nodes : UInt64 → List Loc) (h : UInt64) : UInt64 → List Loc :=
  update nodes h ((nodes h).filter fun l => !dead l.seg)

theorem splice_buckets {nodes : UInt64 → List Loc} (buckets : ∀ h, σ.Bucket cfg h (nodes h)) (h : UInt64) :
    ∀ h', (σ.spliceDeadFromChain dead h).Bucket cfg h' (dropDead dead nodes h h') := by
  obtain ⟨relinked, chain, otherHeads, otherLinks⟩ := splice_spec (buckets h)
  intro h'
  unfold dropDead
  by_cases same : h' = h
  · subst same
    rw [update_self]
    refine ⟨chain, (buckets h').2.1.filter _, relinked.members fun l member => ?_⟩
    exact (buckets h').2.2 l (mem_of_mem_filter member)
  · rw [update_of_ne same]
    refine ⟨?_, (buckets h').2.1, relinked.members (buckets h').2.2⟩
    rw [otherHeads h' same]
    exact (buckets h').1.congr fun l member => otherLinks l ((buckets h').disjoint (buckets h) same member)

/-- Splicing bucket after bucket: afterwards no chain of theirs has a dead node. -/
theorem splice_all {hashes : List UInt64} {nodes : UInt64 → List Loc} (buckets : ∀ h, σ.Bucket cfg h (nodes h)) :
    let spliced := hashes.foldl (fun σ h => σ.spliceDeadFromChain dead h) σ
    Relinked σ spliced ∧
      ∀ h, spliced.Bucket cfg h (if h ∈ hashes then (nodes h).filter fun l => !dead l.seg else nodes h) := by
  induction hashes generalizing σ nodes with
  | nil => exact ⟨.refl σ, fun h => by simpa using buckets h⟩
  | cons h rest ih =>
    obtain ⟨relinked, after⟩ := ih (splice_buckets buckets h)
    refine ⟨(splice_spec (buckets h)).1.trans relinked, fun h' => ?_⟩
    have bucket := after h'
    unfold dropDead at bucket
    by_cases same : h' = h
    · subst same
      rw [update_self, filter_filter] at bucket
      simp only [Bool.and_self, ite_self] at bucket
      rw [if_pos (.head _)]
      exact bucket
    · rw [update_of_ne same] at bucket
      simp only [mem_cons, same, false_or]
      exact bucket

end Splice

/-! ## Emptying slots -/

section Retire
variable {cfg : Config} {σ : Shard A} {gone : Nat → Bool}

theorem arena_retire (σ : Shard A) (gone : Nat → Bool) : (σ.retire gone).arena = clear σ.arena gone := by
  unfold Shard.arena retire clear
  apply ext_getElem?
  intro i
  simp only [getElem?_map, getElem?_mapIdx]
  cases σ.segs[i]? with
  | none => rfl
  | some seg =>
    by_cases dropped : gone i = true
    · simp [dropped, Segment.live]
    · simp [dropped]

theorem recordAt_retire (σ : Shard A) (gone : Nat → Bool) (l : Loc) :
    (σ.retire gone).recordAt l = if gone l.seg then none else σ.recordAt l := by
  rw [Shard.recordAt, arena_retire, cellAt_clear]
  rfl

/-- What is there after links changed and slots were emptied was there before, up to its link. -/
theorem Relinked.retired_record (relinked : Relinked σ τ) (here : (τ.retire gone).recordAt l = some r) :
    gone l.seg = false ∧ ∃ r₀, σ.recordAt l = some r₀ ∧ r.bare = r₀.bare := by
  rw [recordAt_retire] at here
  split at here
  · cases here
  next alive => exact ⟨by simpa using alive, relinked.record here⟩

theorem links_retire (kept : gone l.seg = false) : (σ.retire gone).links l = σ.links l := by
  rw [links, recordAt_retire, kept]
  rfl

theorem getElem?_retire (σ : Shard A) (gone : Nat → Bool) (id : Nat) :
    (σ.retire gone).segs[id]? = (σ.segs[id]?).map fun seg => if gone id then { seg with retired := true } else seg := by
  rw [retire, getElem?_mapIdx]

theorem isProbed_retire {id : Nat} (kept : gone id = false) : (σ.retire gone).isProbed id = σ.isProbed id := by
  unfold Shard.isProbed
  rw [getElem?_retire, kept]
  cases σ.segs[id]? <;> rfl

theorem Shard.Bucket.retire (bucket : σ.Bucket cfg h nodes)
    (alive : ∀ l ∈ nodes, gone l.seg = false) : (σ.retire gone).Bucket cfg h nodes := by
  obtain ⟨chain, distinct, members⟩ := bucket
  refine ⟨chain.congr fun l member => links_retire (alive l member), distinct, fun l member => ?_⟩
  rw [recordAt_retire, alive l member]
  exact members l member

theorem Shard.Writable.retire (writable : σ.Writable) (kept : ∀ id, σ.act = some id → gone id = false) :
    (σ.retire gone).Writable := by
  intro id isActive
  obtain ⟨seg, here, notRetired, notIndexed⟩ := writable id isActive
  rw [getElem?_retire, here, kept id isActive]
  exact ⟨seg, rfl, notRetired, notIndexed⟩

theorem Counted.retireAll (counted : ∀ seg ∈ σ.segs, Counted seg) : ∀ seg ∈ (σ.retire gone).segs, Counted seg := by
  intro seg member
  obtain ⟨id, here⟩ := mem_iff_getElem?.mp member
  rw [getElem?_retire] at here
  obtain ⟨seg₀, found, rfl⟩ := Option.map_eq_some_iff.mp here
  have counted₀ := counted seg₀ (mem_of_getElem? found)
  split
  · exact ⟨counted₀.dead, counted₀.minSeq, counted₀.positive, counted₀.attained⟩
  · exact counted₀

theorem currents_retire (hidden : ∀ l r, gone l.seg = true → σ.recordAt l = some r → r.currentPair = none) :
    (σ.retire gone).currents = σ.currents := by
  rw [currents, arena_retire, filterMap_clear hidden]
  rfl

theorem visibles_retire (hidden : ∀ l r, gone l.seg = true → σ.recordAt l = some r → r.pairAt x = none) :
    (σ.retire gone).visibles x = σ.visibles x := by
  rw [visibles, arena_retire, filterMap_clear hidden]
  rfl

end Retire

/-! ## Reclaims -/

section Reclaim
variable {cfg : Config} {σ : Shard A} {past : History A}

theorem isReclaimable_iff {retain id : Nat} : σ.isReclaimable retain id = true ↔ ∃ seg, σ.segs[id]? = some seg ∧
    seg.retired = false ∧ σ.act ≠ some id ∧ seg.records ≠ [] ∧ seg.used ≤ seg.dead ∧ seg.maxSup ≤ retain := by
  unfold Shard.isReclaimable
  cases σ.segs[id]? with
  | none => simp
  | some seg => simp [and_assoc]

/-- The steps of a reclaim: the chains lose their dead nodes, then the dead slots are emptied. -/
theorem reclaim_cases (linked : Linked cfg σ) {now : Nat} :
    σ.reclaimDeadShard cfg now = σ ∨ ∃ (spliced : Shard A) (nodes : UInt64 → List Loc), Relinked σ spliced ∧
        (∀ h, spliced.Bucket cfg h (nodes h) ∧ ∀ l ∈ nodes h, σ.isReclaimable (σ.retainFloor cfg now) l.seg = false) ∧
        (∀ key l, σ.isReclaimable (σ.retainFloor cfg now) l.seg = false →
          ((spliced.retire (σ.isReclaimable (σ.retainFloor cfg now))).Reached cfg key l ↔ σ.Reached cfg key l)) ∧
          σ.reclaimDeadShard cfg now =
          ((spliced.retire (σ.isReclaimable (σ.retainFloor cfg now))).dropDirtySegs
            (σ.isReclaimable (σ.retainFloor cfg now))).raiseFloor (σ.retainFloor cfg now) := by
  unfold Shard.reclaimDeadShard
  simp only
  generalize σ.retainFloor cfg now = retain
  split
  · exact .inl rfl
  · right
    choose nodes buckets using linked.chained
    generalize isHashes : (((range σ.segs.length).filter (σ.isReclaimable retain)).flatMap fun id =>
      (σ.segs[id]?).elim [] fun seg => seg.records.map fun r => cfg.hash r.key).eraseDups = hashes
    obtain ⟨relinked, after⟩ := splice_all buckets
    -- A bucket that is not spliced has no dead node, since that node's hash would be listed.
    have listed : ∀ h l, l ∈ nodes h → σ.isReclaimable retain l.seg = true → h ∈ hashes := by
      intro h l member dead
      obtain ⟨r, key, ad, here, body, hash⟩ := (buckets h).2.2 l member
      obtain ⟨seg, found, -⟩ := isReclaimable_iff.mp dead
      have raw := pinnedAt_of_recordAt here
      rw [pinnedAt, found, Option.bind_some] at raw
      rw [← isHashes, mem_eraseDups, mem_flatMap]
      refine ⟨l.seg, List.mem_filter.mpr ⟨List.mem_range.mpr (List.getElem?_eq_some_iff.mp found).1, dead⟩, ?_⟩
      rw [found]
      refine mem_map.mpr ⟨r, mem_of_getElem? raw, ?_⟩
      rw [Record.key, body]
      exact hash
    have alive : ∀ h, ∀ l ∈ (if h ∈ hashes then (nodes h).filter fun l => !σ.isReclaimable retain l.seg else nodes h),
        σ.isReclaimable retain l.seg = false := by
      intro h l member
      split at member
      · simpa using (List.mem_filter.mp member).2
      next unlisted =>
        by_contra dead
        exact unlisted (listed h l member (by simpa using dead))
    refine ⟨_, _, relinked, fun h => ⟨after h, alive h⟩, fun key l stays => ?_, rfl⟩
    have bucket := (after (cfg.hash key)).retire (alive (cfg.hash key))
    have kept : l ∈ (if cfg.hash key ∈ hashes then (nodes (cfg.hash key)).filter fun l => !σ.isReclaimable retain l.seg
        else nodes (cfg.hash key)) ↔ l ∈ nodes (cfg.hash key) := by
      split <;> simp [stays]
    unfold Shard.Reached
    rw [isProbed_retire stays, relinked.isProbed]
    refine or_congr_left ⟨?_, ?_⟩
    · rintro ⟨others, chain, member⟩
      rw [chain.unique bucket.1] at member
      exact ⟨_, (buckets _).1, kept.mp member⟩
    · rintro ⟨others, chain, member⟩
      rw [chain.unique (buckets _).1] at member
      exact ⟨_, bucket.1, kept.mpr member⟩

theorem Linked.reclaim (linked : Linked cfg σ) (now : Nat) : Linked cfg (σ.reclaimDeadShard cfg now) := by
  rcases reclaim_cases linked with same | ⟨spliced, nodes, relinked, buckets, -, form⟩
  · rw [same]
    exact linked
  · rw [form]
    have act : spliced.act = σ.act := by
      obtain ⟨segs, dir, rfl⟩ := relinked.rest
      rfl
    have retired : Linked cfg (spliced.retire (σ.isReclaimable (σ.retainFloor cfg now))) := by
      refine ⟨fun h => ⟨nodes h, (buckets h).1.retire (buckets h).2⟩, (relinked.writable linked.writable).retire
        fun id isActive => ?_⟩
      rw [act] at isActive
      by_contra dead
      obtain ⟨seg, -, -, inactive, -⟩ := isReclaimable_iff.mp (by simpa using dead)
      exact inactive isActive
    exact retired.of_fields rfl rfl rfl

/-- A record that nobody can read from a sequence on. -/
def Record.Expired (retain : Nat) (r : Record A) : Prop := r.isMarker = true ∨ ∃ x, r.superseded = some x ∧ x ≤ retain

theorem Record.Expired.currentPair {r : Record A} (expired : r.Expired retain) : r.currentPair = none := by
  rcases expired with marker | ⟨x, superseded, -⟩
  · exact Record.currentPair_marker marker
  · unfold Record.currentPair
    rw [superseded]
    cases r.body <;> rfl

theorem Record.Expired.pairAt {r : Record A} (expired : r.Expired retain) (above : retain ≤ x) : r.pairAt x = none := by
  rcases expired with marker | ⟨y, superseded, upTo⟩
  · exact Record.pairAt_marker marker
  · have invisible : r.visibleAt x = false := by
      rw [Record.visibleAt, Record.supersededAfter, superseded]
      simp only [Bool.and_eq_false_iff, decide_eq_false_iff_not]
      omega
    unfold Record.pairAt
    rw [invisible]
    cases r.body <;> rfl

theorem Relinked.expired (relinked : Relinked σ τ) {dead : Nat → Bool}
    (expired : ∀ l r, dead l.seg = true → σ.recordAt l = some r → r.Expired retain) :
    ∀ l r, dead l.seg = true → τ.recordAt l = some r → r.Expired retain := by
  intro l r isDead here
  obtain ⟨r₀, here₀, bare⟩ := relinked.record here
  have reading := sameReading_of_bare bare
  unfold Record.Expired
  rw [reading.isMarker, reading.superseded]
  exact expired l r₀ isDead here₀

theorem reclaimable_expired (counted : ∀ seg ∈ σ.segs, Counted seg) {retain : Nat} :
    ∀ l r, σ.isReclaimable retain l.seg = true → σ.recordAt l = some r → r.Expired retain := by
  intro l r dead here
  obtain ⟨seg, found, -, -, -, allDead, maxSup⟩ := isReclaimable_iff.mp dead
  have raw := pinnedAt_of_recordAt here
  rw [pinnedAt, found, Option.bind_some] at raw
  have counts := counted seg (mem_of_getElem? found)
  by_cases marker : r.isMarker = true
  · exact .inl marker
  · have keyed : r.isMarker = false := by simpa using marker
    obtain ⟨x, sup, covered⟩ := counts.settled allDead (mem_of_getElem? raw) keyed
    exact .inr ⟨x, sup, Nat.le_trans covered maxSup⟩

/-- A pass that moves and drops records keeps what is stored, as long as it keeps the current
records and those visible from its retention floor on. -/
theorem Stored.rearrange (stored : Stored cfg σ past) (linked : Linked cfg τ)
    (origin : ∀ l r, τ.recordAt l = some r → r.isMarker = false → ∃ l₀ r₀, σ.recordAt l₀ = some r₀ ∧ SameReading r₀ r)
    (currents : τ.currents.Perm σ.currents) (visibles : ∀ x, retain ≤ x → (τ.visibles x).Perm (σ.visibles x))
    (reached : ∀ l key seq ad, τ.IsCurrent l key seq ad →
      (∃ nodes, Chain τ.links (τ.dir (cfg.hash key)) nodes ∧ l ∈ nodes) ∨ τ.isProbed l.seg = true)
    (counted : ∀ seg ∈ τ.segs, Counted seg) (commitSeq : τ.commitSeq = σ.commitSeq)
    (gcFloor : τ.gcFloor = max σ.gcFloor retain)
    (count : τ.count = σ.count) (children : τ.childCount = σ.childCount) : Stored cfg τ past := by
  have tally : ∀ test, τ.tally test = σ.tally test := fun test => currents.countP_eq _
  refine { toLinked := linked, stamped := ?_, listed := ?_, reached := reached, counted := counted, count := ?_,
           children := fun parent => ?_, history := fun x above upTo => ?_, recorded :=
             fun x upTo key pair member => ?_ }
  · intro l r here keyed
    obtain ⟨l₀, r₀, here₀, reading⟩ := origin l r here keyed
    exact commitSeq ▸ reading.stampedBy (stored.stamped l₀ r₀ here₀) keyed
  · rw [commitSeq]
    exact stored.listed.perm currents.symm
  · rw [count, stored.count, tally]
  · rw [children, stored.children, tally]
  · rw [gcFloor] at above
    rw [commitSeq] at upTo
    have floor : σ.gcFloor ≤ x := Nat.le_trans (Nat.le_max_left _ _) above
    exact (stored.history x floor upTo).perm (visibles x (Nat.le_trans (Nat.le_max_right _ _) above)).symm
  · obtain ⟨r, inside, isPair⟩ := mem_filterMap.mp member
    obtain ⟨l, here⟩ := mem_records_iff.mp inside
    have keyed : r.isMarker = false := by
      by_contra marker
      rw [Record.pairAt_marker (by simpa using marker)] at isPair
      cases isPair
    obtain ⟨l₀, r₀, here₀, reading⟩ := origin l r here keyed
    refine stored.recorded x (commitSeq ▸ upTo) key pair (mem_filterMap.mpr ⟨r₀, mem_records_iff.mpr ⟨l₀, here₀⟩, ?_⟩)
    rw [← pairAt_sameReading x reading, isPair]

theorem Stored.reclaim (stored : Stored cfg σ past) (now : Nat) : Stored cfg (σ.reclaimDeadShard cfg now) past := by
  have linked := stored.toLinked.reclaim now
  rcases reclaim_cases stored.toLinked with same | ⟨spliced, nodes, relinked, buckets, covered, form⟩
  · rw [same]
    exact stored
  · rw [form] at linked ⊢
    generalize isRetain : σ.retainFloor cfg now = retain at *
    have before : ∀ l r, σ.isReclaimable retain l.seg = true → σ.recordAt l = some r → r.Expired retain :=
      reclaimable_expired stored.counted
    have expired := relinked.expired before
    have currents : (spliced.retire (σ.isReclaimable retain)).currents = σ.currents :=
      (currents_retire fun l r dead here => (expired l r dead here).currentPair).trans relinked.currents
    apply stored.rearrange linked
    · intro l r here _
      obtain ⟨-, r₀, here₀, bare⟩ := relinked.retired_record here
      exact ⟨l, r₀, here₀, sameReading_of_bare bare⟩
    · exact .of_eq currents
    · intro x above
      exact .of_eq ((visibles_retire fun l r dead here => (expired l r dead here).pairAt above).trans
        (relinked.visibles x))
    · rintro l key seq ad ⟨r, here, body, current, isSeq⟩
      obtain ⟨alive, r₀, here₀, bare⟩ := relinked.retired_record here
      have reading := sameReading_of_bare bare
      have before : σ.IsCurrent l key seq ad :=
        ⟨r₀, here₀, reading.body.symm.trans body, reading.superseded.symm.trans current, reading.seq.symm.trans isSeq⟩
      exact (covered key l alive).mpr (stored.reached l key seq ad before)
    · exact Counted.retireAll (relinked.counted stored.counted)
    all_goals
      obtain ⟨segs, dir, rfl⟩ := relinked.rest
      rfl

end Reclaim

end Classad.ShardStore
