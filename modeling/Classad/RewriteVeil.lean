import Classad.SegmentRewrite

/-! Between the swap of a rewritten segment and the reindex, some segments wait for their key
index and some buckets lead astray. The shard with those segments indexed and those buckets
empty is one that the invariant holds of, and a write whose key the shard can see does the same
to both. -/
namespace Classad.ShardStore
open Arena Chains Listing Function Option
open List hiding head Chain
open Shard (appendTo arena del endOf holdsCurrent isProbed links locate pinnedAt put recordAt walkBound)

variable {A : Type}

/-- The shard with the marked segments indexed and the torn buckets empty. -/
def Shard.veil (kind : Rewrite) (torn : UInt64 → Bool) (marked : Nat → Bool) (σ : Shard A) : Shard A :=
  { σ with
    segs := σ.segs.mapIdx fun id seg => if marked id then seg.veiled kind else seg
    dir := fun h => if torn h then none else σ.dir h }

/-- Whether a write or a read of a key finds its way: the bucket is in order, and the current ad
is in it or in an indexed segment. -/
def Shard.Sees (cfg : Config) (σ : Shard A) (key : Key) : Prop :=
  (∃ nodes, σ.Bucket cfg (cfg.hash key) nodes) ∧ ∀ l seq ad, σ.IsCurrent l key seq ad →
    (∃ nodes, Chain σ.links (σ.dir (cfg.hash key)) nodes ∧ l ∈ nodes) ∨ σ.isProbed l.seg = true

section Fields
variable {kind : Rewrite} {torn : UInt64 → Bool} {marked : Nat → Bool} {σ : Shard A}

theorem veiled_records {kind : Rewrite} {seg : Segment A} : (seg.veiled kind).records = seg.records := by
    cases kind <;> rfl

theorem veiled_retired (kind : Rewrite) (seg : Segment A) : (seg.veiled kind).retired = seg.retired := by
    cases kind <;> rfl

theorem veiled_keyIndexed (kind : Rewrite) (seg : Segment A) : (seg.veiled kind).keyIndexed = true := by
    cases kind <;> rfl

theorem live_veiled {seg : Segment A} : (seg.veiled kind).live = seg.live := by cases kind <;> rfl

theorem getElem?_veil (i : Nat) :
    (σ.veil kind torn marked).segs[i]? = (σ.segs[i]?).map fun seg => if marked i then seg.veiled kind else seg :=
  getElem?_mapIdx

theorem length_veil : (σ.veil kind torn marked).segs.length = σ.segs.length := length_mapIdx

theorem arena_veil : (σ.veil kind torn marked).arena = σ.arena := by
  apply ext_getElem?
  intro i
  rw [arena, arena, getElem?_map, getElem?_map, getElem?_veil, Option.map_map]
  congr 1
  funext seg
  split
  · exact live_veiled
  · rfl

theorem recordAt_veil : (σ.veil kind torn marked).recordAt l = σ.recordAt l := by
  rw [recordAt, recordAt, arena_veil]

theorem links_veil : (σ.veil kind torn marked).links = σ.links := by
  funext l
  rw [links, links, recordAt_veil]

theorem pinnedAt_veil (l : Loc) : (σ.veil kind torn marked).pinnedAt l = σ.pinnedAt l := by
  rw [pinnedAt, pinnedAt, getElem?_veil]
  cases σ.segs[l.seg]? with
  | none => rfl
  | some seg =>
    simp only [map_some, bind_some]
    split
    · rw [veiled_records]
    · rfl

theorem dir_of_torn (isTorn : torn h = true) : (σ.veil kind torn marked).dir h = none := if_pos isTorn

theorem dir_of_intact (intact : torn h = false) : (σ.veil kind torn marked).dir h = σ.dir h := if_neg (by simp [intact])

theorem isCurrent_veil : (σ.veil kind torn marked).IsCurrent l key seq ad ↔ σ.IsCurrent l key seq ad := by
  rw [Shard.IsCurrent, Shard.IsCurrent, recordAt_veil]

theorem findCurrent_veil (head : Option Loc) (key : Key) :
    (σ.veil kind torn marked).findCurrent head key = σ.findCurrent head key := by
  have holds : (σ.veil kind torn marked).holdsCurrent key = σ.holdsCurrent key := by
    funext l
    rw [holdsCurrent, holdsCurrent, recordAt_veil]
  rw [Shard.findCurrent, Shard.findCurrent, links_veil, holds, walkBound, walkBound, arena_veil]

theorem isProbed_veil {id : Nat} (probed : σ.isProbed id = true) : (σ.veil kind torn marked).isProbed id = true := by
  unfold isProbed at probed ⊢
  rw [getElem?_veil]
  cases here : σ.segs[id]? with
  | none => rw [here] at probed; cases probed
  | some seg =>
    rw [here] at probed
    simp only [Bool.and_eq_true] at probed
    obtain ⟨⟨alive, indexed⟩, inactive⟩ := probed
    dsimp only [map_some]
    split
    · rw [veiled_retired, veiled_keyIndexed, alive, Bool.true_and]
      exact inactive
    · rw [alive, indexed, Bool.true_and]
      exact inactive

theorem isProbed_of_marked (found : σ.recordAt l = some r) (isMarked : marked l.seg = true)
    (inactive : σ.act ≠ some l.seg) : (σ.veil kind torn marked).isProbed l.seg = true := by
  rw [recordAt_eq] at found
  obtain ⟨seg, here, inside⟩ := bind_eq_some_iff.mp found
  have alive : seg.retired = false := by
    by_contra retired
    rw [if_pos (by simpa using retired)] at inside
    cases inside
  unfold isProbed
  rw [getElem?_veil, here, map_some, isMarked, if_pos rfl]
  simp only [veiled_retired, veiled_keyIndexed, alive, Bool.not_false, Bool.and_self, Bool.true_and, bne_iff_ne]
  exact inactive

theorem probed_inactive {id : Nat} (probed : σ.isProbed id = true) : σ.act ≠ some id := by
  unfold isProbed at probed
  cases here : σ.segs[id]? with
  | none => rw [here] at probed; cases probed
  | some seg =>
    rw [here] at probed
    simp only [Bool.and_eq_true, bne_iff_ne] at probed
    exact probed.2

/-- The active segment is none of the marked. -/
theorem writable_of_veil (writable : (σ.veil kind torn marked).Writable) :
    σ.Writable ∧ ∀ id, σ.act = some id → marked id = false := by
  have both : ∀ id, σ.act = some id → marked id = false ∧ ∃ seg, σ.segs[id]? = some seg ∧ seg.retired = false ∧
      seg.keyIndexed = false := by
    intro id active
    obtain ⟨seg', here', notRetired, notIndexed⟩ := writable id active
    rw [getElem?_veil] at here'
    obtain ⟨seg, here, rfl⟩ := map_eq_some_iff.mp here'
    cases isMarked : marked id with
    | true =>
      rw [isMarked, if_pos rfl, veiled_keyIndexed] at notIndexed
      cases notIndexed
    | false =>
      rw [isMarked] at notRetired notIndexed
      exact ⟨rfl, seg, here, notRetired, notIndexed⟩
  exact ⟨fun id active => (both id active).2, fun id active => (both id active).1⟩

end Fields

/-! ## Writes behind the veil -/

section Writes
variable {cfg : Config} {kind : Rewrite} {torn : UInt64 → Bool} {marked : Nat → Bool} {σ : Shard A}

theorem veil_modifySeg {id : Nat}
    (same : marked id = true → ∀ seg : Segment A, f (seg.veiled kind) = (f seg).veiled kind) :
    (σ.modifySeg id f).veil kind torn marked = (σ.veil kind torn marked).modifySeg id f := by
  have segs : ((σ.modifySeg id f).veil kind torn marked).segs = ((σ.veil kind torn marked).modifySeg id f).segs := by
    apply ext_getElem?
    intro i
    rw [getElem?_veil, getElem?_modifySeg, getElem?_modifySeg, getElem?_veil]
    by_cases here : id = i
    · subst here
      rw [if_pos rfl, if_pos rfl, Option.map_map, Option.map_map]
      congr 1
      funext seg
      split
      next isMarked =>
        exact (same isMarked seg).symm
      · rfl
    · rw [if_neg here, if_neg here]
  exact congrArg (fun segs => { σ.veil kind torn marked with segs := segs }) segs

theorem supersedeRec_veiled {seg : Segment A} (off seq : Nat) :
    (seg.veiled kind).supersedeRec off seq = (seg.supersedeRec off seq).veiled kind := by
  unfold Segment.supersedeRec
  rw [veiled_records]
  cases seg.records[off]? <;> cases kind <;> rfl

theorem veil_supersedeRec {seq : Nat} :
    (σ.supersedeRec l seq).veil kind torn marked = (σ.veil kind torn marked).supersedeRec l seq :=
  veil_modifySeg fun _ _ => supersedeRec_veiled l.off seq

theorem veil_markDirty (id : Nat) : (σ.markDirty cfg id).veil kind torn marked =
    (σ.veil kind torn marked).markDirty cfg id := by
  unfold Shard.markDirty Shard.veil
  split <;> rfl

theorem veil_noteSup (l : Loc) : (σ.noteSup cfg l).veil kind torn marked = (σ.veil kind torn marked).noteSup cfg l := by
  unfold Shard.noteSup Shard.veil
  split <;> rfl

theorem veil_appendTo {id : Nat} (plain : marked id = false) (seq : Nat) (next : Option Loc) (body : Body A)
    (len : Nat) :
    (σ.appendTo cfg id seq next body len).veil kind torn marked =
      (σ.veil kind torn marked).appendTo cfg id seq next body len := by
  rw [appendTo, appendTo, veil_markDirty, veil_modifySeg]
  rw [plain]
  nofun

theorem veil_allocate (free : marked σ.segs.length = false) (size codec : Nat) :
    (σ.allocate size codec).veil kind torn marked = (σ.veil kind torn marked).allocate size codec := by
  unfold Shard.allocate Shard.veil
  rw [mapIdx_concat, free, length_mapIdx]
  rfl

theorem activeFor_veil (codec len : Nat) : (σ.veil kind torn marked).activeFor codec len = σ.activeFor codec len := by
  unfold Shard.activeFor
  have active : (σ.veil kind torn marked).act = σ.act := rfl
  rw [active]
  cases σ.act with
  | none => rfl
  | some id =>
    dsimp only
    rw [getElem?_veil]
    cases σ.segs[id]? with
    | none => rfl
    | some seg =>
      dsimp only [map_some]
      cases kind <;> split <;> rfl

theorem endOf_veil (id : Nat) : (σ.veil kind torn marked).endOf id = σ.endOf id := by
  rw [endOf, endOf, getElem?_veil]
  cases σ.segs[id]? with
  | none => rfl
  | some seg =>
    simp only [map_some, elim_some]
    split
    · rw [veiled_records]
    · rfl

theorem writeRecord_veil (free : marked σ.segs.length = false) (inactive : ∀ id, σ.act = some id → marked id = false)
    (next : Option Loc) (w : PendingPut A) :
    (σ.veil kind torn marked).writeRecord cfg seq next w =
      ((σ.writeRecord cfg seq next w).1.veil kind torn marked, (σ.writeRecord cfg seq next w).2) := by
  unfold Shard.writeRecord
  rw [activeFor_veil]
  cases found : σ.activeFor w.codec w.recordLen with
  | some id =>
    dsimp only
    rw [veil_appendTo (inactive id (activeFor_some found).1), endOf_veil]
  | none =>
    dsimp only
    split
    · rfl
    · rw [length_veil, ← veil_allocate free, veil_appendTo free]

theorem lookupSealed_some (nonempty : key ≠ []) (found : σ.lookupSealed key = some l) :
    σ.isProbed l.seg = true ∧ ∃ seq ad, σ.IsCurrent l key seq ad := by
  have searched : σ.search none key = some l := by
    exact found
  obtain ⟨place, r, here, current, same⟩ := search_some .nil nodup_nil searched
  obtain ⟨ad, body⟩ := Record.body_of_key (Record.isMarker_of_key same nonempty)
  exact ⟨place.resolve_left not_mem_nil, r.seq, ad, r, here, same ▸ body, current, rfl⟩

/-- The probe of the veiled shard finds the same record, unless that is in a segment only the veil
has an index of. -/
theorem lookupSealed_veil (nonempty : key ≠ [])
    (unique : ∀ l l' seq seq' ad ad', σ.IsCurrent l key seq ad → σ.IsCurrent l' key seq' ad' →
      (σ.veil kind torn marked).isProbed l.seg = true → (σ.veil kind torn marked).isProbed l'.seg = true → l = l')
    (seen : ∀ l seq ad, σ.IsCurrent l key seq ad → (σ.veil kind torn marked).isProbed l.seg = true →
      σ.isProbed l.seg = true) :
    (σ.veil kind torn marked).lookupSealed key = σ.lookupSealed key := by
  cases found : (σ.veil kind torn marked).lookupSealed key with
  | some l =>
    obtain ⟨probed, seq, ad, isCurrent⟩ := lookupSealed_some nonempty found
    have current : σ.IsCurrent l key seq ad := isCurrent_veil.mp isCurrent
    cases found' : σ.lookupSealed key with
    | none =>
      have missed := lookupSealed_none found' current
      rw [seen l seq ad current probed] at missed
      cases missed
    | some l' =>
      obtain ⟨probed', seq', ad', current'⟩ := lookupSealed_some nonempty found'
      rw [unique l l' seq seq' ad ad' current current' probed (isProbed_veil probed')]
  | none =>
    cases found' : σ.lookupSealed key with
    | none => rfl
    | some l' =>
      obtain ⟨probed', seq', ad', current'⟩ := lookupSealed_some nonempty found'
      have missed := lookupSealed_none found (isCurrent_veil.mpr current')
      rw [isProbed_veil probed'] at missed
      cases missed

theorem replaceOld_veil
    (same : σ.findCurrent head key = none → (σ.veil kind torn marked).lookupSealed key = σ.lookupSealed key)
    (seq : Nat) :
    (σ.replaceOld cfg head key seq).veil kind torn marked = (σ.veil kind torn marked).replaceOld cfg head key seq := by
  unfold Shard.replaceOld
  rw [findCurrent_veil]
  cases found : σ.findCurrent head key with
  | some old => exact veil_supersedeRec
  | none =>
    rw [same found]
    cases σ.lookupSealed key with
    | some old =>
      rw [veil_noteSup, veil_supersedeRec]
    | none => rfl

variable {past : History A}

/-- A current record in the chain is found there. -/
theorem findCurrent_ne_none (chain : Chain σ.links head nodes) (distinct : nodes.Nodup)
    (member : l ∈ nodes) (current : σ.IsCurrent l key seq ad) : σ.findCurrent head key ≠ none := by
  intro missing
  rw [findCurrent_chain chain distinct] at missing
  obtain ⟨r, here, body, unsuperseded, -⟩ := current
  apply find?_eq_none.mp missing l member
  simp [holdsCurrent, here, Record.isCurrent_iff.mpr unsuperseded, Record.key, body]

section
variable (stored : Stored cfg (σ.veil kind torn marked) past)
include stored

theorem locate_veil (nonempty : key ≠ []) (sees : σ.Sees cfg key)
    (intact : torn (cfg.hash key) = false) : (σ.veil kind torn marked).locate cfg key = σ.locate cfg key := by
  obtain ⟨⟨nodes, chain, distinct, -⟩, reached⟩ := sees
  have head : (σ.veil kind torn marked).dir (cfg.hash key) = σ.dir (cfg.hash key) := dir_of_intact intact
  rw [locate, locate, head, findCurrent_veil]
  cases found : σ.findCurrent (σ.dir (cfg.hash key)) key with
  | some l => rfl
  | none =>
    refine lookupSealed_veil nonempty ?_ ?_
    · intro l l' seq seq' ad ad' first second _ _
      exact stored.current_unique (isCurrent_veil.mpr first) (isCurrent_veil.mpr second)
    · intro l seq ad current _
      rcases reached l seq ad current with ⟨others, chain', member⟩ | probed
      · rw [chain'.unique chain] at member
        exact absurd found (findCurrent_ne_none chain distinct member current)
      · exact probed

theorem put_veil (free : marked σ.segs.length = false)
    (nonempty : w.key ≠ []) (sees : σ.Sees cfg w.key) (intact : torn (cfg.hash w.key) = false) (seq : Nat) :
    (σ.put cfg seq w).veil kind torn marked = (σ.veil kind torn marked).put cfg seq w := by
  obtain ⟨⟨nodes, chain, distinct, -⟩, reached⟩ := sees
  obtain ⟨writable, inactive⟩ := writable_of_veil stored.writable
  have head : (σ.veil kind torn marked).dir (cfg.hash w.key) = σ.dir (cfg.hash w.key) := dir_of_intact intact
  unfold put
  have both : (σ.veil kind torn marked).writeRecord cfg seq (σ.dir (cfg.hash w.key)) w = _ :=
    writeRecord_veil free inactive _ w
  dsimp only
  rw [head, both]
  rcases writeRecord_spec cfg writable seq (σ.dir (cfg.hash w.key)) w with ⟨-, failed⟩ | ⟨τ, new, -, stores, written⟩
  · rw [failed]
  · rw [stores] at both
    rw [stores]
    -- The record is written to a segment that no probe looks into, with the veil or without.
    have unprobed : (τ.veil kind torn marked).isProbed new.seg = false := by
      rcases writeRecord_spec cfg stored.writable seq (σ.dir (cfg.hash w.key)) w with ⟨-, failed⟩ | ⟨τ', new', -,
        stores', written'⟩
      · rw [failed] at both
        cases (Prod.mk.inj both).2
      · rw [stores'] at both
        obtain ⟨same, isNew⟩ := Prod.mk.inj both
        cases isNew
        rw [← same]
        exact written'.unprobed
    have earlier : ∀ {l seq ad}, τ.IsCurrent l w.key seq ad → (τ.veil kind torn marked).isProbed l.seg = true →
        σ.IsCurrent l w.key seq ad := by
      rintro l seq ad ⟨r, here, isAd⟩ probed
      refine ⟨r, ?_, isAd⟩
      rcases written.appends.some_cases here with ⟨rfl, -⟩ | before
      · rw [unprobed] at probed
        cases probed
      · exact before
    have same : τ.findCurrent (σ.dir (cfg.hash w.key)) w.key = none →
        (τ.veil kind torn marked).lookupSealed w.key = τ.lookupSealed w.key := by
      intro missing
      refine lookupSealed_veil nonempty ?_ ?_
      · intro l l' seq seq' ad ad' first second probed probed'
        exact stored.current_unique (isCurrent_veil.mpr (earlier first probed))
          (isCurrent_veil.mpr (earlier second probed'))
      · intro l seq ad current probed
        rcases reached l seq ad (earlier current probed) with ⟨others, chain', member⟩ | probed'
        · rw [chain'.unique chain] at member
          exact absurd missing (findCurrent_ne_none (written.appends.chain chain) distinct member current)
        · rw [written.probed writable]
          exact probed'
    dsimp only
    rw [← replaceOld_veil same]
    have dirs : ∀ ρ : Shard A, (fun h => if torn h then none else update ρ.dir (cfg.hash w.key) (some new) h) =
        update (fun h => if torn h then none else ρ.dir h) (cfg.hash w.key) (some new) := by
      intro ρ
      funext h
      by_cases here : h = cfg.hash w.key
      · rw [here, update_self, update_self, intact]
        rfl
      · rw [update_of_ne here, update_of_ne here]
    exact congrArg (fun dir => { (τ.replaceOld cfg (σ.dir (cfg.hash w.key)) w.key seq).veil kind torn marked
      with dir := dir }) (dirs _)

theorem del_veil (nonempty : key ≠ []) (sees : σ.Sees cfg key)
    (intact : torn (cfg.hash key) = false) (seq : Nat) :
    (σ.veil kind torn marked).del cfg seq key = ((σ.del cfg seq key).1.veil kind torn marked,
      (σ.del cfg seq key).2) := by
  unfold del
  rw [locate_veil stored nonempty sees intact]
  cases σ.locate cfg key with
  | none => rfl
  | some old =>
    dsimp only
    rw [← veil_supersedeRec, ← veil_noteSup]
    cases cfg.childParentHash key with
    | none => rfl
    | some parent =>
      change (if ((σ.supersedeRec old seq).noteSup cfg old).childCount parent - 1 ≤ 0 then _ else _) = _
      dsimp only
      split <;> rfl

end

theorem maybeCheckpoint_veil (inactive : ∀ id, σ.act = some id → marked id = false) (seq now : Nat) :
    (σ.maybeCheckpoint cfg seq now).veil kind torn marked = (σ.veil kind torn marked).maybeCheckpoint cfg seq now := by
  unfold Shard.maybeCheckpoint
  cases cfg.travel with
  | none => rfl
  | some travel =>
    have written : (σ.veil kind torn marked).writeMarker cfg seq now =
        (σ.writeMarker cfg seq now).map (Shard.veil kind torn marked) := by
      unfold Shard.writeMarker
      have same : (σ.veil kind torn marked).act = σ.act := rfl
      rw [same]
      cases active : σ.act with
      | none => rfl
      | some id =>
        dsimp only
        have plain := inactive id active
        rw [getElem?_veil, plain]
        cases σ.segs[id]? with
        | none => rfl
        | some seg =>
          simp only [map_some, Bool.false_eq_true, if_false]
          split
          · rfl
          · rw [map_some, veil_markDirty, veil_modifySeg]
            rw [plain]
            nofun
    change (if σ.tseq.due now travel.interval = true then _ else _ : Shard A).veil kind torn marked =
      (if σ.tseq.due now travel.interval = true then _ else _)
    split
    · rw [written]
      cases σ.writeMarker cfg seq now <;> rfl
    · rfl

theorem applyOne_veil (stored : Stored cfg (σ.veil kind torn marked) past) (free : marked σ.segs.length = false)
    (nonempty : w.key ≠ []) (sees : σ.Sees cfg w.key) (intact : torn (cfg.hash w.key) = false) (now : Nat) :
    (σ.applyBatch cfg [w] now).veil kind torn marked = (σ.veil kind torn marked).applyBatch cfg [w] now := by
  have same := put_veil stored free nonempty sees intact (σ.commitSeq + 1)
  have linked : Linked cfg ((σ.put cfg (σ.commitSeq + 1) w).veil kind torn marked) :=
    same ▸ stored.toLinked.put (σ.commitSeq + 1) w
  refine (maybeCheckpoint_veil (σ := { σ.put cfg (σ.commitSeq + 1) w with commitSeq := σ.commitSeq + 1 })
    (writable_of_veil linked.writable).2 _ now).trans ?_
  exact congrArg (fun ρ : Shard A => Shard.maybeCheckpoint cfg { ρ with commitSeq := σ.commitSeq + 1 }
    (σ.commitSeq + 1) now) same

theorem delete_veil (stored : Stored cfg (σ.veil kind torn marked) past) (nonempty : key ≠ []) (sees : σ.Sees cfg key)
    (intact : torn (cfg.hash key) = false) (now : Nat) :
    (σ.delete cfg key now).1.veil kind torn marked = ((σ.veil kind torn marked).delete cfg key now).1 := by
  have same := del_veil stored nonempty sees intact (σ.commitSeq + 1)
  have linked : Linked cfg ((σ.del cfg (σ.commitSeq + 1) key).1.veil kind torn marked) := by
    have after := stored.toLinked.del (σ.commitSeq + 1) key
    rwa [same] at after
  have seqs : (σ.veil kind torn marked).commitSeq = σ.commitSeq := rfl
  unfold Shard.delete
  dsimp only
  rw [seqs, same]
  generalize σ.del cfg (σ.commitSeq + 1) key = outcome at linked ⊢
  obtain ⟨ρ, removed, emptied⟩ := outcome
  cases removed with
  | false => rfl
  | true =>
    exact maybeCheckpoint_veil (σ := { ρ with commitSeq := σ.commitSeq + 1 }) (writable_of_veil linked.writable).2 _ now

theorem sealSegment_veil (id : Nat) :
    (σ.sealSegmentIndex cfg id).veil kind torn marked = (σ.veil kind torn marked).sealSegmentIndex cfg id := by
  change (if cfg.persistent = true ∧ σ.act ≠ some id then _ else _ : Shard A).veil kind torn marked =
    (if cfg.persistent = true ∧ σ.act ≠ some id then _ else _)
  split
  · exact veil_modifySeg fun _ seg => by cases kind <;> rfl
  · rfl

end Writes

end Classad.ShardStore
