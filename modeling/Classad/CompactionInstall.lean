import Classad.CompactionCopy

/-! The last phase of a compaction: supersessions that happened meanwhile reach the copies, the
directory is rebuilt from the current records, and the sources leave their slots. Every record
that can still be read has one place afterwards, its own or that of its copy. -/
namespace Classad.ShardStore
open Arena Chains Listing List
open Prod (ext fst snd)
open Shard (linkRecord recordAt withDestinations)

variable {A : Type}

/-! ## Transferring supersessions -/

section Transfer
variable {σ : Shard A} {live : List (Segment A)} {pair : Loc × Loc}

/-- One transfer. -/
def transferSup (σ : Shard A) (live : List (Segment A)) (pair : Loc × Loc) : List (Segment A) :=
  match (σ.pinnedAt pair.1).bind Record.superseded with
  | some seq => live.modify pair.2.seg fun seg => seg.supersedeRec pair.2.off seq
  | none => live

theorem transferSups_eq (σ : Shard A) (moved : List (Loc × Loc)) (live : List (Segment A)) :
    σ.transferSups moved live = moved.foldl (transferSup σ) live := rfl

/-- The copy of a record once its supersession is known. -/
def supersedeAs (sup : Option Nat) (cell : Record A) : Record A :=
  match sup with
  | some seq => { cell with superseded := some seq }
  | none => cell

theorem records_supersedeRec (seg : Segment A) (off x : Nat) :
    (seg.supersedeRec off x).records = seg.records.modify off fun r => { r with superseded := some x } := by
  unfold Segment.supersedeRec
  cases found : seg.records[off]? with
  | some r => rfl
  | none => exact (modify_eq_self (getElem?_eq_none_iff.mp found)).symm

theorem cellAt_transferSup (σ : Shard A) (live : List (Segment A)) (pair : Loc × Loc) (l : Loc) :
    cellAt (cells (transferSup σ live pair)) l =
      if l = pair.2 then (cellAt (cells live) l).map (supersedeAs ((σ.pinnedAt pair.1).bind Record.superseded))
      else cellAt (cells live) l := by
  unfold transferSup
  cases sup : (σ.pinnedAt pair.1).bind Record.superseded with
  | none =>
    have same : (cellAt (cells live) l).map (supersedeAs none) = cellAt (cells live) l := by
      cases cellAt (cells live) l <;> rfl
    rw [same, ite_self]
  | some seq =>
    have changed : cells (live.modify pair.2.seg fun seg => seg.supersedeRec pair.2.off seq) =
        modifyCell (cells live) pair.2 fun r => { r with superseded := some seq } := by
      apply ext_getElem?
      intro i
      simp only [cells, modifyCell, getElem?_map, getElem?_modify]
      by_cases same : pair.2.seg = i
      · subst same
        cases live[pair.2.seg]? with
        | none => rfl
        | some seg => simp [records_supersedeRec]
      · simp [same]
    simp only [changed, cellAt_modifyCell]
    split
    next same =>
      subst same
      rfl
    · rfl

theorem isOpen_transferSup (all : ∀ seg ∈ live, seg.IsOpen) : ∀ seg ∈ transferSup σ live pair, seg.IsOpen := by
  unfold transferSup
  split
  · apply forall_modify all
    intro seg _ isOpen
    unfold Segment.IsOpen
    rw [retired_supersedeRec, keyIndexed_supersedeRec]
    exact isOpen
  · exact all

theorem counted_transferSup (all : ∀ seg ∈ live, Counted seg) (here : cellAt (cells live) pair.2 = some cell)
    (keyed : cell.isMarker = false) (current : cell.superseded = none) :
    ∀ seg ∈ transferSup σ live pair, Counted seg := by
  unfold transferSup
  split
  · apply forall_modify all
    intro seg found counted
    obtain ⟨records, atSeg, atOff⟩ := Option.bind_eq_some_iff.mp here
    rw [cells, getElem?_map, found] at atSeg
    cases atSeg
    exact counted.supersedeRec atOff keyed current _
  · exact all

theorem length_transferSup : (transferSup σ live pair).length = live.length := by
  unfold transferSup
  split
  · exact length_modify _ _ _
  · rfl

/-- All transfers: each copy gets the supersession of its source, by induction on the moves. -/
theorem transferSups_spec (distinct : (moved.map snd).Nodup) (live : List (Segment A)) :
    (∀ pair ∈ moved, cellAt (cells (σ.transferSups moved live)) pair.2 =
        (cellAt (cells live) pair.2).map (supersedeAs ((σ.pinnedAt pair.1).bind Record.superseded))) ∧
      (∀ l, l ∉ moved.map snd → cellAt (cells (σ.transferSups moved live)) l = cellAt (cells live) l) ∧
      (σ.transferSups moved live).length = live.length ∧
      ((∀ seg ∈ live, seg.IsOpen) → ∀ seg ∈ σ.transferSups moved live, seg.IsOpen) ∧
      ((∀ pair ∈ moved, ∃ cell, cellAt (cells live) pair.2 = some cell ∧ cell.isMarker = false ∧
        cell.superseded = none) →
        (∀ seg ∈ live, Counted seg) → ∀ seg ∈ σ.transferSups moved live, Counted seg) := by
  rw [transferSups_eq]
  induction moved generalizing live with
  | nil => exact ⟨nofun, fun _ _ => rfl, rfl, fun all => all, fun _ all => all⟩
  | cons pair rest ih =>
    obtain ⟨unlisted, distinctRest⟩ := nodup_cons.mp distinct
    obtain ⟨changed, kept, length, isOpen, counted⟩ := ih distinctRest (transferSup σ live pair)
    have other : ∀ p ∈ rest, p.2 ≠ pair.2 := fun p member same =>
      unlisted (same ▸ mem_map_of_mem (f := snd) member)
    refine ⟨fun p member => ?_, fun l outside => ?_, length.trans length_transferSup,
      fun all => isOpen (isOpen_transferSup all), ?_⟩
    · rcases mem_cons.mp member with rfl | inRest
      · rw [foldl_cons, kept p.2 unlisted, cellAt_transferSup, if_pos rfl]
      · rw [foldl_cons, changed p inRest, cellAt_transferSup, if_neg (other p inRest)]
    · rw [map_cons, mem_cons, not_or] at outside
      rw [foldl_cons, kept l outside.2, cellAt_transferSup, if_neg outside.1]
    · intro current all
      obtain ⟨cell, here, keyed, unsuperseded⟩ := current pair (.head _)
      apply counted _ (counted_transferSup all here keyed unsuperseded)
      intro p inRest
      obtain ⟨cell', here', facts⟩ := current p (.tail _ inRest)
      exact ⟨cell', by rw [cellAt_transferSup, if_neg (other p inRest), here'], facts⟩

end Transfer

/-! ## Rebuilding the directory -/

section LinkAll
variable (cfg : Config) {σ : Shard A} {l : Loc}

/-- The bucket of the record at a location. -/
def Shard.bucketOf (σ : Shard A) (l : Loc) : UInt64 := (σ.recordAt l).elim 0 fun r => cfg.hash r.key

theorem linkRecord_spec (here : σ.recordAt l = some r) :
    ((σ.linkRecord cfg l).links, (σ.linkRecord cfg l).dir) = link (σ.bucketOf cfg) (σ.links, σ.dir) l ∧
      Relinked σ (σ.linkRecord cfg l) := by
  have bucket : σ.bucketOf cfg l = cfg.hash r.key := by rw [Shard.bucketOf, here]; rfl
  unfold linkRecord
  simp only [here]
  refine ⟨?_, (Relinked.setRecNext σ l _).trans (.setDir _ _)⟩
  rw [link, bucket]
  refine ext ?_ rfl
  exact (links_of_segs rfl).trans (links_setRecNext σ l _)

theorem Relinked.bucketOf (relinked : Relinked σ τ) (l : Loc) : τ.bucketOf cfg l = σ.bucketOf cfg l := by
  have bare : ∀ ρ : Shard A, ρ.bucketOf cfg l = ((ρ.recordAt l).map Record.bare).elim 0 fun r => cfg.hash r.key := by
    intro ρ
    rw [Shard.bucketOf]
    cases ρ.recordAt l <;> rfl
  rw [bare, bare, relinked.recordAt]

/-- Linking records one after the other is linking nodes into buckets. -/
theorem linkAll_fold {nodes : List Loc} (buckets : ∀ l, σ.bucketOf cfg l = bucket l)
    (present : ∀ l ∈ nodes, ∃ r, σ.recordAt l = some r) :
    ((nodes.foldl (linkRecord cfg) σ).links, (nodes.foldl (linkRecord cfg) σ).dir) =
        nodes.foldl (link bucket) (σ.links, σ.dir) ∧ Relinked σ (nodes.foldl (linkRecord cfg) σ) := by
  induction nodes generalizing σ with
  | nil => exact ⟨rfl, .refl σ⟩
  | cons l rest ih =>
    obtain ⟨r, here⟩ := present l (.head _)
    obtain ⟨linked, relinked⟩ := linkRecord_spec cfg here
    obtain ⟨after, relinked'⟩ := ih (fun l' => (relinked.bucketOf cfg l').trans (buckets l')) fun l' member => by
      obtain ⟨r', here'⟩ := present l' (.tail _ member)
      obtain ⟨r'', here'', -⟩ := relinked.symm_segs.record here'
      exact ⟨r'', here''⟩
    refine ⟨?_, relinked.trans relinked'⟩
    rw [foldl_cons, foldl_cons, after, linked, show σ.bucketOf cfg = bucket from funext buckets]

/-- A directory built from nothing: each bucket's chain is made of the records of that bucket. -/
theorem linkAll_spec (nodes : List Loc) (distinct : nodes.Nodup) (empty : σ.dir = fun _ => none)
    (present : ∀ l ∈ nodes, ∃ r, σ.recordAt l = some r ∧ r.isMarker = false) :
    Relinked σ (nodes.foldl (linkRecord cfg) σ) ∧
      ∀ h, (nodes.foldl (linkRecord cfg) σ).Bucket cfg h (nodes.filter fun l => σ.bucketOf cfg l = h).reverse := by
  have exist : ∀ l ∈ nodes, ∃ r, σ.recordAt l = some r := fun l member => by
    obtain ⟨r, here, -⟩ := present l member
    exact ⟨r, here⟩
  obtain ⟨fold, relinked⟩ := linkAll_fold cfg (fun _ => rfl) exist
  have nothing : ∀ h : UInt64, Chain σ.links (σ.dir h) [] := fun h => by
    rw [empty]
    exact .nil
  have linkable : ∀ l ∈ nodes, ∃ old, σ.links l = some old := fun l member => by
    obtain ⟨r, here⟩ := exist l member
    exact ⟨r.next, by rw [Shard.links, here]; rfl⟩
  have chains : ∀ h, Chain (nodes.foldl (link (σ.bucketOf cfg)) (σ.links, σ.dir)).1
      ((nodes.foldl (link (σ.bucketOf cfg)) (σ.links, σ.dir)).2 h)
          ((nodes.filter fun l => σ.bucketOf cfg l = h).reverse ++ []) :=
    (link_chains nothing distinct (fun _ _ _ => not_mem_nil) linkable).1
  rw [← fold] at chains
  refine ⟨relinked, fun h => ⟨?_, nodup_reverse.mpr (distinct.filter _), relinked.members fun l member => ?_⟩⟩
  · have chain := chains h
    rw [append_nil] at chain
    exact chain
  · obtain ⟨member, inBucket⟩ := mem_filter.mp (mem_reverse.mp member)
    obtain ⟨r, here, keyed⟩ := present l member
    obtain ⟨ad, body⟩ := Record.body_of_key keyed
    refine ⟨r, r.key, ad, here, body, ?_⟩
    have hash := of_decide_eq_true inBucket
    rw [Shard.bucketOf, here] at hash
    exact hash

end LinkAll

/-! ## Adding the destinations -/

section Destinations
variable {cfg : Config} {σ : Shard A} {live hist : List (Segment A)} {l d : Loc} {r : Record A}

/-- A location of a destination once its stream starts at a segment. -/
def shift (first : Nat) (l : Loc) : Loc := ⟨first + l.seg, l.off⟩

theorem shift_injective : Function.Injective (shift first) := by
  rintro ⟨seg, off⟩ ⟨seg', off'⟩ same
  obtain ⟨segs, offs⟩ := Loc.mk.inj same
  dsimp only at segs offs
  rw [Nat.add_left_cancel segs, offs]

theorem map_live (all : ∀ seg ∈ live, seg.IsOpen) : live.map Segment.live = cells live :=
  map_congr_left fun seg member => by rw [Segment.live, (all seg member).1]; rfl

theorem arena_withDestinations (liveOpen : ∀ seg ∈ live, seg.IsOpen) (histOpen : ∀ seg ∈ hist, seg.IsOpen) :
    (σ.withDestinations live hist).arena = σ.arena ++ (cells live ++ cells hist) := by
  unfold Shard.arena withDestinations
  rw [map_append, map_append, map_live liveOpen, map_live histOpen, append_assoc]

theorem cellAt_shift (here : cellAt more d = some r) : cellAt (arena ++ more) (shift arena.length d) = some r := by
  rw [cellAt_append, if_neg (by simp [shift])]
  simpa [shift] using here

theorem length_arena (σ : Shard A) : σ.arena.length = σ.segs.length := length_map _

theorem length_cells (segs : List (Segment A)) : (cells segs).length = segs.length := length_map _

section Places
variable (liveOpen : ∀ seg ∈ live, seg.IsOpen) (histOpen : ∀ seg ∈ hist, seg.IsOpen)
include liveOpen histOpen

theorem recordAt_old (here : σ.recordAt l = some r) : (σ.withDestinations live hist).recordAt l = some r := by
  have inside : l.seg < σ.arena.length := seg_lt_of_cellAt here
  rw [recordAt, arena_withDestinations liveOpen histOpen, cellAt_append, if_pos inside]
  exact here

theorem recordAt_live (here : cellAt (cells live) d = some r) :
    (σ.withDestinations live hist).recordAt (shift σ.segs.length d) = some r := by
  have inside := seg_lt_of_cellAt here
  rw [recordAt, arena_withDestinations liveOpen histOpen, ← length_arena]
  apply cellAt_shift
  rw [cellAt_append, if_pos inside]
  exact here

theorem recordAt_hist (here : cellAt (cells hist) d = some r) :
    (σ.withDestinations live hist).recordAt (shift (σ.segs.length + live.length) d) = some r := by
  rw [recordAt, arena_withDestinations liveOpen histOpen, ← append_assoc]
  have first : σ.segs.length + live.length = (σ.arena ++ cells live).length := by
    rw [length_append, length_arena, length_cells]
  rw [first]
  exact cellAt_shift here

/-- Every record has its place in the old segments or in one of the streams. -/
theorem withDestinations_cases (here : (σ.withDestinations live hist).recordAt l = some r) :
    (l.seg < σ.segs.length ∧ σ.recordAt l = some r) ∨
      (∃ d, l = shift σ.segs.length d ∧ d.seg < live.length ∧ cellAt (cells live) d = some r) ∨
      ∃ d, l = shift (σ.segs.length + live.length) d ∧ cellAt (cells hist) d = some r := by
  rw [recordAt, arena_withDestinations liveOpen histOpen, cellAt_append, length_arena] at here
  split at here
  next old =>
    exact .inl ⟨old, here⟩
  · rw [cellAt_append, length_cells] at here
    split at here
    next inLive =>
      refine .inr (.inl ⟨⟨l.seg - σ.segs.length, l.off⟩, ?_, inLive, here⟩)
      unfold shift
      rw [Nat.add_sub_cancel' (by omega)]
    next inHist =>
      dsimp only at here inHist
      refine .inr (.inr ⟨⟨l.seg - σ.segs.length - live.length, l.off⟩, ?_, here⟩)
      unfold shift
      rw [Nat.add_assoc, Nat.add_sub_cancel' (by omega : live.length ≤ l.seg - σ.segs.length),
        Nat.add_sub_cancel' (by omega)]

end Places

theorem mem_currentIn : l ∈ σ.currentIn lo hi ↔
    lo ≤ l.seg ∧ l.seg < hi ∧ ∃ r, σ.recordAt l = some r ∧ r.isMarker = false ∧ r.superseded = none := by
  unfold Shard.currentIn
  rw [mem_flatMap]
  constructor
  · rintro ⟨id, range, inside⟩
    obtain ⟨off, -, hit⟩ := mem_filterMap.mp inside
    cases here : σ.recordAt ⟨id, off⟩ with
    | none => rw [here] at hit; cases hit
    | some r =>
      rw [here] at hit
      simp only at hit
      split at hit
      next passes =>
        cases hit
        rw [mem_range'_1] at range
        simp only [Bool.and_eq_true, Bool.not_eq_true', Record.isCurrent_iff] at passes
        exact ⟨range.1, by dsimp only; omega, r, here, passes⟩
      · cases hit
  · rintro ⟨low, high, r, here, keyed, current⟩
    have raw := pinnedAt_of_recordAt here
    obtain ⟨seg, atSeg, atOff⟩ := Option.bind_eq_some_iff.mp raw
    refine ⟨l.seg, mem_range'_1.mpr ⟨low, by omega⟩, mem_filterMap.mpr ⟨l.off, ?_, ?_⟩⟩
    · rw [atSeg]
      exact List.mem_range.mpr (List.getElem?_eq_some_iff.mp atOff).1
    · rw [show (⟨l.seg, l.off⟩ : Loc) = l from rfl, here]
      simp [keyed, Record.isCurrent_iff.mpr current]

theorem currentAt_self (member : (match σ.recordAt here with
      | some r => if (!r.isMarker && r.isCurrent) = true then some here else none
      | none => none) = some l) : l = here := by
  split at member
  · split at member
    · cases member
      rfl
    · cases member
  · cases member

theorem nodup_currentIn (σ : Shard A) (lo hi : Nat) : (σ.currentIn lo hi).Nodup := by
  refine nodup_flatMap.mpr ⟨fun id _ => ?_, ?_⟩
  · refine Nodup.filterMap ?_ nodup_range
    intro off off' l here there
    exact (Loc.mk.inj ((currentAt_self here).symm.trans (currentAt_self there))).2
  · refine (nodup_range' 1 Nat.one_pos).imp ?_
    intro id id' differs l here there
    obtain ⟨off, -, hit⟩ := mem_filterMap.mp here
    obtain ⟨off', -, hit'⟩ := mem_filterMap.mp there
    exact differs (Loc.mk.inj ((currentAt_self hit).symm.trans (currentAt_self hit'))).1

end Destinations

/-! ## Installing -/

section Install
variable {cfg : Config} {σ : Shard A} {c : Compaction A}

/-- The live destinations as they are installed. -/
def installedLive (σ : Shard A) (c : Compaction A) (liveDict : Nat) : List (Segment A) :=
  σ.transferSups c.moved (finalizeLast c.intern liveDict c.live)

/-- Whether a slot is emptied. -/
def isSource (c : Compaction A) (id : Nat) : Bool := decide (id < c.origLen) && c.sources.contains id

/-- What a round has to install, whatever the keys. -/
structure Ready (σ : Shard A) (c : Compaction A) (live hist : List (Segment A)) : Prop where
  origLen : c.origLen ≤ σ.segs.length
  act : ∀ id, σ.act = some id → c.origLen ≤ id
  distinct : (c.moved.map snd).Nodup
  ads : ∀ dst ∈ c.moved.map snd, ∃ cell, cellAt (cells live) dst = some cell ∧ cell.isMarker = false
  liveOpen : ∀ seg ∈ live, seg.IsOpen
  histOpen : ∀ seg ∈ hist, seg.IsOpen

theorem isMarker_supersedeAs (sup : Option Nat) (cell : Record A) :
    (supersedeAs sup cell).isMarker = cell.isMarker := by
  cases sup <;> rfl

theorem InFlight.ready (flight : InFlight σ c) (liveDict histDict : Nat) :
    Ready σ c (installedLive σ c liveDict) (finalizeLast c.intern histDict c.hist) := by
  have padded := finalizeLast_padded c.intern liveDict c.live
  obtain ⟨changed, -, -, isOpen, -⟩ :=
    transferSups_spec (σ := σ) flight.distinct (finalizeLast c.intern liveDict c.live)
  refine ⟨flight.origLen, flight.act, flight.distinct, fun dst member => ?_, isOpen (padded.isOpen flight.isOpen.1),
    (finalizeLast_padded c.intern histDict c.hist).isOpen flight.isOpen.2⟩
  obtain ⟨pair, inMoved, rfl⟩ := mem_map.mp member
  obtain ⟨cell, here, keyed⟩ := flight.ads pair.2 member
  refine ⟨supersedeAs ((σ.pinnedAt pair.1).bind Record.superseded) cell, ?_, (isMarker_supersedeAs _ cell).trans keyed⟩
  rw [installedLive, changed pair inMoved, padded.old pair.2 cell here]
  rfl

section
variable {live hist : List (Segment A)} (ready : Ready σ c live hist)
include ready

theorem Ready.mem_copies : l ∈ (c.moved.map fun (_, dst) => (⟨σ.segs.length + dst.seg, dst.off⟩ : Loc)).filter
      (fun l => ((σ.withDestinations live hist).recordAt l).any Record.isCurrent) ↔
    ∃ dst ∈ c.moved.map snd, l = shift σ.segs.length dst ∧
      ∃ cell, cellAt (cells live) dst = some cell ∧ cell.isMarker = false ∧ cell.superseded = none := by
  rw [mem_filter, mem_map]
  constructor
  · rintro ⟨⟨pair, inMoved, rfl⟩, current⟩
    have member := mem_map_of_mem (f := snd) inMoved
    obtain ⟨cell, here, keyed⟩ := ready.ads pair.2 member
    refine ⟨pair.2, member, rfl, cell, here, keyed, ?_⟩
    have placed := recordAt_live (σ := σ) ready.liveOpen ready.histOpen here
    rw [shift] at placed
    rw [placed] at current
    exact Record.isCurrent_iff.mp current
  · rintro ⟨dst, member, rfl, cell, here, keyed, current⟩
    obtain ⟨pair, inMoved, rfl⟩ := mem_map.mp member
    refine ⟨⟨pair, inMoved, rfl⟩, ?_⟩
    rw [recordAt_live ready.liveOpen ready.histOpen here]
    exact Record.isCurrent_iff.mpr current

/-- The records the directory is rebuilt from are current ads outside the sources. -/
theorem Ready.mem_currentAfter (member : l ∈ (σ.withDestinations live hist).currentAfter c σ.segs.length) :
    c.origLen ≤ l.seg ∧ ∃ r, (σ.withDestinations live hist).recordAt l = some r ∧ r.isMarker = false ∧
    r.superseded = none := by
  rcases mem_append.mp member with copied | written
  · obtain ⟨dst, -, rfl, cell, here, facts⟩ := ready.mem_copies.mp copied
    have beyond : σ.segs.length ≤ (shift σ.segs.length dst).seg := Nat.le_add_right _ _
    exact ⟨Nat.le_trans ready.origLen beyond, cell, recordAt_live ready.liveOpen ready.histOpen here, facts⟩
  · obtain ⟨low, -, facts⟩ := mem_currentIn.mp written
    exact ⟨low, facts⟩

theorem Ready.nodup_currentAfter : ((σ.withDestinations live hist).currentAfter c σ.segs.length).Nodup := by
  refine nodup_append.mpr ⟨?_, nodup_currentIn _ _ _, fun l copied l' written => ?_⟩
  · refine Nodup.filter _ ?_
    have form : (c.moved.map fun (_, dst) => (⟨σ.segs.length + dst.seg, dst.off⟩ : Loc)) =
        (c.moved.map snd).map (shift σ.segs.length) := by
      rw [map_map]
      rfl
    rw [form]
    exact ready.distinct.map (shift_injective)
  · rintro rfl
    obtain ⟨dst, -, rfl, -⟩ := ready.mem_copies.mp copied
    obtain ⟨-, high, -⟩ := mem_currentIn.mp written
    have beyond : σ.segs.length ≤ (shift σ.segs.length dst).seg := Nat.le_add_right _ _
    omega

/-- The directory after the install, before the sources are retired. -/
theorem Ready.rebuilt (cfg : Config) :
    let σ₁ := σ.withDestinations live hist
    let current := σ₁.currentAfter c σ.segs.length
    Relinked σ₁ (current.foldl (linkRecord cfg) σ₁) ∧
      ∀ h, (current.foldl (linkRecord cfg) σ₁).Bucket cfg h
        (current.filter fun l => σ₁.bucketOf cfg l = h).reverse := by
  apply linkAll_spec cfg _ ready.nodup_currentAfter rfl
  intro l member
  obtain ⟨-, r, here, keyed, -⟩ := ready.mem_currentAfter member
  exact ⟨r, here, keyed⟩

theorem Ready.not_isSource (member : l ∈ (σ.withDestinations live hist).currentAfter c σ.segs.length) :
    isSource c l.seg = false := by
  have above := (ready.mem_currentAfter member).1
  rw [isSource, decide_eq_false (by omega)]
  rfl

end

/-- The shard once the sources are retired. -/
def Shard.installed (cfg : Config) (σ : Shard A) (c : Compaction A) (live hist : List (Segment A)) : Shard A :=
  (((σ.withDestinations live hist).currentAfter c σ.segs.length).foldl (linkRecord cfg)
    (σ.withDestinations live hist)).retire (isSource c)

theorem install_eq (cfg : Config) (σ : Shard A) (c : Compaction A) (liveDict histDict : Nat) :
    let live := installedLive σ c liveDict
    let hist := finalizeLast c.intern histDict c.hist
    ∃ dirty dirtySup tseq, σ.installCompaction cfg c liveDict histDict =
      { σ.installed cfg c live hist with
        dirty := dirty
        dirtySup := dirtySup
        tseq := tseq
        count := ((σ.withDestinations live hist).currentAfter c σ.segs.length).length
        act := if !c.intern && !live.isEmpty then some (σ.segs.length + live.length - 1)
          else (σ.installed cfg c live hist).act
        gcFloor := max (σ.installed cfg c live hist).gcFloor c.retain } :=
  ⟨_, _, _, rfl⟩

section
variable {live hist : List (Segment A)} (ready : Ready σ c live hist)
include ready

variable (cfg : Config)

theorem Ready.bucket (h : UInt64) :
    (σ.installed cfg c live hist).Bucket cfg h (((σ.withDestinations live hist).currentAfter c σ.segs.length).filter
      fun l => (σ.withDestinations live hist).bucketOf cfg l = h).reverse := by
  refine ((ready.rebuilt cfg).2 h).retire fun l member => ?_
  exact ready.not_isSource (mem_of_mem_filter (mem_reverse.mp member))

/-- A segment above the barrier is there after the install, with its flags. -/
theorem Ready.segment {id : Nat} (here : (σ.withDestinations live hist).segs[id]? = some seg)
    (above : c.origLen ≤ id) : ∃ seg', (σ.installed cfg c live hist).segs[id]? = some seg' ∧
    seg'.retired = seg.retired ∧
      seg'.keyIndexed = seg.keyIndexed := by
  obtain ⟨seg', found, bare⟩ := (ready.rebuilt cfg).1.symm_segs.seg here
  have stays : isSource c id = false := by
    rw [isSource, decide_eq_false (by omega)]
    rfl
  refine ⟨seg', ?_, (congrArg Segment.retired bare).symm, (congrArg Segment.keyIndexed bare).symm⟩
  rw [Shard.installed, getElem?_retire, found, stays]
  rfl

theorem Ready.installed_act : (σ.installed cfg c live hist).act = σ.act := by
  obtain ⟨segs, dir, form⟩ := (ready.rebuilt cfg).1.rest
  rw [Shard.installed, form]
  rfl

end

theorem Linked.install (linked : Linked cfg σ) (flight : InFlight σ c) (liveDict histDict : Nat) :
    Linked cfg (σ.installCompaction cfg c liveDict histDict) := by
  have ready := flight.ready liveDict histDict
  obtain ⟨dirty, dirtySup, tseq, form⟩ := install_eq cfg σ c liveDict histDict
  rw [form]
  generalize installedLive σ c liveDict = live at ready ⊢
  generalize finalizeLast c.intern histDict c.hist = hist at ready ⊢
  refine ⟨fun h => ⟨_, ready.bucket cfg h⟩, fun id isActive => ?_⟩
  · split at isActive
    next reused =>
      obtain rfl := Option.some.inj isActive
      have nonempty : live ≠ [] := by
        rintro rfl
        simp at reused
      have positive := length_pos_iff.mpr nonempty
      have last : (σ.withDestinations live hist).segs[σ.segs.length + live.length - 1]? =
          some live[live.length - 1] := by
        unfold withDestinations
        rw [getElem?_append_left (by rw [length_append]; omega), getElem?_append_right (by omega)]
        rw [show σ.segs.length + live.length - 1 - σ.segs.length = live.length - 1 by omega]
        exact getElem?_eq_getElem _
      obtain ⟨seg', found, retired, indexed⟩ := ready.segment cfg last (by have := ready.origLen; omega)
      have isOpen := ready.liveOpen live[live.length - 1] (getElem_mem _)
      exact ⟨seg', found, retired.trans isOpen.1, indexed.trans isOpen.2⟩
    · rw [ready.installed_act cfg] at isActive
      obtain ⟨seg, here, notRetired, notIndexed⟩ := linked.writable id isActive
      have inside := (List.getElem?_eq_some_iff.mp here).1
      have placed : (σ.withDestinations live hist).segs[id]? = some seg := by
        unfold withDestinations
        rw [append_assoc, getElem?_append_left inside, here]
      obtain ⟨seg', found, retired, indexed⟩ := ready.segment cfg placed (ready.act id isActive)
      exact ⟨seg', found, retired.trans notRetired, indexed.trans notIndexed⟩

end Install

/-! ## Every readable record has one place -/

section Relocate
variable {cfg : Config} {σ : Shard A} {c : Compaction A} {kept : List (Loc × Loc)} {dropped : List Loc}
  {live hist : List (Segment A)}

/-- What the copying has come to when it is done: where every readable record of the sources is. -/
structure Relocated (σ : Shard A) (c : Compaction A) (kept : List (Loc × Loc)) (live hist : List (Segment A)) : Prop
    extends Ready σ c live hist where
  sources : ∀ id, isSource c id = true ↔ id ∈ c.sources
  settled : ∀ l r, l.seg < c.origLen → isSource c l.seg = false → σ.recordAt l = some r → r.currentPair = none
  unrepeated : (c.moved.map fst ++ kept.map fst).Nodup
  fromSources : ∀ l ∈ c.moved.map fst ++ kept.map fst, isSource c l.seg = true
  keptDistinct : (kept.map snd).Nodup
  movedTo : ∀ pair ∈ c.moved, ∃ r cell, σ.recordAt pair.1 = some r ∧ cellAt (cells live) pair.2 = some cell ∧
    SameReading r cell
  keptTo : ∀ pair ∈ kept, ∃ r cell, σ.recordAt pair.1 = some r ∧ cellAt (cells hist) pair.2 = some cell ∧
    SameReading r cell ∧
    cell.superseded ≠ none
  covered : ∀ l r, isSource c l.seg = true → σ.recordAt l = some r →
    l ∈ c.moved.map fst ++ kept.map fst ∨ r.Expired c.retain
  liveCovered : ∀ l cell, cellAt (cells live) l = some cell → cell.isMarker = false → l ∈ c.moved.map snd
  histCovered : ∀ l cell, cellAt (cells hist) l = some cell → cell.isMarker = false → l ∈ kept.map snd
  liveCounted : ∀ seg ∈ live, Counted seg
  histCounted : ∀ seg ∈ hist, Counted seg

section
variable (copying : Copying σ c kept dropped)
include copying

theorem Copying.isSource_iff (id : Nat) : isSource c id = true ↔ id ∈ c.sources := by
  rw [isSource, Bool.and_eq_true, decide_eq_true_eq, contains_iff_mem]
  exact ⟨fun both => both.2, fun member => ⟨(copying.sources id member).1, member⟩⟩

/-- A source is found through the shard until it is retired. -/
theorem Copying.recordAt (member : l.seg ∈ c.sources)
    (here : σ.pinnedAt l = some r) : σ.recordAt l = some r := by
  obtain ⟨-, seg, found, notRetired⟩ := copying.sources l.seg member
  rw [Shard.pinnedAt, found, Option.bind_some] at here
  rw [recordAt_eq, found, Option.bind_some, notRetired]
  exact here

theorem Copying.relocated (finished : c.todo = []) (liveDict histDict : Nat) :
    Relocated σ c kept (installedLive σ c liveDict) (finalizeLast c.intern histDict c.hist) := by
  have padded := finalizeLast_padded c.intern liveDict c.live
  have paddedHist := finalizeLast_padded c.intern histDict c.hist
  obtain ⟨changed, unchanged, -, -, counted⟩ :=
    transferSups_spec (σ := σ) copying.distinct (finalizeLast c.intern liveDict c.live)
  have passed : passedOver c kept dropped = c.moved.map fst ++ kept.map fst ++ dropped := by
    rw [passedOver, finished, append_nil]
  have inPassed : ∀ l ∈ c.moved.map fst ++ kept.map fst, l ∈ passedOver c kept dropped := fun l member => by
    rw [passed]
    exact mem_append_left _ member
  have fromSources : ∀ l ∈ c.moved.map fst ++ kept.map fst, l.seg ∈ c.sources := fun l member =>
    ((copying.covers l).mp (inPassed l member)).1
  refine { toReady := copying.toInFlight.ready liveDict histDict, sources := copying.isSource_iff
           settled := ?_, unrepeated := ?_
           fromSources := fun l member => (copying.isSource_iff l.seg).mpr (fromSources l member)
           keptDistinct := copying.keptDistinct, movedTo := ?_, keptTo := ?_, covered := ?_
           liveCovered := ?_, histCovered := ?_
           liveCounted := ?_, histCounted := paddedHist.counted copying.counted.2 }
  · intro l r below other here
    refine copying.settled l r below (fun member => ?_) here
    rw [(copying.isSource_iff l.seg).mpr member] at other
    cases other
  · have all := copying.unrepeated
    rw [passed] at all
    exact (nodup_append.mp all).1
  · intro pair member
    have isFirst : pair.1 ∈ c.moved.map fst ++ kept.map fst :=
      mem_append_left _ (mem_map_of_mem (f := fst) member)
    obtain ⟨r, here, -, cell, at_, seq, body, unsuperseded⟩ := copying.movedCopies pair member
    refine ⟨r, supersedeAs r.superseded cell, copying.recordAt (fromSources _ isFirst) here, ?_, ?_⟩
    · rw [installedLive, changed pair member, padded.old pair.2 cell at_, here]
      rfl
    · cases sup : r.superseded with
      | none => exact ⟨seq, body, unsuperseded.trans sup.symm⟩
      | some x => exact ⟨seq, body, sup.symm⟩
  · intro pair member
    have isSecond : pair.1 ∈ c.moved.map fst ++ kept.map fst :=
      mem_append_right _ (mem_map_of_mem (f := fst) member)
    obtain ⟨r, x, sup, here, -, cell, at_, seq, body, superseded⟩ := copying.keptCopies pair member
    refine ⟨r, cell, copying.recordAt (fromSources _ isSecond) here, paddedHist.old pair.2 cell at_,
      ⟨seq, body, superseded.trans sup.symm⟩, ?_⟩
    rw [superseded]
    nofun
  · intro l r source here
    have member : l ∈ passedOver c kept dropped :=
      (copying.covers l).mpr ⟨(copying.isSource_iff l.seg).mp source, r, pinnedAt_of_recordAt here⟩
    rw [passed] at member
    rcases mem_append.mp member with copied | isDropped
    · exact .inl copied
    · obtain ⟨r', here', expired⟩ := copying.droppedExpired l isDropped
      rw [pinnedAt_of_recordAt here] at here'
      cases here'
      exact .inr expired
  · intro l cell here keyed
    by_contra outside
    rw [installedLive, unchanged l outside] at here
    rcases padded.new l cell here with old | marker
    · exact outside (copying.liveCovered l cell old keyed)
    · rw [keyed] at marker
      cases marker
  · intro l cell here keyed
    rcases paddedHist.new l cell here with old | marker
    · exact copying.histCovered l cell old keyed
    · rw [keyed] at marker
      cases marker
  · refine counted (fun pair member => ?_) (padded.counted copying.counted.1)
    obtain ⟨r, here, keyed, cell, at_, seq, body, unsuperseded⟩ := copying.movedCopies pair member
    exact ⟨cell, padded.old pair.2 cell at_, by rw [Record.isMarker, body]; exact keyed, unsuperseded⟩

end

theorem Relinked.retire (relinked : Relinked σ τ) (gone : Nat → Bool) : Relinked (σ.retire gone) (τ.retire gone) := by
  refine ⟨?_, ?_⟩
  · apply ext_getElem?
    intro i
    rw [getElem?_map, getElem?_map, getElem?_retire, getElem?_retire, Option.map_map, Option.map_map]
    have same := relinked.getElem? i
    have through : ∀ seg : Option (Segment A), seg.map (Segment.bare ∘ fun seg => if gone i
      then { seg with retired := true } else seg) =
        (seg.map Segment.bare).map fun seg => if gone i then { seg with retired := true } else seg := by
      intro seg
      cases seg with
      | none => rfl
      | some seg => by_cases dropped : gone i = true <;> simp [dropped, Segment.bare]
    rw [through, through, same]
  · obtain ⟨segs, dir, rfl⟩ := relinked.rest
    exact ⟨_, dir, rfl⟩

section
variable (relocated : Relocated σ c kept live hist)
include relocated

/-- The installed shard, with its links forgotten. -/
theorem Relocated.relinked (cfg : Config) :
    Relinked ((σ.withDestinations live hist).retire (isSource c)) (σ.installed cfg c live hist) :=
  (relocated.toReady.rebuilt cfg).1.retire (isSource c)

theorem Relocated.stays {l : Loc} (beyond : σ.segs.length ≤ l.seg) : isSource c l.seg = false := by
  have := relocated.origLen
  rw [isSource, decide_eq_false (by omega)]
  rfl

theorem Relocated.recordAt_old (here : σ.recordAt l = some r) (stays : isSource c l.seg = false) :
    ((σ.withDestinations live hist).retire (isSource c)).recordAt l = some r := by
  rw [recordAt_retire, stays]
  exact ShardStore.recordAt_old relocated.liveOpen relocated.histOpen here

theorem Relocated.recordAt_live (here : cellAt (cells live) d = some r) :
    ((σ.withDestinations live hist).retire (isSource c)).recordAt (shift σ.segs.length d) = some r := by
  rw [recordAt_retire, relocated.stays (Nat.le_add_right _ _)]
  exact ShardStore.recordAt_live relocated.liveOpen relocated.histOpen here

theorem Relocated.recordAt_hist {d : Loc} (here : cellAt (cells hist) d = some r) :
    ((σ.withDestinations live hist).retire (isSource c)).recordAt (shift (σ.segs.length + live.length) d) = some r := by
  have beyond : σ.segs.length ≤ (shift (σ.segs.length + live.length) d).seg := by
    unfold shift
    dsimp only
    omega
  rw [recordAt_retire, relocated.stays beyond]
  exact ShardStore.recordAt_hist relocated.liveOpen relocated.histOpen here

/-- Where a record of the installed shard comes from. -/
theorem Relocated.cases (here : ((σ.withDestinations live hist).retire (isSource c)).recordAt l = some r) :
    (isSource c l.seg = false ∧ l.seg < σ.segs.length ∧ σ.recordAt l = some r) ∨
      (∃ d, l = shift σ.segs.length d ∧ d.seg < live.length ∧ cellAt (cells live) d = some r) ∨
      ∃ d, l = shift (σ.segs.length + live.length) d ∧ cellAt (cells hist) d = some r := by
  rw [recordAt_retire] at here
  split at here
  · cases here
  next stays =>
    rcases withDestinations_cases relocated.liveOpen relocated.histOpen here with ⟨old, found⟩ | added
    · exact .inl ⟨by simpa using stays, old, found⟩
    · exact .inr added

/-- The places of a relocation: a record outside the sources has its own, a copied one its copy's. -/
def places (σ : Shard A) (c : Compaction A) (kept : List (Loc × Loc)) (liveLen : Nat) : List (Loc × Loc) :=
  ((addresses σ.arena).filter fun l => !isSource c l.seg).map (fun l => (l, l)) ++
    (c.moved.map fun pair => (pair.1, shift σ.segs.length pair.2)) ++
    kept.map fun pair => (pair.1, shift (σ.segs.length + liveLen) pair.2)

omit relocated in
theorem places_fst (n : Nat) : (places σ c kept n).map fst =
    (addresses σ.arena).filter (fun l => !isSource c l.seg) ++ (c.moved.map fst ++ kept.map fst) := by
  simp [places, Function.comp_def]

omit relocated in
theorem places_snd (n : Nat) : (places σ c kept n).map snd =
    (addresses σ.arena).filter (fun l => !isSource c l.seg) ++ ((c.moved.map snd).map (shift σ.segs.length) ++
      (kept.map snd).map (shift (σ.segs.length + n))) := by
  simp [places, Function.comp_def]

omit relocated in
theorem mem_stay : l ∈ (addresses σ.arena).filter (fun l => !isSource c l.seg) ↔
    isSource c l.seg = false ∧ ∃ r, σ.recordAt l = some r := by
  rw [mem_filter, mem_addresses, Bool.not_eq_true', and_comm]
  rfl

theorem Relocated.places_fst_nodup : ((places σ c kept n).map fst).Nodup := by
  rw [places_fst]
  refine nodup_append.mpr ⟨(nodup_addresses).filter _, relocated.unrepeated, fun l stays l' copied => ?_⟩
  rintro rfl
  have source := relocated.fromSources l copied
  rw [(mem_stay.mp stays).1] at source
  cases source

theorem Relocated.places_snd_nodup : ((places σ c kept live.length).map snd).Nodup := by
  rw [places_snd]
  refine nodup_append.mpr ⟨(nodup_addresses).filter _, nodup_append.mpr
    ⟨relocated.distinct.map (shift_injective), relocated.keptDistinct.map (shift_injective), ?_⟩, ?_⟩
  · rintro l inLive l' inHist rfl
    obtain ⟨d, member, rfl⟩ := mem_map.mp inLive
    obtain ⟨d', -, same⟩ := mem_map.mp inHist
    obtain ⟨cell, here, -⟩ := relocated.ads d member
    have bound := seg_lt_of_cellAt here
    rw [length_cells] at bound
    have segs := (Loc.mk.inj same).1
    omega
  · rintro l stays l' copied rfl
    obtain ⟨-, r, here⟩ := mem_stay.mp stays
    have inside : l.seg < σ.arena.length := seg_lt_of_cellAt here
    rw [length_arena] at inside
    rcases mem_append.mp copied with inLive | inHist
    · obtain ⟨d, -, rfl⟩ := mem_map.mp inLive
      simp only [shift] at inside
      omega
    · obtain ⟨d, -, rfl⟩ := mem_map.mp inHist
      simp only [shift] at inside
      omega

/-- A projection that sees what readers see, and nothing of what has expired, is the same after
the install. -/
theorem Relocated.filterMap {β : Type} {f : Record A → Option β} (blind : ∀ r r', SameReading r r' → f r' = f r)
    (expired : ∀ r : Record A, r.Expired c.retain → f r = none) (cfg : Config) :
    ((σ.installed cfg c live hist).arena.flatten.filterMap f).Perm (σ.arena.flatten.filterMap f) := by
  rw [(relocated.relinked cfg).filterMap fun r => (blind r r.bare ⟨rfl, rfl, rfl⟩)]
  have marker : ∀ r : Record A, r.isMarker = true → f r = none := fun r isMarker => expired r (.inl isMarker)
  have keyedOf : ∀ r : Record A, f r ≠ none → r.isMarker = false := fun r defined => by
    by_contra isMarker
    exact defined (marker r (by simpa using isMarker))
  apply filterMap_moved (relocated.places_fst_nodup) relocated.places_snd_nodup
  · intro l r here defined
    rw [places_fst]
    by_cases source : isSource c l.seg = true
    · rcases relocated.covered l r source here with copied | gone
      · exact mem_append_right _ copied
      · exact absurd (expired r gone) defined
    · exact mem_append_left _ (mem_stay.mpr ⟨by simpa using source, r, here⟩)
  · intro l r here defined
    rw [places_snd]
    rcases relocated.cases here with ⟨stays, -, old⟩ | ⟨d, rfl, -, inLive⟩ | ⟨d, rfl, inHist⟩
    · exact mem_append_left _ (mem_stay.mpr ⟨stays, r, old⟩)
    · refine mem_append_right _ (mem_append_left _ (mem_map_of_mem ?_))
      exact relocated.liveCovered d r inLive (keyedOf r defined)
    · refine mem_append_right _ (mem_append_right _ (mem_map_of_mem ?_))
      exact relocated.histCovered d r inHist (keyedOf r defined)
  · intro pair member
    rcases mem_append.mp member with first | inKept
    · rcases mem_append.mp first with stays | inMoved
      · obtain ⟨l, isStay, rfl⟩ := mem_map.mp stays
        obtain ⟨notSource, r, here⟩ := mem_stay.mp isStay
        have after := relocated.recordAt_old here notSource
        change (σ.recordAt l).bind f = (((σ.withDestinations live hist).retire (isSource c)).recordAt l).bind f
        rw [here, after]
      · obtain ⟨pair, isMoved, rfl⟩ := mem_map.mp inMoved
        obtain ⟨r, cell, here, at_, reading⟩ := relocated.movedTo pair isMoved
        have after := relocated.recordAt_live at_
        change (σ.recordAt pair.1).bind f = (((σ.withDestinations live hist).retire (isSource c)).recordAt _).bind f
        rw [here, after]
        exact (blind r cell reading).symm
    · obtain ⟨pair, isKept, rfl⟩ := mem_map.mp inKept
      obtain ⟨r, cell, here, at_, reading, -⟩ := relocated.keptTo pair isKept
      have after := relocated.recordAt_hist at_
      change (σ.recordAt pair.1).bind f = (((σ.withDestinations live hist).retire (isSource c)).recordAt _).bind f
      rw [here, after]
      exact (blind r cell reading).symm

/-- Every current record of the installed shard is one the directory was rebuilt from. -/
theorem Relocated.mem_currentAfter
    (here : ((σ.withDestinations live hist).retire (isSource c)).recordAt l = some r) (keyed : r.isMarker = false)
    (current : r.superseded = none) : l ∈ (σ.withDestinations live hist).currentAfter c σ.segs.length := by
  rcases relocated.cases here with ⟨stays, old, found⟩ | ⟨d, rfl, -, inLive⟩ | ⟨d, rfl, inHist⟩
  · refine mem_append_right _ (mem_currentIn.mpr ⟨?_, old, r, ?_, keyed, current⟩)
    · by_contra below
      have hidden := relocated.settled l r (by omega) stays found
      rcases Record.currentPair_eq_none.mp hidden with marker | superseded
      · rw [keyed] at marker
        cases marker
      · exact superseded current
    · exact ShardStore.recordAt_old relocated.liveOpen relocated.histOpen found
  · refine mem_append_left _ (relocated.toReady.mem_copies.mpr ⟨d, relocated.liveCovered d r inLive keyed, rfl,
      r, inLive, ?_⟩)
    exact ⟨keyed, current⟩
  · obtain ⟨pair, inKept, rfl⟩ := mem_map.mp (relocated.histCovered d r inHist keyed)
    obtain ⟨r₀, cell, -, at_, -, superseded⟩ := relocated.keptTo pair inKept
    rw [inHist] at at_
    cases at_
    exact absurd current superseded

/-- The number of records the directory was rebuilt from is the number of keys. -/
theorem Relocated.count (cfg : Config) :
    ((σ.withDestinations live hist).currentAfter c σ.segs.length).length =
      (σ.installed cfg c live hist).currents.length := by
  have retired := (relocated.relinked cfg).currents
  rw [retired, Shard.currents, filterMap_addresses]
  have listed := filterMap_perm_of_nodup (nodup_addresses)
    relocated.toReady.nodup_currentAfter
    (f := fun l => (cellAt ((σ.withDestinations live hist).retire (isSource c)).arena l).bind Record.currentPair)
      fun l defined => by
      cases here : cellAt ((σ.withDestinations live hist).retire (isSource c)).arena l with
      | none => rw [here] at defined; exact absurd rfl defined
      | some r =>
        rw [here] at defined
        have readable := mt Record.currentPair_eq_none.mpr defined
        rw [not_or, not_not, Bool.not_eq_true] at readable
        exact iff_of_true (mem_addresses.mpr ⟨r, here⟩) (relocated.mem_currentAfter here readable.1 readable.2)
  rw [listed.length_eq]
  symm
  apply filterMap_length_eq_length.mpr
  intro l member
  obtain ⟨-, r, here, keyed, current⟩ := relocated.toReady.mem_currentAfter member
  have placed : cellAt ((σ.withDestinations live hist).retire (isSource c)).arena l = some r := by
    have stays := relocated.toReady.not_isSource member
    have found := recordAt_retire (σ.withDestinations live hist) (isSource c) l
    rw [stays] at found
    exact found.trans here
  rw [placed]
  cases pair : r.currentPair with
  | some _ => rw [Option.bind_some, pair]; rfl
  | none =>
    rcases Record.currentPair_eq_none.mp pair with marker | superseded
    · rw [keyed] at marker
      cases marker
    · exact absurd current superseded

end

theorem currentPair_sameReading (reading : SameReading r r') : r'.currentPair = r.currentPair := by
  unfold Record.currentPair
  rw [reading.body, reading.superseded, reading.seq]

/-- An ad of the installed shard reads like one of before. -/
theorem Relocated.origin (relocated : Relocated σ c kept live hist) (cfg : Config) :
    ∀ l r, (σ.installed cfg c live hist).recordAt l = some r → r.isMarker = false →
      ∃ l₀ r₀, σ.recordAt l₀ = some r₀ ∧ SameReading r₀ r := by
  intro l r here isKeyed
  obtain ⟨r₀, found, bare⟩ := (relocated.relinked cfg).record here
  have reading := sameReading_of_bare bare
  have keyed : r₀.isMarker = false := by
    rw [Record.isMarker, reading.body] at isKeyed
    exact isKeyed
  have trans : ∀ {r₁ : Record A}, SameReading r₁ r₀ → SameReading r₁ r := fun copied =>
    ⟨reading.seq.trans copied.seq, reading.body.trans copied.body, reading.superseded.trans copied.superseded⟩
  rcases relocated.cases found with ⟨-, -, old⟩ | ⟨d, rfl, -, inLive⟩ | ⟨d, rfl, inHist⟩
  · exact ⟨l, r₀, old, reading⟩
  · obtain ⟨pair, inMoved, rfl⟩ := mem_map.mp (relocated.liveCovered d r₀ inLive keyed)
    obtain ⟨r', cell, at_, there, copied⟩ := relocated.movedTo pair inMoved
    rw [inLive] at there
    cases there
    exact ⟨pair.1, r', at_, trans copied⟩
  · obtain ⟨pair, inKept, rfl⟩ := mem_map.mp (relocated.histCovered d r₀ inHist keyed)
    obtain ⟨r', cell, at_, there, copied, -⟩ := relocated.keptTo pair inKept
    rw [inHist] at there
    cases there
    exact ⟨pair.1, r', at_, trans copied⟩

theorem Relocated.counted (relocated : Relocated σ c kept live hist) (counted : ∀ seg ∈ σ.segs, Counted seg)
    (cfg : Config) :
    ∀ seg ∈ (σ.installed cfg c live hist).segs, Counted seg := by
  apply (relocated.relinked cfg).counted
  apply Counted.retireAll
  intro seg member
  rcases mem_append.mp member with first | inHist
  · rcases mem_append.mp first with old | inLive
    · exact counted seg old
    · exact relocated.liveCounted seg inLive
  · exact relocated.histCounted seg inHist

/-- Phase 3 keeps what is stored. -/
theorem Stored.install (stored : Stored cfg σ past) (copying : Copying σ c kept dropped) (finished : c.todo = [])
    (liveDict histDict : Nat) : Stored cfg (σ.installCompaction cfg c liveDict histDict) past := by
  have linked := stored.toLinked.install copying.toInFlight liveDict histDict
  have relocated := copying.relocated finished liveDict histDict
  obtain ⟨dirty, dirtySup, tseq, form⟩ := install_eq cfg σ c liveDict histDict
  rw [form] at linked ⊢
  generalize installedLive σ c liveDict = live at relocated linked ⊢
  generalize finalizeLast c.intern histDict c.hist = hist at relocated linked ⊢
  have currents : ((σ.installed cfg c live hist).currents).Perm σ.currents :=
    relocated.filterMap (fun _ _ => currentPair_sameReading) (fun _ expired => expired.currentPair) cfg
  obtain ⟨segs, dir, rest⟩ := (relocated.toReady.rebuilt cfg).1.rest
  apply stored.rearrange linked
  · exact relocated.origin cfg
  · exact currents
  · intro x above
    exact relocated.filterMap (fun _ _ => pairAt_sameReading x) (fun _ expired => expired.pairAt above) cfg
  · rintro l key seq ad ⟨r, here, body, current, -⟩
    left
    obtain ⟨r₀, found, bare⟩ := (relocated.relinked cfg).record here
    have reading := sameReading_of_bare bare
    have body₀ : r₀.body = .ad key ad := reading.body.symm.trans body
    have member := relocated.mem_currentAfter found (Record.isMarker_of_ad body₀)
      (reading.superseded.symm.trans current)
    refine ⟨_, (relocated.toReady.bucket cfg (cfg.hash key)).1, mem_reverse.mpr (mem_filter.mpr ⟨member, ?_⟩)⟩
    have stays := relocated.toReady.not_isSource member
    rw [recordAt_retire, stays] at found
    have there : (σ.withDestinations live hist).recordAt l = some r₀ := found
    rw [decide_eq_true_eq, Shard.bucketOf, there]
    change cfg.hash r₀.key = cfg.hash key
    rw [Record.key, body₀]
  · exact relocated.counted stored.counted cfg
  · rw [Shard.installed, rest]
    rfl
  · rw [Shard.installed, rest]
    rfl
  · rw [relocated.count cfg, currents.length_eq, stored.count]
    simp [Shard.tally]
  · rw [Shard.installed, rest]
    rfl

end Relocate

end Classad.ShardStore
