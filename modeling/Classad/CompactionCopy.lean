import Classad.ShardMaintenance

/-! The copying phase of a compaction. It runs while writers go on, so what it knows about the
sources is what ageing records keep: each record it has passed was moved, kept as history or
expired, and each ad in a destination is the copy of one of them. -/
namespace Classad.ShardStore
open Arena Chains Listing List Option
open Prod (fst snd)

variable {A : Type}

/-! ## Destinations -/

section Destinations
variable {dst dst' : List (Segment A)} {new : Loc} {cell : Record A}

/-- The records of a list of segments. -/
def cells (segs : List (Segment A)) : List (List (Record A)) := segs.map Segment.records

/-- A segment that nobody has retired or indexed. -/
def Segment.IsOpen (seg : Segment A) : Prop := seg.retired = false ∧ seg.keyIndexed = false

/-- A destination that received keyless records only. -/
structure Padded (dst dst' : List (Segment A)) : Prop where
  old : ∀ l c, cellAt (cells dst) l = some c → cellAt (cells dst') l = some c
  new : ∀ l c, cellAt (cells dst') l = some c → cellAt (cells dst) l = some c ∨ c.isMarker = true
  isOpen : (∀ seg ∈ dst, seg.IsOpen) → ∀ seg ∈ dst', seg.IsOpen
  counted : (∀ seg ∈ dst, Counted seg) → ∀ seg ∈ dst', Counted seg

theorem Padded.refl (dst : List (Segment A)) : Padded dst dst :=
  ⟨fun _ _ here => here, fun _ _ here => .inl here, fun all => all, fun all => all⟩

theorem Padded.trans (first : Padded dst dst') (second : Padded dst' dst'') : Padded dst dst'' where
  old l c here := second.old l c (first.old l c here)
  new l c here := (second.new l c here).elim (first.new l c) .inr
  isOpen all := second.isOpen (first.isOpen all)
  counted all := second.counted (first.counted all)

/-- A destination that received one record, and perhaps keyless ones. -/
structure Pushed (dst dst' : List (Segment A)) (new : Loc) (cell : Record A) : Prop where
  at_ : cellAt (cells dst') new = some cell
  free : cellAt (cells dst) new = none
  old : ∀ l c, cellAt (cells dst) l = some c → cellAt (cells dst') l = some c
  new : ∀ l c, cellAt (cells dst') l = some c → cellAt (cells dst) l = some c ∨ l = new ∧ c = cell ∨ c.isMarker = true
  isOpen : (∀ seg ∈ dst, seg.IsOpen) → ∀ seg ∈ dst', seg.IsOpen
  counted : 0 < cell.seq → (∀ seg ∈ dst, Counted seg) → ∀ seg ∈ dst', Counted seg

theorem Pushed.after_padded (padded : Padded dst mid) (pushed : Pushed mid dst' new cell) :
    Pushed dst dst' new cell where
  at_ := pushed.at_
  free := by
    cases found : cellAt (cells dst) new with
    | none => rfl
    | some c =>
      have here := padded.old new c found
      rw [pushed.free] at here
      cases here
  old l c here := pushed.old l c (padded.old l c here)
  new l c here := by
    rcases pushed.new l c here with before | added
    · exact (padded.new l c before).imp_right .inr
    · exact .inr added
  isOpen all := pushed.isOpen (padded.isOpen all)
  counted stamp all := pushed.counted stamp (padded.counted all)

section
variable (pushed : Pushed dst dst' new cell)
include pushed

/-- A marker that is pushed is padding. -/
theorem Pushed.padded (marker : cell.isMarker = true)
    (counted : (∀ seg ∈ dst, Counted seg) → ∀ seg ∈ dst', Counted seg) : Padded dst dst' where
  old := pushed.old
  new l c here := by
    rcases pushed.new l c here with before | ⟨-, rfl⟩ | isMarker
    · exact .inl before
    · exact .inr marker
    · exact .inr isMarker
  isOpen := pushed.isOpen
  counted := counted

/-- The record has a place of its own. -/
theorem Pushed.distinct (distinct : ls.Nodup) (taken : ∀ l ∈ ls, ∃ c, cellAt (cells dst) l = some c) :
    (ls ++ [new]).Nodup := by
  refine nodup_append.mpr ⟨distinct, nodup_singleton new, fun l member l' isNew => ?_⟩
  obtain rfl := mem_singleton.mp isNew
  rintro rfl
  obtain ⟨c, here⟩ := taken l member
  rw [pushed.free] at here
  cases here

theorem Pushed.covered (covered : ∀ l c, cellAt (cells dst) l = some c → c.isMarker = false → l ∈ ls)
    (l : Loc) (c : Record A) (here : cellAt (cells dst') l = some c) (isAd : c.isMarker = false) : l ∈ ls ++ [new] := by
  rcases pushed.new l c here with old | ⟨rfl, -⟩ | marker
  · exact mem_append_left _ (covered l c old isAd)
  · exact mem_append_right _ (.head _)
  · rw [isAd] at marker
    cases marker

end

theorem cells_modify_push {id : Nat} (here : dst[id]? = some seg)
    (adds : (f seg).records = seg.records ++ [cell]) : cells (dst.modify id f) = pushCell (cells dst) id cell := by
  apply ext_getElem?
  intro i
  simp only [cells, pushCell, getElem?_map, getElem?_modify]
  by_cases same : id = i
  · subst same
    simp [here, adds]
  · simp [same]

/-- One record appended to one segment. -/
theorem pushed_modify {id : Nat} (here : dst[id]? = some seg)
    (adds : (f seg).records = seg.records ++ [cell]) (isOpen : seg.IsOpen → (f seg).IsOpen)
    (counted : 0 < cell.seq → Counted seg → Counted (f seg)) :
    Pushed dst (dst.modify id f) ⟨id, seg.records.length⟩ cell := by
  have atSeg : (cells dst)[id]? = some seg.records := by rw [cells, getElem?_map, here]; rfl
  have cellAt_push := fun l => cellAt_pushCell atSeg cell l
  rw [← cells_modify_push here adds] at cellAt_push
  have free : cellAt (cells dst) ⟨id, seg.records.length⟩ = none := by
    rw [cellAt, atSeg, bind_some, getElem?_eq_none (Nat.le_refl _)]
  refine ⟨by rw [cellAt_push, if_pos rfl], free, fun l c found => ?_, fun l c found => ?_, fun all => ?_,
    fun stamp all => ?_⟩
  · have differs : l ≠ ⟨id, seg.records.length⟩ := by
      rintro rfl
      rw [free] at found
      cases found
    rw [cellAt_push, if_neg differs, found]
  · rw [cellAt_push] at found
    split at found
    next same =>
      cases found
      exact .inr (.inl ⟨same, rfl⟩)
    · exact .inl found
  · apply forall_modify all
    intro seg' here'
    rw [here] at here'
    cases here'
    exact isOpen
  · apply forall_modify all
    intro seg' here'
    rw [here] at here'
    cases here'
    exact counted stamp

variable (intern : Bool)

theorem finalizeLast_padded (dictLen : Nat) (dst : List (Segment A)) :
    Padded dst (finalizeLast intern dictLen dst) := by
  unfold finalizeLast
  cases intern with
  | false => exact .refl dst
  | true =>
    cases here : dst[dst.length - 1]? with
    | none =>
      have empty : dst.length ≤ dst.length - 1 := getElem?_eq_none_iff.mp here
      rw [if_pos rfl, modify_eq_self empty]
      exact .refl dst
    | some seg =>
      have pushed := pushed_modify here (f := fun seg => seg.appendDict dictLen) rfl (fun isOpen => isOpen)
        fun _ counted => counted.appendDict dictLen
      exact pushed.padded rfl fun all => forall_modify all fun _ _ counted => counted.appendDict dictLen

theorem fresh_padded (dst : List (Segment A)) (size : Nat) : Padded dst (dst ++ [Segment.fresh size codec]) where
  old l c here := by
    unfold cells at here ⊢
    have inside := seg_lt_of_cellAt here
    rw [map_append, cellAt_append, if_pos inside]
    exact here
  new l c here := by
    rw [cells, map_append, cellAt_append] at here
    split at here
    · exact .inl here
    · obtain ⟨records, found, at_⟩ := bind_eq_some_iff.mp here
      obtain rfl := mem_singleton.mp (mem_of_getElem? found)
      cases at_
  isOpen all seg member := by
    rcases mem_append.mp member with old | isNew
    · exact all seg old
    · obtain rfl := mem_singleton.mp isNew
      exact ⟨rfl, rfl⟩
  counted all seg member := by
    rcases mem_append.mp member with old | isNew
    · exact all seg old
    · obtain rfl := mem_singleton.mp isNew
      exact .fresh size codec

variable (choice : CopyChoice) (size : Nat) (dst : List (Segment A))

theorem openDst_padded :
    Padded dst (openDst intern choice size dst) := by
  unfold openDst
  split
  · exact (finalizeLast_padded intern choice.dictLen dst).trans (fresh_padded _ size)
  · exact .refl dst

theorem openDst_last :
    ∃ seg, (openDst intern choice size dst)[(openDst intern choice size dst).length - 1]? = some seg := by
  have nonempty : openDst intern choice size dst ≠ [] := by
    unfold openDst
    split
    · simp
    next kept =>
      exact fun empty => kept (.inr empty)
  have positive := length_pos_iff.mpr nonempty
  exact ⟨_, getElem?_eq_getElem (by omega)⟩

/-- A superseded copy: appended, and superseded at once. -/
theorem append_supersedeRec {seg : Segment A} (seq x : Nat) (len : Nat) :
    ((seg.append seq none body len).supersedeRec seg.records.length x).records =
      seg.records ++ [⟨seq, some x, none, body, len⟩] := by
  have last : (seg.append seq none body len).records[seg.records.length]? = some ⟨seq, none, none, body, len⟩ := by
    simp [Segment.append]
  unfold Segment.supersedeRec
  simp only [last]
  change (seg.records ++ [(⟨seq, none, none, body, len⟩ : Record A)]).modify seg.records.length _ = _
  have inside : seg.records.length < (seg.records ++ [(⟨seq, none, none, body, len⟩ : Record A)]).length := by simp
  rw [modify_eq_take_cons_drop inside]
  simp

theorem Counted.appendSuperseded (counted : Counted seg) (stamp : 0 < seq) (x : Nat) (key : Key) (ad : A)
    (positive : 0 < len) : Counted ((seg.append seq none (.ad key ad) len).supersedeRec seg.records.length x) := by
  have last : (seg.append seq none (.ad key ad) len).records[seg.records.length]? =
      some ⟨seq, none, none, .ad key ad, len⟩ := by
    simp [Segment.append]
  exact (counted.append stamp none key ad positive).supersedeRec last rfl rfl x

end Destinations

/-! ## Copying one record -/

section Copy
variable {cfg : Config} {σ : Shard A} {c : Compaction A} {l : Loc} {r : Record A}

/-- What copying a record does to a round: the record is moved, kept as history, or passed over. -/
inductive Copies (c c' : Compaction A) (l : Loc) (r : Record A) : Prop where
  | moved (dst : Loc) (len : Nat) (keyed : r.isMarker = false) (current : r.superseded = none)
      (pushed : Pushed c.live c'.live dst ⟨r.seq, none, none, r.body, len⟩)
      (form : c' = { c with live := c'.live, moved := c.moved ++ [(l, dst)] })
  | kept (dst : Loc) (len x : Nat) (keyed : r.isMarker = false) (superseded : r.superseded = some x)
      (pushed : Pushed c.hist c'.hist dst ⟨r.seq, some x, none, r.body, len⟩) (form : c' = { c with hist := c'.hist })
  | passed (expired : r.Expired c.retain) (padded : Padded c.hist c'.hist) (form : c' = { c with hist := c'.hist })

theorem copyRecord_copies (here : σ.pinnedAt l = some r) {choice : CopyChoice} :
    Copies c (σ.copyRecord cfg c l choice) l r := by
  unfold Shard.copyRecord
  simp only [here]
  cases body : r.body with
  | dictionary => exact .passed (.inl (by rw [Record.isMarker, body])) (.refl _) rfl
  | checkpoint millis =>
    have marker : r.isMarker = true := by rw [Record.isMarker, body]
    simp only
    split
    next after =>
      obtain ⟨seg, last⟩ := openDst_last c.intern choice (max cfg.segSize (recordLen 0 8)) c.hist
      have stamp : 0 < r.seq := Nat.lt_of_le_of_lt (Nat.zero_le _) after
      have pushed := pushed_modify last (f := fun seg => seg.appendMarker r.seq millis) rfl (fun isOpen => isOpen)
        fun stamp counted => counted.appendMarker stamp millis
      have padded := (pushed.after_padded (openDst_padded _ _ _ _))
      exact .passed (.inl marker) (padded.padded rfl (padded.counted stamp)) rfl
    · exact .passed (.inl marker) (.refl _) rfl
  | ad key ad =>
    have keyed := Record.isMarker_of_ad body
    cases superseded : r.superseded with
    | none =>
      obtain ⟨seg, last⟩ := openDst_last c.intern choice (max cfg.segSize (recordLen key.length choice.adLen)) c.live
      have pushed :=
        pushed_modify last (f := fun seg => seg.append r.seq none (.ad key ad) (recordLen key.length choice.adLen)) rfl
        (fun isOpen => isOpen) fun stamp counted => counted.append stamp none key ad (recordLen_pos _ _)
      have padded := pushed.after_padded (openDst_padded _ _ _ _)
      simp only [last, elim_some]
      refine .moved _ (recordLen key.length choice.adLen) keyed superseded ?_ rfl
      rw [body]
      exact padded
    | some x =>
      simp only
      split
      · obtain ⟨seg, last⟩ := openDst_last c.intern choice (max cfg.segSize (recordLen key.length choice.adLen)) c.hist
        have pushed := pushed_modify last
          (f := fun seg' => (seg'.append r.seq none (.ad key ad) (recordLen key.length choice.adLen)).supersedeRec
            seg.records.length x)
          (append_supersedeRec r.seq x _)
          (fun isOpen => by
            unfold Segment.IsOpen
            rw [retired_supersedeRec, keyIndexed_supersedeRec]
            exact isOpen)
          fun stamp counted => counted.appendSuperseded stamp x key ad (recordLen_pos _ _)
        have padded := pushed.after_padded (openDst_padded _ _ _ _)
        simp only [last, elim_some]
        refine .kept ⟨(openDst c.intern choice (max cfg.segSize (recordLen key.length choice.adLen)) c.hist).length - 1,
          seg.records.length⟩ (recordLen key.length choice.adLen) x keyed superseded ?_ rfl
        rw [body]
        exact padded
      · exact .passed (.inr ⟨x, superseded, by omega⟩) (.refl _) rfl

end Copy

/-! ## A round in flight -/

section Round
variable {cfg : Config} {σ τ : Shard A} {c : Compaction A} {kept : List (Loc × Loc)} {dropped : List Loc} {bound : Nat}

/-- What holds of a round whatever the keys: writers stay out of the sources, and every move has a
copy of its own. -/
structure InFlight (σ : Shard A) (c : Compaction A) : Prop where
  origLen : c.origLen ≤ σ.segs.length
  act : ∀ id, σ.act = some id → c.origLen ≤ id
  distinct : (c.moved.map snd).Nodup
  ads : ∀ dst ∈ c.moved.map snd, ∃ cell, cellAt (cells c.live) dst = some cell ∧ cell.isMarker = false
  isOpen : (∀ seg ∈ c.live, seg.IsOpen) ∧ ∀ seg ∈ c.hist, seg.IsOpen

theorem inFlight_begin {cfg : Config} {now : Nat} :
    InFlight (σ.beginCompaction cfg now).1 (σ.beginCompaction cfg now).2 :=
  ⟨Nat.le_refl _, nofun, nodup_nil, nofun, nofun, nofun⟩

section
variable (flight : InFlight σ c)
include flight

theorem InFlight.grows (grows : Grows bound σ τ) : InFlight τ c where
  origLen := Nat.le_trans flight.origLen grows.length_le
  act id isActive := by
    rcases grows.act with same | ⟨other, becomes, beyond⟩
    · exact flight.act id (same.symm.trans isActive)
    · rw [becomes] at isActive
      cases isActive
      exact Nat.le_trans flight.origLen beyond
  distinct := flight.distinct
  ads := flight.ads
  isOpen := flight.isOpen

theorem InFlight.pass (rest : List Loc) : InFlight σ { c with todo := rest } :=
  ⟨flight.origLen, flight.act, flight.distinct, flight.ads, flight.isOpen⟩

theorem InFlight.copies (copies : Copies c c' l r) : InFlight σ c' := by
  cases copies with
  | moved dst len keyed current pushed form =>
    have snds : c'.moved.map snd = c.moved.map snd ++ [dst] := by rw [form]; simp
    have fields : c'.origLen = c.origLen ∧ c'.hist = c.hist := by rw [form]; exact ⟨rfl, rfl⟩
    refine ⟨fields.1 ▸ flight.origLen, fields.1 ▸ flight.act, ?_, ?_, pushed.isOpen flight.isOpen.1,
      fields.2 ▸ flight.isOpen.2⟩
    · rw [snds]
      exact pushed.distinct flight.distinct fun a member => (flight.ads a member).imp fun _ => And.left
    · rw [snds]
      intro a member
      rcases mem_append.mp member with old | isNew
      · obtain ⟨cell, here, isAd⟩ := flight.ads a old
        exact ⟨cell, pushed.old a cell here, isAd⟩
      · obtain rfl := mem_singleton.mp isNew
        exact ⟨_, pushed.at_, keyed⟩
  | kept dst len x keyed superseded pushed form =>
    rw [form]
    exact ⟨flight.origLen, flight.act, flight.distinct, flight.ads, flight.isOpen.1, pushed.isOpen flight.isOpen.2⟩
  | passed expired padded form =>
    rw [form]
    exact ⟨flight.origLen, flight.act, flight.distinct, flight.ads, flight.isOpen.1, padded.isOpen flight.isOpen.2⟩

theorem InFlight.copyRecord (l : Loc) (choice : CopyChoice) : InFlight σ (σ.copyRecord cfg c l choice) := by
  cases here : σ.pinnedAt l with
  | some r => exact flight.copies (copyRecord_copies here)
  | none =>
    unfold Shard.copyRecord
    simp only [here]
    exact flight

end

/-- The source locations of a round, in the order of what happened to them. -/
def passedOver (c : Compaction A) (kept : List (Loc × Loc)) (dropped : List Loc) : List Loc :=
  c.moved.map fst ++ kept.map fst ++ dropped ++ c.todo

/-- A copy stands for a record: same ad, same sequence. -/
def CopyOf (dst : List (Segment A)) (σ : Shard A) (pair : Loc × Loc) (sup : Option Nat) (r : Record A) : Prop :=
  σ.pinnedAt pair.1 = some r ∧ r.isMarker = false ∧
    ∃ cell, cellAt (cells dst) pair.2 = some cell ∧ cell.seq = r.seq ∧ cell.body = r.body ∧ cell.superseded = sup

/-- How far the copying has come. A moved record may have been superseded since; a record kept as
history was superseded when it was copied; a dropped one can no longer be read. -/
structure Copying (σ : Shard A) (c : Compaction A) (kept : List (Loc × Loc)) (dropped : List Loc) : Prop
    extends InFlight σ c where
  sources : ∀ id ∈ c.sources, id < c.origLen ∧ ∃ seg, σ.segs[id]? = some seg ∧ seg.retired = false
  settled : ∀ l r, l.seg < c.origLen → l.seg ∉ c.sources → σ.recordAt l = some r → r.currentPair = none
  unrepeated : (passedOver c kept dropped).Nodup
  covers : ∀ l, l ∈ passedOver c kept dropped ↔ l.seg ∈ c.sources ∧ ∃ r, σ.pinnedAt l = some r
  movedCopies : ∀ pair ∈ c.moved, ∃ r, CopyOf c.live σ pair none r
  keptCopies : ∀ pair ∈ kept, ∃ r x, r.superseded = some x ∧ CopyOf c.hist σ pair (some x) r
  keptDistinct : (kept.map snd).Nodup
  droppedExpired : ∀ l ∈ dropped, ∃ r, σ.pinnedAt l = some r ∧ r.Expired c.retain
  liveCovered : ∀ l cell, cellAt (cells c.live) l = some cell → cell.isMarker = false → l ∈ c.moved.map snd
  histCovered : ∀ l cell, cellAt (cells c.hist) l = some cell → cell.isMarker = false → l ∈ kept.map snd
  counted : (∀ seg ∈ c.live, Counted seg) ∧ ∀ seg ∈ c.hist, Counted seg

theorem CopyOf.grows (copy : CopyOf dst σ pair sup r)
    (keeps : Keeps bound σ τ) : ∃ r', CopyOf dst τ pair sup r' ∧ Aged bound r r' := by
  obtain ⟨here, keyed, cell, at_, seq, body, superseded⟩ := copy
  obtain ⟨r', here', aged⟩ := keeps pair.1 r here
  exact ⟨r', ⟨here', aged.isMarker.trans keyed, cell, at_, seq.trans aged.seq.symm, body.trans aged.body.symm,
    superseded⟩, aged⟩

theorem Record.currentPair_eq_none {r : Record A} : r.currentPair = none ↔ r.isMarker = true ∨ r.superseded ≠ none := by
  unfold Record.currentPair Record.isMarker
  cases r.body <;> cases r.superseded <;> simp

theorem Aged.currentPair_none {r r' : Record A} (aged : Aged bound r r') (none_ : r.currentPair = none) :
    r'.currentPair = none := by
  rw [Record.currentPair_eq_none] at none_ ⊢
  refine none_.imp (fun marker => aged.isMarker.trans marker) fun superseded => ?_
  obtain ⟨x, isSome⟩ := ne_none_iff_exists'.mp superseded
  rw [aged.of_superseded isSome]
  nofun

theorem Aged.expired (aged : Aged bound r r') (expired : r.Expired retain) : r'.Expired retain :=
  expired.imp (fun marker => aged.isMarker.trans marker) fun ⟨x, superseded, upTo⟩ =>
    ⟨x, aged.of_superseded superseded, upTo⟩

/-- Writers do not add to a segment below the barrier. -/
theorem Grows.pinnedBack (grows : Grows bound σ τ) (flight : InFlight σ c) (below : l.seg < c.origLen)
    (here : τ.pinnedAt l = some r) : ∃ r₀, σ.pinnedAt l = some r₀ ∧ Aged bound r₀ r := by
  have inside : l.seg < σ.segs.length := Nat.lt_of_lt_of_le below flight.origLen
  obtain ⟨seg', here', -, length⟩ := grows.segs l.seg σ.segs[l.seg] (getElem?_eq_getElem inside)
  have inactive : σ.act ≠ some l.seg := fun isActive => by
    have := flight.act l.seg isActive
    omega
  rw [Shard.pinnedAt, here', bind_some] at here
  have offBound : l.off < σ.segs[l.seg].records.length := length inactive ▸ (List.getElem?_eq_some_iff.mp here).1
  have found : σ.pinnedAt l = some σ.segs[l.seg].records[l.off] := by
    rw [Shard.pinnedAt, getElem?_eq_getElem inside, bind_some, getElem?_eq_getElem offBound]
  obtain ⟨r', found', aged⟩ := grows.keeps l _ found
  rw [Shard.pinnedAt, here', bind_some, here] at found'
  cases found'
  exact ⟨_, found, aged⟩

/-- What is found through the shard below the barrier was found before. -/
theorem Grows.recordBack (grows : Grows bound σ τ) (flight : InFlight σ c) (below : l.seg < c.origLen)
    (here : τ.recordAt l = some r) : ∃ r₀, σ.recordAt l = some r₀ ∧ Aged bound r₀ r := by
  obtain ⟨r₀, found, aged⟩ := grows.pinnedBack flight below (pinnedAt_of_recordAt here)
  refine ⟨r₀, ?_, aged⟩
  obtain ⟨seg, at_, off⟩ := bind_eq_some_iff.mp found
  obtain ⟨seg', at', retired, -⟩ := grows.segs l.seg seg at_
  rw [recordAt_eq, at', bind_some] at here
  rw [recordAt_eq, at_, bind_some]
  split at here
  · cases here
  next notRetired =>
    rw [retired] at notRetired
    rw [if_neg notRetired, off]

theorem Copying.grows (copying : Copying σ c kept dropped) (grows : Grows bound σ τ) : Copying τ c kept dropped where
  toInFlight := copying.toInFlight.grows grows
  sources id member := by
    obtain ⟨below, seg, here, notRetired⟩ := copying.sources id member
    obtain ⟨seg', here', retired, -⟩ := grows.segs id seg here
    exact ⟨below, seg', here', retired.trans notRetired⟩
  settled l r below other here := by
    obtain ⟨r₀, found, aged⟩ := grows.recordBack copying.toInFlight below here
    exact aged.currentPair_none (copying.settled l r₀ below other found)
  unrepeated := copying.unrepeated
  covers l := by
    rw [copying.covers l]
    refine and_congr_right fun member => ⟨fun ⟨r, here⟩ => ?_, fun ⟨r, here⟩ => ?_⟩
    · obtain ⟨r', here', -⟩ := grows.keeps l r here
      exact ⟨r', here'⟩
    · obtain ⟨r₀, found, -⟩ := grows.pinnedBack copying.toInFlight (copying.sources l.seg member).1 here
      exact ⟨r₀, found⟩
  movedCopies pair member := by
    obtain ⟨r, copy⟩ := copying.movedCopies pair member
    obtain ⟨r', copy', -⟩ := copy.grows grows.keeps
    exact ⟨r', copy'⟩
  keptCopies pair member := by
    obtain ⟨r, x, superseded, copy⟩ := copying.keptCopies pair member
    obtain ⟨r', copy', aged⟩ := copy.grows grows.keeps
    exact ⟨r', x, aged.of_superseded superseded, copy'⟩
  keptDistinct := copying.keptDistinct
  droppedExpired l member := by
    obtain ⟨r, here, expired⟩ := copying.droppedExpired l member
    obtain ⟨r', here', aged⟩ := grows.keeps l r here
    exact ⟨r', here', aged.expired expired⟩
  liveCovered := copying.liveCovered
  histCovered := copying.histCovered
  counted := copying.counted

/-! ## The steps of a round -/

theorem mem_sources {now id : Nat} : id ∈ (σ.beginCompaction cfg now).2.sources ↔ ∃ seg, σ.segs[id]? = some seg ∧
    seg.retired = false ∧ seg.records ≠ [] ∧ ¬(seg.used ≤ seg.dead ∧ σ.retainFloor cfg now < seg.maxSup) := by
  unfold Shard.beginCompaction
  simp only [mem_filter, List.mem_range]
  cases here : σ.segs[id]? with
  | none => simp
  | some seg =>
    have inside := (List.getElem?_eq_some_iff.mp here).1
    simp only [inside, true_and, some.injEq, exists_eq_left', Bool.and_eq_true, Bool.not_eq_true', List.isEmpty_iff,
      ← Bool.not_eq_true, decide_eq_true_eq, ne_eq, and_assoc]

theorem mem_todo {now : Nat} : l ∈ (σ.beginCompaction cfg now).2.todo ↔
    l.seg ∈ (σ.beginCompaction cfg now).2.sources ∧ ∃ r, σ.pinnedAt l = some r := by
  have form : (σ.beginCompaction cfg now).2.todo = (σ.beginCompaction cfg now).2.sources.flatMap fun id =>
      (List.range ((σ.segs[id]?).elim 0 fun seg => seg.records.length)).map fun off => ⟨id, off⟩ := rfl
  rw [form, mem_flatMap]
  constructor
  · rintro ⟨id, member, inside⟩
    obtain ⟨off, bound, rfl⟩ := mem_map.mp inside
    obtain ⟨seg, here, -⟩ := mem_sources.mp member
    rw [here, elim_some] at bound
    have offBound : off < seg.records.length := List.mem_range.mp bound
    refine ⟨member, seg.records[off], ?_⟩
    rw [Shard.pinnedAt, here, bind_some]
    exact getElem?_eq_getElem offBound
  · rintro ⟨member, r, found⟩
    obtain ⟨seg, here, at_⟩ := bind_eq_some_iff.mp found
    refine ⟨l.seg, member, mem_map.mpr ⟨l.off, ?_, rfl⟩⟩
    rw [here, elim_some]
    exact List.mem_range.mpr (List.getElem?_eq_some_iff.mp at_).1

theorem nodup_todo : (σ.beginCompaction cfg now).2.todo.Nodup := by
  refine nodup_flatMap.mpr ⟨fun id _ => ?_, ?_⟩
  · exact nodup_range.map fun off off' same => (Loc.mk.inj same).2
  · refine (nodup_range.filter _).imp ?_
    intro id id' differs l here there
    obtain ⟨off, -, rfl⟩ := mem_map.mp here
    obtain ⟨off', -, same⟩ := mem_map.mp there
    exact differs (Loc.mk.inj same).1.symm

/-- Phase 1. The segments that are not sources are empty or all dead. -/
theorem copying_begin (counted : ∀ seg ∈ σ.segs, Counted seg) {now : Nat} :
    Copying (σ.beginCompaction cfg now).1 (σ.beginCompaction cfg now).2 [] [] where
  toInFlight := inFlight_begin
  sources id member := by
    obtain ⟨seg, here, notRetired, -⟩ := mem_sources.mp member
    exact ⟨(List.getElem?_eq_some_iff.mp here).1, seg, here, notRetired⟩
  settled l r below other here := by
    have found : σ.recordAt l = some r := here
    have raw := pinnedAt_of_recordAt found
    obtain ⟨seg, at_, off⟩ := bind_eq_some_iff.mp raw
    rw [recordAt_eq, at_, bind_some] at found
    rw [Record.currentPair_eq_none]
    by_cases marker : r.isMarker = true
    · exact .inl marker
    · right
      have keyed : r.isMarker = false := by simpa using marker
      have allDead : seg.used ≤ seg.dead := by
        by_contra alive
        apply other
        refine mem_sources.mpr ⟨seg, at_, ?_, ne_nil_of_mem (mem_of_getElem? off), fun both => alive both.1⟩
        by_contra retired
        rw [if_pos (by simpa using retired)] at found
        cases found
      obtain ⟨x, sup, -⟩ := (counted seg (mem_of_getElem? at_)).settled allDead (mem_of_getElem? off) keyed
      rw [sup]
      nofun
  unrepeated := nodup_todo
  covers l := mem_todo
  movedCopies := nofun
  keptCopies := nofun
  keptDistinct := nodup_nil
  droppedExpired := nofun
  liveCovered l cell here := by cases here
  histCovered l cell here := by cases here
  counted := ⟨nofun, nofun⟩

/-- A record that can be written has a sequence. -/
theorem seq_pos (counted : ∀ seg ∈ σ.segs, Counted seg) (here : σ.pinnedAt l = some r)
    (keyed : r.isMarker = false) : 0 < r.seq := by
  obtain ⟨seg, at_, off⟩ := bind_eq_some_iff.mp here
  have least := (counted seg (mem_of_getElem? at_)).minSeq r (mem_of_getElem? off) keyed
  omega

theorem CopyOf.mono (copy : CopyOf dst σ pair sup r) (kept : ∀ l c, cellAt (cells dst) l = some c →
      cellAt (cells dst') l = some c) :
    CopyOf dst' σ pair sup r := by
  obtain ⟨here, keyed, cell, at_, facts⟩ := copy
  exact ⟨here, keyed, cell, kept pair.2 cell at_, facts⟩

/-- The record copied is the next of the list, whichever part of it it goes to. -/
theorem passedOver_perm (next : c.todo = l :: rest)
    (goes : passed.Perm (l :: (c.moved.map fst ++ kept.map fst ++ dropped))) :
    (passed ++ rest).Perm (passedOver c kept dropped) := by
  unfold passedOver
  rw [next]
  exact (goes.append_right rest).trans perm_middle.symm

/-- Phase 2, one record further. -/
theorem Copying.copy (copying : Copying σ c kept dropped) (counted : ∀ seg ∈ σ.segs, Counted seg)
    (next : c.todo = l :: rest) (choice : CopyChoice) :
    ∃ kept' dropped', Copying σ { σ.copyRecord cfg c l choice with todo := rest } kept' dropped' := by
  have inside : l ∈ passedOver c kept dropped := by
    unfold passedOver
    rw [next]
    exact mem_append_right _ (.head _)
  obtain ⟨isSource, r, here⟩ := (copying.covers l).mp inside
  have flight : InFlight σ { σ.copyRecord cfg c l choice with todo := rest } :=
    (copying.toInFlight.copyRecord l choice).pass rest
  have copies : Copies c (σ.copyRecord cfg c l choice) l r := copyRecord_copies here
  have stamp : r.isMarker = false → 0 < r.seq := seq_pos counted here
  generalize σ.copyRecord cfg c l choice = c' at copies flight ⊢
  cases copies with
  | moved dst len keyed current pushed form =>
    generalize c'.live = live at pushed form
    subst form
    have goes : ((c.moved ++ [(l, dst)]).map fst ++ kept.map fst ++ dropped).Perm
        (l :: (c.moved.map fst ++ kept.map fst ++ dropped)) := by simp
    refine ⟨kept, dropped, { copying with
      toInFlight := flight
      unrepeated := (passedOver_perm next goes).nodup_iff.mpr copying.unrepeated
      covers := fun l' => (passedOver_perm next goes).mem_iff.trans (copying.covers l')
      movedCopies := ?_, liveCovered := ?_
      counted := ⟨pushed.counted (stamp keyed) copying.counted.1, copying.counted.2⟩ }⟩
    · intro pair member
      rcases mem_append.mp member with old | isNew
      · obtain ⟨r', copy⟩ := copying.movedCopies pair old
        exact ⟨r', copy.mono pushed.old⟩
      · obtain rfl := mem_singleton.mp isNew
        exact ⟨r, here, keyed, _, pushed.at_, rfl, rfl, rfl⟩
    · rw [map_append]
      exact pushed.covered copying.liveCovered
  | kept dst len x keyed superseded pushed form =>
    generalize c'.hist = hist at pushed form
    subst form
    have goes : (c.moved.map fst ++ (kept ++ [(l, dst)]).map fst ++ dropped).Perm
        (l :: (c.moved.map fst ++ kept.map fst ++ dropped)) := by
      rw [map_append, ← append_assoc, append_assoc (c.moved.map fst ++ kept.map fst)]
      exact perm_middle
    refine ⟨kept ++ [(l, dst)], dropped, { copying with
      toInFlight := flight
      unrepeated := (passedOver_perm next goes).nodup_iff.mpr copying.unrepeated
      covers := fun l' => (passedOver_perm next goes).mem_iff.trans (copying.covers l')
      keptCopies := ?_, keptDistinct := ?_, histCovered := ?_
      counted := ⟨copying.counted.1, pushed.counted (stamp keyed) copying.counted.2⟩ }⟩
    · intro pair member
      rcases mem_append.mp member with old | isNew
      · obtain ⟨r', y, sup, copy⟩ := copying.keptCopies pair old
        exact ⟨r', y, sup, copy.mono pushed.old⟩
      · obtain rfl := mem_singleton.mp isNew
        exact ⟨r, x, superseded, here, keyed, _, pushed.at_, rfl, rfl, rfl⟩
    · rw [map_append]
      refine pushed.distinct copying.keptDistinct fun l' member => ?_
      obtain ⟨pair, old, rfl⟩ := mem_map.mp member
      obtain ⟨r', y, sup, -, -, cell, at_, -⟩ := copying.keptCopies pair old
      exact ⟨cell, at_⟩
    · rw [map_append]
      exact pushed.covered copying.histCovered
  | passed expired padded form =>
    generalize c'.hist = hist at padded form
    subst form
    have goes : (c.moved.map fst ++ kept.map fst ++ (dropped ++ [l])).Perm
        (l :: (c.moved.map fst ++ kept.map fst ++ dropped)) := by
      rw [← append_assoc]
      exact perm_append_singleton l _
    refine ⟨kept, dropped ++ [l], { copying with
      toInFlight := flight
      unrepeated := (passedOver_perm next goes).nodup_iff.mpr copying.unrepeated
      covers := fun l' => (passedOver_perm next goes).mem_iff.trans (copying.covers l')
      keptCopies := ?_, droppedExpired := ?_, histCovered := ?_
      counted := ⟨copying.counted.1, padded.counted copying.counted.2⟩ }⟩
    · intro pair member
      obtain ⟨r', y, sup, copy⟩ := copying.keptCopies pair member
      exact ⟨r', y, sup, copy.mono padded.old⟩
    · intro l' member
      rcases mem_append.mp member with old | isNew
      · exact copying.droppedExpired l' old
      · obtain rfl := mem_singleton.mp isNew
        exact ⟨r, here, expired⟩
    · intro l' cell at_ isAd
      rcases padded.new l' cell at_ with old | marker
      · exact copying.histCovered l' cell old isAd
      · rw [isAd] at marker
        cases marker

end Round

end Classad.ShardStore
