import Classad.SegmentRewrite

/-! Where the records of a shard come from. No operation changes the sequence or the body of a
record; a record is new, or a copy of one there was. So a property of segments that copies keep
holds on in every run, as long as the new records keep it. Nothing here asks that the shard is in
order: a bucket whose references point at no record changes no record's origin. -/
namespace Classad.ShardStore
open Arena Chains List

variable {A : Type} {Q : Segment A → Prop} {seg : Segment A} {segs : List (Segment A)} {σ τ ρ : Shard A}
  {new : Nat → Prop}

/-- What no operation changes in a record. -/
def Record.origin (r : Record A) : Nat × Body A := (r.seq, r.body)

/-- A property of the origins in a segment and of its least sequence, which copies of records from
other segments keep. A reseal copies a dictionary as a checkpoint. -/
structure Lasting (Q : Segment A → Prop) : Prop where
  fresh : ∀ size codec, Q (.fresh size codec)
  same : ∀ {seg seg' : Segment A}, Q seg → seg'.records.map Record.origin = seg.records.map Record.origin →
    seg'.minSeq = seg.minSeq → Q seg'
  copy : ∀ {src dst : Segment A} {r : Record A} next len, Q src → r ∈ src.records → Q dst →
    Q (dst.append r.seq next r.body len)
  redate : ∀ {src dst : Segment A} {r : Record A} millis len, Q src → r ∈ src.records → r.body = .dictionary → Q dst →
    Q (dst.append r.seq none (.checkpoint millis) len)
  keyless : ∀ {seg seg' : Segment A} {len : Nat}, Q seg →
    seg'.records = seg.records ++ [⟨0, none, none, .dictionary, len⟩] →
    seg'.minSeq = seg.minSeq → Q seg'

/-- A property that the writes and the copies of a shard and its compactions keep, whichever record
they supersede. -/
structure Writes (Q : Segment A → Prop) : Prop where
  fresh : ∀ size codec, Q (.fresh size codec)
  same : ∀ {seg seg' : Segment A}, Q seg → seg'.records.map Record.bare = seg.records.map Record.bare →
    seg'.minSeq = seg.minSeq →
    seg'.dead = seg.dead → seg'.maxSup = seg.maxSup → Q seg'
  supersede : ∀ {seg : Segment A} off seq, Q seg → Q (seg.supersedeRec off seq)
  copy : ∀ {src dst : Segment A} {r : Record A} {key ad} len, Q src → r ∈ src.records → r.body = .ad key ad → Q dst →
    Q (dst.append r.seq none (.ad key ad) len)
  marker : ∀ {src dst : Segment A} {r : Record A} {millis}, Q src → r ∈ src.records →
    r.body = .checkpoint millis → Q dst →
    Q (dst.appendMarker r.seq millis)
  dict : ∀ {seg : Segment A} len, Q seg → Q (seg.appendDict len)

/-- Whether new ads of a sequence keep a property. -/
def Welcomes (Q : Segment A → Prop) (seq : Nat) : Prop := ∀ seg next key ad len, Q seg →
    Q (seg.append seq next (.ad key ad) len)

/-! ## Segments -/

theorem map_modify_of_eq {g : α → β} (kept : ∀ x, g (f x) = g x) (xs : List α) :
    (xs.modify off f).map g = xs.map g := by
  apply ext_getElem?
  intro i
  simp only [getElem?_map, getElem?_modify]
  cases xs[i]? with
  | none => rfl
  | some x =>
    by_cases here : off = i
    · simp [here, kept]
    · simp [here]

theorem Lasting.appendMarker (lasting : Lasting Q)
    (holds : Q (seg.append seq none (.checkpoint millis) (recordLen 0 8))) :
    Q (seg.appendMarker seq millis) := lasting.same holds rfl rfl

theorem Lasting.writes (lasting : Lasting Q) : Writes Q where
  fresh := lasting.fresh
  same holds records least _ _ := lasting.same holds (map_of_bare (fun _ => rfl) records) least
  supersede {seg} off seq holds := by
    unfold Segment.supersedeRec
    cases seg.records[off]? with
    | none => exact holds
    | some r =>
      exact lasting.same holds (map_modify_of_eq (f := fun r : Record A => { r with superseded := some seq })
        (fun _ => rfl) _) rfl
  copy len known member isBody holds := isBody ▸ lasting.copy none len known member holds
  marker known member isBody holds := lasting.appendMarker (isBody ▸ lasting.copy none _ known member holds)
  dict _ holds := lasting.keyless holds rfl rfl

theorem Writes.finalizeLast (writes : Writes Q) (intern : Bool) (dictLen : Nat) (all : ∀ seg ∈ segs, Q seg) :
    ∀ seg ∈ finalizeLast intern dictLen segs, Q seg := by
  unfold ShardStore.finalizeLast
  split
  · exact forall_modify all fun _ _ holds => writes.dict dictLen holds
  · exact all

theorem forall_snoc (all : ∀ seg ∈ segs, Q seg) (holds : Q last) : ∀ seg ∈ segs ++ [last], Q seg := by
  intro seg member
  rcases mem_append.mp member with old | isLast
  · exact all seg old
  · rwa [mem_singleton.mp isLast]

theorem Writes.openDst (writes : Writes Q) (intern : Bool) (choice : CopyChoice) (size : Nat)
    (all : ∀ seg ∈ segs, Q seg) :
    ∀ seg ∈ openDst intern choice size segs, Q seg := by
  unfold ShardStore.openDst
  split
  · exact forall_snoc (writes.finalizeLast intern choice.dictLen all) (writes.fresh size choice.codec)
  · exact all

/-! ## Writes -/

/-- What the time index and the floors depend on. -/
def Shard.clocks (σ : Shard A) : Nat × Nat × TimeIndex := (σ.commitSeq, σ.gcFloor, σ.tseq)

/-- A change of the shard that leaves its clocks alone and adds no records but ads of certain
sequences. -/
structure Adds (new : Nat → Prop) (σ τ : Shard A) : Prop where
  clocks : τ.clocks = σ.clocks
  records : ∀ {Q : Segment A → Prop}, Writes Q → (∀ seq, new seq → Welcomes Q seq) → (∀ seg ∈ σ.segs, Q seg) →
    ∀ seg ∈ τ.segs, Q seg

/-- A change that adds no records. -/
abbrev Rearranges (σ τ : Shard A) : Prop := Adds (fun _ => False) σ τ

theorem Rearranges.records (adds : Rearranges σ τ) (writes : Writes Q) (all : ∀ seg ∈ σ.segs, Q seg) :
    ∀ seg ∈ τ.segs, Q seg :=
  Adds.records adds writes (fun _ none_ => none_.elim) all

theorem Adds.refl (σ : Shard A) : Adds new σ σ := ⟨rfl, fun _ _ all => all⟩

theorem Adds.trans (first : Adds new σ τ) (second : Adds new τ ρ) : Adds new σ ρ where
  clocks := second.clocks.trans first.clocks
  records writes ads all := second.records writes ads (first.records writes ads all)

theorem Adds.of_segs (clocks : τ.clocks = σ.clocks) (segs : τ.segs = σ.segs) :
    Adds new σ τ := ⟨clocks, fun _ _ all => segs ▸ all⟩

theorem Adds.foldl {f : Shard A → α → Shard A} (one : ∀ σ x, Adds new σ (f σ x)) (xs : List α) (σ : Shard A) :
    Adds new σ (xs.foldl f σ) := by
  induction xs generalizing σ with
  | nil => exact .refl σ
  | cons x rest ih => exact (one σ x).trans (ih (f σ x))

theorem Adds.modifySeg (σ : Shard A) (id : Nat)
    (one : ∀ {Q : Segment A → Prop} seg, Writes Q → (∀ seq, new seq → Welcomes Q seq) → Q seg → Q (f seg)) :
    Adds new σ (σ.modifySeg id f) :=
  ⟨rfl, fun writes ads all => forall_modify all fun seg _ => one seg writes ads⟩

theorem adds_supersedeRec (σ : Shard A) (l : Loc) (seq : Nat) : Adds new σ (σ.supersedeRec l seq) :=
  .modifySeg σ l.seg fun _ writes _ => writes.supersede l.off seq

theorem adds_setRecNext (σ : Shard A) {l : Loc} {next : Option Loc} : Adds new σ (σ.setRecNext l next) :=
  .modifySeg σ l.seg fun _ writes _ holds =>
    writes.same holds (map_modify_of_eq (f := fun r : Record A => { r with next := next }) (fun _ => rfl) _) rfl rfl rfl

variable (cfg : Config)

theorem adds_writeRecord (σ : Shard A) (seq : Nat) (next : Option Loc) (w : PendingPut A) :
    Adds (· = seq) σ (σ.writeRecord cfg seq next w).1 := by
  have appended : ∀ (ρ : Shard A) id, Adds (· = seq) ρ (ρ.appendTo cfg id seq next (.ad w.key w.ad) w.recordLen) := by
    intro ρ id
    have written : Adds (· = seq) ρ (ρ.modifySeg id fun seg => seg.append seq next (.ad w.key w.ad) w.recordLen) :=
      .modifySeg ρ id fun seg _ ads => ads seq rfl seg next w.key w.ad w.recordLen
    unfold Shard.appendTo Shard.markDirty
    split
    · exact written.trans (.of_segs rfl rfl)
    · exact written
  unfold Shard.writeRecord
  cases σ.activeFor w.codec w.recordLen with
  | some id => exact appended σ id
  | none =>
    dsimp only
    split
    · exact .of_segs rfl rfl
    · have allocated : Adds (· = seq) σ (σ.allocate (max cfg.segSize w.recordLen) w.codec) :=
        ⟨rfl, fun writes _ all => forall_snoc all (writes.fresh _ w.codec)⟩
      exact allocated.trans (appended _ _)

theorem adds_put (σ : Shard A) (seq : Nat) (w : PendingPut A) : Adds (· = seq) σ (σ.put cfg seq w) := by
  have written := adds_writeRecord cfg σ seq (σ.dir (cfg.hash w.key)) w
  unfold Shard.put
  dsimp only
  generalize σ.writeRecord cfg seq (σ.dir (cfg.hash w.key)) w = outcome at written ⊢
  obtain ⟨ρ, new | new⟩ := outcome
  · exact written
  · have replaced : Adds (· = seq) ρ (ρ.replaceOld cfg (σ.dir (cfg.hash w.key)) w.key seq) := by
      rcases replaceOld_spec cfg ρ (σ.dir (cfg.hash w.key)) w.key seq with ⟨old, dirtySup, -, form⟩ | ⟨-, form⟩
      · rw [form]
        exact (adds_supersedeRec ρ old seq).trans (.of_segs rfl rfl)
      · rw [form]
        exact .of_segs rfl rfl
    exact (written.trans replaced).trans (.of_segs rfl rfl)

theorem adds_del : Adds new σ (σ.del cfg seq key).1 :=
  del_rule (Adds new σ) (.refl σ) fun old _ _ _ => (adds_supersedeRec σ old seq).trans (.of_segs rfl rfl)

theorem adds_txnWrites (fast : Bool) (seq : Nat) (ws : List (TxnWrite A)) (σ : Shard A) :
    Adds (· = seq) σ (σ.applyTxnWrites cfg fast seq ws).1 := by
  induction ws generalizing σ with
  | nil => exact .refl σ
  | cons w rest ih =>
    have written : Adds (· = seq) σ (σ.applyTxnWrite cfg fast seq w).1 := by
      unfold Shard.applyTxnWrite
      split
      · exact .refl σ
      · cases w.op with
        | put p => exact adds_put cfg σ seq p
        | del key => exact adds_del cfg
    exact written.trans (ih _)

/-- What a commit does to the clocks and to the records: a checkpoint in the time index comes with
its marker. -/
inductive Stamped (now : Nat) (σ τ : Shard A) : Prop
  | still (same : τ = σ)
  | next (adds : Adds (· = σ.commitSeq + 1) { σ with commitSeq := σ.commitSeq + 1 } τ)
  | checkpoint (clocks : τ.clocks = (σ.commitSeq + 1, σ.gcFloor, σ.tseq.record (σ.commitSeq + 1) now))
      (records : ∀ {Q : Segment A → Prop}, Writes Q → Welcomes Q (σ.commitSeq + 1) →
        (∀ seg, Q seg → Q (seg.appendMarker (σ.commitSeq + 1) now)) → (∀ seg ∈ σ.segs, Q seg) → ∀ seg ∈ τ.segs, Q seg)

theorem Adds.publish (adds : Adds (· = σ.commitSeq + 1) σ τ) (cfg : Config) (now : Nat) :
    Stamped now σ (Shard.maybeCheckpoint cfg { τ with commitSeq := σ.commitSeq + 1 } (σ.commitSeq + 1) now) := by
  obtain ⟨-, gcFloor, tseq⟩ : τ.commitSeq = σ.commitSeq ∧ τ.gcFloor = σ.gcFloor ∧ τ.tseq = σ.tseq := by
    simpa [Shard.clocks] using adds.clocks
  rcases maybeCheckpoint_cases cfg { τ with commitSeq := σ.commitSeq + 1 } (σ.commitSeq + 1) now with
    same | ⟨travel, σ', -, -, done, form⟩
  · rw [same]
    refine .next ⟨?_, adds.records⟩
    simp [Shard.clocks, gcFloor, tseq]
  · obtain ⟨id, seg, dirty, -, -, rfl⟩ := writeMarker_some done
    rw [form]
    refine .checkpoint ?_ fun writes ads marker all => ?_
    · simp [Shard.clocks, Shard.modifySeg, gcFloor, tseq]
    · exact forall_modify (adds.records writes (fun seq isNew => isNew ▸ ads) all) fun seg _ => marker seg

theorem stamped_applyBatch {writes : List (PendingPut A)} {now : Nat} :
    Stamped now σ (σ.applyBatch cfg writes now) :=
  (Adds.foldl (fun σ w => adds_put cfg σ _ w) writes σ).publish cfg now

theorem stamped_delete {key : Key} {now : Nat} : Stamped now σ (σ.delete cfg key now).1 :=
  delete_rule (Stamped now σ) (fun _ => .still rfl) ((adds_del cfg).publish cfg now)

theorem stamped_applyTxn {ws : List (TxnWrite A)} {now : Nat} : Stamped now σ (σ.applyTxn cfg ws now).1 :=
  applyTxn_rule (Stamped now σ) (fun _ => .still rfl) ((adds_txnWrites cfg _ _ ws σ).publish cfg now)

/-! ## Sealing and reclaiming -/

theorem rearranges_seal (σ : Shard A) (id : Nat) : Rearranges σ (σ.sealSegmentIndex cfg id) := by
  unfold Shard.sealSegmentIndex
  split
  · exact .modifySeg σ id fun _ writes _ holds => writes.same holds rfl rfl rfl rfl
  · exact .refl σ

theorem rearranges_evict (σ : Shard A) (id : Nat) : Rearranges σ (σ.evictSegKeys cfg id) := by
  unfold Shard.evictSegKeys
  split
  · exact .refl σ
  · split
    · exact .of_segs rfl rfl
    · exact .refl σ

theorem rearranges_retire : Rearranges σ (σ.retire gone) := by
  refine ⟨rfl, fun writes _ all seg member => ?_⟩
  obtain ⟨id, inside, rfl⟩ := mem_mapIdx.mp member
  have old := all _ (getElem_mem inside)
  split
  · exact writes.same old rfl rfl rfl rfl
  · exact old

theorem rearranges_relink (isDead : Loc → Bool) (rounds fuel : Nat) (l : Option Loc) (σ : Shard A) :
    Rearranges σ (Shard.spliceDeadFromChain.relink isDead rounds fuel l σ) := by
  fun_induction Shard.spliceDeadFromChain.relink isDead rounds fuel l σ with
  | case1 | case2 | case3 => exact .refl _
  | case4 fuel l σ next found next' ih =>
    refine Adds.trans ?_ ih
    split
    · exact adds_setRecNext σ
    · exact .refl σ

theorem rearranges_splice (h : UInt64) : Rearranges σ (σ.spliceDeadFromChain dead h) := by
  unfold Shard.spliceDeadFromChain
  cases σ.dir h with
  | none => exact .refl σ
  | some l =>
    have moved : ∀ head, Rearranges σ { σ with dir := Function.update σ.dir h head } := fun _ => .of_segs rfl rfl
    exact (moved _).trans (rearranges_relink _ _ _ _ _)

theorem rearranges_linkRecord (σ : Shard A) (l : Loc) : Rearranges σ (σ.linkRecord cfg l) := by
  unfold Shard.linkRecord
  cases σ.recordAt l with
  | none => exact .refl σ
  | some r => exact (adds_setRecNext σ).trans (.of_segs rfl rfl)

/-- A reclaiming pass: nothing, or the floor is raised over a shard with the records there were. -/
theorem reclaim_origin {now : Nat} :
    σ.reclaimDeadShard cfg now = σ ∨ ∃ ρ, Rearranges σ ρ ∧
    σ.reclaimDeadShard cfg now = ρ.raiseFloor (σ.retainFloor cfg now) := by
  unfold Shard.reclaimDeadShard
  dsimp only
  split
  · exact .inl rfl
  · have spliced : ∀ dead (buckets : List UInt64), Rearranges σ
        (buckets.foldl (fun σ h => Shard.spliceDeadFromChain σ dead h) σ) :=
      fun dead buckets => .foldl (fun σ h => rearranges_splice h) buckets σ
    refine .inr ⟨_, ?_, rfl⟩
    exact ((spliced _ _).trans (rearranges_retire)).trans (.of_segs rfl rfl)

/-! ## Compaction -/

/-- A copy adds to the destinations what was in the source, and dictionaries. -/
theorem Writes.copyRecord (writes : Writes Q) (cfg : Config) (all : ∀ seg ∈ σ.segs, Q seg)
    (live : ∀ seg ∈ c.live, Q seg)
    (hist : ∀ seg ∈ c.hist, Q seg) (l : Loc) (choice : CopyChoice) :
    (∀ seg ∈ (σ.copyRecord cfg c l choice).live, Q seg) ∧ ∀ seg ∈ (σ.copyRecord cfg c l choice).hist, Q seg := by
  unfold Shard.copyRecord
  cases pinned : σ.pinnedAt l with
  | none => exact ⟨live, hist⟩
  | some r =>
    obtain ⟨src, found, here⟩ := Option.bind_eq_some_iff.mp pinned
    have known := all src (mem_of_getElem? found)
    have member := mem_of_getElem? here
    dsimp only
    split <;> rename_i isBody
    · exact ⟨live, hist⟩
    · split
      · exact ⟨live, forall_modify (writes.openDst c.intern choice _ hist) fun _ _ => writes.marker known member isBody⟩
      · exact ⟨live, hist⟩
    · split
      · exact ⟨forall_modify (writes.openDst c.intern choice _ live) fun _ _ => writes.copy _ known member isBody, hist⟩
      · split
        · exact ⟨live, forall_modify (writes.openDst c.intern choice _ hist) fun _ _ holds =>
            writes.supersede _ _ (writes.copy _ known member isBody holds)⟩
        · exact ⟨live, hist⟩

theorem Writes.transferSups (writes : Writes Q) (σ : Shard A) (moved : List (Loc × Loc))
    (all : ∀ seg ∈ live, Q seg) : ∀ seg ∈ σ.transferSups moved live, Q seg := by
  induction moved generalizing live with
  | nil => exact all
  | cons entry rest ih =>
    apply ih
    dsimp only
    split
    · exact forall_modify all fun _ _ => writes.supersede _ _
    · exact all

/-- An install raises the floor over a shard with the clocks there were, and the records there
were or that the destinations bring. -/
theorem install_origin :
    ∃ ρ : Shard A, ρ.clocks = σ.clocks ∧ σ.installCompaction cfg c liveDict histDict = ρ.raiseFloor c.retain ∧
      ∀ {Q : Segment A → Prop}, Writes Q → (∀ seg ∈ σ.segs, Q seg) → (∀ seg ∈ c.live, Q seg) →
      (∀ seg ∈ c.hist, Q seg) → ∀ seg ∈ ρ.segs, Q seg := by
  have linked := fun current : List Loc => Adds.foldl (rearranges_linkRecord cfg) current
    (σ.withDestinations (σ.transferSups c.moved (finalizeLast c.intern liveDict c.live))
      (finalizeLast c.intern histDict c.hist))
  unfold Shard.installCompaction
  refine ⟨_, ?_, rfl, ?_⟩
  · exact (linked _).clocks
  · intro Q writes all live hist
    refine (rearranges_retire).records writes ((Rearranges.records (linked _)) writes ?_)
    intro seg member
    rcases mem_append.mp member with front | inHist
    · rcases mem_append.mp front with old | inLive
      · exact all seg old
      · exact writes.transferSups σ c.moved (writes.finalizeLast _ _ live) seg inLive
    · exact writes.finalizeLast _ _ hist seg inHist

/-! ## Rewriting passes -/

section
variable (lasting : Lasting Q)
include lasting

theorem Lasting.resealEntry (known : Q src) (member : entry.1 ∈ src.records)
    (choice : RewriteChoice) (holds : Q out) : Q (out.resealEntry choice entry) := by
  have copied : ∀ {body : Body A} (len : Nat), entry.1.body = body → Q (out.append entry.1.seq none body len) := by
    rintro body len rfl
    exact lasting.copy none len known member holds
  unfold Segment.resealEntry
  split <;> rename_i isBody
  · exact copied _ isBody
  · exact lasting.appendMarker (copied _ isBody)
  · exact lasting.appendMarker (lasting.redate _ _ known member isBody holds)

theorem Lasting.columnEntry (known : Q src) (member : entry.1 ∈ src.records)
    (choice : RewriteChoice) (holds : Q out) : Q (out.columnEntry choice entry) := by
  unfold Segment.columnEntry
  split
  · exact holds
  · refine lasting.same
      (lasting.copy none (recordLen entry.1.key.length (choice.adLen entry.2)) known member holds) ?_ rfl
    simp [Segment.appendRawRecord, Segment.append, Record.origin]

/-- A rewritten segment has the records of its source, and keyless ones of its own. -/
theorem Lasting.rewrite (known : Q src) (kind : Rewrite) (choice : RewriteChoice) :
    Q (src.rewrite kind choice) := by
  have inside : ∀ entry ∈ src.records.zipIdx, entry.1 ∈ src.records := fun entry member => fst_mem_of_mem_zipIdx member
  cases kind with
  | reseal =>
    have kept := foldlRecOn src.records.zipIdx (Segment.resealEntry choice) (motive := fun out : Segment A => Q out)
      (lasting.fresh choice.size choice.codec) fun out holds entry member =>
        lasting.resealEntry known (inside entry member) choice holds
    exact lasting.keyless kept rfl rfl
  | columnarize =>
    have kept := foldlRecOn src.records.zipIdx (Segment.columnEntry choice) (motive := fun out : Segment A => Q out)
      (lasting.fresh choice.size src.codec) fun out holds entry member =>
        lasting.columnEntry known (inside entry member) choice holds
    unfold Segment.rewrite Segment.columnarize
    dsimp only
    split
    · have once : ∀ dictLen, Q (Segment.appendDict _ dictLen) := fun dictLen => lasting.keyless kept rfl rfl
      exact lasting.keyless (once _) rfl rfl
    · exact lasting.keyless kept rfl rfl

theorem Lasting.settle (holds : Q out) (kind : Rewrite) (src : Segment A) : Q (src.settle kind out) := by
  cases kind with
  | reseal => exact holds
  | columnarize =>
    refine foldlRecOn (Segment.adOffs src.records).zipIdx (Segment.reconcileEntry src)
      (motive := fun out : Segment A => Q out) holds ?_
    intro out holds entry _
    unfold Segment.reconcileEntry
    split
    · split
      · exact lasting.writes.supersede _ _ holds
      · exact holds
    · exact holds

theorem Lasting.swap (all : ∀ seg ∈ σ.segs, Q seg) (id : Nat) (holds : Q seg) :
    ∀ seg' ∈ (σ.swap id seg).segs, Q seg' := by
  unfold Shard.swap
  split
  · exact all
  · intro seg' member
    rcases mem_or_eq_of_mem_set member with old | rfl
    · obtain ⟨seg₀, inside, rfl⟩ := mem_map.mp old
      refine lasting.same (all seg₀ inside) ?_ rfl
      rw [map_map]
      rfl
    · exact holds

end

theorem clocks_swap {id : Nat} : (σ.swap id seg).clocks = σ.clocks := by
  unfold Shard.swap
  split <;> rfl

theorem rearranges_reindex (σ : Shard A) : Rearranges σ (σ.reindex cfg) :=
  (Adds.foldl (rearranges_seal cfg) _ σ).trans (Adds.foldl (rearranges_evict cfg) _ _)

theorem rearranges_startPass {kind : Rewrite} : Rearranges σ (σ.startPass kind).1 := by
  cases kind <;> exact .of_segs rfl rfl

/-! ## Runs -/

/-- A property of all the segments of a shard and of the destinations of its compaction. -/
structure System.Lasts (Q : Segment A → Prop) (s : System A) : Prop where
  shard : ∀ seg ∈ s.shard.segs, Q seg
  round : ∀ c, s.round = some c → (∀ seg ∈ c.live, Q seg) ∧ ∀ seg ∈ c.hist, Q seg

/-- A property of these and of what a pass is about to swap in. -/
structure Upkeep.Lasts (Q : Segment A → Prop) (u : Upkeep A) : Prop extends System.Lasts Q u.system where
  staged : ∀ pass, u.pass = some pass → ∀ entry ∈ pass.staged, Q entry.2

theorem Upkeep.lasts_initial (Q : Segment A → Prop) : (Upkeep.initial : Upkeep A).Lasts Q := ⟨⟨nofun, nofun⟩, nofun⟩

theorem Upkeep.Lasts.mono {u : Upkeep A} (lasts : u.Lasts Q) (weaker : ∀ seg, Q seg → Q' seg) : u.Lasts Q' where
  shard seg member := weaker seg (lasts.shard seg member)
  round c isRound := ⟨fun seg member => weaker seg ((lasts.round c isRound).1 seg member),
    fun seg member => weaker seg ((lasts.round c isRound).2 seg member)⟩
  staged pass isPass entry member := weaker entry.2 (lasts.staged pass isPass entry member)

/-- A commit keeps what its ads and its marker keep. -/
theorem Stamped.records (stamped : Stamped now σ τ) (writes : Writes Q)
    (ads : τ.commitSeq = σ.commitSeq + 1 → Welcomes Q (σ.commitSeq + 1))
    (marker : τ.clocks = (σ.commitSeq + 1, σ.gcFloor, σ.tseq.record (σ.commitSeq + 1) now) →
      ∀ seg, Q seg → Q (seg.appendMarker (σ.commitSeq + 1) now)) (all :
      ∀ seg ∈ σ.segs, Q seg) : ∀ seg ∈ τ.segs, Q seg := by
  cases stamped with
  | still same => exact same ▸ all
  | next adds => exact adds.records writes (fun seq isNew => isNew ▸ ads (congrArg Prod.fst adds.clocks)) all
  | checkpoint clocks records =>
    exact records writes (ads (congrArg Prod.fst clocks)) (marker clocks) all

theorem Stamped.commitSeq_le (stamped : Stamped now σ τ) : σ.commitSeq ≤ τ.commitSeq := by
  cases stamped with
  | still same => exact Nat.le_of_eq (congrArg Shard.commitSeq same.symm)
  | next adds =>
    have next : τ.commitSeq = σ.commitSeq + 1 := congrArg Prod.fst adds.clocks
    omega
  | checkpoint clocks _ =>
    have next : τ.commitSeq = σ.commitSeq + 1 := congrArg Prod.fst clocks
    omega

theorem commitSeq_step (s : System A) (op : Op A) : s.shard.commitSeq ≤ (s.step cfg op).shard.commitSeq := by
  have arranged : ∀ {τ : Shard A}, τ.clocks = s.shard.clocks → s.shard.commitSeq ≤ τ.commitSeq := fun clocks =>
    Nat.le_of_eq (congrArg Prod.fst clocks.symm)
  have steps := s.steps cfg op
  generalize s.step cfg op = s' at steps ⊢
  cases steps with
  | commit writes => exact (stamped_applyBatch cfg).commitSeq_le
  | delete key => exact (stamped_delete cfg).commitSeq_le
  | txn writes => exact (stamped_applyTxn cfg).commitSeq_le
  | sealSegment id => exact arranged (rearranges_seal cfg s.shard id).clocks
  | evict id => exact arranged (rearranges_evict cfg s.shard id).clocks
  | reclaim =>
    rcases reclaim_origin cfg with same | ⟨ρ, rearranges, form⟩
    · exact arranged (congrArg Shard.clocks same)
    · rw [form]
      exact arranged (τ := ρ) rearranges.clocks
  | install isRound next liveDict histDict =>
    obtain ⟨ρ, clocks, form, -⟩ := install_origin cfg
    rw [form]
    exact arranged (τ := ρ) clocks
  | beginRound | copy | abort | tick | waits => exact Nat.le_refl _

theorem Upkeep.commitSeq_step (u : Upkeep A) (op : UpkeepOp A) :
    u.system.shard.commitSeq ≤ (u.step cfg op).system.shard.commitSeq := by
  have arranged : ∀ {τ : Shard A}, τ.clocks = u.system.shard.clocks → u.system.shard.commitSeq ≤ τ.commitSeq :=
    fun clocks =>
    Nat.le_of_eq (congrArg Prod.fst clocks.symm)
  have steps := u.steps cfg op
  generalize u.step cfg op = u' at steps ⊢
  cases steps with
  | shard op => exact ShardStore.commitSeq_step cfg u.system op
  | start kind => exact arranged (rearranges_startPass).clocks
  | commit => exact arranged (clocks_swap)
  | finish => exact arranged (rearranges_reindex cfg u.system.shard).clocks
  | build | drop | waits => exact Nat.le_refl _

/-- One step of the shard. -/
theorem System.Lasts.step {s : System A} (lasts : s.Lasts Q) (writes : Writes Q) (cfg : Config) (op : Op A)
    (ads : (s.step cfg op).shard.commitSeq = s.shard.commitSeq + 1 → Welcomes Q (s.shard.commitSeq + 1))
    (marker : (s.step cfg op).shard.clocks = (s.shard.commitSeq + 1, s.shard.gcFloor,
      s.shard.tseq.record (s.shard.commitSeq + 1) s.clock) →
      ∀ seg, Q seg → Q (seg.appendMarker (s.shard.commitSeq + 1) s.clock)) : (s.step cfg op).Lasts Q := by
  have written : ∀ {τ : Shard A}, Stamped s.clock s.shard τ →
      (τ.commitSeq = s.shard.commitSeq + 1 → Welcomes Q (s.shard.commitSeq + 1)) →
      (τ.clocks = (s.shard.commitSeq + 1, s.shard.gcFloor, s.shard.tseq.record (s.shard.commitSeq + 1) s.clock) →
        ∀ seg, Q seg → Q (seg.appendMarker (s.shard.commitSeq + 1) s.clock)) →
      System.Lasts Q { s with shard := τ } :=
    fun stamped ads marker => ⟨stamped.records writes ads marker lasts.shard, lasts.round⟩
  have arranged : ∀ {τ : Shard A}, Rearranges s.shard τ → System.Lasts Q { s with shard := τ } := fun rearranges =>
    ⟨rearranges.records writes lasts.shard, lasts.round⟩
  have shardStep := s.steps cfg op
  generalize s.step cfg op = s' at shardStep ads marker ⊢
  cases shardStep with
  | commit writes => exact written (stamped_applyBatch cfg) ads marker
  | delete key => exact written (stamped_delete cfg) ads marker
  | txn writes => exact written (stamped_applyTxn cfg) ads marker
  | sealSegment id => exact arranged (rearranges_seal cfg s.shard id)
  | evict id => exact arranged (rearranges_evict cfg s.shard id)
  | reclaim =>
    rcases reclaim_origin cfg with same | ⟨ρ, rearranges, form⟩
    · exact ⟨same.symm ▸ lasts.shard, nofun⟩
    · exact ⟨form.symm ▸ rearranges.records writes lasts.shard, nofun⟩
  | beginRound =>
    refine ⟨lasts.shard, fun c is => ?_⟩
    cases is
    exact ⟨nofun, nofun⟩
  | copy isRound next choice =>
    obtain ⟨live, hist⟩ := lasts.round _ isRound
    refine ⟨lasts.shard, fun c' is => ?_⟩
    cases is
    exact writes.copyRecord cfg lasts.shard live hist _ choice
  | install isRound next liveDict histDict =>
    obtain ⟨live, hist⟩ := lasts.round _ isRound
    obtain ⟨ρ, -, form, records⟩ := install_origin cfg
    exact ⟨form.symm ▸ records writes lasts.shard live hist, nofun⟩
  | abort => exact ⟨lasts.shard, nofun⟩
  | tick elapsed => exact ⟨lasts.shard, lasts.round⟩
  | waits => exact lasts

/-- One step of the shard and its passes. -/
theorem Upkeep.Lasts.step {u : Upkeep A} (lasts : u.Lasts Q) (lasting : Lasting Q) (cfg : Config) (op : UpkeepOp A)
    (ads : (u.step cfg op).system.shard.commitSeq = u.system.shard.commitSeq + 1 →
      Welcomes Q (u.system.shard.commitSeq + 1))
    (marker : (u.step cfg op).system.shard.clocks = (u.system.shard.commitSeq + 1, u.system.shard.gcFloor,
        u.system.shard.tseq.record (u.system.shard.commitSeq + 1) u.system.clock) →
      ∀ seg, Q seg → Q (seg.appendMarker (u.system.shard.commitSeq + 1) u.system.clock)) : (u.step cfg op).Lasts Q := by
  have steps := u.steps cfg op
  generalize u.step cfg op = u' at steps ads marker ⊢
  cases steps with
  | shard op => exact ⟨lasts.toLasts.step lasting.writes cfg op ads marker, lasts.staged⟩
  | start kind =>
    refine ⟨⟨(rearranges_startPass).records lasting.writes lasts.shard, lasts.round⟩, fun pass isPass => ?_⟩
    cases isPass
    exact nofun
  | build isPass here _ choice =>
    refine ⟨⟨lasts.shard, lasts.round⟩, fun pass' is entry member => ?_⟩
    cases is
    rcases mem_cons.mp member with rfl | old
    · exact lasting.rewrite (lasts.shard _ (mem_of_getElem? here)) _ choice
    · exact lasts.staged _ isPass entry old
  | commit isPass _ built =>
    have settled := lasting.settle (lasts.staged _ isPass _ built)
    refine ⟨⟨lasting.swap lasts.shard _ (settled _ _), lasts.round⟩, fun pass' is entry member => ?_⟩
    cases is
    exact lasts.staged _ isPass entry (mem_filter.mp member).1
  | finish => exact ⟨⟨(rearranges_reindex cfg u.system.shard).records lasting.writes lasts.shard, lasts.round⟩, nofun⟩
  | drop => exact ⟨lasts.toLasts, nofun⟩
  | waits => exact lasts

end Classad.ShardStore
