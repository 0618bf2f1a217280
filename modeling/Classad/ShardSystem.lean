import Classad.CompactionInstall

/-! A shard at work: writers, seals, evictions, reclaims and the phases of a compaction in any
order. The invariants of the single operations give those of every run: the chains and what
readers pinned hold in all of them, what is stored in those that search for no key they cannot
tell from a keyless record and evict no record out of reach. -/
namespace Classad.ShardStore
open Arena Chains Listing List Function
open Shard (commitSeq installed isProbed)

variable {A : Type}

section Steps
variable {cfg : Config} {s : System A}

/-! ## Steps -/

/-- Whether an operation waits: for the end of a round, or for one that is ready for it. -/
def Op.Waits (s : System A) : Op A → Prop
  | .reclaim | .beginRound => s.round ≠ none
  | .copy _ => ∀ c, s.round = some c → c.todo = []
  | .install _ _ => ∀ c, s.round = some c → c.todo ≠ []
  | _ => False

/-- What an operation does. -/
inductive System.Steps (cfg : Config) (s : System A) : Op A → System A → Prop where
  | commit writes : Steps cfg s (.commit writes) { s with shard := s.shard.applyBatch cfg writes s.clock }
  | delete key : Steps cfg s (.delete key) { s with shard := (s.shard.delete cfg key s.clock).1 }
  | txn writes : Steps cfg s (.txn writes) { s with shard := (s.shard.applyTxn cfg writes s.clock).1 }
  | sealSegment id : Steps cfg s (.sealSegment id) { s with shard := s.shard.sealSegmentIndex cfg id }
  | evict id : Steps cfg s (.evict id) { s with shard := s.shard.evictSegKeys cfg id }
  | reclaim : Steps cfg s .reclaim ⟨s.shard.reclaimDeadShard cfg s.clock, none, s.clock⟩
  | beginRound : Steps cfg s .beginRound ⟨{ s.shard with act := none },
    some (s.shard.beginCompaction cfg s.clock).2, s.clock⟩
  | copy (isRound : s.round = some c) (next : c.todo = l :: rest) choice :
    Steps cfg s (.copy choice) { s with round := some { s.shard.copyRecord cfg c l choice with todo := rest } }
  | install (isRound : s.round = some c) (next : c.todo = []) liveDict histDict :
    Steps cfg s (.install liveDict histDict) ⟨s.shard.installCompaction cfg c liveDict histDict, none, s.clock⟩
  | abort : Steps cfg s .abort { s with round := none }
  | tick elapsed : Steps cfg s (.tick elapsed) { s with clock := s.clock + elapsed }
  | waits (idle : op.Waits s) : Steps cfg s op s

theorem System.steps (cfg : Config) (s : System A) (op : Op A) : s.Steps cfg op (s.step cfg op) := by
  obtain ⟨σ, round, clock⟩ := s
  cases round with
  | none =>
    cases op with
    | copy | install => exact .waits nofun
    | _ => constructor
  | some c =>
    obtain ⟨retain, count, sources, todo, intern, live, hist, moved⟩ := c
    cases op with
    | reclaim | beginRound => exact .waits nofun
    | copy choice =>
      cases todo with
      | nil => exact .waits fun c is => by cases is; rfl
      | cons l rest => exact .copy rfl rfl choice
    | install liveDict histDict =>
      cases todo with
      | nil => exact .install rfl rfl liveDict histDict
      | cons l rest => exact .waits fun c is => by cases is; exact cons_ne_nil l rest
    | _ => constructor

/-! ## In every run -/

/-- What holds of a system whatever it does. -/
structure System.Valid (cfg : Config) (s : System A) : Prop where
  linked : Linked cfg s.shard
  round : ∀ c, s.round = some c → InFlight s.shard c

theorem valid_initial : (System.initial : System A).Valid cfg where
  linked := ⟨fun _ => ⟨[], .nil, nodup_nil, nofun⟩, nofun⟩
  round := nofun

theorem grows_seal (cfg : Config) (σ : Shard A) (id bound : Nat) : Grows bound σ (σ.sealSegmentIndex cfg id) := by
  rcases seal_cases with same | ⟨-, form⟩
  · rw [same]
    exact .refl bound σ
  · rw [form]
    exact .modifySeg (.modifySeg σ id fun _ _ _ r here => ⟨r, here, .refl bound r⟩) (fun _ => rfl) fun _ _ => rfl

theorem grows_evict (cfg : Config) (σ : Shard A) (id bound : Nat) : Grows bound σ (σ.evictSegKeys cfg id) := by
  unfold Shard.evictSegKeys
  split
  · exact .refl bound σ
  · split
    · exact .of_fields rfl rfl
    · exact .refl bound σ

theorem Relinked.keeps (relinked : Relinked σ τ) (bound : Nat) : Keeps bound σ τ := by
  intro l r here
  obtain ⟨seg, found, at_⟩ := Option.bind_eq_some_iff.mp here
  obtain ⟨seg', found', bare⟩ := relinked.symm_segs.seg found
  have records : seg.records.map Record.bare = seg'.records.map Record.bare := congrArg Segment.records bare
  have same : (seg'.records[l.off]?).map Record.bare = some r.bare := by
    rw [← getElem?_map, ← records, getElem?_map, at_]
    rfl
  obtain ⟨r', at', reads⟩ := Option.map_eq_some_iff.mp same
  have reading := sameReading_of_bare reads
  refine ⟨r', ?_, reading.seq, reading.body, .inl reading.superseded⟩
  rw [Shard.pinnedAt, found', Option.bind_some, at']

theorem keeps_reclaim (linked : Linked cfg σ) (now bound : Nat) : Keeps bound σ (σ.reclaimDeadShard cfg now) := by
  rcases reclaim_cases linked with same | ⟨spliced, nodes, relinked, -, -, form⟩
  · rw [same]
    exact .refl bound σ
  · rw [form]
    exact ((relinked.keeps bound).trans (.retire spliced _)).trans (.of_segs rfl)

theorem keeps_install (flight : InFlight σ c) (liveDict histDict bound : Nat) :
    Keeps bound σ (σ.installCompaction cfg c liveDict histDict) := by
  have ready := flight.ready liveDict histDict
  obtain ⟨dirty, dirtySup, tseq, form⟩ := install_eq cfg σ c liveDict histDict
  rw [form]
  generalize installedLive σ c liveDict = live at ready ⊢
  generalize finalizeLast c.intern histDict c.hist = hist at ready ⊢
  have added : Keeps bound σ (σ.withDestinations live hist) := .append_segs (append_assoc _ _ _)
  have rebuilt := ((ready.rebuilt cfg).1.keeps bound).trans (.retire _ (isSource c))
  exact (added.trans rebuilt).trans (.of_segs rfl)

theorem commitSeq_reclaim (linked : Linked cfg σ) (now : Nat) :
    (σ.reclaimDeadShard cfg now).commitSeq = σ.commitSeq := by
  rcases reclaim_cases linked with same | ⟨spliced, nodes, relinked, -, -, form⟩
  · exact congrArg commitSeq same
  · obtain ⟨segs, dir, rfl⟩ := relinked.rest
    rw [form]
    rfl

theorem commitSeq_install (flight : InFlight σ c) (liveDict histDict : Nat) :
    (σ.installCompaction cfg c liveDict histDict).commitSeq = σ.commitSeq := by
  obtain ⟨segs, dir, rest⟩ := ((flight.ready liveDict histDict).rebuilt cfg).1.rest
  obtain ⟨dirty, dirtySup, tseq, form⟩ := install_eq cfg σ c liveDict histDict
  have same := congrArg commitSeq form
  rwa [installed, rest] at same

/-- One step keeps the chains valid, the round in order, and every record a reader may have
pinned. -/
theorem System.Valid.step (valid : s.Valid cfg) (op : Op A) :
    (s.step cfg op).Valid cfg ∧ Keeps s.shard.commitSeq s.shard (s.step cfg op).shard ∧
      s.shard.commitSeq ≤ (s.step cfg op).shard.commitSeq := by
  have committed : ∀ τ, Commits cfg s.clock s.shard τ → System.Valid cfg { s with shard := τ } ∧
    Keeps s.shard.commitSeq s.shard τ ∧
      s.shard.commitSeq ≤ τ.commitSeq := fun τ commits =>
    ⟨⟨commits.toLinked, fun c isRound => (valid.round c isRound).grows commits.grows⟩, commits.grows.keeps,
      commits.clocked.le⟩
  have steps := s.steps cfg op
  generalize s.step cfg op = s' at steps ⊢
  cases steps with
  | commit writes => exact committed _ (commits_applyBatch valid.linked writes s.clock)
  | delete key => exact committed _ (commits_delete valid.linked)
  | txn writes => exact committed _ (commits_applyTxn valid.linked)
  | sealSegment id =>
    have grows := grows_seal cfg s.shard id s.shard.commitSeq
    refine ⟨⟨valid.linked.sealSegment id, fun c isRound => (valid.round c isRound).grows grows⟩, grows.keeps, ?_⟩
    rcases seal_cases with same | ⟨-, form⟩
    · exact Nat.le_of_eq (congrArg commitSeq same).symm
    · exact Nat.le_of_eq (congrArg commitSeq form).symm
  | evict id =>
    have grows := grows_evict cfg s.shard id s.shard.commitSeq
    refine ⟨⟨valid.linked.evict id, fun c isRound => (valid.round c isRound).grows grows⟩, grows.keeps, ?_⟩
    rcases evict_dir valid.linked with ⟨-, same⟩ | ⟨seg, -, -, form⟩
    · exact Nat.le_of_eq (congrArg commitSeq same).symm
    · exact Nat.le_of_eq (congrArg commitSeq form).symm
  | reclaim =>
    refine ⟨⟨valid.linked.reclaim s.clock, nofun⟩, keeps_reclaim valid.linked s.clock _, ?_⟩
    exact Nat.le_of_eq (commitSeq_reclaim valid.linked s.clock).symm
  | beginRound =>
    refine ⟨⟨⟨valid.linked.chained, nofun⟩, fun c is => ?_⟩, .of_segs rfl, Nat.le_refl _⟩
    cases is
    exact inFlight_begin
  | copy isRound next choice =>
    refine ⟨⟨valid.linked, fun c' is => ?_⟩, .refl _ _, Nat.le_refl _⟩
    cases is
    exact ((valid.round _ isRound).copyRecord _ choice).pass _
  | install isRound next liveDict histDict =>
    have flight := valid.round _ isRound
    refine ⟨⟨valid.linked.install flight liveDict histDict, nofun⟩, keeps_install flight liveDict histDict _, ?_⟩
    exact Nat.le_of_eq (commitSeq_install flight liveDict histDict).symm
  | abort => exact ⟨⟨valid.linked, nofun⟩, .refl _ _, Nat.le_refl _⟩
  | tick elapsed => exact ⟨⟨valid.linked, valid.round⟩, .refl _ _, Nat.le_refl _⟩
  | waits => exact ⟨valid, .refl _ _, Nat.le_refl _⟩

theorem System.Valid.run (valid : s.Valid cfg) (ops : List (Op A)) :
    (s.run cfg ops).Valid cfg ∧ s.shard.commitSeq ≤ (s.run cfg ops).shard.commitSeq := by
  induction ops generalizing s with
  | nil => exact ⟨valid, Nat.le_refl _⟩
  | cons op rest ih =>
    obtain ⟨valid', -, later⟩ := valid.step op
    exact ⟨(ih valid').1, Nat.le_trans later (ih valid').2⟩

/-! ## In runs that search and evict safely -/

/-- Whether an operation can find its keys, and evicts none out of reach. -/
def Op.Allowed (s : System A) : Op A → Prop
  | .commit writes => ∀ w ∈ writes, s.shard.Admits w.key
  | .delete key => s.shard.Admits key
  | .txn writes => ∀ w ∈ writes, s.shard.Admits w.op.key
  | .evict id => s.shard.EvictSafe id
  | _ => True

def System.AllowedRun (cfg : Config) : System A → List (Op A) → Prop
  | _, [] => True
  | s, op :: rest => op.Allowed s ∧ AllowedRun cfg (s.step cfg op) rest

/-- The history a step extends. -/
def System.record (cfg : Config) (s : System A) (past : History A) : Op A → History A
  | .commit writes =>
    update past (s.shard.commitSeq + 1)
      ((past s.shard.commitSeq).puts cfg (s.shard.commitSeq + 1) s.shard writes)
  | .delete key => update past (s.shard.commitSeq + 1) (update (past s.shard.commitSeq) key none)
  | .txn writes =>
    update past (s.shard.commitSeq + 1)
      ((past s.shard.commitSeq).txnWrites cfg (s.shard.isFast writes) (s.shard.commitSeq + 1) s.shard writes)
  | _ => past

/-- The history of a run. -/
def System.history (cfg : Config) : System A → History A → List (Op A) → History A
  | _, past, [] => past
  | s, past, op :: rest => history cfg (s.step cfg op) (s.record cfg past op) rest

/-- The contents an operation leaves. Which puts find room and which writes of a transaction conflict
depends on the shard. -/
def System.stepContents (cfg : Config) (s : System A) (contents : Contents A) : Op A → Contents A
  | .commit writes => contents.puts cfg (s.shard.commitSeq + 1) s.shard writes
  | .delete key => update contents key none
  | .txn writes => contents.txnWrites cfg (s.shard.isFast writes) (s.shard.commitSeq + 1) s.shard writes
  | _ => contents

/-- The contents a run leaves, operation by operation. -/
def System.contents (cfg : Config) : System A → Contents A → List (Op A) → Contents A
  | _, contents, [] => contents
  | s, contents, op :: rest => System.contents cfg (s.step cfg op) (s.stepContents cfg contents op) rest

variable {past : History A}

/-- The shard holds what its history says, and a round in flight has lost nothing. -/
structure System.Faithful (cfg : Config) (s : System A) (past : History A) : Prop where
  stored : Stored cfg s.shard past
  round : ∀ c, s.round = some c → ∃ kept dropped, Copying s.shard c kept dropped

theorem System.Faithful.valid (faithful : s.Faithful cfg past) : s.Valid cfg where
  linked := faithful.stored.toLinked
  round c isRound := by
    obtain ⟨kept, dropped, copying⟩ := faithful.round c isRound
    exact copying.toInFlight

theorem faithful_initial (cfg : Config) : (System.initial : System A).Faithful cfg fun _ _ => none where
  stored :=
    { toLinked := (valid_initial).linked
      stamped := nofun
      listed := .nil
      reached := fun _ _ _ _ ⟨_, here, _⟩ => nomatch here
      counted := nofun
      count := rfl
      children := fun _ => rfl
      history := fun _ _ _ => .nil
      recorded := nofun }
  round := nofun

theorem System.Faithful.grows (faithful : s.Faithful cfg past) (stored : Stored cfg τ past')
    (grows : Grows s.shard.commitSeq s.shard τ) : System.Faithful cfg { s with shard := τ } past' where
  stored := stored
  round c isRound := by
    obtain ⟨kept, dropped, copying⟩ := faithful.round c isRound
    exact ⟨kept, dropped, copying.grows grows⟩

/-- The barrier of a compaction: nothing is out of reach without an active segment. -/
theorem Stored.deactivate (stored : Stored cfg σ past) : Stored cfg { σ with act := none } past :=
  { stored with
    toLinked := ⟨stored.chained, nofun⟩
    reached := fun l key seq ad current => (stored.reached l key seq ad current).imp_right fun probed => by
      unfold isProbed at probed ⊢
      cases here : σ.segs[l.seg]? with
      | none => rw [here] at probed; cases probed
      | some seg =>
        rw [here] at probed
        simp only [Bool.and_eq_true] at probed ⊢
        exact ⟨probed.1, rfl⟩ }

theorem record_of_waits {op : Op A} (idle : op.Waits s) (past : History A) : s.record cfg past op = past := by
  cases op <;> first | rfl | exact idle.elim

/-- One step extends the history and stays faithful to it. -/
theorem System.Faithful.step (faithful : s.Faithful cfg past) (allowed : op.Allowed s) :
    (s.step cfg op).Faithful cfg (s.record cfg past op) := by
  have linked := faithful.stored.toLinked
  have steps := s.steps cfg op
  generalize s.step cfg op = s' at steps ⊢
  cases steps with
  | commit writes =>
    exact faithful.grows (faithful.stored.applyBatch allowed s.clock) (commits_applyBatch linked writes s.clock).grows
  | delete key => exact faithful.grows (faithful.stored.delete allowed s.clock) (commits_delete linked).grows
  | txn writes => exact faithful.grows (faithful.stored.applyTxn allowed s.clock) (commits_applyTxn linked).grows
  | sealSegment id => exact faithful.grows (faithful.stored.sealSegment id) (grows_seal cfg s.shard id _)
  | evict id => exact faithful.grows (faithful.stored.evict allowed) (grows_evict cfg s.shard id _)
  | reclaim => exact ⟨faithful.stored.reclaim s.clock, nofun⟩
  | beginRound =>
    refine ⟨faithful.stored.deactivate, fun c is => ?_⟩
    cases is
    exact ⟨[], [], copying_begin faithful.stored.counted⟩
  | copy isRound next choice =>
    refine ⟨faithful.stored, fun c' is => ?_⟩
    cases is
    obtain ⟨kept, dropped, copying⟩ := faithful.round _ isRound
    exact copying.copy faithful.stored.counted next choice
  | install isRound next liveDict histDict =>
    obtain ⟨kept, dropped, copying⟩ := faithful.round _ isRound
    exact ⟨faithful.stored.install copying next liveDict histDict, nofun⟩
  | abort => exact ⟨faithful.stored, nofun⟩
  | tick elapsed => exact ⟨faithful.stored, faithful.round⟩
  | waits idle =>
    rw [record_of_waits idle]
    exact faithful

theorem System.Faithful.run (ops : List (Op A)) (faithful : s.Faithful cfg past) (allowed : s.AllowedRun cfg ops) :
    (s.run cfg ops).Faithful cfg (s.history cfg past ops) := by
  induction ops generalizing s past with
  | nil => exact faithful
  | cons op rest ih => exact ih (faithful.step allowed.1) allowed.2

/-- The last entry of the history is what the operation leaves. One that stores nothing makes no entry:
the contents it would leave are listed by the same records. -/
theorem System.Faithful.stepContents (faithful : s.Faithful cfg past) (allowed : op.Allowed s) :
    s.record cfg past op (s.step cfg op).shard.commitSeq = s.stepContents cfg (past s.shard.commitSeq) op := by
  have stored := faithful.stored
  have steps := s.steps cfg op
  generalize s.step cfg op = s' at steps ⊢
  cases steps with
  | commit writes =>
    simp only [record, System.stepContents, Shard.applyBatch, maybeCheckpoint_clocks, update_self]
  | delete key =>
    have writing := stored.writing.del allowed
    simp only [record, System.stepContents]
    refine delete_rule (update past _ _ ·.commitSeq = _) (fun same => ?_) ?_
    · rw [same] at writing
      exact (update_of_ne (by simp) _ _).trans (stored.listed.map_unique writing.listed)
    · rw [(maybeCheckpoint_clocks _ _ _).1, update_self]
  | txn writes =>
    have writing := stored.writing.txnWrites (s.shard.isFast writes) allowed
    simp only [record, System.stepContents]
    refine applyTxn_rule (update past _ _ ·.commitSeq = _) (fun same => ?_) ?_
    · rw [same] at writing
      exact (update_of_ne (by simp) _ _).trans (stored.listed.map_unique writing.listed)
    · rw [(maybeCheckpoint_clocks _ _ _).1, update_self]
  | reclaim => exact congrArg past (commitSeq_reclaim stored.toLinked s.clock)
  | install isRound next liveDict histDict =>
    exact congrArg past (commitSeq_install (faithful.valid.round _ isRound) liveDict histDict)
  | sealSegment id =>
    refine congrArg past ?_
    unfold Shard.sealSegmentIndex
    split <;> rfl
  | evict id =>
    refine congrArg past ?_
    unfold Shard.evictSegKeys
    split <;> first | rfl | (split <;> rfl)
  | beginRound | copy | abort | tick => rfl
  | waits idle => cases op <;> first | rfl | exact idle.elim

/-- Read at the shard's own sequence, the history of a run is what its operations leave. -/
theorem System.Faithful.contents (ops : List (Op A)) (faithful : s.Faithful cfg past) (allowed : s.AllowedRun cfg ops) :
    s.history cfg past ops (s.run cfg ops).shard.commitSeq = s.contents cfg (past s.shard.commitSeq) ops := by
  induction ops generalizing s past with
  | nil => rfl
  | cons op rest ih =>
    rw [System.contents, ← faithful.stepContents allowed.1]
    exact ih (faithful.step allowed.1) allowed.2

theorem System.run_append (cfg : Config) (s : System A) (ops later : List (Op A)) :
    s.run cfg (ops ++ later) = (s.run cfg ops).run cfg later := by
  rw [System.run, System.run, foldl_append]
  rfl

theorem allowedRun_append :
    s.AllowedRun cfg (ops ++ later) ↔ s.AllowedRun cfg ops ∧ (s.run cfg ops).AllowedRun cfg later := by
  induction ops generalizing s with
  | nil => exact ⟨fun allowed => ⟨trivial, allowed⟩, And.right⟩
  | cons op rest ih => exact (and_congr_right fun _ => ih).trans and_assoc.symm

theorem history_append (ops later : List (Op A)) :
    s.history cfg past (ops ++ later) = (s.run cfg ops).history cfg (s.history cfg past ops) later := by
  induction ops generalizing s past with
  | nil => rfl
  | cons op rest ih => exact ih

theorem record_below {op : Op A} (below : x ≤ s.shard.commitSeq) : s.record cfg past op x = past x := by
  cases op <;> first | rfl | exact update_of_ne (by omega) _ _

/-- What was stored up to a commit stays on record. -/
theorem history_below (valid : s.Valid cfg) {ops : List (Op A)} (below : x ≤ s.shard.commitSeq) :
    s.history cfg past ops x = past x := by
  induction ops generalizing s past with
  | nil => rfl
  | cons op rest ih =>
    obtain ⟨valid', -, later⟩ := valid.step op
    exact (ih valid' (Nat.le_trans below later)).trans (record_below below)

end Steps

/-! ## Reading -/

section Reading
variable {cfg : Config} {σ : Shard A} {past : History A}

/-- A key has one current record. -/
theorem Stored.current_unique (stored : Stored cfg σ past)
    (first : σ.IsCurrent l key seq ad) (second : σ.IsCurrent l' key seq' ad') : l = l' := by
  obtain ⟨r, here, body, current, -⟩ := first
  obtain ⟨r', here', body', current', -⟩ := second
  have distinct := stored.listed.distinct
  rw [Shard.currents, map_filterMap] at distinct
  have keyOf : ∀ {r : Record A} {ad : A}, r.body = .ad key ad → r.superseded = none →
      r.currentPair.map Prod.fst = some key := by
    intro r ad body current
    rw [Record.currentPair_eq_some.mpr ⟨body, current, rfl⟩]
    rfl
  exact eq_of_nodup_filterMap distinct here here' (keyOf body current) (keyOf body' current')

/-- `get` finds what is stored under a key. -/
theorem Stored.get (stored : Stored cfg σ past) (admits : σ.Admits key) :
    σ.get cfg key = (past σ.commitSeq key).map Prod.snd := by
  unfold Shard.get
  cases located : σ.locate cfg key with
  | none =>
    rw [stored.toSound.absent (locate_none stored.toLinked located)]
    rfl
  | some l =>
    obtain ⟨r, found⟩ := locate_some stored.toLinked located
    obtain ⟨ad, r', here, body, current, seq⟩ := found.isCurrent admits
    have listed : (key, r.seq, ad) ∈ σ.currents := mem_currents.mpr ⟨l, r', here, body, current, seq⟩
    rw [(stored.listed.exact key (r.seq, ad)).mp listed, Option.bind_some, here, Option.bind_some]
    simp [body]

end Reading

/-! ## Compactions among writers -/

section Compactions
variable {cfg : Config} {s : System A}

/-- The writers, and the phases of a compaction with those it is aborted in. -/
def Op.isWriteOrRound : Op A → Bool
  | .commit _ | .delete _ | .txn _ | .beginRound | .copy _ | .install _ _ | .abort | .tick _ => true
  | .sealSegment _ | .evict _ | .reclaim => false

theorem isProbed_deactivate {σ : Shard A} (writable : σ.Writable) (id : Nat) :
    isProbed { σ with act := none } id = σ.isProbed id := by
  unfold isProbed
  cases here : σ.segs[id]? with
  | none => rfl
  | some seg =>
    by_cases active : σ.act = some id
    · obtain ⟨seg', here', -, notIndexed⟩ := writable id active
      rw [here] at here'
      cases here'
      simp [notIndexed]
    · have differs : (σ.act != some id) = true := bne_iff_ne.mpr active
      rw [differs]
      rfl

theorem isProbed_install {c : Compaction A} (linked : Linked cfg σ) (flight : InFlight σ c) (liveDict histDict : Nat)
    {id : Nat} (probed : (σ.installCompaction cfg c liveDict histDict).isProbed id = true) : σ.isProbed id = true := by
  have ready := flight.ready liveDict histDict
  obtain ⟨dirty, dirtySup, tseq, form⟩ := install_eq cfg σ c liveDict histDict
  rw [form] at probed
  generalize installedLive σ c liveDict = live at ready probed
  generalize finalizeLast c.intern histDict c.hist = hist at ready probed
  unfold isProbed at probed
  cases here : (σ.installed cfg c live hist).segs[id]? with
  | none => rw [here] at probed; cases probed
  | some seg =>
    rw [here] at probed
    simp only [Bool.and_eq_true, Bool.not_eq_true'] at probed
    obtain ⟨⟨notRetired, indexed⟩, -⟩ := probed
    rw [installed, getElem?_retire] at here
    obtain ⟨seg₁, found₁, kept⟩ := Option.map_eq_some_iff.mp here
    obtain ⟨seg₀, found₀, bare⟩ := (ready.rebuilt cfg).1.seg found₁
    have stays : isSource c id = false := by
      by_contra source
      rw [if_pos (by simpa using source)] at kept
      rw [← kept] at notRetired
      cases notRetired
    rw [stays] at kept
    have same : seg₁ = seg := kept
    subst same
    have indexed₀ : seg₀.keyIndexed = true := (congrArg Segment.keyIndexed bare).symm.trans indexed
    have retired₀ : seg₀.retired = false := (congrArg Segment.retired bare).symm.trans notRetired
    have unindexed : ∀ segs : List (Segment A), (∀ seg ∈ segs, seg.IsOpen) → seg₀ ∉ segs := fun segs all member => by
      rw [(all seg₀ member).2] at indexed₀
      cases indexed₀
    have old : σ.segs[id]? = some seg₀ := by
      have whole : (σ.segs ++ (live ++ hist))[id]? = some seg₀ := by
        rw [← append_assoc]
        exact found₀
      by_cases inside : id < σ.segs.length
      · rwa [getElem?_append_left inside] at whole
      · rw [getElem?_append_right (by omega)] at whole
        rcases mem_append.mp (mem_of_getElem? whole) with inLive | inHist
        · exact absurd inLive (unindexed live ready.liveOpen)
        · exact absurd inHist (unindexed hist ready.histOpen)
    unfold isProbed
    rw [old]
    simp only [Bool.and_eq_true, Bool.not_eq_true', bne_iff_ne, ne_eq]
    refine ⟨⟨retired₀, indexed₀⟩, fun active => ?_⟩
    obtain ⟨seg', here', -, notIndexed⟩ := linked.writable id active
    rw [old] at here'
    cases here'
    rw [notIndexed] at indexed₀
    cases indexed₀

theorem unprobed_install (linked : Linked cfg σ) (flight : InFlight σ c) (liveDict histDict : Nat)
    (unprobed : ∀ id, σ.isProbed id = false) (id : Nat) :
    (σ.installCompaction cfg c liveDict histDict).isProbed id = false := by
  by_contra probed
  have before := isProbed_install linked flight liveDict histDict (by simpa using probed)
  rw [unprobed id] at before
  cases before

/-- Without seals no segment is ever probed. -/
theorem step_unprobed {op : Op A} (valid : s.Valid cfg) (unprobed : ∀ id, s.shard.isProbed id = false)
    (among : op.isWriteOrRound = true) :
    ∀ id, (s.step cfg op).shard.isProbed id = false := by
  intro id
  have steps := s.steps cfg op
  generalize s.step cfg op = s' at steps ⊢
  cases steps with
  | commit writes => exact ((commits_applyBatch valid.linked writes s.clock).probed id).trans (unprobed id)
  | delete key => exact ((commits_delete valid.linked).probed id).trans (unprobed id)
  | txn writes => exact ((commits_applyTxn valid.linked).probed id).trans (unprobed id)
  | sealSegment | evict | reclaim => cases among
  | beginRound => exact (isProbed_deactivate valid.linked.writable id).trans (unprobed id)
  | install isRound next liveDict histDict =>
    exact unprobed_install valid.linked (valid.round _ isRound) liveDict histDict unprobed id
  | copy | abort | tick | waits => exact unprobed id

theorem admits_of_unprobed {σ : Shard A} (unprobed : ∀ id, σ.isProbed id = false) {key : Key} : σ.Admits key := by
  intro _ l r probed
  rw [unprobed] at probed
  cases probed

theorem allowed_of_unprobed {op : Op A} (unprobed : ∀ id, s.shard.isProbed id = false)
    (among : op.isWriteOrRound = true) :
    op.Allowed s := by
  cases op with
  | commit writes => exact fun w _ => admits_of_unprobed unprobed
  | delete key => exact admits_of_unprobed unprobed
  | txn writes => exact fun w _ => admits_of_unprobed unprobed
  | evict id => cases among
  | _ => trivial

theorem allowedRun_of_unprobed {past : History A} (faithful : s.Faithful cfg past)
    (unprobed : ∀ id, s.shard.isProbed id = false) (among : ∀ op ∈ ops, op.isWriteOrRound = true) :
    s.AllowedRun cfg ops ∧ ∀ id, (s.run cfg ops).shard.isProbed id = false := by
  induction ops generalizing s past with
  | nil => exact ⟨trivial, unprobed⟩
  | cons op rest ih =>
    have isOne := among op (.head _)
    have allowed := allowed_of_unprobed unprobed isOne
    obtain ⟨later, after⟩ := ih (faithful.step allowed) (step_unprobed faithful.valid unprobed isOne)
      fun op' member => among op' (.tail _ member)
    exact ⟨⟨allowed, later⟩, after⟩

/-- Three keys in one bucket. While two are copied, one of them is put again and the other deleted; of
a transaction's writes one comes too late and the other stores the third. -/
def sampleConfig : Config := ⟨fun _ => 0, fun _ => none, 1024, true, none⟩

@[inherit_doc sampleConfig]
def sampleRun : List (Op Nat) :=
  [.commit [⟨[1], 10, 8, 0, true⟩, ⟨[2], 20, 8, 0, true⟩], .beginRound, .copy ⟨8, 0, false, 8⟩,
    .commit [⟨[1], 11, 8, 0, true⟩],
    .txn [⟨.put ⟨[1], 12, 8, 0, true⟩, 1⟩, ⟨.put ⟨[3], 30, 8, 0, true⟩, 1⟩], .copy ⟨8, 0, false, 8⟩, .delete [2],
    .install 8 8]

end Compactions

end Classad.ShardStore
