import Classad.SegmentRewrite
import Classad.TimeTravel

/-! The time index after a restart. It is not stored: opening a shard replays the keyless records
of its segments in the order the segments come in, and takes each of them for the marker of a
checkpoint. What a time resolves to afterwards depends on which markers the passes left, and on
where the dictionaries and columns come in between them. -/
namespace Classad.ShardStore
open Arena Chains List

variable {A : Type} {cfg : Config} {travel : Travel} {log : List Checkpoint}

/-! ## Replaying the markers -/

/-- What `rebuildDir` reads in a keyless record: its sequence and, as `recMarkerMillis`, the number
in the first eight bytes of its payload. `head` is that number where the payload is no time. -/
def Record.mark (head : Nat) (r : Record A) : Option Checkpoint :=
  match r.body with
  | .ad _ _ => none
  | .checkpoint millis => some ⟨r.seq, millis⟩
  | .dictionary => some ⟨r.seq, head⟩

/-- The keyless records of a segment on disk, in the order they are read. -/
def Shard.marks (σ : Shard A) (head : Loc → Nat) (id : Nat) : List Checkpoint :=
  ((σ.segs[id]?).elim [] Segment.live).zipIdx.filterMap fun (r, off) => r.mark (head ⟨id, off⟩)

/-- The time index that `rebuildDir` makes from some checkpoints. -/
def replay (marks : List Checkpoint) : TimeIndex := marks.foldl (fun x e => x.record e.seq e.millis) ⟨[], 0⟩

/-- The segments on disk after a clean close. -/
def Shard.onDisk (σ : Shard A) : List Nat := (List.range σ.segs.length).filter fun id =>
    (σ.segs[id]?).any fun seg => !seg.retired

/-- Not after in either respect. -/
def Checkpoint.UpTo (e e' : Checkpoint) : Prop := e.seq ≤ e'.seq ∧ e.millis ≤ e'.millis

instance (e e' : Checkpoint) : Decidable (e.UpTo e') := inferInstanceAs (Decidable (_ ∧ _))

variable {marks : List Checkpoint}

/-- No time is raised where the times already come in order. -/
theorem replay_entries (ordered : marks.Pairwise Checkpoint.UpTo) : (replay marks).entries = marks := by
  have extended : ∀ (rest : List Checkpoint) (x : TimeIndex), (x.entries ++ rest).Pairwise Checkpoint.UpTo →
      (rest.foldl (fun x e => x.record e.seq e.millis) x).entries = x.entries ++ rest := by
    intro rest
    induction rest with
    | nil => exact fun x _ => (append_nil _).symm
    | cons e rest ih =>
      intro x sorted
      have latest : ∀ e' ∈ x.entries, e'.millis ≤ e.millis := fun e' member =>
        ((pairwise_append.mp sorted).2.2 e' member e (.head _)).2
      have recorded := record_entries e.seq latest
      rw [foldl_cons, ih _ (by rwa [recorded, append_assoc]), recorded, append_assoc]
      rfl
  exact extended marks ⟨[], 0⟩ ordered

theorem replay_seqAt (ordered : marks.Pairwise Checkpoint.UpTo) (millis : Nat) :
    (replay marks).seqAt millis = (resolve marks millis).map Checkpoint.seq := by
  have entries := replay_entries ordered
  have sorted : (replay marks).entries.Pairwise fun e e' => e.millis ≤ e'.millis := by
    rw [entries]
    exact ordered.imp And.right
  rw [seqAt_eq sorted, entries]

/-! ## Markers along a run -/

/-- What a keyless record of a shard with this log is: the marker of a checkpoint in the log, or
without a sequence. -/
def Logged (log : List Checkpoint) (seq : Nat) : Body A → Prop
  | .ad _ _ => True
  | .checkpoint millis => seq = 0 ∨ ⟨seq, millis⟩ ∈ log
  | .dictionary => seq = 0

def Segment.Marked (log : List Checkpoint) (seg : Segment A) : Prop := ∀ r ∈ seg.records, Logged log r.seq r.body

theorem Logged.mono (logged : Logged log seq body) (added : List Checkpoint) : Logged (log ++ added) seq body := by
  cases body with
  | ad => trivial
  | checkpoint millis => exact logged.imp_right (mem_append_left added)
  | dictionary => exact logged

theorem Segment.Marked.snoc {seg seg' : Segment A} (marked : seg.Marked log)
    (records : seg'.records = seg.records ++ [r])
    (logged : Logged log r.seq r.body) : seg'.Marked log := by
  intro r' member
  rw [records] at member
  rcases mem_append.mp member with old | last
  · exact marked r' old
  · rw [mem_singleton.mp last]
    exact logged

theorem lasting_marked (log : List Checkpoint) : Lasting (Segment.Marked (A := A) log) where
  fresh _ _ := nofun
  same marked origins _ r member := by
    obtain ⟨r', member', same⟩ := mem_map.mp (origins ▸ mem_map_of_mem member)
    have logged := marked r' member'
    obtain ⟨seq, body⟩ : r'.seq = r.seq ∧ r'.body = r.body := by simpa [Record.origin] using same
    rwa [seq, body] at logged
  copy _ _ source member marked := by
    have logged := source _ member
    exact marked.snoc rfl logged
  redate _ _ source member isDictionary marked :=
    marked.snoc rfl (.inl (by simpa [isDictionary, Logged] using source _ member))
  keyless marked records _ := marked.snoc records rfl

/-- The markers of a shard, of a compaction and of a pass are those of the checkpoints it
recorded. -/
structure Upkeep.Timed (travel : Travel) (u : Upkeep A) (log : List Checkpoint) : Prop where
  system : ShardStore.Timed travel u.system log
  marked : u.Lasts (Segment.Marked log)

variable {u : Upkeep A}

/-- A pass leaves the clocks alone. -/
theorem Timed.upkeep (timed : Timed travel u.system log) (isTravel : cfg.travel = some travel) (op : UpkeepOp A) :
    ∃ added, Timed travel (u.step cfg op).system (log ++ added) := by
  have still : ∀ {s : System A}, Timed travel s log → ∃ added, Timed travel s (log ++ added) := fun timed =>
    ⟨[], (append_nil log).symm ▸ timed⟩
  have arranged : ∀ {τ : Shard A}, τ.clocks = u.system.shard.clocks → Timed travel { u.system with shard := τ } log :=
    fun clocks =>
    timed.pause clocks le_rfl timed.round
  have steps := u.steps cfg op
  generalize u.step cfg op = u' at steps ⊢
  cases steps with
  | shard op =>
    obtain ⟨added, timed', -⟩ := timed.step isTravel op
    exact ⟨added, timed'⟩
  | start kind => exact still (arranged (rearranges_startPass).clocks)
  | commit => exact still (arranged (clocks_swap))
  | finish => exact still (arranged (rearranges_reindex cfg u.system.shard).clocks)
  | build | drop | waits => exact still timed

theorem Upkeep.Timed.step (timed : u.Timed travel log) (isTravel : cfg.travel = some travel) (op : UpkeepOp A) :
    ∃ added, (u.step cfg op).Timed travel (log ++ added) := by
  obtain ⟨added, timed'⟩ := timed.system.upkeep isTravel op
  have marked : u.Lasts (Segment.Marked (log ++ added)) := timed.marked.mono fun seg marked r member =>
    (marked r member).mono added
  refine ⟨added, timed', marked.step (lasting_marked _) cfg op (fun _ _ _ _ _ _ old => old.snoc rfl trivial)
    fun clocks seg old => ?_⟩
  -- The checkpoint of this commit is the last in the index, which is a part of the log.
  have known : ∀ e ∈ u.system.shard.tseq.entries, e.millis ≤ u.system.clock := fun e member =>
    (timed.system.stamped e (timed.system.suffix.subset member)).2.2
  have tseq : (u.step cfg op).system.shard.tseq = u.system.shard.tseq.record (u.system.shard.commitSeq + 1)
      u.system.clock :=
    congrArg (fun clocks => clocks.2.2) clocks
  have suffix := timed'.suffix
  rw [tseq, record_entries _ known] at suffix
  exact old.snoc rfl (.inr (suffix.subset (mem_append_right _ (mem_singleton_self _))))

theorem Upkeep.Timed.run (ops : List (UpkeepOp A)) (timed : u.Timed travel log) (isTravel : cfg.travel = some travel) :
    ∃ log', (u.run cfg ops).Timed travel log' := by
  induction ops generalizing u log with
  | nil => exact ⟨log, timed⟩
  | cons op rest ih =>
    obtain ⟨added, timed'⟩ := timed.step isTravel op
    exact ih timed'

/-! ## Restarts -/

/-- A replayed checkpoint with a sequence was recorded. -/
theorem mark_mem {σ : Shard A} (marked : ∀ seg ∈ σ.segs, seg.Marked log) {head : Loc → Nat} {order : List Nat}
    (member : e ∈ order.flatMap (σ.marks head)) (positive : 0 < e.seq) : e ∈ log := by
  obtain ⟨id, -, member⟩ := mem_flatMap.mp member
  obtain ⟨⟨r, off⟩, inside, isMark⟩ := mem_filterMap.mp member
  have stored : r ∈ (σ.segs[id]?).elim [] Segment.live := fst_mem_of_mem_zipIdx inside
  have logged : Logged log r.seq r.body := by
    cases found : σ.segs[id]? with
    | none => simp [found] at stored
    | some seg =>
      rw [found, Option.elim_some, Segment.live] at stored
      split at stored
      · cases stored
      · exact marked seg (mem_of_getElem? found) r stored
  dsimp only at isMark
  unfold Record.mark at isMark
  split at isMark <;> rename_i body
  · cases isMark
  · rw [body] at logged
    cases isMark
    exact logged.resolve_left (ne_of_gt positive)
  · rw [body] at logged
    cases isMark
    exact absurd logged (ne_of_gt positive)

/-- What has to be on disk for a time to resolve as before: the checkpoint it resolves to, and if
there is none, nothing that is read as a checkpoint up to that time. -/
def Survives (entries marks : List Checkpoint) (millis : Nat) : Prop :=
  match resolve entries millis with
  | some e => e ∈ marks
  | none => ∀ e ∈ marks, millis < e.millis

/-- Two checkpoints of one sequence are the same. -/
theorem eq_of_seq {entries : List Checkpoint} (ordered : entries.Pairwise Checkpoint.Before) (member : e ∈ entries)
    (member' : e' ∈ entries) (same : e.seq = e'.seq) : e = e' := by
  have le := millis_le ordered member member' (le_of_eq same)
  have ge := millis_le ordered member' member (le_of_eq same.symm)
  obtain ⟨seq, millis⟩ := e
  cases same
  cases le_antisymm le ge
  rfl

/-- One time inside the window, before and after the restart. -/
theorem Timed.replay_iff {s : System A} (timed : Timed travel s log) (marked : ∀ seg ∈ s.shard.segs, seg.Marked log)
    {head : Loc → Nat}
    {order : List Nat} (ordered : (order.flatMap (s.shard.marks head)).Pairwise Checkpoint.UpTo)
    (inside : s.clock ≤ millis + travel.maxDistance) :
    (replay (order.flatMap (s.shard.marks head))).seqAt millis = s.shard.tseq.seqAt millis ↔
      Survives s.shard.tseq.entries (order.flatMap (s.shard.marks head)) millis := by
  have recorded : ∀ e ∈ order.flatMap (s.shard.marks head), 0 < e.seq → e ∈ log := fun e => mark_mem marked
  rw [replay_seqAt ordered, timed.seqAt]
  generalize order.flatMap (s.shard.marks head) = marks at ordered recorded ⊢
  have seqs : marks.Pairwise fun e e' => e.seq ≤ e'.seq := ordered.imp And.left
  unfold Survives
  cases found : resolve s.shard.tseq.entries millis with
  | none => rw [Option.map_none, Option.map_eq_none_iff, resolve_eq_none]
  | some e =>
    have inLog : resolve log millis = some e := (timed.resolve_log inside).symm.trans found
    have positive : 0 < e.seq := (timed.stamped e (resolve_mem inLog).1).1
    rw [Option.map_some, Option.map_eq_some_iff]
    constructor
    · rintro ⟨m, isLast, same⟩
      have member := (resolve_mem isLast).1
      have recordedM : m ∈ log := recorded m member (same ▸ positive)
      exact eq_of_seq timed.ordered recordedM (resolve_mem inLog).1 same ▸ member
    · intro member
      cases isLast : resolve marks millis with
      | none => exact absurd (resolve_mem found).2 (not_le.mpr (resolve_eq_none.mp isLast e member))
      | some m =>
        -- The last marker up to the time is not before `e`, and being of the log not after it.
        obtain ⟨memberM, upTo⟩ := resolve_mem isLast
        have notBefore : e.seq ≤ m.seq := filter_last seqs isLast member (decide_eq_true (resolve_mem found).2)
        have recordedM : m ∈ log := recorded m memberM (lt_of_lt_of_le positive notBefore)
        exact ⟨m, rfl, le_antisymm (resolve_last timed.ordered inLog recordedM upTo) notBefore⟩

/-- A shard that is closed and opened again, after any commits, compactions, reclaims, reseals and
columnarizations, with its segments replayed in any order. If the keyless records come in order
there, the times inside the window resolve as before exactly if what each resolves to is on disk. -/
theorem reopened_seqAt_iff (isTravel : cfg.travel = some travel) (ops : List (UpkeepOp A)) (head : Loc → Nat)
    (order : List Nat)
    (ordered : (order.flatMap (((Upkeep.initial : Upkeep A).run cfg ops).system.shard.marks head)).Pairwise
      Checkpoint.UpTo) :
    let s := ((Upkeep.initial : Upkeep A).run cfg ops).system
    let marks := order.flatMap (s.shard.marks head)
    (∀ millis, s.clock ≤ millis + travel.maxDistance → (replay marks).seqAt millis = s.shard.tseq.seqAt millis) ↔
      ∀ millis, s.clock ≤ millis + travel.maxDistance → Survives s.shard.tseq.entries marks millis := by
  have initial : (Upkeep.initial : Upkeep A).Timed travel [] := ⟨timed_initial, Upkeep.lasts_initial _⟩
  obtain ⟨log, timed⟩ := initial.run ops isTravel
  exact forall₂_congr fun millis inside => timed.system.replay_iff timed.marked.shard ordered inside

theorem survives_self (entries : List Checkpoint) : Survives entries entries millis := by
  unfold Survives
  cases found : resolve entries millis with
  | some e => exact (resolve_mem found).1
  | none => exact resolve_eq_none.mp found

/-- Three commits with their checkpoints, in two segments. -/
def reopenConfig : Config := ⟨fun key => (key.headD 0).toUInt64, fun _ => none, 256, true, some ⟨100000, 10⟩⟩

@[inherit_doc reopenConfig]
def reopenWrites : List (UpkeepOp Nat) :=
  [.shard (.tick 1700000000000), .shard (.commit [⟨[1], 10, 8, 0, true⟩]), .shard (.tick 20),
    .shard (.commit [⟨[2], 20, 8, 0, true⟩]),
    .shard (.tick 20), .shard (.commit [⟨[3], 30, 8, 0, true⟩])]

theorem reopened_seqAt_on_sample :
    let s := ((Upkeep.initial : Upkeep Nat).run reopenConfig reopenWrites).system
    s.shard.onDisk = [0, 1] ∧
      (replay ([0, 1].flatMap (s.shard.marks fun _ => 0))).seqAt 1700000000030 = s.shard.tseq.seqAt 1700000000030 := by
  have isTravel : reopenConfig.travel = some ⟨100000, 10⟩ := rfl
  refine ⟨by decide +kernel,
    (reopened_seqAt_iff isTravel reopenWrites (fun _ => 0) [0, 1] (by decide +kernel)).mpr ?_ _ (by decide +kernel)⟩
  intro millis _
  have same :
      [0, 1].flatMap (((Upkeep.initial : Upkeep Nat).run reopenConfig reopenWrites).system.shard.marks fun _ => 0) =
      ((Upkeep.initial : Upkeep Nat).run reopenConfig reopenWrites).system.shard.tseq.entries := by decide +kernel
  rw [same]
  exact survives_self _

/-- The dictionary that a compaction puts behind the markers of the history it keeps. Its first
eight bytes are the count of its names and an offset, and the time they make is raised to that of
the last marker: the times up to the next one resolve to no commit. -/
theorem dictionary_replayed_as_checkpoint :
    let round : List (UpkeepOp Nat) :=
      [.shard .beginRound, .shard (.copy ⟨8, 0, false, 8⟩), .shard (.copy ⟨8, 0, false, 8⟩),
        .shard (.copy ⟨8, 0, false, 8⟩),
        .shard (.copy ⟨8, 0, false, 8⟩), .shard (.install 8 8)]
    let cfg := { reopenConfig with segSize := 1024 }
    let s := ((Upkeep.initial : Upkeep Nat).run cfg (reopenWrites.take 5 ++ round ++ reopenWrites.drop 5)).system
    s.shard.onDisk = [1, 2, 3] ∧ s.clock ≤ 1700000000030 + 100000 ∧ s.shard.tseq.seqAt 1700000000030 = some 2 ∧
      (replay ([1, 2, 3].flatMap (s.shard.marks fun l => (if l.seg = 1 then 1 else 0) + 24 * 2 ^ 32))).seqAt
          1700000000030 = some 0 := by
  decide +kernel

end Classad.ShardStore
