import Classad.ConflictEvidence

/-! What a transaction reads and reports, against what the shard keeps. It pins no version: a read
looks for the one its snapshot saw among the records a search still comes by, so it repeats as long
as the passes in between leave that version in reach. And its commit counts a put that no segment
was found for. -/
namespace Classad.ShardStore
open Arena Chains Listing List
open ShardStore.System (initial)

variable {A : Type} {cfg : Config} {σ τ : Shard A} {s : System A} {op : Op A} {key : Key} {l : Loc} {r : Record A}
  {past : History A} {s0 : Nat} {ad : A}

/-! ## Reads -/

/-- The test of `findVisible` and `lookupSealedAt`. -/
def Record.liveAt (s0 : Nat) (r : Record A) : Bool := decide (r.seq ≤ s0) && r.supersededAfter s0

/-- `getAt`: `findVisible` along the bucket's chain, then `lookupSealedAt`. -/
def Shard.getAt (cfg : Config) (σ : Shard A) (key : Key) (s0 : Nat) : Option A :=
  ((σ.versionsOf cfg key).find? (Record.liveAt s0)).bind fun r =>
    match r.body with
    | .ad _ ad => some ad
    | _ => none

/-- An open transaction: what it has buffered for each key, a delete as `some none`, and the
sequence its first touch of the shard has captured. -/
structure Txn (A : Type) where
  writes : Key → Option (Option A)
  snap : Nat

def Txn.getOwn (cfg : Config) (tx : Txn A) (σ : Shard A) (key : Key) : Option A :=
  match tx.writes key with
  | some buffered => buffered
  | none => σ.getAt cfg key tx.snap

/-- `Get`. A key and its parent share a shard. -/
def Txn.get (cfg : Config) (parentKeyFor : Key → Option Key) (mergeParent : A → A → A) (tx : Txn A) (σ : Shard A)
    (key : Key) : Option A :=
  (tx.getOwn cfg σ key).map fun ad =>
    match (parentKeyFor key).bind (tx.getOwn cfg σ) with
    | some parent => mergeParent ad parent
    | none => ad

/-- A location holds the version of a key that a snapshot sees. -/
def Shard.HoldsFor (σ : Shard A) (s0 : Nat) (key : Key) (l : Loc) : Prop :=
  ∃ r seq ad, σ.recordAt l = some r ∧ r.pairAt s0 = some (key, seq, ad)

/-- It does, and a search comes by it. -/
structure Shard.Shows (cfg : Config) (s0 : Nat) (key : Key) (l : Loc) (σ : Shard A) : Prop where
  holds : σ.HoldsFor s0 key l
  reached : σ.Reached cfg key l

theorem pairAt_of_liveAt (body : r.body = .ad key ad) (live : r.liveAt s0 = true) :
    r.pairAt s0 = some (key, r.seq, ad) := by
  rw [Record.liveAt, Bool.and_eq_true] at live
  simp only [Record.pairAt, body, Record.visibleAt, Record.isMarker_of_ad body, live.1, live.2]
  rfl

theorem liveAt_of_pairAt (pair : r.pairAt s0 = some (key, seq, ad)) : r.liveAt s0 = true := by
  obtain ⟨-, rfl, upTo, later⟩ := pairAt_eq_some.mp pair
  rw [Record.liveAt, decide_eq_true upTo, Bool.true_and, Record.supersededAfter]
  cases superseded : r.superseded with
  | none => rfl
  | some x => exact decide_eq_true (later x superseded)

theorem mem_visibles_of_pairAt (here : σ.recordAt l = some r) (pair : r.pairAt s0 = some (key, seq, ad)) :
    (key, seq, ad) ∈ σ.visibles s0 :=
  mem_visibles.mpr ⟨l, r, here, pairAt_eq_some.mp pair⟩

/-- What a read at a snapshot finds is what was stored there, and it finds something if the
version is in reach. -/
theorem Stored.getAt (stored : Stored cfg σ past) (admits : σ.Admits key) (upTo : s0 ≤ σ.commitSeq)
    (shown : past s0 key ≠ none → ∃ l, σ.Shows cfg s0 key l) : σ.getAt cfg key s0 = (past s0 key).map Prod.snd := by
  unfold Shard.getAt
  cases found : (σ.versionsOf cfg key).find? (Record.liveAt s0) with
  | none =>
    by_cases held : past s0 key = none
    · simp [held]
    · obtain ⟨l, ⟨r, seq, ad, here, pair⟩, reached⟩ := shown held
      have same : r.key = key := by rw [Record.key, (pairAt_eq_some.mp pair).1]
      have member := (mem_versionsOf stored.toLinked).mpr ⟨l, here, same, reached⟩
      exact absurd (liveAt_of_pairAt pair) (find?_eq_none.mp found r member)
  | some r =>
    obtain ⟨l, ⟨here, ad, body⟩, -⟩ := stored.toLinked.version_of_mem admits (mem_of_find?_eq_some found)
    have pair := pairAt_of_liveAt body (find?_some found)
    simp [body, stored.recorded s0 upTo key _ (mem_visibles_of_pairAt here pair)]

/-! ### A version stays in reach -/

section
variable (shows : σ.Shows cfg s0 key l)
include shows

theorem Shard.Shows.of_fields (segs : τ.segs = σ.segs) (dir : τ.dir = σ.dir)
    (probed : ∀ id, τ.isProbed id = σ.isProbed id) : τ.Shows cfg s0 key l := by
  obtain ⟨r, seq, ad, here, pair⟩ := shows.holds
  exact ⟨⟨r, seq, ad, (recordAt_of_segs segs).trans here, pair⟩, shows.reached.of_fields segs dir probed⟩

theorem Shard.Shows.supersedeRec (after : s0 < x) (old : Loc) : (σ.supersedeRec old x).Shows cfg s0 key l := by
  obtain ⟨r, seq, ad, here, pair⟩ := shows.holds
  refine ⟨?_, reached_supersedeRec.mpr shows.reached⟩
  by_cases isOld : l = old
  · obtain ⟨body, isSeq, upTo, -⟩ := pairAt_eq_some.mp pair
    refine ⟨{ r with superseded := some x }, seq, ad, by simp [recordAt_supersedeRec, ← isOld, here], ?_⟩
    exact pairAt_eq_some.mpr ⟨body, isSeq, upTo, fun d is => Option.some.inj is ▸ after⟩
  · exact ⟨r, seq, ad, by simp [recordAt_supersedeRec, isOld, here], pair⟩

theorem Shard.Shows.appends (appends : Appends σ τ new r₁) (reached : τ.Reached cfg key l) :
    τ.Shows cfg s0 key l := by
  obtain ⟨r, seq, ad, here, pair⟩ := shows.holds
  exact ⟨⟨r, seq, ad, appends.keeps here, pair⟩, reached⟩

theorem Shard.Shows.put (linked : Linked cfg σ) (after : s0 < seq) (w : PendingPut A) :
    (σ.put cfg seq w).Shows cfg s0 key l := by
  rcases put_puts linked with ⟨-, failed⟩ | ⟨new, -, ⟨old, prev, -, puts, -⟩ | ⟨puts, -⟩⟩
  · rw [failed]
    exact shows.of_fields rfl rfl fun _ => rfl
  · have stale := shows.supersedeRec after old
    exact stale.appends puts.appends
      ((reached_pushHead (linked.supersedeRec old seq) puts.appends rfl puts.dir puts.probed).mpr (.inl stale.reached))
  · exact shows.appends puts.appends ((reached_pushHead linked puts.appends rfl puts.dir puts.probed).mpr
      (.inl shows.reached))

theorem Shard.Shows.del (after : s0 < seq) (other : Key) : (σ.del cfg seq other).1.Shows cfg s0 key l :=
  del_rule (·.Shows cfg s0 key l) shows fun old _ _ _ => (shows.supersedeRec after old).of_fields rfl rfl fun _ => rfl

theorem Shard.Shows.publish (linked : Linked cfg σ) (seq now : Nat) :
    (Shard.maybeCheckpoint cfg { σ with commitSeq := seq } seq now).Shows cfg s0 key l := by
  have published : Shard.Shows cfg s0 key l { σ with commitSeq := seq } := shows.of_fields rfl rfl fun _ => rfl
  have linked' : Linked cfg { σ with commitSeq := seq } := linked.of_fields rfl rfl rfl
  obtain ⟨-, -, dir, probed, segs | ⟨new, appends⟩⟩ := maybeCheckpoint_spec cfg linked'.writable seq now
  · exact published.of_fields segs dir probed
  · exact published.appends appends ((reached_pushAside linked' appends dir probed).mpr published.reached)

theorem Shard.Shows.seal (id : Nat) : (σ.sealSegmentIndex cfg id).Shows cfg s0 key l := by
  rcases seal_cases with same | ⟨-, form⟩
  · rwa [same]
  · obtain ⟨r, seq, ad, here, pair⟩ := shows.holds
    rw [form]
    refine ⟨⟨r, seq, ad, (recordAt_seal l).trans here, pair⟩, ?_⟩
    unfold Shard.Reached
    rw [links_of_recordAt recordAt_seal]
    exact shows.reached.imp_right isProbed_seal

/-- An eviction that takes the head of the bucket leaves what is in an index. -/
theorem Shard.Shows.evict {id : Nat} (linked : Linked cfg σ)
    (spared : (σ.dir (cfg.hash key)).any (fun head => head.seg = id) = true → σ.isProbed l.seg = true) :
    (σ.evictSegKeys cfg id).Shows cfg s0 key l := by
  rcases evict_dir linked with ⟨-, same⟩ | ⟨seg, -, -, form⟩
  · rwa [same]
  · rw [form]
    refine ⟨shows.holds, ?_⟩
    by_cases dropped : (σ.dir (cfg.hash key)).any (fun head => head.seg = id) = true
    · exact .inr (spared dropped)
    · refine shows.reached.imp_left fun ⟨nodes, chain, member⟩ => ⟨nodes, ?_, member⟩
      simp only [if_neg dropped]
      exact chain

theorem Shard.Shows.reclaim (linked : Linked cfg σ) (alive : σ.isReclaimable (σ.retainFloor cfg now) l.seg = false) :
    (σ.reclaimDeadShard cfg now).Shows cfg s0 key l := by
  rcases reclaim_cases linked with same | ⟨spliced, nodes, relinked, -, covered, form⟩
  · rwa [same]
  · rw [form]
    generalize σ.retainFloor cfg now = retain at *
    obtain ⟨r, seq, ad, here, pair⟩ := shows.holds
    have kept := relinked.recordAt l
    rw [here, Option.map_some] at kept
    obtain ⟨r', here', bare⟩ := Option.map_eq_some_iff.mp kept
    have found : (spliced.retire (σ.isReclaimable retain)).recordAt l = some r' := by
      rw [recordAt_retire, alive]; exact here'
    exact ⟨⟨r', seq, ad, found, (pairAt_sameReading s0 (sameReading_of_bare bare)).trans pair⟩,
      (covered key l alive).mpr shows.reached⟩

end

theorem Shard.Shows.puts (shows : σ.Shows cfg s0 key l) (linked : Linked cfg σ) (after : s0 < seq)
    (ws : List (PendingPut A)) :
    (ws.foldl (fun τ w => τ.put cfg seq w) σ).Shows cfg s0 key l ∧
    Linked cfg (ws.foldl (fun τ w => τ.put cfg seq w) σ) := by
  induction ws generalizing σ with
  | nil => exact ⟨shows, linked⟩
  | cons w rest ih => exact ih (shows.put linked after w) (linked.put seq w)

theorem Shard.Shows.txnWrites (shows : σ.Shows cfg s0 key l) (linked : Linked cfg σ) (after : s0 < seq) (fast : Bool)
    (ws : List (TxnWrite A)) :
    (σ.applyTxnWrites cfg fast seq ws).1.Shows cfg s0 key l ∧ Linked cfg (σ.applyTxnWrites cfg fast seq ws).1 := by
  induction ws generalizing σ with
  | nil => exact ⟨shows, linked⟩
  | cons w rest ih =>
    have next : (σ.applyTxnWrite cfg fast seq w).1.Shows cfg s0 key l ∧
        Linked cfg (σ.applyTxnWrite cfg fast seq w).1 := by
      unfold Shard.applyTxnWrite
      split
      · exact ⟨shows, linked⟩
      · cases w.op with
        | put p => exact ⟨shows.put linked after p, linked.put seq p⟩
        | del other => exact ⟨shows.del after other, linked.del seq other⟩
    exact ih next.1 next.2

/-- Whether a pass leaves the version that a snapshot sees in reach. An eviction takes bucket heads
away, a reclaim whole segments, and an install links current versions only. -/
def Op.Spares (cfg : Config) (s : System A) (s0 : Nat) (key : Key) : Op A → Prop
  | .evict id => ∀ l, s.shard.HoldsFor s0 key l → (s.shard.dir (cfg.hash key)).any (fun head => head.seg = id) = true →
      s.shard.isProbed l.seg = true
  | .reclaim => ∀ l, s.shard.HoldsFor s0 key l → s.shard.isReclaimable (s.shard.retainFloor cfg s.clock) l.seg = false
  | .install liveDict histDict => Op.Waits s (.install liveDict histDict)
  | _ => True

theorem Shard.Shows.step (shows : s.shard.Shows cfg s0 key l) (valid : s.Valid cfg) (upTo : s0 ≤ s.shard.commitSeq)
    (spares : op.Spares cfg s s0 key) : (s.step cfg op).shard.Shows cfg s0 key l := by
  have linked := valid.linked
  have after := Nat.lt_succ_of_le upTo
  have steps := s.steps cfg op
  generalize s.step cfg op = s' at steps ⊢
  cases steps with
  | commit writes =>
    obtain ⟨written, linked'⟩ := shows.puts linked after writes
    exact written.publish linked' _ _
  | delete other =>
    exact delete_rule (·.Shows cfg s0 key l) (fun _ => shows) ((shows.del after other).publish (linked.del _ other) _ _)
  | txn ws =>
    obtain ⟨written, linked'⟩ := shows.txnWrites linked after (s.shard.isFast ws) ws
    exact applyTxn_rule (·.Shows cfg s0 key l) (fun _ => shows) (written.publish linked' _ _)
  | sealSegment id => exact shows.seal id
  | evict id => exact shows.evict linked (spares l shows.holds)
  | reclaim => exact shows.reclaim linked (spares l shows.holds)
  | beginRound => exact shows.of_fields rfl rfl (isProbed_deactivate linked.writable)
  | install isRound next => exact absurd next (spares _ isRound)
  | copy | abort | tick | waits => exact shows

/-- The version of a key nobody has written to since is current, so it is in reach. -/
theorem Stored.shows (stored : Stored cfg σ past) (held : past σ.commitSeq key = some (seq, ad)) (upTo : seq ≤ s0) :
    ∃ l, σ.Shows cfg s0 key l := by
  obtain ⟨l, current⟩ := mem_currents.mp ((stored.listed.exact key (seq, ad)).mpr held)
  have reached := stored.reached l key seq ad current
  obtain ⟨r, here, body, unsuperseded, isSeq⟩ := current
  exact ⟨l, ⟨r, seq, ad, here, pairAt_eq_some.mpr ⟨body, isSeq, upTo, by simp [unsuperseded]⟩⟩, reached⟩

/-- From the snapshot on, once the key is written to, every pass leaves its version in reach. -/
def System.Spares (cfg : Config) (s0 : Nat) (key : Key) : System A → History A → List (Op A) → Prop
  | _, _, [] => True
  | s, past, op :: rest =>
    let past' := s.record cfg past op
    (past' (s.step cfg op).shard.commitSeq key ≠ past s0 key → op.Spares cfg s s0 key) ∧
      Spares cfg s0 key (s.step cfg op) past' rest

theorem System.Spares.shows {ops : List (Op A)} (faithful : s.Faithful cfg past) (allowed : s.AllowedRun cfg ops)
    (upTo : s0 ≤ s.shard.commitSeq) (held : past s0 key = some (seq, ad)) (stamp : seq ≤ s0)
    (shown : ∃ l, s.shard.Shows cfg s0 key l) (spares : s.Spares cfg s0 key past ops) :
    ∃ l, (s.run cfg ops).shard.Shows cfg s0 key l := by
  induction ops generalizing s past with
  | nil => exact shown
  | cons op rest ih =>
    have faithful' := faithful.step allowed.1
    have same : s.record cfg past op s0 key = past s0 key := by rw [record_below upTo]
    refine ih faithful' allowed.2 (Nat.le_trans upTo (faithful.valid.step op).2.2) (same.trans held) ?_ spares.2
    by_cases untouched : s.record cfg past op (s.step cfg op).shard.commitSeq key = past s0 key
    · exact faithful'.stored.shows (untouched.trans held) stamp
    · obtain ⟨l, here⟩ := shown
      exact ⟨l, here.step faithful.valid upTo (spares.1 untouched)⟩

/-- No pass has dropped what the snapshot sees, every segment but the active one has its key index,
and no version of the key in the active one is as old as the snapshot. -/
structure Shard.Indexed (σ : Shard A) (s0 : Nat) (key : Key) : Prop where
  kept : σ.gcFloor ≤ s0
  indexed : ∀ id seg, σ.segs[id]? = some seg → seg.retired = false → σ.act ≠ some id → seg.keyIndexed = true
  recent : ∀ l r, σ.recordAt l = some r → σ.act = some l.seg → r.key = key → s0 < r.seq

theorem Shard.Indexed.shows (indexed : σ.Indexed s0 key) (stored : Stored cfg σ past) (upTo : s0 ≤ σ.commitSeq)
    (held : past s0 key = some (seq, ad)) : ∃ l, σ.Shows cfg s0 key l := by
  obtain ⟨l, r, here, facts⟩ := mem_visibles.mp (((stored.history s0 indexed.kept upTo).exact key (seq, ad)).mpr held)
  refine ⟨l, ⟨r, seq, ad, here, pairAt_eq_some.mpr facts⟩, .inr ?_⟩
  have inactive : σ.act ≠ some l.seg := by
    intro active
    have newer := indexed.recent l r here active (by rw [Record.key, facts.1])
    omega
  rw [recordAt_eq] at here
  obtain ⟨seg, isSeg, inside⟩ := Option.bind_eq_some_iff.mp here
  have live : seg.retired = false := by
    by_contra retired
    simp [retired] at inside
  simp [Shard.isProbed, isSeg, live, indexed.indexed _ seg isSeg live inactive, inactive]

/-- Whether a read at a snapshot finds the key's version after a run: the search tells it from a
keyless record, and every pass has left it in reach or the segments are indexed. -/
def System.Retains (cfg : Config) (s0 : Nat) (key : Key) (s : System A) (past : History A) (ops : List (Op A)) : Prop :=
  (s.run cfg ops).shard.Admits key ∧ (s.Spares cfg s0 key past ops ∨ (s.run cfg ops).shard.Indexed s0 key)

theorem System.Retains.getAt {ops : List (Op A)} (faithful : s.Faithful cfg past) (allowed : s.AllowedRun cfg ops)
    (retains : s.Retains cfg s.shard.commitSeq key past ops) :
    (s.run cfg ops).shard.getAt cfg key s.shard.commitSeq = (past s.shard.commitSeq key).map Prod.snd := by
  have faithful' := faithful.run ops allowed
  have below : s.history cfg past ops s.shard.commitSeq = past s.shard.commitSeq :=
    history_below faithful.valid (Nat.le_refl _)
  have upTo := (faithful.valid.run ops).2
  rw [← below]
  refine faithful'.stored.getAt retains.1 upTo fun isHeld => ?_
  obtain ⟨⟨seq, ad⟩, held⟩ := Option.ne_none_iff_exists'.mp isHeld
  rcases retains.2 with spares | indexed
  · rw [below] at held
    have stamp : seq ≤ s.shard.commitSeq := by
      obtain ⟨l, r, here, body, -, rfl⟩ := mem_currents.mp ((faithful.stored.listed.exact key (seq, ad)).mpr held)
      exact (faithful.stored.stamped l r here (Record.isMarker_of_ad body)).1
    exact spares.shows faithful allowed (Nat.le_refl _) held stamp (faithful.stored.shows held stamp)
  · exact indexed.shows faithful'.stored upTo held

/-- Two reads of a transaction agree if for the key and for its parent both find the same buffered
write, or none while the version the snapshot saw is retained for both. -/
theorem snapshot_reads_repeat (ops later more : List (Op A))
    (allowed : (initial : System A).AllowedRun cfg (ops ++ (later ++ more)))
    (tx tx' : Txn A) (parentKeyFor : Key → Option Key) (mergeParent : A → A → A) (key : Key) :
    let s := (initial : System A).run cfg ops
    let past := (initial : System A).history cfg (fun _ _ => none) ops
    tx.snap = s.shard.commitSeq → tx'.snap = tx.snap →
    (∀ k, k = key ∨ parentKeyFor key = some k → tx'.writes k = tx.writes k ∧
      (tx.writes k = none → s.Retains cfg tx.snap k past later ∧ s.Retains cfg tx.snap k past (later ++ more))) →
    tx'.get cfg parentKeyFor mergeParent (s.run cfg (later ++ more)).shard key =
      tx.get cfg parentKeyFor mergeParent (s.run cfg later).shard key := by
  intro s past taken sameSnap each
  obtain ⟨before, during⟩ := allowedRun_append.mp allowed
  have faithful : s.Faithful cfg past := (faithful_initial cfg).run ops before
  have own : ∀ k, k = key ∨ parentKeyFor key = some k →
      tx'.getOwn cfg (s.run cfg (later ++ more)).shard k = tx.getOwn cfg (s.run cfg later).shard k := by
    intro k among
    obtain ⟨sameWrites, retained⟩ := each k among
    unfold Txn.getOwn
    rw [sameWrites]
    cases unbuffered : tx.writes k with
    | some buffered => rfl
    | none =>
      obtain ⟨first, second⟩ := retained unbuffered
      rw [taken] at first second
      simp only [sameSnap, taken, first.getAt faithful (allowedRun_append.mp during).1, second.getAt faithful during]
  unfold Txn.get
  rw [own key (.inl rfl)]
  cases isParent : parentKeyFor key with
  | none => rfl
  | some parent => rw [Option.bind_some, Option.bind_some, own parent (.inr isParent)]

/-- A key that is put over between the reads, and one that is compacted. -/
theorem snapshot_reads_repeat_on_sample :
    let ops : List (Op Nat) := [.commit [⟨[1], 10, 8, 0, true⟩], .commit [⟨[2], 20, 8, 0, true⟩]]
    let later : List (Op Nat) := [.beginRound, .copy ⟨8, 0, false, 8⟩]
    let more : List (Op Nat) := [.copy ⟨8, 0, false, 8⟩, .install 8 8, .commit [⟨[1], 11, 8, 0, true⟩]]
    let tx : Txn Nat := ⟨fun _ => none, 2⟩
    let read (key : Key) (later : List (Op Nat)) :=
      tx.get sampleConfig (fun _ => none) (fun ad _ => ad)
        (((initial : System Nat).run sampleConfig ops).run sampleConfig later).shard key
    read [1] (later ++ more) = read [1] later ∧ read [2] (later ++ more) = read [2] later := by
  intro ops later more tx read
  have allowed : (initial : System Nat).AllowedRun sampleConfig (ops ++ (later ++ more)) :=
    (allowedRun_of_unprobed (faithful_initial sampleConfig) (fun _ => rfl) (by decide)).1
  let s := (initial : System Nat).run sampleConfig ops
  let past := (initial : System Nat).history sampleConfig (fun _ _ => none) ops
  have repeats (key : Key) (nonempty : key ≠ []) (spares : s.Spares sampleConfig 2 key past (later ++ more)) :
      read key (later ++ more) = read key later := by
    refine snapshot_reads_repeat ops later more allowed tx tx (fun _ => none)
      (fun ad _ => ad) key (by decide +kernel) rfl ?_
    rintro k (rfl | isParent)
    · have first : s.Spares sampleConfig 2 k past later := ⟨fun _ => trivial, fun _ => trivial, trivial⟩
      exact ⟨rfl, fun _ => ⟨⟨Shard.admits_of_ne _ nonempty, .inl first⟩, Shard.admits_of_ne _ nonempty, .inl spares⟩⟩
    · cases isParent
  -- The install comes before the key is written to.
  refine ⟨repeats [1] (by decide) ?_, repeats [2] (by decide) ?_⟩
  all_goals
    refine ⟨fun _ => trivial, fun _ => trivial, fun _ => trivial, fun changed => absurd ?_ changed,
      fun _ => trivial, trivial⟩
    decide +kernel

/-- A version is put over and compacted away between the reads. -/
theorem version_compacted_between_reads :
    let ops : List (Op Nat) := [.commit [⟨[1], 10, 8, 0, true⟩]]
    let later : List (Op Nat) :=
      [.commit [⟨[1], 11, 8, 0, true⟩], .beginRound, .copy ⟨8, 0, false, 8⟩, .copy ⟨8, 0, false, 8⟩, .install 8 8]
    let tx : Txn Nat := ⟨fun _ => none, 1⟩
    let read (ops : List (Op Nat)) :=
      tx.get sampleConfig (fun _ => none) (fun ad _ => ad) ((initial : System Nat).run sampleConfig ops).shard [1]
    read ops = some 10 ∧ read (ops ++ later) = none := by
  decide +kernel

/-! ## Reports -/

/-- `CommitResult`: the number of writes applied, and the keys of the others. -/
structure CommitResult where
  committed : Nat
  conflicts : List Key
  deriving DecidableEq, Repr

/-- The last phase of `Commit`, for one shard. -/
def CommitResult.addShard (res : CommitResult) (ws : List (TxnWrite A)) (oks : List Bool) : CommitResult :=
  (ws.zip oks).foldl (fun res (w, ok) =>
    if ok then { res with committed := res.committed + 1 }
    else { res with conflicts := res.conflicts ++ [w.op.key] }) res

/-- What a put that is applied leaves under its key. -/
theorem txnWrites_put (distinct : (ws.map fun w => w.op.key).Nodup)
    (here : ws[i]? = some ⟨.put p, base⟩) (contents : Contents A)
    (applied : (σ.applyTxnWrites cfg fast seq ws).2.2[i]? = some true) :
    (σ.applyTxnWrites cfg fast seq ws).2.1 = true ∧ contents.txnWrites cfg fast seq σ ws p.key =
      if (σ.applyTxnWrites cfg fast seq (ws.take i)).1.stores cfg p then some (seq, p.ad) else contents p.key := by
  induction ws generalizing σ contents i with
  | nil => cases here
  | cons w rest ih =>
    obtain ⟨outside, distinct'⟩ := nodup_cons.mp distinct
    cases i with
    | zero =>
      obtain rfl : w = ⟨.put p, base⟩ := by simpa using here
      have passes : ¬(!fast && σ.conflictSince cfg p.key base) = true := by
        intro conflicts
        simp [Shard.applyTxnWrites, Shard.applyTxnWrite, TxnOp.key, conflicts] at applied
      refine ⟨by simp [Shard.applyTxnWrites, Shard.applyTxnWrite, TxnOp.key, passes], ?_⟩
      refine (txnWrites_other fast seq _ outside).trans ?_
      change (if (!fast && σ.conflictSince cfg p.key base) = true then contents else contents.put cfg σ seq p) p.key =
        if σ.stores cfg p then _ else _
      rw [if_neg passes, Contents.put]
      split
      · exact Function.update_self ..
      · rfl
    | succ i =>
      have later : rest[i]? = some ⟨.put p, base⟩ := by simpa using here
      have differs : p.key ∉ [w].map fun w => w.op.key := by
        intro member
        have same := mem_singleton.mp member
        exact outside (mem_map.mpr ⟨_, mem_of_getElem? later, same⟩)
      have other : contents.txnWrite cfg fast seq σ w p.key = contents p.key := txnWrites_other fast seq σ differs
      have rest' := ih (σ := (σ.applyTxnWrite cfg fast seq w).1) distinct' later (contents.txnWrite cfg fast seq σ w)
        (by simpa [Shard.applyTxnWrites] using applied)
      rw [other] at rest'
      exact ⟨by simp [Shard.applyTxnWrites, rest'.1], rest'.2⟩

theorem Stored.current_iff (stored : Stored cfg σ past) :
    (∃ l seq, σ.IsCurrent l key seq ad) ↔ ∃ seq, past σ.commitSeq key = some (seq, ad) := by
  simp only [← stored.listed.exact, mem_currents]
  exact exists_comm

/-- A put that is counted as committed has a current record with its ad just when a segment was
found for it at its turn, or the key held that ad before. -/
theorem committed_put_stored_iff (ops : List (Op A)) (ws : List (TxnWrite A))
    (allowed : (initial : System A).AllowedRun cfg (ops ++ [.txn ws])) (distinct : (ws.map fun w => w.op.key).Nodup)
    (i base : Nat) (p : PendingPut A) (here : ws[i]? = some ⟨.put p, base⟩) :
    let s := (initial : System A).run cfg ops
    (s.shard.applyTxn cfg ws s.clock).2[i]? = some true →
      ((∃ l seq, (s.shard.applyTxn cfg ws s.clock).1.IsCurrent l p.key seq p.ad) ↔
        (s.shard.applyTxnWrites cfg (s.shard.isFast ws) (s.shard.commitSeq + 1) (ws.take i)).1.stores cfg p = true ∨
          ∃ l seq, s.shard.IsCurrent l p.key seq p.ad) := by
  intro s applied
  obtain ⟨before, now, -⟩ := allowedRun_append.mp allowed
  have faithful := (faithful_initial cfg).run ops before
  have stored : Stored cfg (s.shard.applyTxn cfg ws s.clock).1 _ := (faithful.step now).stored
  rw [applyTxn_flags] at applied
  obtain ⟨changed, left⟩ :=
    txnWrites_put distinct here ((initial : System A).history cfg (fun _ _ => none) ops s.shard.commitSeq) applied
  have commitSeq : (s.shard.applyTxn cfg ws s.clock).1.commitSeq = s.shard.commitSeq + 1 := by
    unfold Shard.applyTxn
    rcases done : s.shard.applyTxnWrites cfg (s.shard.isFast ws) (s.shard.commitSeq + 1) ws with ⟨τ, changes, oks⟩
    rw [done] at changed
    cases changed
    simp only [done]
    exact (maybeCheckpoint_clocks _ _ s.clock).1
  rw [stored.current_iff, faithful.stored.current_iff, commitSeq]
  rw [show System.record cfg s _ (.txn ws) (s.shard.commitSeq + 1) = _ from Function.update_self .., left]
  split
  next stores =>
    simp [stores]
  next full =>
    simp [full, s]

theorem committed_put_stored_on_sample :
    let ws : List (TxnWrite Nat) := [⟨.put ⟨[1], 10, 8, 0, true⟩, 0⟩]
    let σ := ((initial : System Nat).run sampleConfig []).shard
    ∃ l seq, (σ.applyTxn sampleConfig ws 0).1.IsCurrent l [1] seq 10 := by
  intro ws σ
  have allowed : System.initial.AllowedRun sampleConfig [.txn ws] :=
    (allowedRun_of_unprobed (faithful_initial sampleConfig) (fun _ => rfl) (by decide)).1
  exact (committed_put_stored_iff [] ws allowed (by decide) 0 0 _ rfl (by decide +kernel)).mpr
    (.inl (by decide +kernel))

/-- The first put of a persistent shard when no segment can be allocated: it is counted as
committed, no key is in conflict, and nothing is stored. -/
theorem unstored_put_committed :
    let ws : List (TxnWrite Nat) := [⟨.put ⟨[1], 10, 8, 0, false⟩, 0⟩]
    let outcome := ((initial : System Nat).run sampleConfig []).shard.applyTxn sampleConfig ws 0
    CommitResult.addShard ⟨0, []⟩ ws outcome.2 = ⟨1, []⟩ ∧ outcome.1.currents = [] := by
  decide +kernel

end Classad.ShardStore
