import Classad.RewriteSwap

/-! A shard and the passes that rewrite its segments, at work with its writers. What is stored
holds in every run that swaps no segment the active one shares a bucket with and, while swapped
segments wait for the reindex, writes to no key it cannot see. -/
namespace Classad.ShardStore
open Arena Chains Listing List Option
open Upkeep (initial)

variable {A : Type}

/-- Whether an operation of the shard is covered while a pass is at work. Of those that take the
maintenance lock there is none. -/
def Op.InPass (cfg : Config) (s : System A) : Op A → Prop
  | .commit [w] => w.key ≠ [] ∧ s.shard.Sees cfg w.key
  | .delete key => key ≠ [] ∧ s.shard.Sees cfg key
  | .commit _ | .txn _ | .evict _ => False
  | _ => True

/-- Whether an operation keeps what is stored. After a reseal `minSeq` may be unset, so a reseal
is followed to its end and no further. -/
def UpkeepOp.Allowed (cfg : Config) (u : Upkeep A) : UpkeepOp A → Prop
  | .shard op => op.Allowed u.system ∧ (u.pass.isSome = true → op.InPass cfg u.system)
  | .commit id => ∀ pass, u.pass = some pass → u.system.shard.SwapSafe id ∧
      (pass.kind = .reseal → ∀ src, u.system.shard.segs[id]? = some src → ∀ r ∈ ads src.records, r.superseded = none)
  | .finish => ∀ pass, u.pass = some pass → pass.swapped = true → pass.kind = .columnarize ∧ u.system.shard.ReindexSafe
  | .start _ | .build _ _ => True

def Upkeep.AllowedRun (cfg : Config) : Upkeep A → List (UpkeepOp A) → Prop
  | _, [] => True
  | u, op :: rest => op.Allowed cfg u ∧ AllowedRun cfg (u.step cfg op) rest

/-- The history a step extends: a pass adds nothing to it. -/
def Upkeep.record (cfg : Config) (u : Upkeep A) (past : History A) : UpkeepOp A → History A
  | .shard op => u.system.record cfg past op
  | _ => past

def Upkeep.history (cfg : Config) : Upkeep A → History A → List (UpkeepOp A) → History A
  | _, past, [] => past
  | u, past, op :: rest => history cfg (u.step cfg op) (u.record cfg past op) rest

/-- A segment that is there and not written to. -/
structure Shard.Closed (σ : Shard A) (id : Nat) (src : Segment A) : Prop where
  here : σ.segs[id]? = some src
  alive : src.retired = false
  inactive : σ.act ≠ some id

/-- What holds of a pass at work. -/
structure Pass.Underway (cfg : Config) (pass : Pass A) (s : System A) (past : History A) : Prop where
  idle : s.round = none
  untouched : pass.swapped = false → Stored cfg s.shard past
  settling : ∃ torn marked, Settling cfg pass.kind torn marked s.shard past
  sources : ∀ id ∈ pass.sources, ∃ src, s.shard.Closed id src
  staged : ∀ entry ∈ pass.staged, ∃ src, s.shard.Closed entry.1 src ∧ Rewritten pass.kind src entry.2

/-- The shard holds what its history says, at rest or as far as a pass has come. -/
structure Upkeep.Faithful (cfg : Config) (u : Upkeep A) (past : History A) : Prop where
  rest : u.pass = none → u.system.Faithful cfg past
  work : ∀ pass, u.pass = some pass → pass.Underway cfg u.system past

section Steps
variable {cfg : Config} {kind : Rewrite} {torn : UInt64 → Bool} {marked : Nat → Bool} {σ τ : Shard A}
  {past past' : History A}

/-- A segment that is not written to only ages. -/
theorem Shard.Closed.grows {bound id : Nat} (closed : σ.Closed id src)
    (grows : Grows bound (σ.veil kind torn marked) (τ.veil kind torn marked)) :
    ∃ src', τ.Closed id src' ∧ Forall₂ (Aged bound) src.records src'.records := by
  have found : (σ.veil kind torn marked).segs[id]? = some (if marked id then src.veiled kind else src) := by
    rw [getElem?_veil, closed.here]
    rfl
  obtain ⟨seg', found', retired, length⟩ := grows.segs id _ found
  rw [getElem?_veil] at found'
  obtain ⟨src', here', rfl⟩ := map_eq_some_iff.mp found'
  have plain : ∀ seg : Segment A, (if marked id then seg.veiled kind else seg).records = seg.records ∧
      (if marked id then seg.veiled kind else seg).retired = seg.retired := by
    intro seg
    split
    · exact ⟨veiled_records, veiled_retired kind seg⟩
    · exact ⟨rfl, rfl⟩
  rw [(plain src').2, (plain src).2] at retired
  have lengths := length closed.inactive
  rw [(plain src').1, (plain src).1] at lengths
  refine ⟨src', ⟨here', retired.trans closed.alive, ?_⟩, ?_⟩
  · rcases grows.act with same | ⟨i, isActive, new⟩
    · exact fun active => closed.inactive (same.symm.trans active)
    · intro active
      have inside := (List.getElem?_eq_some_iff.mp closed.here).1
      rw [length_veil] at new
      have same : some i = some id := isActive.symm.trans active
      cases same
      omega
  · refine forall₂_iff_get.mpr ⟨lengths.symm, fun off first second => ?_⟩
    have pinned : (σ.veil kind torn marked).pinnedAt ⟨id, off⟩ = some (src.records.get ⟨off, first⟩) := by
      rw [pinnedAt_veil, Shard.pinnedAt, closed.here]
      exact getElem?_eq_getElem first
    obtain ⟨r', pinned', aged⟩ := grows.keeps ⟨id, off⟩ _ pinned
    rw [pinnedAt_veil, Shard.pinnedAt, here'] at pinned'
    have same : some (src'.records.get ⟨off, second⟩) = some r' := (getElem?_eq_getElem second).symm.trans pinned'
    cases same
    exact aged

variable {s : System A} {pass : Pass A}

/-- A write of the shard leaves a pass underway. -/
theorem Pass.Underway.write (underway : pass.Underway cfg s past)
    (untouched : pass.swapped = false → Stored cfg τ past')
    (settling : ∃ torn, Settling cfg pass.kind torn marked τ past' ∧
      Grows bound (s.shard.veil pass.kind torn marked) (τ.veil pass.kind torn marked)) :
    pass.Underway cfg { s with shard := τ, clock := clock } past' := by
  obtain ⟨torn, settled, grows⟩ := settling
  refine ⟨underway.idle, untouched, ⟨torn, marked, settled⟩, fun id member => ?_, fun entry member => ?_⟩
  · obtain ⟨src, closed⟩ := underway.sources id member
    obtain ⟨src', closed', -⟩ := closed.grows grows
    exact ⟨src', closed'⟩
  · obtain ⟨src, closed, rewritten⟩ := underway.staged entry member
    obtain ⟨src', closed', aged⟩ := closed.grows grows
    exact ⟨src', closed', rewritten.age aged⟩

theorem Pass.Underway.step (underway : pass.Underway cfg s past) (allowed : op.Allowed s) (inPass : op.InPass cfg s)
    (unlocked : op.locks = false) : pass.Underway cfg (s.step cfg op) (s.record cfg past op) := by
  obtain ⟨torn, marked, settling⟩ := underway.settling
  have idle := underway.idle
  have untouched (none : pass.swapped = false) : Stored cfg (s.step cfg op).shard (s.record cfg past op) := by
    have faithful : s.Faithful cfg past := ⟨underway.untouched none,
      fun c isRound => by rw [idle] at isRound; cases isRound⟩
    exact (faithful.step allowed).stored
  cases op with
  | commit writes =>
    match writes, inPass with
    | [w], inPass => exact underway.write untouched (settling.put inPass.1 inPass.2 s.clock)
  | delete key => exact underway.write untouched (settling.delete inPass.1 inPass.2 s.clock)
  | txn writes | evict id => cases inPass
  | sealSegment id => exact underway.write untouched ⟨torn, settling.sealSegment id⟩
  | reclaim | beginRound => cases unlocked
  | copy choice =>
    rw [System.step, idle]
    exact underway
  | install liveDict histDict =>
    rw [System.step, idle]
    exact underway
  | abort => exact ⟨rfl, underway.untouched, underway.settling, underway.sources, underway.staged⟩
  | tick elapsed => exact ⟨idle, underway.untouched, underway.settling, underway.sources, underway.staged⟩

theorem closed_of_chosen {id : Nat}
    (chosen : (match σ.segs[id]? with
      | some seg => !seg.retired && !seg.records.isEmpty && σ.act != some id
      | none => false) = true) : ∃ src, σ.Closed id src := by
  cases here : σ.segs[id]? with
  | none => rw [here] at chosen; cases chosen
  | some src =>
    rw [here] at chosen
    simp only [Bool.and_eq_true, Bool.not_eq_true', bne_iff_ne] at chosen
    exact ⟨src, here, chosen.1.1, chosen.2⟩

/-- A pass starts on segments that are there and not written to. -/
theorem System.Faithful.startPass (faithful : s.Faithful cfg past) (idle : s.round = none) (kind : Rewrite) :
    Pass.Underway cfg ⟨kind, (s.shard.startPass kind).2, [],
      false⟩ { s with shard := (s.shard.startPass kind).1 } past := by
  have stored : Stored cfg (s.shard.startPass kind).1 past := by
    cases kind with
    | reseal => exact faithful.stored.deactivate
    | columnarize => exact faithful.stored
  refine ⟨idle, fun _ => stored, ⟨_, _, stored.settling kind⟩, fun id member => ?_, nofun⟩
  have chosen := (mem_filter.mp member).2
  cases kind with
  | reseal => exact closed_of_chosen (σ := { s.shard with act := none }) chosen
  | columnarize => exact closed_of_chosen chosen

theorem Pass.Underway.build (underway : pass.Underway cfg s past) {id : Nat} (member : id ∈ pass.sources)
    (here : s.shard.segs[id]? = some src) (choice : RewriteChoice) :
    Pass.Underway cfg { pass with
      sources := pass.sources.filter (· ≠ id)
      staged := (id, src.rewrite pass.kind choice) :: pass.staged } s past where
  idle := underway.idle
  untouched := underway.untouched
  settling := underway.settling
  sources other chosen := underway.sources other (mem_filter.mp chosen).1
  staged entry chosen := by
    rcases mem_cons.mp chosen with rfl | earlier
    · obtain ⟨src', closed⟩ := underway.sources id member
      have same := closed.here
      rw [here] at same
      cases same
      obtain ⟨torn, marked, settling⟩ := underway.settling
      exact ⟨src, closed, Segment.rewritten pass.kind choice fun r inside keyed =>
        (settling.counted_at here).1.seq_pos inside keyed⟩
    · exact underway.staged entry earlier

/-- What a swap does to the other segments. -/
theorem Shard.Closed.swap {id : Nat} (closed : σ.Closed id src) (newAlive : new.retired = false)
    (closed' : σ.Closed other seg) :
    ∃ seg', (σ.swap id new).Closed other seg' ∧ (other ≠ id → Forall₂ (Aged 0) seg.records seg'.records) := by
  obtain ⟨act, -⟩ := swap_fields closed.here
  have inactive : (σ.swap id new).act ≠ some other := fun active => closed'.inactive (act.symm.trans active)
  by_cases same : id = other
  · subst same
    exact ⟨new, ⟨by rw [getElem?_swap closed.here, if_pos rfl], newAlive, inactive⟩, fun differs => absurd rfl differs⟩
  · have here : (σ.swap id new).segs[other]? = some { seg with
        records := seg.records.map fun r => { r with next := r.next.map (Shard.reaim id src new) } } := by
      rw [getElem?_swap closed.here, if_neg same, closed'.here]
      rfl
    refine ⟨_, ⟨here, closed'.alive, inactive⟩, fun _ => ?_⟩
    exact forall₂_map_right_iff.mpr (forall₂_same.mpr fun r _ => ⟨rfl, rfl, .inl rfl⟩)

theorem Pass.Underway.commit (underway : pass.Underway cfg s past) {id : Nat}
    (here : s.shard.segs[id]? = some src) (built : (id, out) ∈ pass.staged) (safe : s.shard.SwapSafe id)
    (current : pass.kind = .reseal → ∀ r ∈ ads src.records, r.superseded = none) :
    Pass.Underway cfg { pass with staged := pass.staged.filter fun entry => entry.1 ≠ id, swapped := true }
      { s with shard := s.shard.swap id (src.settle pass.kind out) } past := by
  obtain ⟨src', closed, rewritten⟩ := underway.staged (id, out) built
  have same := closed.here
  rw [here] at same
  cases same
  obtain ⟨reads, counted, newAlive⟩ := rewritten.settle current
  obtain ⟨torn, marked, settling⟩ := underway.settling
  obtain ⟨torn', settled⟩ := settling.swap here closed.alive closed.inactive reads counted newAlive safe
  refine ⟨underway.idle, nofun, ⟨torn', _, settled⟩, fun other member => ?_, fun entry member => ?_⟩
  · obtain ⟨seg, closed'⟩ := underway.sources other member
    obtain ⟨seg', closed'', -⟩ := closed.swap newAlive closed'
    exact ⟨seg', closed''⟩
  · obtain ⟨member, differs⟩ := mem_filter.mp member
    obtain ⟨seg, closed', rewritten'⟩ := underway.staged entry member
    obtain ⟨seg', closed'', aged⟩ := closed.swap newAlive closed'
    exact ⟨seg', closed'', rewritten'.age (aged (by simpa using differs))⟩

/-- A columnarization leaves the shard as it should be. -/
theorem Pass.Underway.finish (underway : pass.Underway cfg s past) (persistent : cfg.persistent = true)
    (columnar : pass.kind = .columnarize)
    (safe : s.shard.ReindexSafe) : System.Faithful cfg { s with shard := s.shard.reindex cfg } past := by
  obtain ⟨torn, marked, settling⟩ := underway.settling
  have reindexed := reindexed_reindex persistent s.shard
  have stored := settling.reindexed reindexed safe
  rw [columnar] at stored
  have whole : (s.shard.reindex cfg).veil .columnarize (fun _ => false) s.shard.inactive = s.shard.reindex cfg := by
    have segs : ((s.shard.reindex cfg).veil .columnarize (fun _ => false) s.shard.inactive).segs =
        (s.shard.reindex cfg).segs := by
      apply ext_getElem?
      intro i
      rw [getElem?_veil, reindexed.segs, Option.map_map]
      cases found : s.shard.segs[i]? with
      | none => rfl
      | some seg =>
        rcases inactive_cases found with ⟨active, isPlain⟩ | ⟨inactive, isMarked⟩
        · simp [active, isPlain]
        · simp [inactive, isMarked, Segment.veiled]
    exact congrArg (fun segs => { s.shard.reindex cfg with segs := segs }) segs
  rw [whole] at stored
  exact ⟨stored, fun c isRound => by rw [underway.idle] at isRound; cases isRound⟩

/-- One step extends the history and stays faithful to it. -/
theorem Upkeep.Faithful.step {u : Upkeep A} (faithful : u.Faithful cfg past) (persistent : cfg.persistent = true)
    (allowed : op.Allowed cfg u) : (u.step cfg op).Faithful cfg (u.record cfg past op) := by
  have steps := u.steps cfg op
  generalize u.step cfg op = u' at steps ⊢
  cases steps with
  | shard op free =>
    refine ⟨fun isRest => (faithful.rest isRest).step allowed.1, fun pass isPass => ?_⟩
    have busy : u.pass = some pass := isPass
    exact (faithful.work pass busy).step allowed.1 (allowed.2 (by rw [busy]; rfl))
      (free.resolve_right (by rw [busy]; nofun))
  | start kind free idle =>
    refine ⟨nofun, fun pass isPass => ?_⟩
    cases isPass
    exact (faithful.rest free).startPass idle kind
  | build isPass here member choice =>
    refine ⟨nofun, fun pass' is => ?_⟩
    cases is
    exact (faithful.work _ isPass).build member here choice
  | commit isPass here built =>
    obtain ⟨safe, current⟩ := allowed _ isPass
    refine ⟨nofun, fun pass' is => ?_⟩
    cases is
    exact (faithful.work _ isPass).commit here built safe fun isReseal => current isReseal _ here
  | finish isPass swapped =>
    obtain ⟨columnar, safe⟩ := allowed _ isPass swapped
    exact ⟨fun _ => (faithful.work _ isPass).finish persistent columnar safe, nofun⟩
  | drop isPass unswapped =>
    have underway := faithful.work _ isPass
    refine ⟨fun _ => ⟨underway.untouched unswapped, fun c isRound => ?_⟩, nofun⟩
    rw [underway.idle] at isRound
    cases isRound
  | waits idle =>
    cases op with
    | shard op =>
      have locks := idle op rfl
      have same : u.record cfg past (.shard op) = past := by cases op <;> first | rfl | cases locks
      rw [same]
      exact faithful
    | start | build | commit | finish => exact faithful

theorem Upkeep.faithful_initial (cfg : Config) : (initial : Upkeep A).Faithful cfg fun _ _ => none :=
  ⟨fun _ => ShardStore.faithful_initial cfg, nofun⟩

theorem Upkeep.Faithful.run (ops : List (UpkeepOp A)) {u : Upkeep A} (faithful : u.Faithful cfg past)
    (persistent : cfg.persistent = true)
    (allowed : u.AllowedRun cfg ops) : (u.run cfg ops).Faithful cfg (u.history cfg past ops) := by
  induction ops generalizing u past with
  | nil => exact faithful
  | cons op rest ih => exact ih (faithful.step persistent allowed.1) allowed.2

end Steps

/-! ## Reading while a pass is at work -/

section Reading
variable {cfg : Config} {kind : Rewrite} {torn : UInt64 → Bool} {marked : Nat → Bool} {σ : Shard A} {past : History A}

theorem Stored.sees (stored : Stored cfg σ past) (key : Key) : σ.Sees cfg key :=
  ⟨stored.chained (cfg.hash key), fun l seq ad current => stored.reached l key seq ad current⟩

/-- A read of a key the shard sees finds what is stored under it. -/
theorem Settling.get (settling : Settling cfg kind torn marked σ past) (nonempty : key ≠ []) (sees : σ.Sees cfg key) :
    σ.get cfg key = (past σ.commitSeq key).map Prod.snd := by
  obtain ⟨torn', intact, settling'⟩ := settling.restore sees.1
  have found := settling'.stored.get (Shard.admits_of_ne _ nonempty)
  rw [Shard.get, locate_veil settling'.stored nonempty sees intact] at found
  refine Eq.trans ?_ found
  rw [Shard.get]
  cases σ.locate cfg key with
  | none => rfl
  | some l => rw [bind_some, bind_some, recordAt_veil]

/-- A read that finds what is stored has seen its key. -/
theorem sees_of_get (unique : ∀ l l' key seq seq' ad ad', σ.IsCurrent l key seq ad →
      σ.IsCurrent l' key seq' ad' → l = l')
    (listed : Lists σ.currents contents) (nonempty : key ≠ [])
    (bucket : σ.Bucket cfg (cfg.hash key) nodes) (found : σ.get cfg key = (contents key).map Prod.snd) :
    σ.Sees cfg key := by
  refine ⟨⟨nodes, bucket⟩, fun l seq ad current => ?_⟩
  rw [(listed.exact key (seq, ad)).mp (mem_currents.mpr ⟨l, current⟩), Shard.get] at found
  cases located : σ.locate cfg key with
  | none =>
    rw [located] at found
    cases found
  | some l' =>
    rw [locate_eq_search] at located
    obtain ⟨place, r, here, unsuperseded, same⟩ := search_some bucket.1 bucket.2.1 located
    obtain ⟨ad', body⟩ := Record.body_of_key (Record.isMarker_of_key same nonempty)
    have other : σ.IsCurrent l' key r.seq ad' := ⟨r, here, same ▸ body, unsuperseded, rfl⟩
    rw [unique l l' key seq r.seq ad ad' current other]
    exact place.imp_left fun member => ⟨nodes, bucket.1, member⟩

/-- What holds of the records of a shard at rest or in a pass. -/
theorem Upkeep.Faithful.current {u : Upkeep A} (faithful : u.Faithful cfg past) :
    (∀ l l' key seq seq' ad ad', u.system.shard.IsCurrent l key seq ad →
      u.system.shard.IsCurrent l' key seq' ad' → l = l') ∧
      Lists u.system.shard.currents (past u.system.shard.commitSeq) ∧
      u.system.shard.count = u.system.shard.currents.length := by
  have all : ∀ {σ : Shard A}, Stored cfg σ past →
      (∀ l l' key seq seq' ad ad', σ.IsCurrent l key seq ad → σ.IsCurrent l' key seq' ad' → l = l') ∧
        Lists σ.currents (past σ.commitSeq) ∧ σ.count = σ.currents.length := by
    intro σ stored
    refine ⟨fun l l' key seq seq' ad ad' => stored.current_unique, stored.listed, ?_⟩
    rw [stored.count]
    simp [Shard.tally]
  obtain ⟨s, pass⟩ := u
  cases pass with
  | none => exact all (faithful.rest rfl).stored
  | some pass =>
    obtain ⟨torn, marked, settling⟩ := (faithful.work pass rfl).settling
    obtain ⟨unique, listed, count⟩ := all settling.stored
    have same : (s.shard.veil pass.kind torn marked).currents = s.shard.currents := by
      rw [Shard.currents, Shard.currents, arena_veil]
    rw [same] at listed count
    exact ⟨fun l l' key seq seq' ad ad' first second =>
      unique l l' key seq seq' ad ad' (isCurrent_veil.mpr first) (isCurrent_veil.mpr second), listed, count⟩

/-- A columnarization among writers: after any interleaving of its steps with puts and deletes
each key has one current record at most and the count is the number of keys. A read returns what
was last put and not deleted at rest, and in a pass exactly where the shard sees its key. -/
theorem columnarize_invisible (persistent : cfg.persistent = true) (ops : List (UpkeepOp A))
    (allowed : (initial : Upkeep A).AllowedRun cfg ops) :
    let u := (initial : Upkeep A).run cfg ops
    let σ := u.system.shard
    let contents := (initial : Upkeep A).history cfg (fun _ _ => none) ops σ.commitSeq
    (∀ l l' key seq seq' ad ad', σ.IsCurrent l key seq ad → σ.IsCurrent l' key seq' ad' → l = l') ∧
      (∃ pairs : List (Key × Nat × A), Lists pairs contents ∧ σ.count = pairs.length) ∧
      (∀ key, key ≠ [] → u.pass = none ∨ σ.Sees cfg key → σ.get cfg key = (contents key).map Prod.snd) ∧
      ∀ key nodes, key ≠ [] → σ.Bucket cfg (cfg.hash key) nodes → σ.get cfg key = (contents key).map Prod.snd →
          σ.Sees cfg key := by
  intro u σ contents
  have faithful := (Upkeep.faithful_initial cfg).run ops persistent allowed
  obtain ⟨unique, listed, count⟩ := faithful.current
  refine ⟨unique, ⟨σ.currents, listed, count⟩, fun key nonempty seen => ?_,
    fun key nodes nonempty bucket => sees_of_get unique listed nonempty bucket⟩
  cases isPass : u.pass with
  | none => exact (faithful.rest isPass).stored.get (Shard.admits_of_ne _ nonempty)
  | some pass =>
    obtain ⟨torn, marked, settling⟩ := (faithful.work pass isPass).settling
    refine settling.get nonempty (seen.resolve_left fun atRest => ?_)
    rw [isPass] at atRest
    cases atRest

/-- A persistent shard whose buckets are told apart by the first byte of the key. -/
def passConfig : Config := ⟨fun key => (key.headD 0).toUInt64, fun _ => none, 1024, true, none⟩

/-- Two keys in a segment that is columnarized while a third is put. -/
def passRun : List (UpkeepOp Nat) :=
  [.shard (.commit [⟨[1], 10, 64, 0, true⟩, ⟨[2], 20, 64, 0, true⟩]), .shard .beginRound, .shard .abort,
    .start .columnarize,
    .build 0 ⟨fun _ => 8, fun _ => 0, 1024, 0, 0, 64⟩, .commit 0, .shard (.commit [⟨[9], 90, 64, 0, true⟩])]

theorem columnarize_invisible_on_sample :
    let σ := ((initial : Upkeep Nat).run passConfig (passRun ++ [.finish])).system.shard
    σ.get passConfig [1] = some 10 ∧ σ.get passConfig [9] = some 90 ∧ σ.get passConfig [3] = none := by
  have inactive : ((initial : Upkeep Nat).run passConfig (passRun.take 5)).system.shard.act = none := by decide +kernel
  have kind : ((initial : Upkeep Nat).run passConfig (passRun.take 5)).pass.map Pass.kind = some .columnarize := by
    decide +kernel
  have kind' : ((initial : Upkeep Nat).run passConfig passRun).pass.map Pass.kind = some .columnarize := by
    decide +kernel
  have currents : ((initial : Upkeep Nat).run passConfig (passRun.take 6)).system.shard.currents =
      [([1], 1, 10), ([2], 1, 20)] := by
    decide +kernel
  have bucket : ((initial : Upkeep Nat).run passConfig (passRun.take 6)).system.shard.dir 9 = none := by decide +kernel
  have sees : ((initial : Upkeep Nat).run passConfig (passRun.take 6)).system.shard.Sees passConfig [9] := by
    refine ⟨⟨[], ?_, nodup_nil, nofun⟩, fun l seq ad current => ?_⟩
    · rw [show passConfig.hash [9] = 9 from rfl, bucket]
      exact .nil
    · have member := mem_currents.mpr ⟨l, current⟩
      rw [currents] at member
      simp at member
  have unlinked : ∀ r ∈ ((initial : Upkeep Nat).run passConfig passRun).system.shard.arena.flatten, r.next = none := by
    decide +kernel
  have heads : ((initial : Upkeep Nat).run passConfig passRun).system.shard.ReindexSafe := by
    intro h l node r _ elsewhere reaches _ _
    have alone : node = l := by
      cases reaches with
      | head same => exact (some.inj same).symm
      | next _ linked =>
        obtain ⟨r', here, isNext⟩ := map_eq_some_iff.mp linked
        rw [unlinked r' (mem_records_iff.mpr ⟨_, here⟩)] at isNext
        cases isNext
    rw [alone]
    exact elsewhere
  have allowed : (initial : Upkeep Nat).AllowedRun passConfig (passRun ++ [.finish]) := by
    refine ⟨⟨fun w member => Shard.admits_of_ne _ ?_, nofun⟩, ⟨trivial, nofun⟩, ⟨trivial, nofun⟩, trivial, trivial, ?_,
      ⟨fun w member => Shard.admits_of_ne _ ?_, fun _ => ⟨by decide, sees⟩⟩, ?_, trivial⟩
    · revert w
      decide
    · intro pass isPass
      refine ⟨fun h l node _ _ _ active => ?_, fun isReseal => ?_⟩
      · exact absurd (inactive.symm.trans active) nofun
      · have same := (congrArg (Option.map Pass.kind) isPass).symm.trans kind
        rw [map_some, isReseal] at same
        cases same
    · revert w
      decide
    · intro pass isPass _
      refine ⟨?_, heads⟩
      have same := (congrArg (Option.map Pass.kind) isPass).symm.trans kind'
      exact some.inj same
  have reads := (columnarize_invisible rfl (passRun ++ [.finish]) allowed).2.2.1
  refine ⟨(reads [1] (by decide) (.inl rfl)).trans ?_, (reads [9] (by decide) (.inl rfl)).trans ?_,
    (reads [3] (by decide) (.inl rfl)).trans ?_⟩
  · decide +kernel
  · decide +kernel
  · decide +kernel

/-- Three keys in a segment that is columnarized: the records shrink, so the bucket of the second
leads to the third. -/
def tornRun : List (UpkeepOp Nat) :=
  [.shard (.commit [⟨[1], 10, 64, 0, true⟩, ⟨[2], 20, 64, 0, true⟩, ⟨[3], 30, 64, 0, true⟩]),
    .shard (.commit [⟨[4], 40, 64, 1, true⟩]),
    .start .columnarize, .build 0 ⟨fun _ => 8, fun _ => 0, 1024, 0, 0, 64⟩, .commit 0]

/-- Before the reindex the second key is not found, and a put of it is a second current record
that counts as a new key. -/
theorem columnarize_loses_key :
    let before := ((initial : Upkeep Nat).run passConfig tornRun).system.shard
    let after :=
      ((initial : Upkeep Nat).run passConfig (tornRun ++ [.shard (.commit [⟨[2], 21, 64, 1, true⟩])])).system.shard
    (initial : Upkeep Nat).history passConfig (fun _ _ => none) tornRun before.commitSeq [2] = some (1, 20) ∧
      before.get passConfig [2] = none ∧
      after.currents = [([1], 1, 10), ([2], 1, 20), ([3], 1, 30), ([4], 2, 40), ([2], 3, 21)] ∧ after.count = 5 := by
  decide +kernel

end Reading

end Classad.ShardStore
