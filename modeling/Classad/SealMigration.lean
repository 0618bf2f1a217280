import Classad.RecordOrigins
import Classad.SnapshotScan
import Classad.UpkeepRuns

/-! What a seal migration leaves behind. It reseals segments with a rewrite that was written for
logs, where every record is current: whatever the segment held, the new one holds as current. So
the contents are what they were exactly if no ad of a segment that goes in had been superseded. -/
namespace Classad.ShardStore
open Arena Chains Listing List
open Record (body_of_key pairAt visibleAt)
open Upkeep (initial step)

variable {A : Type}

/-! ## The least sequence of a segment -/

/-- The records of a segment and its `minSeq` are from commits up to a bound. -/
structure Segment.Dated (bound : Nat) (seg : Segment A) : Prop where
  minSeq : seg.minSeq ≤ bound
  records : ∀ r ∈ seg.records, r.seq ≤ bound

theorem Segment.Dated.append {seg : Segment A} (dated : seg.Dated bound) (upTo : seq ≤ bound) (next : Option Loc)
    (body : Body A) (len : Nat) : (seg.append seq next body len).Dated bound where
  minSeq := by
    unfold Segment.append
    split
    · exact upTo
    · exact dated.minSeq
  records r member := by
    rcases mem_append.mp member with old | last
    · exact dated.records r old
    · rw [mem_singleton.mp last]
      exact upTo

theorem lasting_dated {bound : Nat} : Lasting (Segment.Dated (A := A) bound) where
  fresh _ _ := ⟨Nat.zero_le _, nofun⟩
  same dated origins least := by
    refine ⟨Nat.le_trans (Nat.le_of_eq least) dated.minSeq, fun r member => ?_⟩
    obtain ⟨r', member', same⟩ := mem_map.mp (origins ▸ mem_map_of_mem member)
    have seq : r'.seq = r.seq := congrArg Prod.fst same
    exact seq ▸ dated.records r' member'
  copy next len source member dated := dated.append (source.records _ member) next _ len
  redate millis len source member _ dated := dated.append (source.records _ member) none _ len
  keyless dated records least := by
    refine ⟨Nat.le_trans (Nat.le_of_eq least) dated.minSeq, fun r member => ?_⟩
    rw [records] at member
    rcases mem_append.mp member with old | last
    · exact dated.records r old
    · rw [mem_singleton.mp last]
      exact Nat.zero_le _

theorem Upkeep.Lasts.dated_step {u : Upkeep A} (lasts : u.Lasts (Segment.Dated u.system.shard.commitSeq))
    (cfg : Config) (op : UpkeepOp A) :
    (u.step cfg op).Lasts (Segment.Dated (u.step cfg op).system.shard.commitSeq) := by
  have later := u.commitSeq_step cfg op
  have dated : u.Lasts (Segment.Dated (u.step cfg op).system.shard.commitSeq) := lasts.mono fun seg dated =>
    ⟨Nat.le_trans dated.minSeq later, fun r member => Nat.le_trans (dated.records r member) later⟩
  refine dated.step (lasting_dated) cfg op (fun next => ?_) (fun clocks seg dated => ?_)
  · exact fun seg link key ad len dated => dated.append (Nat.le_of_eq next.symm) link _ len
  · have next : (u.step cfg op).system.shard.commitSeq = u.system.shard.commitSeq + 1 := congrArg Prod.fst clocks
    exact (lasting_dated).appendMarker (dated.append (Nat.le_of_eq next.symm) none _ _)

theorem Upkeep.dated_run (cfg : Config) (ops : List (UpkeepOp A)) {u : Upkeep A}
    (lasts : u.Lasts (Segment.Dated u.system.shard.commitSeq)) :
    (u.run cfg ops).Lasts (Segment.Dated (u.run cfg ops).system.shard.commitSeq) := by
  induction ops generalizing u with
  | nil => exact lasts
  | cons op rest ih => exact ih (lasts.dated_step cfg op)

/-! ## Reading after the pass -/

/-- A shard in which every read and a scan find certain contents. -/
structure Shard.Reads (cfg : Config) (σ : Shard A) (contents : Contents A) : Prop where
  get : ∀ key, key ≠ [] → σ.get cfg key = (contents key).map Prod.snd
  scan : Lists ((σ.snapshotAt σ.commitSeq).todo.flatMap (σ.yields σ.commitSeq)) contents

theorem Stored.reads {cfg : Config} {σ : Shard A} (stored : Stored cfg σ past) : σ.Reads cfg (past σ.commitSeq) where
  get key nonempty := stored.get (Shard.admits_of_ne _ nonempty)
  scan := by
    rw [yields_windows fun seg member skipped r inside => (stored.counted seg member).invisible skipped inside,
      stored.visibles_bound]
    exact stored.listed

section Reading
variable {cfg : Config} {kind : Rewrite} {torn : UInt64 → Bool} {marked : Nat → Bool} {σ τ : Shard A} {past : History A}

/-- A segment left out of the windows has nothing visible, also where `minSeq` is not that of an
ad. -/
theorem Counted.invisible_veiled {seg : Segment A} (counted : Counted (seg.veiled kind)) (dated : seg.minSeq ≤ s0)
    (skipped : seg.visibleAt s0 = false) (member : r ∈ seg.records) : r.pairAt s0 = none := by
  refine counted.invisible ?_ ((veiled_records).symm ▸ member)
  unfold Segment.visibleAt at skipped ⊢
  rw [decide_eq_false (Nat.not_lt.mpr dated), Bool.not_false, Bool.true_and] at skipped
  have rest : (seg.veiled kind).used = seg.used ∧ (seg.veiled kind).dead = seg.dead ∧
      (seg.veiled kind).maxSup = seg.maxSup := by
    cases kind <;> exact ⟨rfl, rfl, rfl⟩
  rw [rest.1, rest.2.1, rest.2.2, skipped, Bool.and_false]

/-- What a scan after the reindex yields, as far as the counters go. -/
theorem Reindexed.scan (reindexed : Reindexed cfg σ τ) (counted : ∀ seg ∈ σ.segs, Counted (seg.veiled kind))
    (dated : ∀ seg ∈ σ.segs, seg.minSeq ≤ σ.commitSeq) :
    (τ.snapshotAt σ.commitSeq).todo.flatMap (τ.yields σ.commitSeq) = σ.visibles σ.commitSeq := by
  rw [yields_windows, Shard.visibles, Shard.visibles, reindexed.arena]
  intro seg member skipped r inside
  obtain ⟨i, found⟩ := mem_iff_getElem?.mp member
  rw [reindexed.segs] at found
  obtain ⟨seg₀, found₀, rfl⟩ := Option.map_eq_some_iff.mp found
  have before := mem_of_getElem? found₀
  split at skipped
  · rw [if_pos (by assumption)] at inside
    exact (counted seg₀ before).invisible_veiled (dated seg₀ before) skipped inside
  · rw [if_neg (by assumption)] at inside
    exact (counted seg₀ before).invisible_veiled (dated seg₀ before) skipped inside

theorem Reindexed.commitSeq (reindexed : Reindexed cfg σ τ) : τ.commitSeq = σ.commitSeq := by
  obtain ⟨segs, dir, rfl⟩ := reindexed.form
  rfl

theorem Settling.counted_all (settling : Settling cfg kind torn marked σ past) :
    ∀ seg ∈ σ.segs, Counted (seg.veiled kind) := by
  intro seg member
  obtain ⟨i, found⟩ := mem_iff_getElem?.mp member
  exact (settling.counted_at found).1

/-- What the shard holds is what the reindexed shard reads. -/
theorem Settling.reads (settling : Settling cfg kind torn marked σ past) (reindexed : Reindexed cfg σ τ)
    (safe : σ.ReindexSafe)
    (dated : ∀ seg ∈ σ.segs, seg.minSeq ≤ σ.commitSeq) : τ.Reads cfg (past σ.commitSeq) where
  get key nonempty := by
    have stored := settling.reindexed reindexed safe
    have settled : Settling cfg kind (fun _ => false) σ.inactive τ past := by
      refine ⟨stored, fun id isMarked => ?_, nofun⟩
      simp only [Shard.inactive, Bool.and_eq_true, decide_eq_true_iff] at isMarked
      have found := reindexed.segs id
      rw [getElem?_eq_getElem isMarked.1] at found
      exact (List.getElem?_eq_some_iff.mp found).1
    have sees : τ.Sees cfg key := by
      obtain ⟨⟨nodes, chain, distinct, members⟩, reached⟩ := stored.sees key
      rw [links_veil, dir_of_intact rfl] at chain
      refine ⟨⟨nodes, chain, distinct, fun l member => ?_⟩, fun l seq ad current => ?_⟩
      · obtain ⟨r, key', ad, here, rest⟩ := members l member
        exact ⟨r, key', ad, (recordAt_veil).symm.trans here, rest⟩
      · have found := reached l seq ad (isCurrent_veil.mpr current)
        rwa [links_veil, dir_of_intact rfl, reindexed.isProbed] at found
    rw [settled.get nonempty sees, reindexed.commitSeq]
  scan := by
    rw [reindexed.commitSeq, reindexed.scan settling.counted_all dated]
    have visibles := settling.stored.visibles_bound
    have listed := settling.stored.listed
    have same : (σ.veil kind torn marked).visibles σ.commitSeq = σ.visibles σ.commitSeq := by
      rw [Shard.visibles, Shard.visibles, arena_veil]
    rw [← visibles] at listed
    exact same ▸ listed

end Reading

/-! ## Superseded records come back -/

section Necessary
variable {cfg : Config} {kind : Rewrite} {torn : UInt64 → Bool} {marked : Nat → Bool} {σ : Shard A} {past : History A}
  {id : Nat} {src out : Segment A}

theorem length_flatten_set {rows : List (List β)} (row' : List β) (here : rows[i]? = some row) :
    (rows.set i row').flatten.length + row.length = rows.flatten.length + row'.length := by
  induction rows generalizing i with
  | nil => cases here
  | cons first rest ih =>
    cases i with
    | zero =>
      cases here
      simp only [set_cons_zero, flatten_cons, length_append]
      omega
    | succ i =>
      have later := ih (i := i) here
      simp only [set_cons_succ, flatten_cons, length_append]
      omega

/-- How the number of visible ads changes when a segment is replaced. -/
theorem length_visibles_swap (here : σ.segs[id]? = some src) (alive : src.retired = false)
    (newAlive : out.retired = false) (s0 : Nat) :
    ((σ.swap id out).visibles s0).length + (src.records.filterMap (pairAt s0)).length =
      (σ.visibles s0).length + (out.records.filterMap (pairAt s0)).length := by
  have rows : (σ.swap id out).arena.map (filterMap (pairAt s0)) =
      (σ.arena.map (filterMap (pairAt s0))).set id (out.records.filterMap (pairAt s0)) := by
    apply ext_getElem?
    intro i
    rw [Shard.arena, getElem?_map, getElem?_map, getElem?_swap here, getElem?_set, length_map, Shard.arena, length_map]
    by_cases same : id = i
    · subst same
      rw [if_pos rfl, if_pos rfl, if_pos (List.getElem?_eq_some_iff.mp here).1]
      simp [Segment.live, newAlive]
    · rw [if_neg same, if_neg same, getElem?_map, getElem?_map]
      cases σ.segs[i]? with
      | none => rfl
      | some seg =>
        simp only [Option.map_some, Segment.live]
        split
        · rfl
        · rw [filterMap_map]
          rfl
  have row : (σ.arena.map (filterMap (pairAt s0)))[id]? = some (src.records.filterMap (pairAt s0)) := by
    rw [Shard.arena, getElem?_map, getElem?_map, here]
    simp [Segment.live, alive]
  have lengths := length_flatten_set (out.records.filterMap (pairAt s0)) row
  rwa [← rows, ← filterMap_flatten, ← filterMap_flatten] at lengths

/-- A resealed segment shows every ad of its source. -/
theorem Rewritten.shows (rewritten : Rewritten .reseal src out) (stamped : ∀ r ∈ src.records, r.StampedBy bound) :
    (out.records.filterMap (pairAt bound)).length = (ads src.records).length := by
  have keyless : ∀ r : Record A, r.isMarker = true → r.pairAt bound = none := fun _ => Record.pairAt_marker
  rw [← filterMap_ads keyless, ← rewritten.reads.length_eq, filterMap_length_eq_length]
  intro r member
  obtain ⟨inside, keyed⟩ := mem_ads.mp member
  have back : Forall₂ (flip Lags) (ads src.records) (ads out.records) := .flip rewritten.reads
  obtain ⟨r₀, member₀, lags⟩ := mem_of_forall₂ back member
  obtain ⟨ad, body⟩ := body_of_key keyed
  obtain ⟨inside₀, keyed₀⟩ := mem_ads.mp member₀
  have upTo : r.seq ≤ bound := Nat.le_trans (Nat.le_of_eq lags.seq) (stamped r₀ inside₀ keyed₀).1
  have visible : r.visibleAt bound = true := by
    rw [visibleAt, keyed, Record.supersededAfter, rewritten.renewed rfl r inside, decide_eq_true upTo]
    rfl
  rw [pairAt, body]
  simp [visible]

/-- If as many ads are visible in a segment as it has, none is superseded. -/
theorem current_of_length {records : List (Record A)} (stamped : ∀ r ∈ records, r.StampedBy bound)
    (whole : (records.filterMap (pairAt bound)).length = (ads records).length) :
    ∀ r ∈ ads records, r.superseded = none := by
  have keyless : ∀ r : Record A, r.isMarker = true → r.pairAt bound = none := fun _ => Record.pairAt_marker
  rw [← filterMap_ads keyless, filterMap_length_eq_length] at whole
  intro r member
  obtain ⟨inside, keyed⟩ := mem_ads.mp member
  obtain ⟨ad, body⟩ := body_of_key keyed
  have visible := whole r member
  rw [pairAt, body] at visible
  cases sup : r.superseded with
  | none => rfl
  | some x =>
    have upTo := (stamped r inside keyed).2 x sup
    have hidden : r.visibleAt bound = false := by
      rw [visibleAt, Record.supersededAfter, sup]
      simp [decide_eq_false (Nat.not_lt.mpr upTo), Bool.and_false]
    simp [hidden] at visible

/-- A swap after which a scan of the reindexed shard yields what was stored. -/
theorem Settling.current_of_reads (settling : Settling cfg .reseal torn marked σ past) (here : σ.segs[id]? = some src)
    (alive : src.retired = false)
    (notActive : σ.act ≠ some id) (rewritten : Rewritten .reseal src out)
    (dated : ∀ seg ∈ (σ.swap id out).segs, seg.minSeq ≤ σ.commitSeq)
    {τ : Shard A} (reindexed : Reindexed cfg (σ.swap id out) τ) (reads : τ.Reads cfg (past σ.commitSeq)) :
    ∀ r ∈ ads src.records, r.superseded = none := by
  have stored := settling.stored
  have stamped : ∀ r ∈ src.records, r.StampedBy σ.commitSeq := by
    intro r member
    obtain ⟨off, found⟩ := mem_iff_getElem?.mp member
    refine stored.stamped ⟨id, off⟩ r ?_
    rw [recordAt_veil, recordAt_eq, here, Option.bind_some, alive]
    exact found
  have clock : (σ.swap id out).commitSeq = σ.commitSeq := congrArg Prod.fst (clocks_swap)
  have counted : ∀ seg ∈ (σ.swap id out).segs, Counted (seg.veiled .reseal) := by
    intro seg member
    obtain ⟨i, found⟩ := mem_iff_getElem?.mp member
    have all := @Settling.swap_counted _ _ _ torn marked σ past id src out torn settling here notActive
      rewritten.counted
    have veiled : ((σ.swap id out).veil .reseal torn σ.inactive).segs[i]? =
        some (if σ.inactive i then seg.veiled .reseal else seg) := by
      rw [getElem?_veil, found]
      rfl
    have counted := all _ (mem_of_getElem? veiled)
    split at counted
    · exact counted
    · exact counted.veiled .reseal
  have before : Lists (σ.visibles σ.commitSeq) (past σ.commitSeq) := by
    have same : (σ.veil .reseal torn marked).visibles σ.commitSeq = σ.visibles σ.commitSeq := by
      rw [Shard.visibles, Shard.visibles, arena_veil]
    have bound : (σ.veil .reseal torn marked).visibles σ.commitSeq = _ := stored.visibles_bound
    rw [← same, bound]
    exact stored.listed
  have after : Lists ((σ.swap id out).visibles σ.commitSeq) (past σ.commitSeq) := by
    have scan := reads.scan
    rw [reindexed.commitSeq, reindexed.scan counted (clock ▸ dated), clock] at scan
    exact scan
  -- The scans are of one length, and outside the segment they are the same.
  have lengths := length_visibles_swap (σ := σ) here alive rewritten.retired σ.commitSeq
  have same := (before.perm_of_same after).length_eq
  have shown := rewritten.shows stamped
  exact current_of_length stamped (by omega)

/-- A migration among writers. Its last reindex leaves every key and ad as the puts and deletes left
them, if each segment went in while none of its ads was superseded; and the last segment that goes
in has to. -/
theorem migrated_reads_iff (persistent : cfg.persistent = true) (ops : List (UpkeepOp A))
    (allowed : (initial : Upkeep A).AllowedRun cfg ops) (pass : Pass A)
    (isPass : ((initial : Upkeep A).run cfg ops).pass = some pass) (isReseal : pass.kind = .reseal) :
    let u := (initial : Upkeep A).run cfg ops
    let contents := (initial : Upkeep A).history cfg (fun _ _ => none) ops u.system.shard.commitSeq
    (u.system.shard.ReindexSafe → (u.step cfg .finish).system.shard.Reads cfg contents) ∧
      ∀ id src, u.system.shard.segs[id]? = some src → (pass.staged.lookup id).isSome = true →
        u.system.shard.SwapSafe id →
        (u.step cfg (.commit id)).system.shard.ReindexSafe →
          (((u.step cfg (.commit id)).step cfg .finish).system.shard.Reads cfg contents ↔
              ∀ r ∈ ads src.records, r.superseded = none) := by
  intro u contents
  have faithful : u.Faithful cfg _ := (Upkeep.faithful_initial cfg).run ops persistent allowed
  have dated : u.Lasts (Segment.Dated u.system.shard.commitSeq) := Upkeep.dated_run cfg ops (Upkeep.lasts_initial _)
  have underway := faithful.work pass isPass
  obtain ⟨torn, marked, settling⟩ := underway.settling
  refine ⟨fun safe => ?_, fun id src here isStaged swapSafe safe => ?_⟩
  · cases swapped : pass.swapped with
    | true =>
      have done : (u.step cfg .finish).system.shard = u.system.shard.reindex cfg := by
        rw [step, isPass]
        simp [swapped]
      rw [done]
      exact settling.reads (reindexed_reindex persistent _) safe fun seg member => (dated.shard seg member).minSeq
    | false =>
      have done : (u.step cfg .finish).system.shard = u.system.shard := by
        rw [step, isPass]
        simp [swapped]
      rw [done]
      exact (underway.untouched swapped).reads
  · obtain ⟨out, found⟩ := Option.isSome_iff_exists.mp isStaged
    obtain ⟨before, after, whole, -⟩ := lookup_eq_some_iff.mp found
    have built : (id, out) ∈ pass.staged := whole ▸ mem_append_right _ (.head _)
    obtain ⟨src', closed, rewritten⟩ := underway.staged (id, out) built
    have same := closed.here
    rw [here] at same
    cases same
    have swapped :
      u.step cfg (.commit id) = ⟨{ u.system with shard := u.system.shard.swap id (src.settle pass.kind out) },
        some { pass with staged := pass.staged.filter fun entry => entry.1 ≠ id, swapped := true }⟩ := by
      rw [step, isPass]
      simp [here, found]
    have dated' := dated.dated_step cfg (.commit id)
    rw [swapped] at safe dated' ⊢
    have reindexed := reindexed_reindex persistent (u.system.shard.swap id (src.settle pass.kind out))
    have least : ∀ seg ∈ (u.system.shard.swap id (src.settle pass.kind out)).segs,
        seg.minSeq ≤ (u.system.shard.swap id (src.settle pass.kind out)).commitSeq :=
          fun seg member => (dated'.shard seg member).minSeq
    have clock : (u.system.shard.swap id (src.settle pass.kind out)).commitSeq = u.system.shard.commitSeq :=
      congrArg Prod.fst (clocks_swap)
    constructor
    · intro reads
      rw [isReseal] at settling rewritten reads reindexed least clock
      exact settling.current_of_reads here closed.alive closed.inactive rewritten (clock ▸ least) reindexed reads
    · intro current
      obtain ⟨torn', marked', settled⟩ := (underway.commit here built swapSafe fun _ => current).settling
      have reads := settled.reads reindexed safe least
      rwa [clock] at reads

/-- Two keys, and the reseal of their segment. -/
def migrationRun : List (UpkeepOp Nat) :=
  [.shard (.commit [⟨[1], 10, 64, 0, true⟩, ⟨[2], 20, 64, 0, true⟩]), .start .reseal,
    .build 0 ⟨fun _ => 8, fun _ => 0, 1024, 0, 8, 0⟩]

theorem migrated_reads_on_sample :
    let u := (initial : Upkeep Nat).run passConfig migrationRun
    let σ := ((u.step passConfig (.commit 0)).step passConfig .finish).system.shard
    σ.get passConfig [1] = some 10 ∧ σ.get passConfig [2] = some 20 ∧ σ.get passConfig [3] = none := by
  have allowed : (initial : Upkeep Nat).AllowedRun passConfig migrationRun := by
    refine ⟨⟨fun w member => Shard.admits_of_ne _ ?_, nofun⟩, trivial, trivial, trivial⟩
    revert w
    decide
  have inactive : ((initial : Upkeep Nat).run passConfig migrationRun).system.shard.act = none := by decide +kernel
  have inactive' :
      (((initial : Upkeep Nat).run passConfig migrationRun).step passConfig (.commit 0)).system.shard.act = none := by
    decide +kernel
  cases isPass : ((initial : Upkeep Nat).run passConfig migrationRun).pass with
  | none => exact absurd (congrArg Option.isSome isPass) (by decide +kernel)
  | some pass =>
    have kind : ((initial : Upkeep Nat).run passConfig migrationRun).pass.map Pass.kind = some .reseal := by
      decide +kernel
    have staged : (((initial : Upkeep Nat).run passConfig migrationRun).pass.bind fun pass =>
        pass.staged.lookup 0).isSome = true := by
      decide +kernel
    rw [isPass] at kind staged
    cases here : ((initial : Upkeep Nat).run passConfig migrationRun).system.shard.segs[0]? with
    | none => exact absurd (congrArg Option.isSome here) (by decide +kernel)
    | some src =>
      have current : ∀ src ∈ ((initial : Upkeep Nat).run passConfig migrationRun).system.shard.segs[0]?,
        ∀ r ∈ ads src.records,
          r.superseded = none := by decide +kernel
      have reads :=
        ((migrated_reads_iff rfl migrationRun allowed pass isPass (Option.some.inj kind)).2 0 src here staged
        (fun _ _ _ _ _ _ active => nomatch inactive.symm.trans active)
        (fun _ _ _ _ _ _ _ _ _ active => nomatch inactive'.symm.trans active)).mpr (current src here)
      refine ⟨(reads.get [1] (by decide)).trans ?_, (reads.get [2] (by decide)).trans ?_,
        (reads.get [3] (by decide)).trans ?_⟩
      · decide +kernel
      · decide +kernel
      · decide +kernel

/-- A key that was deleted before its segment is resealed is there again. -/
theorem migration_restores_deleted :
    let ops : List (UpkeepOp Nat) :=
      [.shard (.commit [⟨[1], 10, 64, 0, true⟩]), .shard (.delete [1]), .start .reseal,
        .build 0 ⟨fun _ => 8, fun _ => 0, 1024, 0, 8, 0⟩,
        .commit 0, .finish]
    let σ := ((initial : Upkeep Nat).run passConfig ops).system.shard
    (initial : Upkeep Nat).history passConfig (fun _ _ => none) ops σ.commitSeq [1] = none ∧
      σ.get passConfig [1] = some 10 ∧
      (σ.snapshotAt σ.commitSeq).todo.flatMap (σ.yields σ.commitSeq) = [([1], 1, 10)] := by
  decide +kernel

end Necessary

end Classad.ShardStore
