import Mathlib.Order.Monotone.Defs
import Classad.TimeTravel

/-! What any run of a shard leaves behind, whatever the order of its writers, seals, evictions,
reclaims and compactions. The buckets, what readers pinned and the times that can be asked for are
safe in all of them; the contents, the counters and what `Delete` reports are those of the history
where the run searches and evicts safely. -/
namespace Classad.ShardStore
open Arena Chains Listing
open List hiding after
open ShardStore.System (initial)

variable {A : Type} {cfg : Config}

theorem System.Valid.keeps {s : System A} (valid : s.Valid cfg) (ops : List (Op A)) :
    Keeps s.shard.commitSeq s.shard (s.run cfg ops).shard := by
  induction ops generalizing s with
  | nil => exact .refl _ _
  | cons op rest ih =>
    obtain ⟨valid', keeps, later⟩ := valid.step op
    exact keeps.trans ((ih valid').mono later)

/-- In every run the chain of a bucket ends, meets no record twice and only ads of its hash. What a
reader has pinned it reads again at any later time, and sees at its snapshot what it saw before. -/
theorem pinned_reads_repeat (cfg : Config) (ops later : List (Op A)) :
    let σ := ((initial : System A).run cfg ops).shard
    let τ := ((initial : System A).run cfg (ops ++ later)).shard
    (∀ h, ∃ nodes, τ.Bucket cfg h nodes) ∧ ∀ l r, σ.pinnedAt l = some r → ∃ r', τ.pinnedAt l = some r' ∧
      r'.seq = r.seq ∧ r'.body = r.body ∧ ∀ s0 ≤ σ.commitSeq, r'.visibleAt s0 = r.visibleAt s0 := by
  intro σ τ
  refine ⟨(valid_initial.run (ops ++ later)).1.linked.chained, fun l r here => ?_⟩
  have valid : ((initial : System A).run cfg ops).Valid cfg := (valid_initial.run ops).1
  have keeps := valid.keeps later
  rw [← System.run_append] at keeps
  obtain ⟨r', here', aged⟩ := keeps l r here
  exact ⟨r', here', aged.seq, aged.body, fun s0 upTo => aged.visibleAt upTo⟩

/-- In every run with time travel a later time leads to no earlier sequence, and a time in the
window to one that nothing was reclaimed after. -/
theorem times_retained (cfg : Config) (travel : Travel) (ops : List (Op A)) :
    let s := (initial : System A).run { cfg with travel := some travel } ops
    let seqAt millis := (s.shard.tseq.seqAt millis).getD 0
    Monotone seqAt ∧ ∀ millis, s.clock ≤ millis + travel.maxDistance → s.shard.gcFloor ≤ seqAt millis := by
  intro s seqAt
  obtain ⟨log, timed, -⟩ :=
    (timed_initial (A := A)).run ops (show { cfg with travel := some travel }.travel = _ from rfl)
  have resolved millis : seqAt millis = seqOf s.shard.tseq.entries millis := congrArg (·.getD 0) (timed.seqAt millis)
  refine ⟨fun millis millis' later => ?_, fun millis inside => ?_⟩
  · rw [resolved, resolved, seqOf, seqOf]
    cases found : resolve s.shard.tseq.entries millis with
    | none => exact Nat.zero_le _
    | some e =>
      obtain ⟨member, upTo⟩ := resolve_mem found
      cases found' : resolve s.shard.tseq.entries millis' with
      | none => exact absurd (resolve_eq_none.mp found' e member) (by omega)
      | some e' => exact resolve_last timed.ordered_entries found' member (le_trans upTo later)
  · have floor := timed.gcFloor_le inside
    rwa [seqOf, ← timed.resolve_log inside, ← seqOf, ← resolved] at floor

/-- `get` returns what was last put and not deleted, from the floor on what is visible at a sequence
is what was stored then, and the counters are the numbers of keys and of each parent's children. -/
theorem runs_refine_history (ops : List (Op A)) (allowed : (initial : System A).AllowedRun cfg ops) :
    let σ := ((initial : System A).run cfg ops).shard
    let past := (initial : System A).history cfg (fun _ _ => none) ops
    (∀ key, σ.Admits key → σ.get cfg key = (past σ.commitSeq key).map Prod.snd) ∧
      (∀ x, σ.gcFloor ≤ x → x ≤ σ.commitSeq → Lists (σ.visibles x) (past x)) ∧
      ∃ pairs, Lists pairs (past σ.commitSeq) ∧ σ.count = pairs.length ∧
        ∀ parent, σ.childCount parent = pairs.countP fun pair => cfg.childParentHash pair.1 == some parent := by
  intro σ past
  have stored : Stored cfg σ past := ((faithful_initial cfg).run ops allowed).stored
  refine ⟨fun key admits => stored.get admits, stored.history, σ.currents, stored.listed, ?_, stored.children⟩
  rw [stored.count, Shard.tally, countP_true]

/-- The keys of a parent are distinct, so a stored one is its last if the counter is at one. -/
theorem Stored.last_child (stored : Stored cfg σ past) (isChild : cfg.childParentHash key = some parent)
    (held : past σ.commitSeq key ≠ none) :
    σ.childCount parent - 1 ≤ 0 ↔
      ∀ other, cfg.childParentHash other = some parent → past σ.commitSeq other ≠ none → other = key := by
  generalize isKeys : (σ.currents.map Prod.fst).filter (fun other => cfg.childParentHash other == some parent) = keys
  have distinct : keys.Nodup := isKeys ▸ stored.listed.distinct.filter _
  have members other : other ∈ keys ↔ cfg.childParentHash other = some parent ∧ past σ.commitSeq other ≠ none := by
    simp [← isKeys, stored.listed.exact, Option.ne_none_iff_exists', and_comm]
  have counted : σ.childCount parent = keys.length := by
    rw [stored.children, Shard.tally, ← isKeys, ← countP_eq_length_filter, countP_map]
    rfl
  have member := (members key).mpr ⟨isChild, held⟩
  simp only [counted, ← and_imp, ← members]
  rcases keys with _ | ⟨first, _ | ⟨second, rest⟩⟩
  · cases member
  · simp [mem_singleton.mp member]
  · refine iff_of_false (by simp) fun same => ?_
    have both := (same first (.head _)).trans (same second (.tail _ (.head _))).symm
    simp [both] at distinct

/-- `Delete` reports whether the key was stored, and whether it was the last of its parent's. -/
theorem delete_reports (ops : List (Op A)) (allowed : (initial : System A).AllowedRun cfg ops) (key : Key) (now : Nat) :
    let σ := ((initial : System A).run cfg ops).shard
    let past := (initial : System A).history cfg (fun _ _ => none) ops
    σ.Admits key → ((σ.delete cfg key now).2.1 = true ↔ past σ.commitSeq key ≠ none) ∧
      ((σ.delete cfg key now).2.2 = true ↔ past σ.commitSeq key ≠ none ∧
        ∃ parent, cfg.childParentHash key = some parent ∧
        ∀ other, cfg.childParentHash other = some parent → past σ.commitSeq other ≠ none → other = key) := by
  intro σ past admits
  have stored : Stored cfg σ past := ((faithful_initial cfg).run ops allowed).stored
  clear_value σ past
  have flags : (σ.delete cfg key now).2 = (σ.del cfg (σ.commitSeq + 1) key).2 := by
    simp only [Shard.delete]
    rcases σ.del cfg (σ.commitSeq + 1) key with ⟨τ, _ | _, emptied⟩ <;> rfl
  rw [flags, Shard.del]
  cases located : σ.locate cfg key with
  | none => simp [stored.toSound.absent (locate_none stored.toLinked located)]
  | some old =>
    obtain ⟨r, found⟩ := locate_some stored.toLinked located
    obtain ⟨ad, current⟩ := found.isCurrent admits
    have held : past σ.commitSeq key ≠ none := by
      simp [(stored.listed.exact key (r.seq, ad)).mp (mem_currents.mpr ⟨old, current⟩)]
    cases isChild : cfg.childParentHash key with
    | none => simp [held]
    | some parent =>
      have kept : (Shard.noteSup cfg (σ.supersedeRec old (σ.commitSeq + 1)) old).childCount = σ.childCount := by
        rw [Shard.noteSup]
        split <;> rfl
      have alone := stored.last_child isChild held
      simp only [kept, alone]
      split <;> simp_all

theorem sampleRun_allowed : (initial : System Nat).AllowedRun sampleConfig sampleRun ∧
    ∀ id, ((initial : System Nat).run sampleConfig sampleRun).shard.isProbed id = false :=
  allowedRun_of_unprobed (faithful_initial sampleConfig) (fun _ => rfl) (by decide)

theorem runs_refine_history_on_sample :
    ((initial : System Nat).run sampleConfig sampleRun).shard.get sampleConfig [1] = some 11 :=
  ((runs_refine_history sampleRun sampleRun_allowed.1).1 [1] (admits_of_unprobed sampleRun_allowed.2)).trans
    (by decide +kernel)

theorem delete_reports_on_sample :
    (((initial : System Nat).run sampleConfig sampleRun).shard.delete sampleConfig [1] 0).2.1 = true :=
  (delete_reports sampleRun sampleRun_allowed.1 [1] 0 (admits_of_unprobed sampleRun_allowed.2)).1.mpr
    (by decide +kernel)

end Classad.ShardStore
