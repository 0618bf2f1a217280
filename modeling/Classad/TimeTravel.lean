import Mathlib.Data.List.Infix
import Mathlib.Data.List.TakeWhile
import Classad.RecordOrigins
import Classad.SnapshotScan

/-! Queries at a time in the past. A shard keeps checkpoints of its commit sequence, reclaims what
was superseded before the checkpoint the window starts at, and forgets the checkpoints before
that one. So a time inside the window resolves to the same sequence before and after a reclaim,
and what was current at that sequence is still there. -/
namespace Classad.ShardStore
open Arena Chains Listing
open List hiding after
open ShardStore.System (initial)

/-! ## The time index -/

section Index

/-- The last checkpoint at or before a time. -/
def resolve (entries : List Checkpoint) (millis : Nat) :
    Option Checkpoint := (entries.filter fun e => e.millis ≤ millis).getLast?

/-- Later in the index is later in both respects. -/
def Checkpoint.Before (e e' : Checkpoint) : Prop := e.seq < e'.seq ∧ e.millis ≤ e'.millis

variable {entries : List Checkpoint} {millis : Nat} {e : Checkpoint}

theorem resolve_eq_none : resolve entries millis = none ↔ ∀ e ∈ entries, millis < e.millis := by
  rw [resolve, getLast?_eq_none_iff, filter_eq_nil_iff]
  refine forall₂_congr fun e _ => ?_
  rw [decide_eq_true_iff, not_le]

theorem resolve_mem (found : resolve entries millis = some e) : e ∈ entries ∧ e.millis ≤ millis := by
  have member := mem_filter.mp (mem_of_getLast? found)
  exact ⟨member.1, decide_eq_true_iff.mp member.2⟩

/-- The last checkpoint of a kind is the latest of them in sequence. -/
theorem filter_last (ordered : entries.Pairwise fun e e' => e.seq ≤ e'.seq)
    (found : (entries.filter p).getLast? = some e) (member : e' ∈ entries) (holds : p e' = true) : e'.seq ≤ e.seq := by
  obtain ⟨before, whole⟩ := getLast?_eq_some_iff.mp found
  have inside : e' ∈ entries.filter p := mem_filter.mpr ⟨member, holds⟩
  have sorted := ordered.filter p
  rw [whole] at inside sorted
  rcases mem_append.mp inside with earlier | last
  · exact (pairwise_append.mp sorted).2.2 e' earlier e (mem_singleton_self e)
  · rw [mem_singleton.mp last]

theorem resolve_last (ordered : entries.Pairwise Checkpoint.Before) (found : resolve entries millis = some e)
    (member : e' ∈ entries) (upTo : e'.millis ≤ millis) : e'.seq ≤ e.seq :=
  filter_last (ordered.imp fun before => le_of_lt before.1) found member (decide_eq_true upTo)

/-- Of two checkpoints the one with the lower sequence is not later. -/
theorem millis_le (ordered : entries.Pairwise Checkpoint.Before) (member : e ∈ entries) (member' : e' ∈ entries)
    (upTo : e.seq ≤ e'.seq) : e.millis ≤ e'.millis := by
  obtain ⟨i, inside, rfl⟩ := getElem_of_mem member
  obtain ⟨j, inside', rfl⟩ := getElem_of_mem member'
  rcases Nat.lt_trichotomy i j with less | rfl | greater
  · exact (pairwise_iff_getElem.mp ordered i j inside inside' less).2
  · exact le_rfl
  · have later := (pairwise_iff_getElem.mp ordered j i inside' inside greater).1
    omega

/-- A binary search for the first checkpoint after a time stops behind the one in force then. -/
theorem resolve_search (ordered : (first :: rest).Pairwise fun e e' => e.millis ≤ e'.millis)
    (notEarly : ¬millis < first.millis)
    (asked : ∀ {i e}, (first :: rest)[i]? = some e → past i = decide (millis < e.millis)) :
    (first :: rest)[BinarySearch.search (first :: rest).length past - 1]? = resolve (first :: rest) millis := by
  have isFirst := asked (show (first :: rest)[0]? = some first from rfl)
  have nonempty : 0 < (first :: rest).length := Nat.succ_pos _
  generalize first :: rest = all at ordered asked nonempty ⊢
  have monotone : ∀ a b, a ≤ b → b < all.length → past a = true → past b = true := by
    intro a b le inside holds
    rcases Nat.lt_or_eq_of_le le with less | rfl
    · have mono := pairwise_iff_getElem.mp ordered a b (by omega) inside less
      rw [asked (getElem?_eq_getElem (by omega)), decide_eq_true_iff] at holds
      rw [asked (getElem?_eq_getElem inside), decide_eq_true_iff]
      omega
    · exact holds
  obtain ⟨upTo, before, after⟩ := BinarySearch.search_spec monotone
  generalize BinarySearch.search all.length past = lo at upTo before after ⊢
  have split_ : all.filter (fun e => e.millis ≤ millis) = all.take lo := by
    have front : (all.take lo).filter (fun e => e.millis ≤ millis) = all.take lo := by
      rw [filter_eq_self]
      intro e member
      obtain ⟨i, inside, rfl⟩ := mem_take_iff_getElem.mp member
      have early := before i (by omega)
      rw [asked (getElem?_eq_getElem (by omega))] at early
      simpa using early
    have back : (all.drop lo).filter (fun e => e.millis ≤ millis) = [] := by
      rw [filter_eq_nil_iff]
      intro e member
      obtain ⟨i, inside, rfl⟩ := mem_drop_iff_getElem.mp member
      have late := after (lo + i) (Nat.le_add_right _ _) (by omega)
      rw [asked (getElem?_eq_getElem (by omega))] at late
      simpa using late
    calc all.filter (fun e => e.millis ≤ millis)
        = (all.take lo ++ all.drop lo).filter (fun e => e.millis ≤ millis) := by rw [take_append_drop]
      _ = all.take lo := by rw [filter_append, front, back, append_nil]
  rw [resolve, split_, getLast?_eq_getElem?, length_take, Nat.min_eq_left upTo]
  have positive : lo ≠ 0 := by
    -- The first checkpoint is not after the time, so the search cannot stop before it.
    rintro rfl
    exact notEarly (of_decide_eq_true (isFirst.symm.trans (after 0 le_rfl nonempty)))
  rw [getElem?_take_of_lt (by omega)]

/-- The binary search of `seqAt` finds the checkpoint. -/
theorem seqAt_eq {x : TimeIndex} (ordered : x.entries.Pairwise fun e e' => e.millis ≤ e'.millis) :
    x.seqAt millis = (resolve x.entries millis).map Checkpoint.seq := by
  unfold TimeIndex.seqAt
  cases isEntries : x.entries with
  | nil => rfl
  | cons first rest =>
    dsimp only
    rw [isEntries] at ordered
    split
    next early =>
      have none_ : resolve (first :: rest) millis = none := by
        refine resolve_eq_none.mpr fun e member => ?_
        rcases mem_cons.mp member with rfl | inRest
        · exact early
        · exact lt_of_lt_of_le early (rel_of_pairwise_cons ordered inRest)
      rw [none_]
      rfl
    next notEarly =>
      rw [resolve_search ordered notEarly fun held => by rw [held]]

theorem record_entries {x : TimeIndex} (seq : Nat) (upTo : ∀ e ∈ x.entries, e.millis ≤ millis) :
    (x.record seq millis).entries = x.entries ++ [⟨seq, millis⟩] := by
  unfold TimeIndex.record
  cases last : x.entries.getLast? with
  | none => rfl
  | some e =>
    dsimp only
    rw [if_neg (not_lt.mpr (upTo e (mem_of_getLast? last)))]

theorem trim_entries (x : TimeIndex) (floor : Nat) :
    (x.trim floor).entries = x.entries.drop ((x.entries.takeWhile fun e => e.seq ≤ floor).length - 1) := by
  unfold TimeIndex.trim
  dsimp only
  split
  · rfl
  · rw [show (x.entries.takeWhile fun e => e.seq ≤ floor).length - 1 = 0 by omega, drop_zero]

/-- A trim keeps the last checkpoint up to the floor and all after it. -/
theorem mem_trim {x : TimeIndex} (ordered : x.entries.Pairwise Checkpoint.Before) (member : e ∈ x.entries)
    (stays : ∀ e' ∈ x.entries, e'.seq ≤ floor → e'.seq ≤ e.seq) : e ∈ (x.trim floor).entries := by
  rw [trim_entries]
  generalize isFront : x.entries.takeWhile (fun e => e.seq ≤ floor) = front
  have isInitial : front <+: x.entries := isFront ▸ takeWhile_prefix _
  obtain ⟨i, inside, rfl⟩ := getElem_of_mem member
  refine mem_drop_iff_getElem.mpr ?_
  by_cases reached : front.length - 1 ≤ i
  · exact ⟨i - (front.length - 1), by omega, by congr 1; omega⟩
  · -- The last checkpoint up to the floor would be later than one that none of them is later than.
    have nonempty : front ≠ [] := by
      rintro rfl
      simp at reached
    have earlier : x.entries[i] ∈ front.dropLast := by
      rw [dropLast_eq_take]
      refine mem_take_iff_getElem.mpr ⟨i, by omega, ?_⟩
      exact isInitial.getElem (by omega)
    have sorted := ordered.sublist isInitial.sublist
    rw [← dropLast_append_getLast nonempty] at sorted
    have before := (pairwise_append.mp sorted).2.2 _ earlier _ (mem_singleton_self _)
    have upTo : ∀ e' ∈ front, e'.seq ≤ floor := by
      intro e' inFront
      rw [← isFront] at inFront
      simpa using mem_takeWhile_imp inFront
    have inFront := getLast_mem nonempty
    have notLater := stays _ (isInitial.subset inFront) (upTo _ inFront)
    exact absurd before.1 (not_lt.mpr notLater)

theorem trim_suffix (x : TimeIndex) (floor : Nat) : (x.trim floor).entries <:+ x.entries := by
  rw [trim_entries]
  exact drop_suffix _ _

end Index

/-! ## Checkpoints along a run -/

section Runs
variable {A : Type} {cfg : Config} {travel : Travel} {s : System A} {log : List Checkpoint}

/-- A floor that is not above a checkpoint from before the window. -/
def Passed (travel : Travel) (clock : Nat) (log : List Checkpoint) (floor : Nat) : Prop :=
  floor = 0 ∨ ∃ e ∈ log, floor ≤ e.seq ∧ e.millis + travel.maxDistance ≤ clock

/-- The time index of a shard, against the log of all the checkpoints it ever recorded: only
checkpoints before the one the window starts at are forgotten, and only what was superseded by
such a checkpoint is reclaimed. -/
structure Timed (travel : Travel) (s : System A) (log : List Checkpoint) : Prop where
  ordered : log.Pairwise Checkpoint.Before
  stamped : ∀ e ∈ log, 0 < e.seq ∧ e.seq ≤ s.shard.commitSeq ∧ e.millis ≤ s.clock
  suffix : s.shard.tseq.entries <:+ log
  trimmed : s.shard.tseq.entries = log ∨ ∃ e ∈ s.shard.tseq.entries, e.millis + travel.maxDistance ≤ s.clock
  floor : Passed travel s.clock log s.shard.gcFloor
  round : ∀ c, s.round = some c → Passed travel s.clock log c.retain

theorem timed_initial : Timed travel (initial : System A) [] where
  ordered := .nil
  stamped := nofun
  suffix := suffix_refl _
  trimmed := .inl rfl
  floor := .inl rfl
  round := nofun

theorem Passed.mono (passed : Passed travel clock log floor) (later : clock ≤ clock') (added : List Checkpoint) :
    Passed travel clock' (log ++ added) floor := by
  rcases passed with zero | ⟨e, member, upTo, old⟩
  · exact .inl zero
  · exact .inr ⟨e, mem_append_left _ member, upTo, le_trans old later⟩

theorem Passed.max (passed : Passed travel clock log floor) (passed' : Passed travel clock log floor') :
    Passed travel clock log (max floor floor') := by
  rcases Nat.le_total floor floor' with le | le
  · rwa [Nat.max_eq_right le]
  · rwa [Nat.max_eq_left le]

theorem Timed.ordered_entries (timed : Timed travel s log) : s.shard.tseq.entries.Pairwise Checkpoint.Before :=
  timed.ordered.sublist timed.suffix.sublist

theorem Timed.seqAt (timed : Timed travel s log) (millis : Nat) :
    s.shard.tseq.seqAt millis = (resolve s.shard.tseq.entries millis).map Checkpoint.seq :=
  seqAt_eq (timed.ordered_entries.imp And.right)

/-- The floor the two reclaiming passes read is from before the window. -/
theorem Timed.retainFloor (timed : Timed travel s log) (isTravel : cfg.travel = some travel) :
    Passed travel s.clock log (s.shard.retainFloor cfg s.clock) := by
  have floor : Passed travel s.clock log (s.shard.tseq.retainFloor s.clock travel.maxDistance) := by
    unfold TimeIndex.retainFloor
    split
    · exact .inl rfl
    · rw [timed.seqAt]
      cases found : resolve s.shard.tseq.entries (s.clock - travel.maxDistance) with
      | none => exact .inl rfl
      | some e =>
        obtain ⟨member, upTo⟩ := resolve_mem found
        exact .inr ⟨e, timed.suffix.subset member, le_rfl, by omega⟩
  unfold Shard.retainFloor
  rw [isTravel]
  dsimp only
  split
  · exact floor
  · rcases floor with zero | ⟨e, member, upTo, old⟩
    · exact .inl (by omega)
    · exact .inr ⟨e, member, by omega, old⟩

theorem suffix_append (suffix : after <:+ before) (added : List Checkpoint) : after ++ added <:+ before ++ added := by
  obtain ⟨front, rfl⟩ := suffix
  exact ⟨front, append_assoc _ _ _ |>.symm⟩

section
variable (timed : Timed travel s log)
include timed

/-- What leaves the log of checkpoints alone. -/
theorem Timed.quiet (commitSeq : s.shard.commitSeq ≤ τ.commitSeq)
    (gcFloor : τ.gcFloor = s.shard.gcFloor) (tseq : τ.tseq = s.shard.tseq) :
    Timed travel { s with shard := τ } log := by
  refine ⟨timed.ordered, fun e member => ?_, ?_, ?_, ?_, timed.round⟩ <;> dsimp only
  · obtain ⟨positive, upTo, now⟩ := timed.stamped e member
    exact ⟨positive, le_trans upTo commitSeq, now⟩
  · rw [tseq]
    exact timed.suffix
  · rw [tseq]
    exact timed.trimmed
  · rw [gcFloor]
    exact timed.floor

/-- A commit extends the log by its checkpoint, if it records one. -/
theorem Timed.commits {τ : Shard A} (stamped : Stamped s.clock s.shard τ) :
    ∃ added, Timed travel { s with shard := τ } (log ++ added) ∧ ∀ e ∈ added, s.clock ≤ e.millis := by
  have known : ∀ e ∈ s.shard.tseq.entries, e.millis ≤ s.clock :=
    fun e member => (timed.stamped e (timed.suffix.subset member)).2.2
  cases stamped with
  | still same =>
    refine ⟨[], ?_, nofun⟩
    rw [append_nil, same]
    exact timed
  | next adds =>
    obtain ⟨commitSeq, gcFloor, tseq⟩ : τ.commitSeq = s.shard.commitSeq + 1 ∧ τ.gcFloor = s.shard.gcFloor ∧
        τ.tseq = s.shard.tseq := by
      simpa [Shard.clocks] using adds.clocks
    refine ⟨[], ?_, nofun⟩
    rw [append_nil]
    exact timed.quiet (commitSeq ▸ Nat.le_succ _) gcFloor tseq
  | checkpoint clocks _ =>
    obtain ⟨commitSeq, gcFloor, tseq⟩ : τ.commitSeq = s.shard.commitSeq + 1 ∧ τ.gcFloor = s.shard.gcFloor ∧
        τ.tseq = s.shard.tseq.record (s.shard.commitSeq + 1) s.clock := by
      simpa [Shard.clocks] using clocks
    have entries : τ.tseq.entries = s.shard.tseq.entries ++ [⟨s.shard.commitSeq + 1, s.clock⟩] := by
      rw [tseq]
      exact record_entries _ known
    refine ⟨[⟨s.shard.commitSeq + 1, s.clock⟩], ?_, fun e member => ?_⟩
    · refine ⟨?_, fun e member => ?_, ?_, ?_, ?_, fun c isRound => (timed.round c isRound).mono le_rfl _⟩
      · refine pairwise_append.mpr ⟨timed.ordered, pairwise_singleton _ _, fun e member e' last => ?_⟩
        obtain ⟨-, upTo, now⟩ := timed.stamped e member
        rw [mem_singleton.mp last]
        exact ⟨Nat.lt_succ_of_le upTo, now⟩
      · rw [commitSeq]
        rcases mem_append.mp member with old | last
        · obtain ⟨positive, upTo, now⟩ := timed.stamped e old
          exact ⟨positive, Nat.le_succ_of_le upTo, now⟩
        · rw [mem_singleton.mp last]
          exact ⟨Nat.succ_pos _, le_rfl, le_rfl⟩
      · rw [entries]
        exact suffix_append timed.suffix _
      · rw [entries]
        rcases timed.trimmed with whole | ⟨e, member, old⟩
        · exact .inl (by rw [whole])
        · exact .inr ⟨e, mem_append_left _ member, old⟩
      · rw [gcFloor]
        exact timed.floor.mono le_rfl _
    · rw [mem_singleton.mp member]

/-- A pass that raises the floor and trims the index to it. -/
theorem Timed.raise {τ : Shard A} (passed : Passed travel s.clock log retain)
    (clocks : τ.clocks = s.shard.clocks) : Timed travel ⟨τ.raiseFloor retain, none, s.clock⟩ log := by
  obtain ⟨commitSeq, gcFloor, tseq⟩ : τ.commitSeq = s.shard.commitSeq ∧ τ.gcFloor = s.shard.gcFloor ∧
      τ.tseq = s.shard.tseq := by
    simpa [Shard.clocks] using clocks
  refine ⟨timed.ordered, ?_, ?_, ?_, ?_, fun _ isRound => by cases isRound⟩ <;> dsimp only [Shard.raiseFloor]
  · rw [commitSeq]
    exact timed.stamped
  · rw [tseq]
    exact (trim_suffix _ _).trans timed.suffix
  · rw [tseq]
    cases found : (s.shard.tseq.entries.filter fun e => e.seq ≤ retain).getLast? with
    | none =>
      -- Nothing is up to the floor, so nothing is dropped.
      have none_ : s.shard.tseq.entries.takeWhile (fun e => e.seq ≤ retain) = [] := by
        have empty := getLast?_eq_none_iff.mp found
        rw [filter_eq_nil_iff] at empty
        rw [takeWhile_eq_nil_iff]
        exact fun inside => empty _ (getElem_mem inside)
      rw [trim_entries, none_]
      exact timed.trimmed
    | some e₀ =>
      obtain ⟨member, upTo⟩ := mem_filter.mp (mem_of_getLast? found)
      rw [decide_eq_true_iff] at upTo
      have latest : ∀ e ∈ s.shard.tseq.entries, e.seq ≤ retain → e.seq ≤ e₀.seq := fun e inside small =>
        filter_last (timed.ordered_entries.imp fun before => le_of_lt before.1) found inside (decide_eq_true small)
      refine .inr ⟨e₀, mem_trim timed.ordered_entries member latest, ?_⟩
      have inLog := timed.suffix.subset member
      rcases passed with zero | ⟨e, inLog', beyond, old⟩
      · have := (timed.stamped e₀ inLog).1
        omega
      · have := millis_le timed.ordered inLog inLog' (le_trans upTo beyond)
        omega
  · rw [gcFloor]
    exact timed.floor.max passed

/-- What leaves the clocks of the shard alone leaves the time index in order. -/
theorem Timed.pause {round : Option (Compaction A)}
    (clocks : τ.clocks = s.shard.clocks) (later : s.clock ≤ clock)
    (passed : ∀ c, round = some c → Passed travel s.clock log c.retain) : Timed travel ⟨τ, round, clock⟩ log := by
  obtain ⟨commitSeq, gcFloor, tseq⟩ : τ.commitSeq = s.shard.commitSeq ∧ τ.gcFloor = s.shard.gcFloor ∧
      τ.tseq = s.shard.tseq := by
    simpa [Shard.clocks] using clocks
  refine ⟨timed.ordered, fun e member => ?_, ?_, ?_, ?_, fun c isRound => ?_⟩ <;> dsimp only
  · obtain ⟨positive, upTo, now⟩ := timed.stamped e member
    exact ⟨positive, commitSeq ▸ upTo, le_trans now later⟩
  · rw [tseq]
    exact timed.suffix
  · rw [tseq]
    refine timed.trimmed.imp_right ?_
    rintro ⟨e, member, old⟩
    exact ⟨e, member, le_trans old later⟩
  · rw [gcFloor]
    simpa using timed.floor.mono later []
  · simpa using (passed c isRound).mono later []

end

def Op.isWrite : Op A → Bool
  | .commit _ | .delete _ | .txn _ => true
  | _ => false

theorem copyRecord_retain (cfg : Config) (σ : Shard A) (c : Compaction A) (l : Loc) (choice : CopyChoice) :
    (σ.copyRecord cfg c l choice).retain = c.retain := by
  unfold Shard.copyRecord
  split
  · rfl
  · split
    · rfl
    · split <;> rfl
    · split
      · rfl
      · split <;> rfl

theorem clock_step (cfg : Config) (s : System A) (op : Op A) : s.clock ≤ (s.step cfg op).clock := by
  have steps := s.steps cfg op
  generalize s.step cfg op = s' at steps ⊢
  cases steps with
  | tick elapsed => exact Nat.le_add_right _ _
  | _ => exact le_rfl

/-- One step extends the log of checkpoints, by a write only and at the present time. -/
theorem Timed.step (isTravel : cfg.travel = some travel) (timed : Timed travel s log) (op : Op A) :
    ∃ added, Timed travel (s.step cfg op) (log ++ added) ∧ (∀ e ∈ added, s.clock ≤ e.millis) ∧
    (op.isWrite = false → added = []) := by
  have still : ∀ {s' : System A}, Timed travel s' log →
      ∃ added, Timed travel s' (log ++ added) ∧ (∀ e ∈ added, s.clock ≤ e.millis) ∧ (op.isWrite = false → added = []) :=
    fun timed => ⟨[], (append_nil log).symm ▸ timed, nofun, fun _ => rfl⟩
  have written : ∀ {τ : Shard A}, Stamped s.clock s.shard τ → op.isWrite = true →
      ∃ added, Timed travel { s with shard := τ } (log ++ added) ∧ (∀ e ∈ added, s.clock ≤ e.millis) ∧
          (op.isWrite = false → added = []) := by
    intro τ stamped isWrite
    obtain ⟨added, timed', now⟩ := timed.commits stamped
    exact ⟨added, timed', now, fun other => by rw [isWrite] at other; cases other⟩
  have arranged : ∀ {τ : Shard A}, Rearranges s.shard τ → Timed travel { s with shard := τ } log := fun rearranges =>
    timed.pause rearranges.clocks le_rfl timed.round
  have steps := s.steps cfg op
  generalize s.step cfg op = s' at steps ⊢
  cases steps with
  | commit writes => exact written (stamped_applyBatch cfg) rfl
  | delete key => exact written (stamped_delete cfg) rfl
  | txn writes => exact written (stamped_applyTxn cfg) rfl
  | sealSegment id => exact still (arranged (rearranges_seal cfg s.shard id))
  | evict id => exact still (arranged (rearranges_evict cfg s.shard id))
  | reclaim =>
    apply still
    rcases reclaim_origin cfg with same | ⟨ρ, rearranges, form⟩
    · exact timed.pause (congrArg Shard.clocks same) le_rfl nofun
    · rw [form]
      exact timed.raise (timed.retainFloor isTravel) rearranges.clocks
  | beginRound =>
    refine still (timed.pause rfl le_rfl fun c is => ?_)
    cases is
    exact timed.retainFloor isTravel
  | copy isRound next choice =>
    refine still (timed.pause rfl le_rfl fun c' is => ?_)
    cases is
    rw [copyRecord_retain]
    exact timed.round _ isRound
  | install isRound next liveDict histDict =>
    apply still
    obtain ⟨ρ, clocks, form, -⟩ := install_origin cfg
    rw [form]
    exact timed.raise (timed.round _ isRound) clocks
  | abort => exact still (timed.pause rfl le_rfl nofun)
  | tick elapsed => exact still (timed.pause rfl (Nat.le_add_right _ _) timed.round)
  | waits => exact still timed

theorem Timed.run (ops : List (Op A)) (isTravel : cfg.travel = some travel) (timed : Timed travel s log) :
    ∃ added, Timed travel (s.run cfg ops) (log ++ added) ∧ (∀ e ∈ added, s.clock ≤ e.millis) ∧
      ((∀ op ∈ ops, op.isWrite = false) → added = []) ∧ s.clock ≤ (s.run cfg ops).clock := by
  induction ops generalizing s log with
  | nil => exact ⟨[], (append_nil log).symm ▸ timed, nofun, fun _ => rfl, le_rfl⟩
  | cons op rest ih =>
    obtain ⟨added, timed', now, still⟩ := timed.step isTravel op
    obtain ⟨added', timed'', now', still', later⟩ := ih timed'
    have advances := clock_step cfg s op
    refine ⟨added ++ added', append_assoc _ _ _ ▸ timed'', fun e member => ?_, fun quiet => ?_, le_trans advances later⟩
    · rcases mem_append.mp member with first | second
      · exact now e first
      · exact le_trans advances (now' e second)
    · rw [still (quiet op (.head _)), still' fun op' member => quiet op' (.tail _ member)]
      rfl

/-- A time inside the window resolves in the index as it does in the log. -/
theorem Timed.resolve_log (timed : Timed travel s log) (inside : s.clock ≤ millis + travel.maxDistance) :
    resolve s.shard.tseq.entries millis = resolve log millis := by
  rcases timed.trimmed with whole | ⟨e, member, old⟩
  · rw [whole]
  · obtain ⟨front, isLog⟩ := timed.suffix
    have early : e.millis ≤ millis := by omega
    cases found : resolve s.shard.tseq.entries millis with
    | none => exact absurd early (not_le.mpr (resolve_eq_none.mp found e member))
    | some last =>
      unfold resolve at found ⊢
      rw [← isLog, filter_append, getLast?_append, found]
      rfl

theorem resolve_append (later : ∀ e ∈ added, millis < e.millis) :
    resolve (log ++ added) millis = resolve log millis := by
  have none_ : added.filter (fun e => e.millis ≤ millis) = [] := by
    rw [filter_eq_nil_iff]
    intro e member
    rw [decide_eq_true_iff, not_le]
    exact later e member
  unfold resolve
  rw [filter_append, none_, append_nil]

end Runs

/-! ## Queries at a time -/

section AsOf
variable {A : Type} {cfg : Config} {travel : Travel} {s : System A} {log : List Checkpoint}

/-- `resolveAsOf` for the shard: the sequence that was current at a time, or an error. A time in
the future or before the epoch stands for the present. -/
def System.resolveAsOf (cfg : Config) (s : System A) (t : Int) : Option Nat :=
  match cfg.travel with
  | none => none
  | some travel =>
    let millis := if 0 ≤ t ∧ t.toNat < s.clock then t.toNat else s.clock
    let horizon := if travel.maxDistance < s.clock then s.clock - travel.maxDistance else 0
    if millis < horizon then none else some ((s.shard.tseq.seqAt millis).getD 0)

/-- `QueryAsOf` with a query that matches everything: what a scan at that sequence yields. -/
def System.queryAsOf (cfg : Config) (s : System A) (t : Int) : Option (List (Key × Nat × A)) :=
  (s.resolveAsOf cfg t).map fun seq => (s.shard.snapshotAt seq).todo.flatMap (s.shard.yields seq)

/-- The sequence of the last checkpoint at or before a time. -/
def seqOf (log : List Checkpoint) (millis : Nat) : Nat := ((resolve log millis).map Checkpoint.seq).getD 0

section
variable (timed : Timed travel s log)
include timed

theorem Timed.resolveAsOf (isTravel : cfg.travel = some travel) (upTo : millis ≤ s.clock)
    (inside : s.clock ≤ millis + travel.maxDistance) : s.resolveAsOf cfg millis = some (seqOf log millis) := by
  unfold System.resolveAsOf
  rw [isTravel]
  dsimp only
  have clamped : (if 0 ≤ (millis : Int) ∧ (millis : Int).toNat < s.clock then (millis : Int).toNat else s.clock) =
      millis := by
    split <;> omega
  rw [clamped, if_neg (by split <;> omega), timed.seqAt, timed.resolve_log inside]
  rfl

theorem Timed.gcFloor_le (inside : s.clock ≤ millis + travel.maxDistance) :
    s.shard.gcFloor ≤ seqOf log millis := by
  rcases timed.floor with zero | ⟨e, member, upTo, old⟩
  · omega
  · have early : e.millis ≤ millis := by omega
    unfold seqOf
    cases found : resolve log millis with
    | none => exact absurd early (not_le.mpr (resolve_eq_none.mp found e member))
    | some last => exact le_trans upTo (resolve_last timed.ordered found member early)

theorem Timed.seqOf_le : seqOf log millis ≤ s.shard.commitSeq := by
  unfold seqOf
  cases found : resolve log millis with
  | none => exact Nat.zero_le _
  | some last => exact (timed.stamped last (resolve_mem found).1).2.1

/-- What a query at a time inside the window sees. -/
theorem Timed.queryAsOf (faithful : s.Faithful cfg past) (isTravel : cfg.travel = some travel)
    (upTo : millis ≤ s.clock) (inside : s.clock ≤ millis + travel.maxDistance) :
    ∃ pairs, s.queryAsOf cfg millis = some pairs ∧ Lists pairs (past (seqOf log millis)) := by
  refine ⟨_, by rw [System.queryAsOf, timed.resolveAsOf isTravel upTo inside, Option.map_some], ?_⟩
  rw [yields_windows fun seg member skipped r inside => (faithful.stored.counted seg member).invisible skipped inside]
  exact faithful.stored.history _ (timed.gcFloor_le inside) (timed.seqOf_le)

end

/-- A query at a time sees the same before and after maintenance, and after any operations on
from a time before the present, as long as the time is inside the window: what was current at the
last checkpoint up to it. -/
theorem queryAsOf_stable (isTravel : cfg.travel = some travel) (ops later : List (Op A))
    (allowed : (initial : System A).AllowedRun cfg (ops ++ later)) (millis : Nat)
    (upTo : millis ≤ ((initial : System A).run cfg ops).clock)
    (inside : ((initial : System A).run cfg (ops ++ later)).clock ≤ millis + travel.maxDistance)
    (settled : millis < ((initial : System A).run cfg ops).clock ∨ ∀ op ∈ later, op.isWrite = false) :
    let s := (initial : System A).run cfg ops
    let s' := (initial : System A).run cfg (ops ++ later)
    ∃ pairs pairs', s.queryAsOf cfg millis = some pairs ∧ s'.queryAsOf cfg millis = some pairs' ∧ pairs.Perm pairs' ∧
      Lists pairs ((initial : System A).history cfg (fun _ _ => none) ops (seqOf s.shard.tseq.entries millis)) := by
  intro s s'
  obtain ⟨before, after⟩ := allowedRun_append.mp allowed
  have faithful : s.Faithful cfg _ := (faithful_initial cfg).run ops before
  have faithful' : s'.Faithful cfg _ := (faithful_initial cfg).run (ops ++ later) allowed
  obtain ⟨log, timed, -⟩ := (timed_initial).run ops isTravel
  obtain ⟨added, timed', now, still, advances⟩ := timed.run later isTravel
  rw [← System.run_append] at timed' advances
  have insideNow : s.clock ≤ millis + travel.maxDistance := le_trans advances inside
  obtain ⟨pairs, query, lists⟩ := timed.queryAsOf faithful isTravel upTo insideNow
  obtain ⟨pairs', query', lists'⟩ := timed'.queryAsOf faithful' isTravel (le_trans upTo advances) inside
  -- The time resolves to the same checkpoint, and what was current there is on record.
  have same : seqOf (([] ++ log) ++ added) millis = seqOf ([] ++ log) millis := by
    rcases settled with past | quiet
    · unfold seqOf
      rw [resolve_append fun e member => lt_of_lt_of_le past (now e member)]
    · rw [still quiet, append_nil]
  rw [same, history_append, history_below faithful.valid (timed.seqOf_le)] at lists'
  refine ⟨pairs, pairs', query, query', lists.perm_of_same lists', ?_⟩
  unfold seqOf at lists ⊢
  rwa [timed.resolve_log insideNow]

/-- Two versions of a key, queried before and after a compaction. -/
def travelConfig : Config := ⟨fun _ => 0, fun _ => none, 1024, true, some ⟨100, 10⟩⟩

@[inherit_doc travelConfig]
def travelWrites : List (Op Nat) := [.tick 50, .commit [⟨[1], 10, 8, 0, true⟩], .tick 20,
      .commit [⟨[1], 11, 8, 0, true⟩], .tick 1]

@[inherit_doc travelConfig]
def travelRound : List (Op Nat) :=
  [.beginRound, .copy ⟨8, 0, false, 8⟩, .copy ⟨8, 0, false, 8⟩, .copy ⟨8, 0, false, 8⟩, .copy ⟨8, 0, false, 8⟩,
    .install 8 8]

theorem queryAsOf_stable_on_sample :
    let s := (initial : System Nat).run travelConfig (travelWrites ++ travelRound)
    ∃ pairs, s.queryAsOf travelConfig 60 = some pairs ∧ ([1], 1, 10) ∈ pairs := by
  have allowed : (initial : System Nat).AllowedRun travelConfig (travelWrites ++ travelRound) :=
    (allowedRun_of_unprobed (faithful_initial travelConfig) (fun _ => rfl) (by decide)).1
  have isTravel : travelConfig.travel = some ⟨100, 10⟩ := rfl
  obtain ⟨pairs, pairs', -, query, same, lists⟩ :=
    queryAsOf_stable isTravel travelWrites travelRound allowed 60 (by decide +kernel) (by decide +kernel)
      (.inr (by decide))
  refine ⟨pairs', query, same.mem_iff.mp ((lists.exact [1] (1, 10)).mpr ?_)⟩
  decide +kernel

/-- A marker in an indexed segment answers a search for the empty key: the ad of that key is not
superseded when it is put again, and a query at a time after that sees both. Each segment takes
two records and their markers; the compaction at 1200 ms reclaims the first one, whose records
have left the window, and so indexes the second. -/
theorem queryAsOf_repeats_empty_key :
    let cfg : Config := ⟨fun key => (key.headD 0).toUInt64, fun _ => none, 256, true, some ⟨1000, 10⟩⟩
    let put (key : Key) (ad : Nat) : Op Nat := .commit [⟨key, ad, 16, 0, true⟩]
    let ops : List (Op Nat) :=
      [.tick 50, put [1] 10, .tick 20, put [1] 11, .tick 20, put [1] 12, .tick 10, put [] 20, .tick 1100, put [2] 30,
        .reclaim, .sealSegment 1, .evict 1, .tick 10, put [] 21]
    let s := (initial : System Nat).run cfg ops
    s.shard.segs.map Segment.retired = [true, false, false] ∧ s.resolveAsOf cfg s.clock = some 6 ∧
      s.queryAsOf cfg s.clock = some [([1], 3, 12), ([], 4, 20), ([2], 5, 30), ([], 6, 21)] := by
  decide +kernel

end AsOf

end Classad.ShardStore
