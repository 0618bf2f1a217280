import Classad.ShardSystem

/-! Passes that rewrite sealed segments in place. A reseal encodes every record anew; a
columnarization moves the values into columns at the end of the segment. Either builds the new
segment without the lock and then swaps it into the slot of the old one, where it has another
layout. Locations are byte offsets in the source: what still refers to the old segment reads the
new one at the old offsets until the pass reindexes. -/
namespace Classad.ShardStore
open Arena Chains Listing
open List hiding after tail

variable {A : Type}

/-- What the encoders decide about a rewrite: the compressed length of each record by its offset,
the lengths of the dictionary and the columns, the codec, and the number in the first eight bytes
of a keyless record's payload. -/
structure RewriteChoice where
  adLen : Nat → Nat
  head : Nat → Nat
  size : Nat
  codec : Nat
  dictLen : Nat
  colLen : Nat

namespace Segment

variable (choice : RewriteChoice)

/-- One record of `resealSegmentsAs`. Every keyless record is taken for a time marker. -/
def resealEntry (out : Segment A) (entry : Record A × Nat) : Segment A :=
  match entry.1.body with
  | .ad key ad => out.append entry.1.seq none (.ad key ad) (recordLen key.length (choice.adLen entry.2))
  | .checkpoint millis => out.appendMarker entry.1.seq millis
  | .dictionary => out.appendMarker entry.1.seq (choice.head entry.2)

/-- `resealOneSegment` of a persistent collection. -/
def reseal (src : Segment A) : Segment A :=
  (src.records.zipIdx.foldl (resealEntry choice) (fresh choice.size choice.codec)).appendDict choice.dictLen

variable (seg : Segment A)

/-- `appendCol`. -/
def appendCol (colLen : Nat) : Segment A :=
  { seg with
    records := seg.records ++ [⟨0, none, none, .dictionary, recordLen 0 colLen⟩]
    dead := seg.dead + recordLen 0 colLen }

/-- `appendRawRecord`: `append`, and then the supersession of the source over it. -/
def appendRawRecord (r : Record A) (len : Nat) : Segment A :=
  { seg.append r.seq none r.body len with records := seg.records ++ [⟨r.seq, r.superseded, none, r.body, len⟩] }

/-- One record of `columnarizeSegment`, which passes over the keyless ones. -/
def columnEntry (out : Segment A) (entry : Record A × Nat) : Segment A :=
  if entry.1.isMarker then out else out.appendRawRecord entry.1 (recordLen entry.1.key.length (choice.adLen entry.2))

/-- `columnarizeSegment`. -/
def columnarize (src : Segment A) : Segment A :=
  let out := src.records.zipIdx.foldl (columnEntry choice) (fresh choice.size src.codec)
  let out := if src.interned then out.appendDict choice.dictLen else out
  out.appendCol choice.colLen

/-- The offsets of the ads. -/
def adOffs (records : List (Record A)) : List Nat :=
  records.zipIdx.filterMap fun entry => if entry.1.isMarker then none else some entry.2

/-- One step of `reconcile`: the supersession of a source record is carried over. -/
def reconcileEntry (src out : Segment A) (entry : Nat × Nat) : Segment A :=
  match (src.records[entry.1]?).bind Record.superseded with
  | some seq => if (out.records[entry.2]?).bind Record.superseded ≠ some seq then out.supersedeRec entry.2 seq else out
  | none => out

/-- `reconcile`, of the supersessions since the segment was built. -/
def reconcile (src out : Segment A) : Segment A := (adOffs src.records).zipIdx.foldl (reconcileEntry src) out

/-- The byte at which a record starts. -/
def start (off : Nat) : Nat := ((seg.records.take off).map Record.totalLen).sum

/-- The record that starts at a byte. -/
def offsetAt (byte : Nat) : Option Nat := (range seg.records.length).find? fun off => seg.start off == byte

/-- Where a reference into the old layout of a segment points in the new one. Where no record
starts there it points at none; the source reads whatever bytes are there. -/
def reaim (old new : Segment A) (off : Nat) : Nat := (new.offsetAt (old.start off)).getD new.records.length

end Segment

namespace Shard

/-- A location after the segment in a slot was replaced. -/
def reaim (id : Nat) (old new : Segment A) (l : Loc) : Loc := if l.seg = id then ⟨id, old.reaim new l.off⟩ else l

/-- Replace the segment in a slot. -/
def swap (σ : Shard A) (id : Nat) (new : Segment A) : Shard A :=
  match σ.segs[id]? with
  | none => σ
  | some old =>
    { σ with
      segs := (σ.segs.map fun seg =>
        { seg with records := seg.records.map fun r => { r with next := r.next.map (reaim id old new) } }).set id new
      dir := fun h => (σ.dir h).map (reaim id old new) }

/-- The key indexes and evictions of `Reindex`. -/
def reindex (cfg : Config) (σ : Shard A) : Shard A :=
  (range σ.segs.length).foldl (evictSegKeys cfg) ((range σ.segs.length).foldl (sealSegmentIndex cfg) σ)

end Shard

/-! ## The passes -/

/-- `MigrateSealedAttrs` reseals, `ColumnarizeSealed` columnarizes. -/
inductive Rewrite where
  | reseal
  | columnarize
  deriving DecidableEq, Repr

/-- A pass at work: the segments it chose, those it has built and not yet swapped in, and whether
it has swapped any. -/
structure Pass (A : Type) where
  kind : Rewrite
  sources : List Nat
  staged : List (Nat × Segment A)
  swapped : Bool

/-- A shard and the pass on it. A pass holds the maintenance lock, as compactions and reclaims do. -/
structure Upkeep (A : Type) where
  system : System A
  pass : Option (Pass A)

inductive UpkeepOp (A : Type) where
  | shard (op : Op A)
  | start (kind : Rewrite)
  | build (id : Nat) (choice : RewriteChoice)
  | commit (id : Nat)
  | finish

/-- Whether an operation of the shard takes the maintenance lock. -/
def Op.locks : Op A → Bool
  | .reclaim | .beginRound => true
  | _ => false

/-- The sources of a pass, which for a reseal stops writing to the active segment. -/
def Shard.startPass (kind : Rewrite) (σ : Shard A) : Shard A × List Nat :=
  let σ' := match kind with
    | .reseal => { σ with act := none }
    | .columnarize => σ
  (σ', (range σ'.segs.length).filter fun id =>
    match σ'.segs[id]? with
    | some seg => !seg.retired && !seg.records.isEmpty && σ'.act != some id
    | none => false)

def Segment.rewrite : Rewrite → RewriteChoice → Segment A → Segment A
  | .reseal => Segment.reseal
  | .columnarize => Segment.columnarize

/-- What the swap of a built segment installs. -/
def Segment.settle : Rewrite → Segment A → Segment A → Segment A
  | .reseal, _, out => out
  | .columnarize, src, out => src.reconcile out

def Upkeep.step (cfg : Config) (u : Upkeep A) : UpkeepOp A → Upkeep A
  | .shard op => if op.locks && u.pass.isSome then u else { u with system := u.system.step cfg op }
  | .start kind =>
    if u.pass.isSome || u.system.round.isSome then u
    else
      let (shard, sources) := u.system.shard.startPass kind
      ⟨{ u.system with shard := shard }, some ⟨kind, sources, [], false⟩⟩
  | .build id choice => match u.pass with
    | none => u
    | some pass =>
      match u.system.shard.segs[id]? with
      | some src =>
        if id ∈ pass.sources then
          { u with pass := some { pass with
            sources := pass.sources.filter (· ≠ id)
            staged := (id, src.rewrite pass.kind choice) :: pass.staged } }
        else u
      | none => u
  | .commit id => match u.pass with
    | none => u
    | some pass =>
      match u.system.shard.segs[id]?, pass.staged.lookup id with
      | some src, some out =>
        ⟨{ u.system with shard := u.system.shard.swap id (src.settle pass.kind out) },
          some { pass with staged := pass.staged.filter fun entry => entry.1 ≠ id, swapped := true }⟩
      | _, _ => u
  | .finish => match u.pass with
    | none => u
    | some pass =>
      if pass.swapped then ⟨{ u.system with shard := u.system.shard.reindex cfg }, none⟩ else { u with pass := none }

def Upkeep.initial : Upkeep A := ⟨System.initial, none⟩

def Upkeep.run (cfg : Config) (u : Upkeep A) (ops : List (UpkeepOp A)) : Upkeep A := ops.foldl (Upkeep.step cfg) u

/-- What an operation does. It waits for a pass or a round, or has nothing to work on. -/
inductive Upkeep.Steps (cfg : Config) (u : Upkeep A) : UpkeepOp A → Upkeep A → Prop where
  | shard op (free : op.locks = false ∨ u.pass = none) :
    Steps cfg u (.shard op) { u with system := u.system.step cfg op }
  | start kind (free : u.pass = none) (idle : u.system.round = none) : Steps cfg u (.start kind)
      ⟨{ u.system with shard := (u.system.shard.startPass kind).1 },
        some ⟨kind, (u.system.shard.startPass kind).2, [], false⟩⟩
  | build {pass id src} (isPass : u.pass = some pass) (here : u.system.shard.segs[id]? = some src)
    (member : id ∈ pass.sources) choice :
    Steps cfg u (.build id choice) { u with pass := some { pass with
      sources := pass.sources.filter (· ≠ id)
      staged := (id, src.rewrite pass.kind choice) :: pass.staged } }
  | commit {pass id src out} (isPass : u.pass = some pass) (here : u.system.shard.segs[id]? = some src)
    (built : (id, out) ∈ pass.staged) :
    Steps cfg u (.commit id) ⟨{ u.system with shard := u.system.shard.swap id (src.settle pass.kind out) },
      some { pass with staged := pass.staged.filter fun entry => entry.1 ≠ id, swapped := true }⟩
  | finish {pass} (isPass : u.pass = some pass) (swapped : pass.swapped = true) :
    Steps cfg u .finish ⟨{ u.system with shard := u.system.shard.reindex cfg }, none⟩
  | drop {pass} (isPass : u.pass = some pass) (unswapped : pass.swapped = false) :
    Steps cfg u .finish { u with pass := none }
  | waits (idle : ∀ op', op = .shard op' → op'.locks = true) : Steps cfg u op u

theorem Upkeep.steps (cfg : Config) (u : Upkeep A) (op : UpkeepOp A) : u.Steps cfg op (u.step cfg op) := by
  obtain ⟨s, pass⟩ := u
  unfold Upkeep.step
  cases op with
  | shard op =>
    dsimp only
    split <;> rename_i held
    · exact .waits fun op' is => by cases is; exact (Bool.and_eq_true_iff.mp held).1
    · refine .shard op ?_
      cases pass with
      | none => exact .inr rfl
      | some pass => exact .inl (by simpa using held)
  | start kind =>
    obtain ⟨shard, round, clock⟩ := s
    cases pass with
    | none =>
      cases round with
      | none => exact .start kind rfl rfl
      | some c => exact .waits nofun
    | some pass => exact .waits nofun
  | build id choice =>
    cases pass with
    | none => exact .waits nofun
    | some pass =>
      dsimp only
      cases here : s.shard.segs[id]? with
      | none => exact .waits nofun
      | some src =>
        dsimp only
        split
        · exact .build rfl here ‹_› choice
        · exact .waits nofun
  | commit id =>
    cases pass with
    | none => exact .waits nofun
    | some pass =>
      dsimp only
      cases here : s.shard.segs[id]? with
      | none => exact .waits nofun
      | some src =>
        cases found : pass.staged.lookup id with
        | none => exact .waits nofun
        | some out =>
          obtain ⟨before, after, whole, -⟩ := lookup_eq_some_iff.mp found
          exact .commit rfl here (whole ▸ mem_append_right _ (.head _))
  | finish =>
    cases pass with
    | none => exact .waits nofun
    | some pass =>
      dsimp only
      split
      next swapped => exact .finish rfl swapped
      next unswapped => exact .drop rfl (by simpa using unswapped)

/-! ## What a rewrite keeps -/

section Rewrites

/-- The records with a key. -/
def ads (records : List (Record A)) : List (Record A) := records.filter fun r => !r.isMarker

/-- A rewritten record reads like its source, but that it may not know of a supersession. -/
structure Lags (out src : Record A) : Prop where
  seq : out.seq = src.seq
  body : out.body = src.body
  superseded : out.superseded = none ∨ out.superseded = src.superseded

/-- A segment with a key index. After a reseal `minSeq` may be that of a keyless record, which
is none; the least sequence there is stands in for it. -/
def Segment.veiled : Rewrite → Segment A → Segment A
  | .reseal, seg => { seg with keyIndexed := true, minSeq := 1 }
  | .columnarize, seg => { seg with keyIndexed := true }

/-- What is known of a segment built and not yet swapped in, as its source goes on. -/
structure Rewritten (kind : Rewrite) (src out : Segment A) : Prop where
  reads : Forall₂ Lags (ads out.records) (ads src.records)
  front : kind = .columnarize → ∃ tail, out.records = ads out.records ++ tail
  counted : Counted (out.veiled kind)
  retired : out.retired = false
  renewed : kind = .reseal → ∀ r ∈ out.records, r.superseded = none

variable {kind : Rewrite} {src out : Segment A} {choice : RewriteChoice}

theorem ads_append (first second : List (Record A)) : ads (first ++ second) = ads first ++ ads second :=
    filter_append ..

theorem mem_ads : r ∈ ads records ↔ r ∈ records ∧ r.isMarker = false := by
  simp [ads]

theorem Counted.veiled (counted : Counted seg) (kind : Rewrite) : Counted (seg.veiled kind) := by
  cases kind with
  | reseal =>
    refine ⟨counted.dead, fun r member keyed => ?_, counted.positive, counted.attained⟩
    have least := counted.minSeq r member keyed
    exact ⟨Nat.one_pos, Nat.le_trans least.1 least.2⟩
  | columnarize => exact ⟨counted.dead, counted.minSeq, counted.positive, counted.attained⟩

/-- An ad of a counted segment is from a commit. -/
theorem Counted.seq_pos {seg : Segment A} (counted : Counted (seg.veiled kind)) (member : r ∈ seg.records)
    (keyed : r.isMarker = false) : 0 < r.seq := by
  have least := counted.minSeq r (by cases kind <;> exact member) keyed
  exact Nat.lt_of_lt_of_le least.1 least.2

theorem Counted.resealEntry (counted : Counted (out.veiled .reseal))
    (stamp : entry.1.isMarker = false → 0 < entry.1.seq) : Counted ((out.resealEntry choice entry).veiled .reseal) := by
  obtain ⟨⟨seq, superseded, next, body, totalLen⟩, off⟩ := entry
  cases body with
  | ad key ad => exact counted.push rfl (recordLen_pos _ _) rfl rfl (.inl ⟨rfl, fun _ => ⟨Nat.one_pos, stamp rfl⟩⟩)
  | checkpoint millis => exact counted.push rfl (recordLen_pos 0 8) rfl rfl (.inl ⟨rfl, nofun⟩)
  | dictionary => exact counted.push rfl (recordLen_pos 0 8) rfl rfl (.inl ⟨rfl, nofun⟩)

theorem ads_resealEntry {choice : RewriteChoice} (out : Segment A) (entry : Record A × Nat) :
    ∃ more, ads (out.resealEntry choice entry).records = ads out.records ++ more ∧
    Forall₂ Lags more (ads [entry.1]) := by
  obtain ⟨⟨seq, superseded, next, body, totalLen⟩, off⟩ := entry
  cases body with
  | ad key ad => exact ⟨_, ads_append _ _, .cons ⟨rfl, rfl, .inl rfl⟩ .nil⟩
  | checkpoint millis => exact ⟨[], ads_append _ _, .nil⟩
  | dictionary => exact ⟨[], ads_append _ _, .nil⟩

theorem Counted.columnEntry (counted : Counted out) (stamp : entry.1.isMarker = false → 0 < entry.1.seq) :
    Counted (out.columnEntry choice entry) := by
  unfold Segment.columnEntry
  split
  · exact counted
  next keyed =>
    have isAd : entry.1.isMarker = false := by simpa using keyed
    refine counted.push rfl (recordLen_pos _ _) rfl ?_ (.inr ⟨stamp isAd, rfl⟩)
    change out.dead = out.dead + if entry.1.isMarker then _ else 0
    rw [isAd]
    rfl

theorem columnEntry_records {choice : RewriteChoice} {out : Segment A} {entry : Record A × Nat} :
    ∃ more, (out.columnEntry choice entry).records = out.records ++ more ∧ Forall₂ Lags more (ads [entry.1]) ∧
      ∀ r ∈ more, r.isMarker = false := by
  unfold Segment.columnEntry
  cases marker : entry.1.isMarker with
  | true => exact ⟨[], (append_nil _).symm, by simp [ads, marker], nofun⟩
  | false =>
    refine ⟨[⟨entry.1.seq, entry.1.superseded, none, entry.1.body, _⟩], rfl, ?_, ?_⟩
    · simp only [ads, filter_cons, marker, Bool.not_false, if_true, filter_nil]
      exact .cons ⟨rfl, rfl, .inr rfl⟩ .nil
    · intro r member
      obtain rfl := mem_singleton.mp member
      exact marker

theorem foldl_reads
    (one : ∀ out entry, ∃ more, ads (step out entry).records = ads out.records ++ more ∧
      Forall₂ Lags more (ads [entry.1]))
    {entries : List (Record A × Nat)} (out : Segment A) :
    ∃ more, ads (entries.foldl step out).records = ads out.records ++ more ∧
    Forall₂ Lags more (ads (entries.map Prod.fst)) := by
  induction entries generalizing out with
  | nil => exact ⟨[], (append_nil _).symm, .nil⟩
  | cons entry rest ih =>
    obtain ⟨more, first, reads⟩ := one out entry
    obtain ⟨more', later, reads'⟩ := ih (step out entry)
    refine ⟨more ++ more', ?_, ?_⟩
    · rw [foldl_cons, later, first, append_assoc]
    · rw [map_cons, ← singleton_append, ads_append]
      exact rel_append reads reads'

theorem mem_of_zipIdx {records : List (Record A)} (member : entry ∈ records.zipIdx) : entry.1 ∈ records := by
  have := mem_map_of_mem (f := Prod.fst) member
  rwa [zipIdx_map_fst] at this

theorem renewed_snoc {next : Option Loc} {records : List (Record A)} (kept : ∀ r ∈ records, r.superseded = none)
    {seq len : Nat} :
    ∀ r ∈ records ++ [⟨seq, none, next, body, len⟩], r.superseded = none := by
  intro r member
  rcases mem_append.mp member with old | last
  · exact kept r old
  · rw [mem_singleton.mp last]

theorem rewritten_reseal {choice : RewriteChoice} (stamps : ∀ r ∈ src.records, r.isMarker = false → 0 < r.seq) :
    Rewritten .reseal src (src.reseal choice) := by
  obtain ⟨more, all, reads⟩ := foldl_reads (ads_resealEntry) (Segment.fresh choice.size choice.codec)
  rw [zipIdx_map_fst] at reads
  have counted :
      Counted ((src.records.zipIdx.foldl (Segment.resealEntry choice) (Segment.fresh choice.size choice.codec)).veiled
        .reseal) :=
    foldlRecOn (motive := fun out : Segment A => Counted (out.veiled .reseal)) _ _
      ((Counted.fresh choice.size choice.codec).veiled .reseal)
      fun out counted entry member => counted.resealEntry (stamps entry.1 (mem_of_zipIdx member))
  have retired :
      (src.records.zipIdx.foldl (Segment.resealEntry choice) (Segment.fresh choice.size choice.codec)).retired =
        false :=
    foldlRecOn (motive := fun out : Segment A => out.retired = false) _ _ rfl fun out kept entry _ => by
      unfold Segment.resealEntry
      cases entry.1.body <;> exact kept
  have renewed :
    ∀ r ∈ (src.records.zipIdx.foldl (Segment.resealEntry choice) (Segment.fresh choice.size choice.codec)).records,
      r.superseded = none :=
    foldlRecOn (motive := fun out : Segment A => ∀ r ∈ out.records, r.superseded = none) _ _ nofun
      fun out kept entry _ => by
      unfold Segment.resealEntry
      cases entry.1.body <;> exact renewed_snoc kept
  refine ⟨?_, nofun, ?_, retired, fun _ => renewed_snoc renewed⟩
  · have whole : ads (src.reseal choice).records = more := (ads_append _ _).trans ((append_nil _).trans all)
    rwa [whole]
  · exact counted.push rfl (recordLen_pos 0 choice.dictLen) rfl rfl (.inl ⟨rfl, nofun⟩)

theorem rewritten_columnarize {choice : RewriteChoice} (stamps : ∀ r ∈ src.records, r.isMarker = false → 0 < r.seq) :
    Rewritten .columnarize src (src.columnarize choice) := by
  have reading : ∀ (out : Segment A) entry, ∃ more, ads (out.columnEntry choice entry).records =
    ads out.records ++ more ∧
      Forall₂ Lags more (ads [entry.1]) := by
    intro out entry
    obtain ⟨more, records, reads, keyed⟩ := columnEntry_records
    refine ⟨more, ?_, reads⟩
    rw [records, ads_append]
    exact congrArg _ (filter_eq_self.mpr fun r member => by simp [keyed r member])
  obtain ⟨more, all, reads⟩ := foldl_reads reading (Segment.fresh choice.size src.codec)
  rw [zipIdx_map_fst] at reads
  have counted :
      Counted (src.records.zipIdx.foldl (Segment.columnEntry choice) (Segment.fresh choice.size src.codec)) :=
    foldlRecOn (motive := Counted) _ _ (Counted.fresh choice.size src.codec)
      fun out counted entry member => counted.columnEntry (stamps entry.1 (mem_of_zipIdx member))
  have plain :
    (∀ r ∈ (src.records.zipIdx.foldl (Segment.columnEntry choice) (Segment.fresh choice.size src.codec)).records,
      r.isMarker = false) ∧ (src.records.zipIdx.foldl (Segment.columnEntry choice)
          (Segment.fresh choice.size src.codec)).retired = false :=
    foldlRecOn (motive := fun out : Segment A => (∀ r ∈ out.records, r.isMarker = false) ∧
      out.retired = false) _ _ ⟨nofun, rfl⟩
      fun out kept entry _ => by
        obtain ⟨more, records, -, keyed⟩ := columnEntry_records
        refine ⟨fun r member => ?_, ?_⟩
        · rw [records] at member
          exact (mem_append.mp member).elim (kept.1 r) (keyed r)
        · unfold Segment.columnEntry
          split <;> exact kept.2
  unfold Segment.columnarize
  generalize src.records.zipIdx.foldl (Segment.columnEntry choice) (Segment.fresh choice.size src.codec) = body at *
  have front : ads body.records = body.records := filter_eq_self.mpr fun r member => by simp [plain.1 r member]
  have bodyReads : Forall₂ Lags (ads body.records) (ads src.records) := by
    rw [show ads body.records = more from all]
    exact reads
  have columns : ∀ {seg : Segment A}, Counted seg → Counted (seg.appendCol choice.colLen) := fun counted =>
    counted.push rfl (recordLen_pos 0 choice.colLen) rfl rfl (.inl ⟨rfl, nofun⟩)
  -- Whatever keyless records follow the ads.
  have closing : ∀ {out : Segment A} {tail : List (Record A)}, out.records = body.records ++ tail → ads tail = [] →
      Forall₂ Lags (ads out.records) (ads src.records) ∧ ∃ tail, out.records = ads out.records ++ tail := by
    intro out tail records keyless
    have same : ads out.records = ads body.records := by rw [records, ads_append, keyless, append_nil]
    exact ⟨same ▸ bodyReads, tail, by rw [same, front, records]⟩
  cases src.interned with
  | true =>
    obtain ⟨readsAll, frontAll⟩ := @closing ((body.appendDict choice.dictLen).appendCol choice.colLen) _
      (append_assoc _ _ _) rfl
    exact ⟨readsAll, fun _ => frontAll, (columns (counted.appendDict choice.dictLen)).veiled _, plain.2, nofun⟩
  | false =>
    obtain ⟨readsAll, frontAll⟩ := @closing (body.appendCol choice.colLen) _ rfl rfl
    exact ⟨readsAll, fun _ => frontAll, (columns counted).veiled _, plain.2, nofun⟩

theorem Segment.rewritten (kind : Rewrite) (choice : RewriteChoice)
    (stamps : ∀ r ∈ src.records, r.isMarker = false → 0 < r.seq) :
    Rewritten kind src (src.rewrite kind choice) := by
  cases kind with
  | reseal => exact rewritten_reseal stamps
  | columnarize => exact rewritten_columnarize stamps

/-- The offsets of the ads are those at which they stand. -/
theorem adOffs_spec {records : List (Record A)} :
    Forall₂ (fun off r => records[off]? = some r) (Segment.adOffs records) (ads records) := by
  have behind : ∀ (rest before : List (Record A)),
      Forall₂ (fun off r => (before ++ rest)[off]? = some r)
        ((rest.zipIdx before.length).filterMap fun entry => if entry.1.isMarker then none else some entry.2)
            (ads rest) := by
    intro rest
    induction rest with
    | nil => exact fun _ => .nil
    | cons r rest ih =>
      intro before
      have later := ih (before ++ [r])
      rw [append_assoc, singleton_append, length_append, length_singleton] at later
      rw [zipIdx_cons]
      cases marker : r.isMarker with
      | true => simpa [ads, marker] using later
      | false =>
        rw [filterMap_cons_some (show _ = some before.length by simp [marker])]
        rw [ads, filter_cons_of_pos (by simp [marker])]
        exact .cons (by simp) later
  exact behind records []

theorem modify_middle (before after : List α) (cell : α) (f : α → α) :
    (before ++ cell :: after).modify before.length f = before ++ f cell :: after := by
  induction before with
  | nil => rfl
  | cons first rest ih => exact congrArg (first :: ·) ih

theorem reconcileEntry_spec (records : out.records = before ++ o :: after)
    (here : src.records[off]? = some r) (lags : Lags o r) (keyed : o.isMarker = false) (counted : Counted out) :
    (src.reconcileEntry out (off, before.length)).records = before ++ { o with superseded := r.superseded } :: after ∧
      Counted (src.reconcileEntry out (off, before.length)) ∧
      (src.reconcileEntry out (off, before.length)).retired = out.retired := by
  have at_ : out.records[before.length]? = some o := by
    rw [records, getElem?_append_right (Nat.le_refl _), Nat.sub_self]; rfl
  unfold Segment.reconcileEntry
  rw [here, Option.bind_some, at_, Option.bind_some]
  have kept : o.superseded = r.superseded → before ++ { o with superseded := r.superseded } :: after = out.records := by
    intro same
    rw [← same]
    exact records.symm
  cases sup : r.superseded with
  | none =>
    rw [sup] at kept
    exact ⟨(kept (lags.superseded.elim id fun same => same.trans sup)).symm, counted, rfl⟩
  | some x =>
    rw [sup] at kept
    dsimp only
    split
    next unknown =>
      have current : o.superseded = none := lags.superseded.resolve_right fun same => unknown (same.trans sup)
      refine ⟨?_, counted.supersedeRec at_ keyed current x, retired_supersedeRec _⟩
      rw [Segment.supersedeRec, at_]
      change out.records.modify before.length _ = _
      rw [records, modify_middle]
    next known =>
      exact ⟨(kept (not_not.mp known)).symm, counted, rfl⟩

/-- Reconciling brings the ads at the front up to date, one after the other. -/
theorem reconcile_fold
    (stand : Forall₂ (fun off r => src.records[off]? = some r) offs srcAds) (reads : Forall₂ Lags outAds srcAds)
    (keyed : ∀ o ∈ outAds, o.isMarker = false) (records : out.records = before ++ (outAds ++ tail))
    (counted : Counted out) :
    ∃ settled, ((offs.zipIdx before.length).foldl (Segment.reconcileEntry src) out).records =
      before ++ (settled ++ tail) ∧
      Forall₂ SameReading srcAds settled ∧
      Counted ((offs.zipIdx before.length).foldl (Segment.reconcileEntry src) out) ∧
      ((offs.zipIdx before.length).foldl (Segment.reconcileEntry src) out).retired = out.retired := by
  induction stand generalizing outAds before out with
  | nil =>
    cases reads
    exact ⟨[], records, .nil, counted, rfl⟩
  | @cons off r _ _ here _ ih =>
    cases reads with
    | @cons o _ outRest _ lags rest =>
      obtain ⟨first, counted', retired'⟩ := reconcileEntry_spec records here lags (keyed o (.head _)) counted
      rw [← singleton_append, ← append_assoc] at first
      obtain ⟨settled, later, same, counted'', retired''⟩ :=
        ih rest (fun o member => keyed o (.tail _ member)) first counted'
      rw [length_append, length_singleton] at later counted'' retired''
      refine ⟨{ o with superseded := r.superseded } :: settled, ?_, .cons ⟨lags.seq, lags.body, rfl⟩ same, counted'',
        retired''.trans retired'⟩
      rw [zipIdx_cons, foldl_cons, later, append_assoc]
      rfl

/-- What a swap installs reads like its source, if for a reseal nothing in it was superseded. -/
theorem Rewritten.settle (rewritten : Rewritten kind src out)
    (current : kind = .reseal → ∀ r ∈ ads src.records, r.superseded = none) :
    Forall₂ SameReading (ads src.records) (ads (src.settle kind out).records) ∧
    Counted ((src.settle kind out).veiled kind) ∧
      (src.settle kind out).retired = false := by
  cases kind with
  | reseal =>
    refine ⟨?_, rewritten.counted, rewritten.retired⟩
    have still := current rfl
    have reads := rewritten.reads
    change Forall₂ SameReading (ads src.records) (ads out.records)
    generalize ads src.records = srcAds at still reads
    generalize ads out.records = outAds at reads
    induction reads with
    | nil => exact .nil
    | @cons o r _ _ lags _ ih =>
      have none_ := still r (.head _)
      refine .cons ⟨lags.seq, lags.body, ?_⟩ (ih fun r member => still r (.tail _ member))
      exact lags.superseded.elim (fun open_ => open_.trans none_.symm) id
  | columnarize =>
    obtain ⟨tail, front⟩ := rewritten.front rfl
    have counted : Counted out := ⟨rewritten.counted.dead, rewritten.counted.minSeq, rewritten.counted.positive,
      rewritten.counted.attained⟩
    obtain ⟨settled, records, same, counted', retired⟩ :=
      @reconcile_fold _ _ _ _ _ _ [] tail (adOffs_spec) rewritten.reads
      (fun o member => (mem_ads.mp member).2) front counted
    refine ⟨?_, counted'.veiled _, retired.trans rewritten.retired⟩
    have keyless : ads tail = [] := by
      have whole := congrArg ads front
      rw [ads_append, show ads (ads out.records) = ads out.records from by simp [ads]] at whole
      simpa using whole
    have keyed : ads settled = settled := by
      refine filter_eq_self.mpr fun r member => ?_
      obtain ⟨s, inSrc, reading⟩ := mem_of_forall₂ same member
      rw [reading.isMarker, (mem_ads.mp inSrc).2]
      rfl
    change Forall₂ SameReading (ads src.records) (ads (src.reconcile out).records)
    have all : (src.reconcile out).records = settled ++ tail := records
    rw [all, ads_append, keyless, append_nil, keyed]
    exact same

theorem Lags.aged (lags : Lags o r) (aged : Aged bound r r') : Lags o r' where
  seq := lags.seq.trans aged.seq.symm
  body := lags.body.trans aged.body.symm
  superseded := by
    rcases lags.superseded with open_ | same
    · exact .inl open_
    · rcases aged.superseded with kept | ⟨none_, -⟩
      · exact .inr (same.trans kept.symm)
      · exact .inl (same.trans none_)

/-- What is known of a built segment stays true as its source ages. -/
theorem Rewritten.age (rewritten : Rewritten kind src out)
    (aged : Forall₂ (Aged bound) src.records src'.records) : Rewritten kind src' out where
  reads := by
    have reads := rewritten.reads
    generalize ads out.records = outAds at reads
    generalize src.records = records, src'.records = records' at aged reads
    induction aged generalizing outAds with
    | nil => exact reads
    | @cons r r' rest rest' here _ ih =>
      have marker := here.isMarker
      cases keyed : r.isMarker with
      | true =>
        simp only [ads, filter_cons, keyed, marker, Bool.not_true] at reads ⊢
        exact ih _ reads
      | false =>
        simp only [ads, filter_cons, keyed, marker, Bool.not_false, if_true] at reads ⊢
        cases reads with
        | cons lags later => exact .cons (lags.aged here) (ih _ later)
  front := rewritten.front
  counted := rewritten.counted
  retired := rewritten.retired
  renewed := rewritten.renewed

end Rewrites

end Classad.ShardStore
