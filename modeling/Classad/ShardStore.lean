import Mathlib.Algebra.Group.Nat.Defs
import Mathlib.Algebra.GroupWithZero.Nat
import Classad.Arena
import Classad.Chains
import Classad.BinarySearch

/-! A shard of a collection: records in append-only segments, each version of a key stamped
with the commit sequence it became current at and the one it was superseded at, a directory of
bucket heads whose records are chained, and the passes that move, drop and index segments.
A record carries the ad it was written for. What its bytes decode to may have the attributes in another
order and the names in another casing; the encoders are the subject of the wire modules. -/
namespace Classad.ShardStore
open Arena Chains Function

abbrev Key := List UInt8

/-- What a record holds. The last two kinds are keyless: a time checkpoint, and a payload that
belongs to the whole segment, its attribute dictionary or its columns. -/
inductive Body (A : Type) where
  | ad (key : Key) (ad : A)
  | checkpoint (millis : Nat)
  | dictionary
  deriving DecidableEq, Repr

/-- A record. `superseded` is `supersededBySeq`, and absent where that is `seqMax`. -/
structure Record (A : Type) where
  seq : Nat
  superseded : Option Nat
  next : Option Loc
  body : Body A
  totalLen : Nat
  deriving DecidableEq, Repr

def recordLen (keyLen adLen : Nat) : Nat := (32 + keyLen + 4 + adLen + 4 + 7) / 8 * 8

variable {A : Type}

namespace Record

/-- `recKey`: the key bytes, of which a keyless record has none. -/
def key (r : Record A) : Key :=
  match r.body with
  | .ad key _ => key
  | _ => []

variable (r : Record A)

/-- `recIsMarker`, which holds of every keyless record. -/
def isMarker : Bool :=
  match r.body with
  | .ad _ _ => false
  | _ => true

def isCurrent : Bool := r.superseded.isNone

/-- `recSuperseded > s0`, where `seqMax` is beyond every sequence. -/
def supersededAfter (s0 : Nat) : Bool :=
  match r.superseded with
  | none => true
  | some seq => decide (s0 < seq)

/-- The test of `forEachVisibleRef`. -/
def visibleAt (s0 : Nat) : Bool := !r.isMarker && decide (r.seq ≤ s0) && r.supersededAfter s0

end Record

/-- A segment. `retired` says that its slot in the shard is nil: readers that pinned it go on
reading it, nothing else finds it. Offsets count records. -/
structure Segment (A : Type) where
  records : List (Record A)
  size : Nat
  codec : Nat
  dead : Nat
  minSeq : Nat
  maxSup : Nat
  keyIndexed : Bool
  interned : Bool
  retired : Bool
  deriving DecidableEq, Repr

namespace Segment

variable (seg : Segment A)

def used : Nat := (seg.records.map Record.totalLen).sum

def fresh (size codec : Nat) : Segment A := ⟨[], size, codec, 0, 0, 0, false, false, false⟩

/-- The records that are found through the shard. -/
def live : List (Record A) := if seg.retired then [] else seg.records

/-- `append`, once the record is known to fit. -/
def append (seq : Nat) (next : Option Loc) (body : Body A) (totalLen : Nat) : Segment A :=
  { seg with
    records := seg.records ++ [⟨seq, none, next, body, totalLen⟩]
    minSeq := if seg.minSeq = 0 ∨ seq < seg.minSeq then seq else seg.minSeq }

/-- `appendMarker`: the marker's bytes count as dead. -/
def appendMarker (seq millis : Nat) : Segment A :=
  { seg.append seq none (.checkpoint millis) (recordLen 0 8) with dead := seg.dead + recordLen 0 8 }

/-- `appendDict`, and the dictionary published with it. It leaves `minSeq` alone. -/
def appendDict (dictLen : Nat) : Segment A :=
  { seg with
    records := seg.records ++ [⟨0, none, none, .dictionary, recordLen 0 dictLen⟩]
    dead := seg.dead + recordLen 0 dictLen
    interned := true }

def modifyRecord (off : Nat) (f : Record A → Record A) : Segment A :=
  { seg with records := seg.records.modify off f }

def setRecNext (off : Nat) (next : Option Loc) : Segment A :=
  seg.modifyRecord off fun r => { r with next := next }

def supersedeRec (off seq : Nat) : Segment A :=
  match seg.records[off]? with
  | none => seg
  | some r =>
    { seg.modifyRecord off fun r => { r with superseded := some seq } with
      dead := seg.dead + r.totalLen
      maxSup := max seg.maxSup seq }

/-- `visibleAt`: false only where nothing in the segment is visible. -/
def visibleAt (s0 : Nat) : Bool :=
  !(decide (s0 < seg.minSeq)) && !(decide (seg.used ≤ seg.dead) && decide (seg.maxSup ≤ s0))

end Segment

/-- The settings of time travel, in milliseconds. -/
structure Travel where
  maxDistance : Nat
  interval : Nat
  deriving DecidableEq, Repr

/-- What is fixed when the shard is made. A shard has no children to count where
`childParentHash` answers for no key. -/
structure Config where
  hash : Key → UInt64
  childParentHash : Key → Option UInt64
  segSize : Nat
  persistent : Bool
  travel : Option Travel

section TimeIndex

/-- `timeSeqEntry`: the commit sequence that was current at a wall-clock time. -/
structure Checkpoint where
  seq : Nat
  millis : Nat
  deriving DecidableEq, Repr

/-- `shardTimeIndex`. -/
structure TimeIndex where
  entries : List Checkpoint
  lastMillis : Nat
  deriving DecidableEq, Repr

namespace TimeIndex

variable (x : TimeIndex)

def due (now interval : Nat) : Bool :=
  x.lastMillis == 0 || decide (x.lastMillis + interval ≤ now)

def record (seq millis : Nat) : TimeIndex :=
  let clamped := match x.entries.getLast? with
    | some last => if millis < last.millis then last.millis else millis
    | none => millis
  ⟨x.entries ++ [⟨seq, clamped⟩], clamped⟩

/-- The last checkpoint at or before a time, by binary search. -/
def seqAt (millis : Nat) : Option Nat :=
  match x.entries with
  | [] => none
  | first :: _ =>
    if millis < first.millis then none
    else
      let lo := BinarySearch.search x.entries.length fun i =>
        match x.entries[i]? with
        | some entry => decide (millis < entry.millis)
        | none => true
      (x.entries[lo - 1]?).map Checkpoint.seq

def retainFloor (now maxDistance : Nat) : Nat :=
  if now < maxDistance then 0 else (x.seqAt (now - maxDistance)).getD 0

/-- Drop the checkpoints up to a floor, but for the last of them. -/
def trim (floor : Nat) : TimeIndex :=
  let cut := (x.entries.takeWhile fun entry => entry.seq ≤ floor).length
  if 1 < cut then { x with entries := x.entries.drop (cut - 1) } else x

end TimeIndex

end TimeIndex

structure Shard (A : Type) where
  segs : List (Segment A)
  act : Option Nat
  dir : UInt64 → Option Loc
  commitSeq : Nat
  count : Int
  gcFloor : Nat
  writeErr : Bool
  dirty : List Nat
  dirtySup : List Loc
  childCount : UInt64 → Int
  tseq : TimeIndex

namespace Shard

def empty : Shard A := ⟨[], none, fun _ => none, 0, 0, 0, false, [], [], fun _ => 0, ⟨[], 0⟩⟩

variable (σ : Shard A)

/-- The records of the live segments, segment by segment. -/
def arena : List (List (Record A)) := σ.segs.map Segment.live

/-- `segForLoc` and the record there. -/
def recordAt (l : Loc) : Option (Record A) := cellAt σ.arena l

/-- The record a reader that pinned the segment finds, retired or not. -/
def pinnedAt (l : Loc) : Option (Record A) := (σ.segs[l.seg]?).bind fun seg => seg.records[l.off]?

def links : Links Loc := fun l => (σ.recordAt l).map Record.next

/-- More steps than any chain has nodes. -/
def walkBound : Nat := σ.arena.flatten.length + 1

def modifySeg (id : Nat) (f : Segment A → Segment A) : Shard A := { σ with segs := σ.segs.modify id f }

def setRecNext (σ : Shard A) (l : Loc) (next : Option Loc) :
    Shard A := σ.modifySeg l.seg fun seg => seg.setRecNext l.off next

def supersedeRec (σ : Shard A) (l : Loc) (seq : Nat) :
    Shard A := σ.modifySeg l.seg fun seg => seg.supersedeRec l.off seq

/-! ## Finding a key -/

/-- Whether a location holds the current record of a key. -/
def holdsCurrent (key : Key) (l : Loc) : Bool :=
  match σ.recordAt l with
  | some r => r.isCurrent && r.key == key
  | none => false

def findCurrent (head : Option Loc) (key : Key) : Option Loc :=
  findFirst σ.links (σ.holdsCurrent key) σ.walkBound head

/-- Whether the sealed probe looks into a segment. -/
def isProbed (id : Nat) : Bool :=
  match σ.segs[id]? with
  | some seg => !seg.retired && seg.keyIndexed && σ.act != some id
  | none => false

/-- The records `forEachSealedRecord` visits. A key index lists the records of its segment
under the hashes of their keys, so a probe meets those whose key is the one asked for. -/
def sealedRecords (key : Key) : List Loc :=
  (List.range σ.segs.length).flatMap fun id =>
    if σ.isProbed id then
      (List.range ((σ.segs[id]?).elim 0 fun seg => seg.records.length)).filterMap fun off =>
        match σ.recordAt ⟨id, off⟩ with
        | some r => if r.key = key then some ⟨id, off⟩ else none
        | none => none
    else []

def lookupSealed (key : Key) : Option Loc :=
  (σ.sealedRecords key).find? fun l => (σ.recordAt l).any Record.isCurrent

end Shard

section Writes
variable (cfg : Config)

/-- `pendingPut`. `adLen` is the length of the compressed ad, and `room` says whether a segment
can be allocated should the write need one. -/
structure PendingPut (A : Type) where
  key : Key
  ad : A
  adLen : Nat
  codec : Nat
  room : Bool
  deriving DecidableEq, Repr

def PendingPut.recordLen (w : PendingPut A) : Nat := ShardStore.recordLen w.key.length w.adLen

namespace Shard

variable (σ : Shard A)

/-- The active segment, if a record of this codec and length goes there. -/
def activeFor (codec len : Nat) : Option Nat :=
  match σ.act with
  | none => none
  | some id => match σ.segs[id]? with
    | none => none
    | some seg => if seg.codec = codec ∧ seg.used + len ≤ seg.size then some id else none

def markDirty (id : Nat) : Shard A :=
  if cfg.persistent ∧ σ.dirty.getLast? ≠ some id then { σ with dirty := σ.dirty ++ [id] } else σ

/-- Append a record to a segment of the shard. -/
def appendTo (id seq : Nat) (next : Option Loc) (body : Body A) (len : Nat) : Shard A :=
  markDirty cfg (σ.modifySeg id fun seg => seg.append seq next body len) id

/-- The offset at which the next record of a segment stands. -/
def endOf (id : Nat) : Loc := ⟨id, (σ.segs[id]?).elim 0 fun seg => seg.records.length⟩

def allocate (size codec : Nat) : Shard A :=
  { σ with segs := σ.segs ++ [Segment.fresh size codec], act := some σ.segs.length }

def writeRecord (seq : Nat) (next : Option Loc) (w : PendingPut A) : Shard A × Option Loc :=
  match σ.activeFor w.codec w.recordLen with
  | some id => (appendTo cfg σ id seq next (.ad w.key w.ad) w.recordLen, some (σ.endOf id))
  | none =>
    if cfg.persistent ∧ ¬w.room then ({ σ with writeErr := true }, none)
    else
      let σ' := σ.allocate (max cfg.segSize w.recordLen) w.codec
      (appendTo cfg σ' σ.segs.length seq next (.ad w.key w.ad) w.recordLen, some ⟨σ.segs.length, 0⟩)

def noteSup (l : Loc) : Shard A :=
  if cfg.persistent then { σ with dirtySup := σ.dirtySup ++ [l] } else σ

variable (key : Key)

/-- A key the shard did not have. -/
def countNew : Shard A :=
  { σ with
    count := σ.count + 1
    childCount := match cfg.childParentHash key with
      | some parent => update σ.childCount parent (σ.childCount parent + 1)
      | none => σ.childCount }

/-- Supersede the version a put replaces, or count the key as new. -/
def replaceOld (head : Option Loc) (key : Key) (seq : Nat) : Shard A :=
  match σ.findCurrent head key with
  | some old => σ.supersedeRec old seq
  | none => match σ.lookupSealed key with
    | some old => noteSup cfg (σ.supersedeRec old seq) old
    | none => countNew cfg σ key

def put (seq : Nat) (w : PendingPut A) : Shard A :=
  let head := σ.dir (cfg.hash w.key)
  match writeRecord cfg σ seq head w with
  | (σ', none) => σ'
  | (σ', some new) =>
    let σ'' := replaceOld cfg σ' head w.key seq
    { σ'' with dir := update σ''.dir (cfg.hash w.key) (some new) }

/-- The current record of a key: the directory's chain first, then the sealed probe. -/
def locate : Option Loc :=
  match σ.findCurrent (σ.dir (cfg.hash key)) key with
  | some l => some l
  | none => σ.lookupSealed key

/-- `del`, with whether a key was removed and whether that emptied its parent. -/
def del (seq : Nat) (key : Key) : Shard A × Bool × Bool :=
  match locate cfg σ key with
  | none => (σ, false, false)
  | some old =>
    let σ' := noteSup cfg (σ.supersedeRec old seq) old
    let σ'' := { σ' with count := σ'.count - 1 }
    match cfg.childParentHash key with
    | none => (σ'', true, false)
    | some parent =>
      if σ''.childCount parent - 1 ≤ 0 then
        ({ σ'' with childCount := update σ''.childCount parent 0 }, true, true)
      else ({ σ'' with childCount := update σ''.childCount parent (σ''.childCount parent - 1) }, true, false)

/-- `get`: the ad under a key. -/
def get : Option A :=
  (locate cfg σ key).bind fun l => (σ.recordAt l).bind fun r =>
    match r.body with
    | .ad _ ad => some ad
    | _ => none

/-- `writeMarker`, into the active segment if it has room. -/
def writeMarker (seq millis : Nat) : Option (Shard A) :=
  match σ.act with
  | none => none
  | some id => match σ.segs[id]? with
    | none => none
    | some seg =>
      if seg.size < seg.used + ShardStore.recordLen 0 8 then none
      else some (markDirty cfg (σ.modifySeg id fun seg => seg.appendMarker seq millis) id)

def maybeCheckpoint (seq now : Nat) : Shard A :=
  match cfg.travel with
  | none => σ
  | some travel =>
    if σ.tseq.due now travel.interval then
      match writeMarker cfg σ seq now with
      | some σ' => { σ' with tseq := σ'.tseq.record seq now }
      | none => σ
    else σ

/-- `applyBatch`, of which `applyOne` and `applyWrites` are the cases with one request: all
writes at one fresh sequence. -/
def applyBatch (writes : List (PendingPut A)) (now : Nat) : Shard A :=
  let seq := σ.commitSeq + 1
  maybeCheckpoint cfg { writes.foldl (fun σ w => put cfg σ seq w) σ with commitSeq := seq } seq now

/-- `Delete`, as far as it holds the shard's lock. -/
def delete (now : Nat) : Shard A × Bool × Bool :=
  let seq := σ.commitSeq + 1
  match del cfg σ seq key with
  | (σ', true, emptied) => (maybeCheckpoint cfg { σ' with commitSeq := seq } seq now, true, emptied)
  | (σ', false, emptied) => (σ', false, emptied)

end Shard

/-! ## Transactions -/

/-- `txnWrite`: a buffered put or delete with the snapshot it was buffered under. -/
inductive TxnOp (A : Type) where
  | put (w : PendingPut A)
  | del (key : Key)
  deriving DecidableEq, Repr

def TxnOp.key : TxnOp A → Key
  | .put w => w.key
  | .del key => key

structure TxnWrite (A : Type) where
  op : TxnOp A
  base : Nat
  deriving DecidableEq, Repr

namespace Shard

/-- The records of a key that `conflictSince` looks at: those in its bucket's chain and those
the sealed probe finds. -/
def versionsOf (σ : Shard A) (key : Key) : List (Record A) :=
  ((walk σ.links σ.walkBound (σ.dir (cfg.hash key))).filterMap σ.recordAt).filter (fun r => r.key == key) ++
    (σ.sealedRecords key).filterMap σ.recordAt

def changedSince (s0 : Nat) (r : Record A) : Bool :=
  decide (s0 < r.seq) || match r.superseded with
    | some seq => decide (s0 < seq)
    | none => false

def conflictSince (σ : Shard A) (key : Key) (s0 : Nat) : Bool :=
  (versionsOf cfg σ key).any (changedSince s0) ||
    (!(versionsOf cfg σ key).any Record.isCurrent && decide (s0 < σ.gcFloor))

/-- One write of a transaction: the shard after it, whether it changed anything, and whether it
was applied. -/
def applyTxnWrite (fast : Bool) (seq : Nat) (σ : Shard A) (w : TxnWrite A) : Shard A × Bool × Bool :=
  if !fast && conflictSince cfg σ w.op.key w.base then (σ, false, false)
  else match w.op with
    | .put p => (put cfg σ seq p, true, true)
    | .del key =>
      let (σ', removed, _) := del cfg σ seq key
      (σ', removed, true)

/-- The loop of `applyTxn`, with the `ok` flag of every write. -/
def applyTxnWrites (fast : Bool) (seq : Nat) : Shard A → List (TxnWrite A) → Shard A × Bool × List Bool
  | σ, [] => (σ, false, [])
  | σ, w :: rest =>
    let (σ', changed, ok) := applyTxnWrite cfg fast seq σ w
    let (σ'', changed', oks) := applyTxnWrites fast seq σ' rest
    (σ'', changed || changed', ok :: oks)

/-- Whether nobody committed since the snapshot of the first write. -/
def isFast (σ : Shard A) : List (TxnWrite A) → Bool
  | [] => false
  | w :: _ => σ.commitSeq == w.base

/-- `applyTxn`. Where nobody committed since the snapshot no key is checked. -/
def applyTxn (σ : Shard A) (ws : List (TxnWrite A)) (now : Nat) : Shard A × List Bool :=
  let seq := σ.commitSeq + 1
  match applyTxnWrites cfg (σ.isFast ws) seq σ ws with
  | (σ', true, oks) => (maybeCheckpoint cfg { σ' with commitSeq := seq } seq now, oks)
  | (σ', false, oks) => (σ', oks)

end Shard

end Writes

/-! ## Sealing and reclaiming -/

section Maintenance
variable (cfg : Config)

namespace Shard

variable (σ : Shard A)

/-- `sealSegmentIndex`: a key index for a segment that is no longer written to. -/
def sealSegmentIndex (id : Nat) : Shard A :=
  if cfg.persistent ∧ σ.act ≠ some id then σ.modifySeg id fun seg => { seg with keyIndexed := true } else σ

/-- A bucket head leaves the directory if it lies in a segment. -/
def dropHead (id : Nat) (dir : UInt64 → Option Loc) (h : UInt64) : UInt64 → Option Loc :=
  if (dir h).any fun l => l.seg = id then update dir h none else dir

/-- `evictSegKeys`: the bucket heads that lie in an indexed segment leave the directory. -/
def evictSegKeys (id : Nat) : Shard A :=
  match σ.segs[id]? with
  | none => σ
  | some seg =>
    if seg.keyIndexed then
      { σ with dir := (seg.records.map fun r => cfg.hash r.key).foldl (dropHead id) σ.dir }
    else σ

/-- `retainFloorLocked`. -/
def retainFloor (σ : Shard A) (now : Nat) : Nat :=
  match cfg.travel with
  | some travel =>
    let floor := σ.tseq.retainFloor now travel.maxDistance
    if floor < σ.commitSeq then floor else σ.commitSeq
  | none => σ.commitSeq

/-- `spliceDeadFromChain`: the dead records leave the chain of one bucket. -/
def spliceDeadFromChain (dead : Nat → Bool) (h : UInt64) : Shard A :=
  match σ.dir h with
  | none => σ
  | some first =>
    let isDead := fun l : Loc => dead l.seg
    let head := skipDead σ.links isDead σ.walkBound (some first)
    let σ' := { σ with dir := update σ.dir h head }
    relink isDead σ.walkBound σ.walkBound head σ'
where
  /-- The loop that relinks the records that stay. -/
  relink (isDead : Loc → Bool) (rounds : Nat) : Nat → Option Loc → Shard A → Shard A
    | 0, _, σ => σ
    | _ + 1, none, σ => σ
    | fuel + 1, some l, σ =>
      match σ.links l with
      | none => σ
      | some next =>
        let next' := skipDead σ.links isDead rounds next
        relink isDead rounds fuel next' (if next' ≠ next then σ.setRecNext l next' else σ)

def retire (gone : Nat → Bool) : Shard A :=
  { σ with segs := σ.segs.mapIdx fun id seg => if gone id then { seg with retired := true } else seg }

/-- Retired segments leave the lists of what is still to be synced. -/
def dropDirtySegs (gone : Nat → Bool) : Shard A :=
  { σ with
    dirty := σ.dirty.filter fun id => !gone id
    dirtySup := σ.dirtySup.filter fun l => !gone l.seg }

/-- What both reclaiming passes do last. -/
def raiseFloor (retain : Nat) : Shard A :=
  { σ with gcFloor := max σ.gcFloor retain, tseq := σ.tseq.trim retain }

/-- Whether `reclaimDeadShard` unlinks a segment. -/
def isReclaimable (retain id : Nat) : Bool :=
  match σ.segs[id]? with
  | some seg => !seg.retired && σ.act != some id && !seg.records.isEmpty && decide (seg.used ≤ seg.dead) &&
      decide (seg.maxSup ≤ retain)
  | none => false

def reclaimDeadShard (now : Nat) : Shard A :=
  let retain := retainFloor cfg σ now
  let dead := σ.isReclaimable retain
  let ids := (List.range σ.segs.length).filter dead
  if ids.isEmpty then σ
  else
    let buckets := (ids.flatMap fun id => (σ.segs[id]?).elim [] fun seg => seg.records.map fun r =>
      cfg.hash r.key).eraseDups
    let spliced := buckets.foldl (fun σ h => spliceDeadFromChain σ dead h) σ
    ((spliced.retire dead).dropDirtySegs dead).raiseFloor retain

end Shard

/-! ## Compaction -/

/-- A round of `compactShard` between its two critical sections: the sources and the records of
theirs still to be copied, the destination segments, and where each current record went. -/
structure Compaction (A : Type) where
  retain : Nat
  origLen : Nat
  sources : List Nat
  todo : List Loc
  intern : Bool
  live : List (Segment A)
  hist : List (Segment A)
  moved : List (Loc × Loc)

/-- What the encoders and the allocator decide about one copy: its compressed length, the codec
it is written with, whether it starts a new destination, and the length of the dictionary that
closes the previous one. -/
structure CopyChoice where
  adLen : Nat
  codec : Nat
  fresh : Bool
  dictLen : Nat
  deriving DecidableEq, Repr

/-- `finalizeInterned` on the open destination of a stream. -/
def finalizeLast (intern : Bool) (dictLen : Nat) (segs : List (Segment A)) : List (Segment A) :=
  if intern then segs.modify (segs.length - 1) fun seg => seg.appendDict dictLen else segs

/-- The destinations of a stream once a record can be appended to the last of them. -/
def openDst (intern : Bool) (choice : CopyChoice) (size : Nat) (segs : List (Segment A)) : List (Segment A) :=
  if choice.fresh ∨ segs = [] then
    finalizeLast intern choice.dictLen segs ++ [Segment.fresh size choice.codec]
  else segs

namespace Shard

variable (σ : Shard A)

/-- Phase 1: choose the sources and stop writing to the active segment. -/
def beginCompaction (now : Nat) : Shard A × Compaction A :=
  let retain := retainFloor cfg σ now
  let sources := (List.range σ.segs.length).filter fun id =>
    match σ.segs[id]? with
    | some seg =>
      !seg.retired && !seg.records.isEmpty && !(decide (seg.used ≤ seg.dead) && decide (retain < seg.maxSup))
    | none => false
  let todo := sources.flatMap fun id =>
    (List.range ((σ.segs[id]?).elim 0 fun seg => seg.records.length)).map fun off => ⟨id, off⟩
  ({ σ with act := none }, ⟨retain, σ.segs.length, sources, todo, cfg.persistent, [], [], []⟩)

variable (c : Compaction A)

/-- Phase 2 for one source record, read without the lock. The copy is for the same ad; interned again,
it may spell the names of the ad otherwise. -/
def copyRecord (l : Loc) (choice : CopyChoice) : Compaction A :=
  match σ.pinnedAt l with
  | none => c
  | some r =>
    match r.body with
    | .dictionary => c
    | .checkpoint millis =>
      if c.retain < r.seq then
        let hist := openDst c.intern choice (max cfg.segSize (ShardStore.recordLen 0 8)) c.hist
        { c with hist := hist.modify (hist.length - 1) fun seg => seg.appendMarker r.seq millis }
      else c
    | .ad key ad =>
      let len := ShardStore.recordLen key.length choice.adLen
      match r.superseded with
      | none =>
        let live := openDst c.intern choice (max cfg.segSize len) c.live
        let dst : Loc := ⟨live.length - 1, (live[live.length - 1]?).elim 0 fun seg => seg.records.length⟩
        { c with
          live := live.modify dst.seg fun seg => seg.append r.seq none (.ad key ad) len
          moved := c.moved ++ [(l, dst)] }
      | some seq =>
        if c.retain < seq then
          let hist := openDst c.intern choice (max cfg.segSize len) c.hist
          let off := (hist[hist.length - 1]?).elim 0 fun seg => seg.records.length
          { c with
            hist := hist.modify (hist.length - 1) fun seg =>
              (seg.append r.seq none (.ad key ad) len).supersedeRec off seq }
        else c

/-- Supersessions that happened during the copy are carried over to the copies. -/
def transferSups (moved : List (Loc × Loc)) (live : List (Segment A)) : List (Segment A) :=
  moved.foldl (fun live (src, dst) =>
    match (σ.pinnedAt src).bind Record.superseded with
    | some seq => live.modify dst.seg fun seg => seg.supersedeRec dst.off seq
    | none => live) live

/-- Put a record at the head of its bucket. -/
def linkRecord (l : Loc) : Shard A :=
  match σ.recordAt l with
  | none => σ
  | some r =>
    let h := cfg.hash r.key
    { σ.setRecNext l (σ.dir h) with dir := update σ.dir h (some l) }

/-- The current records with a key in a range of segments. -/
def currentIn (first last : Nat) : List Loc :=
  (List.range' first (last - first)).flatMap fun id =>
    (List.range ((σ.segs[id]?).elim 0 fun seg => seg.records.length)).filterMap fun off =>
      match σ.recordAt ⟨id, off⟩ with
      | some r => if !r.isMarker && r.isCurrent then some ⟨id, off⟩ else none
      | none => none

/-- The shard with the destinations behind its segments, and no directory yet. -/
def withDestinations (live hist : List (Segment A)) : Shard A :=
  { σ with segs := σ.segs ++ live ++ hist, dir := fun _ => none }

/-- The current records the directory is rebuilt from: the copies that were not superseded
meanwhile, and what was written to the segments after the barrier. -/
def currentAfter (base : Nat) : List Loc :=
  ((c.moved.map fun (_, dst) => (⟨base + dst.seg, dst.off⟩ : Loc)).filter fun l =>
    (σ.recordAt l).any Record.isCurrent) ++
    σ.currentIn c.origLen base

/-- Phase 3: install the destinations, rebuild the directory and retire the sources. -/
def installCompaction (liveDict histDict : Nat) : Shard A :=
  let base := σ.segs.length
  let live := transferSups σ c.moved (finalizeLast c.intern liveDict c.live)
  let hist := finalizeLast c.intern histDict c.hist
  let σ₁ := σ.withDestinations live hist
  let current := σ₁.currentAfter c base
  let σ₂ := current.foldl (linkRecord cfg) σ₁
  let gone := fun id => decide (id < c.origLen) && c.sources.contains id
  let σ₃ := (σ₂.retire gone).dropDirtySegs gone
  let σ₄ := { σ₃ with
    count := current.length
    act := if !c.intern && !live.isEmpty then some (base + live.length - 1) else σ₃.act }
  σ₄.raiseFloor c.retain

end Shard

/-! ## The shard at work -/

/-- The shard, the compaction round in flight if there is one, and the clock. Rounds and
reclaims hold the maintenance lock, so there is one at a time. -/
structure System (A : Type) where
  shard : Shard A
  round : Option (Compaction A)
  clock : Nat

inductive Op (A : Type) where
  | commit (writes : List (PendingPut A))
  | delete (key : Key)
  | txn (writes : List (TxnWrite A))
  | sealSegment (id : Nat)
  | evict (id : Nat)
  | reclaim
  | beginRound
  | copy (choice : CopyChoice)
  | install (liveDict histDict : Nat)
  | abort
  | tick (elapsed : Nat)
  deriving DecidableEq, Repr

def System.step (s : System A) : Op A → System A
  | .commit writes => { s with shard := s.shard.applyBatch cfg writes s.clock }
  | .delete key => { s with shard := (s.shard.delete cfg key s.clock).1 }
  | .txn writes => { s with shard := (s.shard.applyTxn cfg writes s.clock).1 }
  | .sealSegment id => { s with shard := s.shard.sealSegmentIndex cfg id }
  | .evict id => { s with shard := s.shard.evictSegKeys cfg id }
  | .reclaim => match s.round with
    | none => { s with shard := s.shard.reclaimDeadShard cfg s.clock }
    | some _ => s
  | .beginRound => match s.round with
    | none =>
      let (shard, round) := s.shard.beginCompaction cfg s.clock
      { s with shard := shard, round := some round }
    | some _ => s
  | .copy choice => match s.round with
    | some c => match c.todo with
      | l :: rest => { s with round := some { s.shard.copyRecord cfg c l choice with todo := rest } }
      | [] => s
    | none => s
  | .install liveDict histDict => match s.round with
    | some c => match c.todo with
      | [] => { s with shard := s.shard.installCompaction cfg c liveDict histDict, round := none }
      | _ :: _ => s
    | none => s
  | .abort => { s with round := none }
  | .tick elapsed => { s with clock := s.clock + elapsed }

def System.initial : System A := ⟨Shard.empty, none, 0⟩

def System.run (s : System A) (ops : List (Op A)) : System A := ops.foldl (System.step cfg) s

end Maintenance

/-! ## Snapshot scans -/

/-- `segWindow`: a segment and how much of it there was. -/
structure Window where
  seg : Nat
  used : Nat
  deriving DecidableEq, Repr

/-- `buildWindowsLocked`. -/
def Shard.buildWindows (σ : Shard A) (s0 : Nat) : List Window :=
  (List.range σ.segs.length).filterMap fun id =>
    match σ.segs[id]? with
    | some seg =>
      if seg.retired ∨ seg.records = [] ∨ ¬seg.visibleAt s0 then none else some ⟨id, seg.records.length⟩
    | none => none

end Classad.ShardStore
