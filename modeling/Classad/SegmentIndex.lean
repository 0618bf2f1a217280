import Mathlib.Algebra.Group.Nat.Defs
import Mathlib.Data.List.Sort
import Classad.BinarySearch
import Classad.PostingLists
import Classad.ZoneMap

/-! The in-memory index of a segment. Each record is filed, attribute by attribute, under the
literal it holds: a categorical index files strings and booleans by their text, a value index
files numbers and booleans as reals. What holds anything else goes to an exception set. A probe
is answered with the offsets the records it may admit are at. -/
namespace Classad.SegmentIndex
open Syntax Operators TreeWalk QueryProbe Wire ZoneMap PostingLists BinarySearch

/-! ## Bloom filters -/

/-- `mix64`, the finalizer of the hash. -/
def mix64 (x : UInt64) : UInt64 :=
  let x := x ^^^ (x >>> 30)
  let x := x * 0xbf58476d1ce4e5b9
  let x := x ^^^ (x >>> 27)
  let x := x * 0x94d049bb133111eb
  x ^^^ (x >>> 31)

def hashString (text : String) : UInt64 :=
  mix64 (text.toUTF8.data.foldl (fun hash byte => (hash ^^^ byte.toUInt64) * 1099511628211) 14695981039346656037)

/-- A filter of `m` bits, `m` a power of two, in which a hash has `k` places. -/
structure BloomFilter where
  bits : Nat → Bool
  m : UInt32
  k : Nat

def bloomMaxBits : Nat := 65536

/-- `newBloom` for `n` keys: ten bits for each, and `m / n * ln 2` places, rounded and brought
between 1 and 8. Rounding to at least `j + 1` is lying at or above `j + 1/2`. -/
def newBloom (n : Nat) : BloomFilter :=
  let targetBits := min (max (n * 10) 64) bloomMaxBits
  let m := 2 ^ (Nat.log2 (targetBits - 1) + 1)
  let ideal := Float.ofNat m / Float.ofNat n * 0.693147180559945309417232121458176568
  let k := if n = 0 then 1
    else 1 + ([1.5, 2.5, 3.5, 4.5, 5.5, 6.5, 7.5].countP fun bound : Float => decide (bound ≤ ideal))
  ⟨fun _ => false, UInt32.ofNat m, k⟩

/-- The places of a hash: its two halves make an arithmetic progression. -/
def BloomFilter.places (filter : BloomFilter) (hash : UInt64) : List Nat :=
  (List.range filter.k).map fun i =>
    ((hash.toUInt32 + UInt32.ofNat i * (hash >>> 32).toUInt32) &&& (filter.m - 1)).toNat

def BloomFilter.addHash (filter : BloomFilter) (hash : UInt64) : BloomFilter :=
  { filter with bits := setBits filter.places filter.bits hash }

def BloomFilter.mayContain (filter : BloomFilter) (hash : UInt64) : Bool :=
  PostingLists.mayContain filter.places filter.bits hash

/-! ## Postings -/

/-- A set of record offsets. -/
abbrev Bitmap := List Nat

def andNot (left right : Bitmap) : Bitmap := left.filter fun offset => !right.contains offset

/-- The postings of a categorical attribute: under the folded text and, for the case-sensitive
operators, under the exact one. `exactCase` has the only spelling of a folded key that has just
one, empty if it is the folded key itself; such a spelling has no bitmap in `exact`. -/
structure CatPostings where
  post : Postings String
  exact : Postings String
  exactCase : String → Option String
  exc : Bitmap
  posted : Bitmap
  bloom : BloomFilter

/-- The postings of a value attribute; `range` spans its keys. -/
structure ValPostings where
  post : Postings Float
  sortedKeys : List Float
  exc : Bitmap
  posted : Bitmap
  range : Option ZoneRange

def CatPostings.empty : CatPostings := ⟨[], [], fun _ => none, [], [], newBloom 0⟩

def ValPostings.empty : ValPostings := ⟨[], [], [], [], none⟩

/-- The key of a boolean in a categorical index. -/
def boolText (value : Bool) : String := if value then "true" else "false"

section
variable (host : Host)

/-- File what one record holds for a categorical attribute. -/
def indexCat (node : Option Node) (offset : Nat) (cp : CatPostings) : CatPostings :=
  match node with
  | none => cp
  | some node => match literalValue node with
    | some (.string text) => { cp with
        post := addOffset cp.post (host.toLower text) offset
        exact := addOffset cp.exact text offset
        posted := offset :: cp.posted }
    | some (.boolean value) => { cp with
        post := addOffset cp.post (boolText value) offset
        exact := addOffset cp.exact (boolText value) offset
        posted := offset :: cp.posted }
    | _ => { cp with exc := offset :: cp.exc }

/-- File what one record holds for a value attribute. -/
def indexVal (node : Option Node) (offset : Nat) (vp : ValPostings) : ValPostings :=
  match node with
  | none => vp
  | some node => match literalFloat node with
    | some number => { vp with post := addOffset vp.post number offset, posted := offset :: vp.posted }
    | none => { vp with exc := offset :: vp.exc }

/-- The spellings of a folded key. -/
def spellings (cp : CatPostings) (folded : String) : List String :=
  (keys cp.exact).filter fun text => host.toLower text == folded

/-- `finalizeExact`: drop the exact bitmap of every spelling that is the only one of its key. -/
def finalizeExact (cp : CatPostings) : CatPostings :=
  { cp with
    exactCase := fun folded => match spellings host cp folded with
      | [text] => some (if text = folded then "" else text)
      | _ => none
    exact := cp.exact.filter fun entry => (spellings host cp (host.toLower entry.1)).length != 1 }

/-- `finishStats` of a categorical attribute. -/
def CatPostings.finishStats (cp : CatPostings) : CatPostings :=
  { cp with
    bloom := (keys cp.post).foldl (fun filter key => filter.addHash (hashString key)) (newBloom cp.post.length) }

/-- The order of `sort.Float64s`, NaN first. -/
def floatLE (left right : Float) : Prop := ¬(right < left ∨ right.isNaN = true ∧ left.isNaN = false)

instance : DecidableRel floatLE := fun left right =>
  inferInstanceAs (Decidable ¬(right < left ∨ right.isNaN = true ∧ left.isNaN = false))

/-- `finishStats` of a value attribute. Looking up the cardinality of a key panics if the key is
not found again. -/
def ValPostings.finishStats (vp : ValPostings) : Option ValPostings :=
  let sorted := (keys vp.post).insertionSort floatLE
  if sorted.all fun key => (get vp.post key).isSome then
    some { vp with
      sortedKeys := sorted
      range := (keys vp.post).foldl (fun range key => some (widen range key)) none }
  else none

/-! ## Indexes -/

/-- The attributes a collection indexes, by number. -/
structure IndexSpec where
  catIDs : List Nat
  valIDs : List Nat
  names : Nat → String

/-- A record of a segment: its length in the log and, if it can be read, its ad. -/
structure StoredRecord where
  total : Nat
  ad : Option Ad

/-- The records below `upto`, by offset. A length of zero ends the log. -/
def walkRecords (upto : Nat) : Nat → List StoredRecord → List (Nat × Option Ad)
  | _, [] => []
  | offset, record :: rest =>
    if offset < upto ∧ record.total ≠ 0 then
      (offset, record.ad) :: walkRecords upto (offset + record.total) rest
    else []

structure SegIndex where
  all : Bitmap
  cat : Nat → Option CatPostings
  val : Nat → Option ValPostings

variable {host}

variable (spec : IndexSpec) (mode : KeyMode host)

/-- `attrNode`: the value of an indexed attribute in a record. -/
def IndexSpec.attrNode (ad : Ad) (id : Nat) : Option Node :=
  wireLookup mode ad (spec.names id)

def SegIndex.empty (spec : IndexSpec) : SegIndex where
  all := []
  cat id := if id ∈ spec.catIDs then some .empty else none
  val id := if id ∈ spec.valIDs then some .empty else none

def SegIndex.indexRecord (si : SegIndex) (offset : Nat) (ad : Ad) : SegIndex :=
  { si with
    cat := fun id => (si.cat id).map (indexCat host (spec.attrNode mode ad id) offset)
    val := fun id => (si.val id).map (indexVal (spec.attrNode mode ad id) offset) }

/-- One turn of the loop; a record that cannot be read is only counted. -/
def SegIndex.visit (si : SegIndex) (record : Nat × Option Ad) : SegIndex :=
  let si := { si with all := record.1 :: si.all }
  match record.2 with
  | none => si
  | some ad => si.indexRecord spec mode record.1 ad

/-- `buildSegIndex`; no index is a panic. -/
def buildSegIndex (upto : Nat) (records : List StoredRecord) :
    Option SegIndex :=
  let si := (walkRecords upto 0 records).foldl (SegIndex.visit spec mode) (.empty spec)
  let val := fun id => (si.val id).bind ValPostings.finishStats
  if spec.valIDs.all fun id => (val id).isSome then
    some { si with cat := fun id => (si.cat id).map fun cp => (finalizeExact host cp).finishStats, val := val }
  else none

/-! ## Probes -/

/-- A probe in the terms of an index: with texts for a categorical attribute, with reals for a
value attribute. `hi` bounds a band from above; `unsat` marks a probe nothing can pass. -/
structure UsableProbe where
  attrID : Nat
  cat : Bool
  op : ProbeOp
  svals : List String
  fvals : List Float
  hi : Option (CompareOp × Float)
  unsat : Bool

/-- The text of a value that a categorical index can have for a key. -/
def catExact : Value → Option String
  | .string text => some text
  | .boolean value => some (boolText value)
  | _ => none

variable (host)

def catFold (value : Value) : Option String := (catExact value).map host.toLower

def catUsable (id : Nat) (probe : Probe) : Option UsableProbe :=
  let usable (op : ProbeOp) (svals : List String) : UsableProbe := ⟨id, true, op, svals, [], none, false⟩
  match probe.op, probe.vals with
  | .present, _ => some (usable .present [])
  | .absent, _ => some (usable .absent [])
  | .compare .is, val :: _ => (catExact val).map fun text => usable (.compare .is) [text]
  | .compare .isnt, val :: _ => (catExact val).map fun text => usable (.compare .isnt) [text]
  | .truthy, _ => some (usable (.compare .equal) ["true"])
  | .untruthy, _ => some (usable (.compare .equal) ["false"])
  | .compare .equal, vals => (vals.mapM (catFold host)).map (usable (.compare .equal))
  | .compare .notEqual, vals => (vals.mapM (catFold host)).map (usable (.compare .notEqual))
  | .member, vals => (vals.mapM (catFold host)).map (usable .member)
  | _, _ => none

variable {host}

/-- Identity with a number is planned as equality, which admits more. -/
def valUsable (id : Nat) (probe : Probe) : Option UsableProbe :=
  let usable (op : ProbeOp) (fvals : List Float) : UsableProbe := ⟨id, false, op, [], fvals, none, false⟩
  match probe.op with
  | .present => some (usable .present [])
  | .absent => some (usable .absent [])
  | .compare .isnt => none
  | .truthy => some (usable (.compare .notEqual) [Float.ofInt 0])
  | .untruthy => some (usable (.compare .equal) [Float.ofInt 0])
  | .compare .is => (probe.vals.mapM numericFloat).map (usable (.compare .equal))
  | .compare op => (probe.vals.mapM numericFloat).map (usable (.compare op))
  | .member => (probe.vals.mapM numericFloat).map (usable .member)

/-- How `planIndex` plans one probe on an attribute it has found the number of. -/
def IndexSpec.usable (host : Host) (spec : IndexSpec) (id : Nat) (probe : Probe) : Option UsableProbe :=
  if id ∈ spec.catIDs then catUsable host id probe
  else if id ∈ spec.valIDs then valUsable id probe
  else none

/-! ## Candidates -/

variable (host)

/-- The records whose text is exactly the given one. -/
def exactBitmap (cp : CatPostings) (text : String) : Bitmap :=
  match get cp.post (host.toLower text) with
  | none => []
  | some bucket => match cp.exactCase (host.toLower text) with
    | some spelling => if (if spelling = "" then host.toLower text else spelling) = text then bucket else []
    | none => offsets cp.exact text

def CatPostings.probeOffsets (cp : CatPostings) (all : Bitmap) (up : UsableProbe) : Bitmap :=
  match up.op, up.svals with
  | .compare .equal, svals | .member, svals => svals.flatMap (offsets cp.post) ++ cp.exc
  | .compare .notEqual, text :: _ => andNot all (offsets cp.post text)
  | .present, _ => cp.posted ++ cp.exc
  | .absent, _ => andNot all cp.posted
  | .compare .is, text :: _ => exactBitmap host cp text
  | .compare .isnt, text :: _ => andNot all (exactBitmap host cp text)
  | _, _ => []

variable {host}

variable (keys : List Float)

/-- The number of keys the first of which a search for a bound passes over. -/
def searchKeys (reached : Float → Bool) : Nat :=
  search keys.length fun i => match keys[i]? with
    | some key => reached key
    | none => false

def lowerBoundF (t : Float) : Nat := searchKeys keys fun key => decide (t ≤ key)

def upperBoundF (t : Float) : Nat := searchKeys keys fun key => decide (t < key)

/-- The run of sorted keys a range probe admits. -/
def rangeSpan (op : CompareOp) (t : Float) (hi : Option (CompareOp × Float)) : Nat × Nat :=
  let first := match op with
    | .greater => upperBoundF keys t
    | .greaterEqual => lowerBoundF keys t
    | _ => 0
  let stop := match op with
    | .less => lowerBoundF keys t
    | .lessEqual => upperBoundF keys t
    | _ => keys.length
  let stop := match hi with
    | some (.less, bound) => lowerBoundF keys bound
    | some (.lessEqual, bound) => upperBoundF keys bound
    | _ => stop
  (first, max first stop)

def ValPostings.rangeOffsets (vp : ValPostings) (op : CompareOp) (t : Float) (hi : Option (CompareOp × Float)) :
    Bitmap :=
  let span := rangeSpan vp.sortedKeys op t hi
  ((vp.sortedKeys.take span.2).drop span.1).flatMap (offsets vp.post) ++ vp.exc

def ValPostings.probeOffsets (vp : ValPostings) (all : Bitmap) (up : UsableProbe) : Bitmap :=
  match up.op, up.fvals with
  | .compare .equal, fvals | .member, fvals => fvals.flatMap (offsets vp.post) ++ vp.exc
  | .compare .notEqual, t :: _ => andNot all (offsets vp.post t)
  | .present, _ => vp.posted ++ vp.exc
  | .absent, _ => andNot all vp.posted
  | .compare .less, t :: _ => vp.rangeOffsets .less t up.hi
  | .compare .lessEqual, t :: _ => vp.rangeOffsets .lessEqual t up.hi
  | .compare .greater, t :: _ => vp.rangeOffsets .greater t up.hi
  | .compare .greaterEqual, t :: _ => vp.rangeOffsets .greaterEqual t up.hi
  | _, _ => []

def SegIndex.probeOffsets (host : Host) (si : SegIndex) (up : UsableProbe) : Bitmap :=
  if up.cat then (si.cat up.attrID).elim [] fun cp => cp.probeOffsets host si.all up
  else (si.val up.attrID).elim [] fun vp => vp.probeOffsets si.all up

/-! ## Skipping -/

/-- A band whose bounds leave no number between them. -/
def UsableProbe.emptyBand (up : UsableProbe) : Bool :=
  match up.hi, up.fvals with
  | some (hiOp, hi), lo :: _ =>
    decide (hi < lo) || (lo == hi && (up.op == .compare .greater || hiOp == .less))
  | _, _ => false

def UsableProbe.neverMatches (up : UsableProbe) : Bool := up.unsat || up.emptyBand

def isRangeOp : CompareOp → Bool
  | .less | .lessEqual | .greater | .greaterEqual => true
  | _ => false

/-- No number of the span is on the right side of the bound. -/
def rangeBoundSkips (range : ZoneRange) (op : CompareOp) (t : Float) : Bool :=
  match op with
  | .less => decide (t ≤ range.min)
  | .lessEqual => decide (t < range.min)
  | .greater => decide (range.max ≤ t)
  | .greaterEqual => decide (range.max < t)
  | _ => false

def CatPostings.bloomAbsent (cp : CatPostings) (up : UsableProbe) : Bool :=
  up.svals.all fun text => !cp.bloom.mayContain (hashString text)

/-- `indexCanSkip` for a categorical attribute. -/
def CatPostings.canSkip (cp : CatPostings) (up : UsableProbe) : Bool :=
  cp.exc.isEmpty && match up.op with
    | .compare .equal | .member => cp.bloomAbsent up
    | _ => false

/-- `indexCanSkip` for a value attribute. -/
def ValPostings.canSkip (vp : ValPostings) (up : UsableProbe) : Bool :=
  vp.exc.isEmpty && match up.op, vp.range with
    | .present, _ | .absent, _ => false
    | op, none => op != .compare .notEqual
    | .compare .equal, some range | .member, some range =>
      up.fvals.all fun t => !(decide (range.min ≤ t) && decide (t ≤ range.max))
    | .compare op, some range =>
      isRangeOp op && ((up.fvals.head?.any fun t => rangeBoundSkips range op t) ||
        up.hi.any fun hi => rangeBoundSkips range hi.1 hi.2)
    | _, _ => false

def SegIndex.canSkip (si : SegIndex) (up : UsableProbe) : Bool :=
  up.neverMatches ||
    if up.cat then (si.cat up.attrID).elim false fun cp => cp.canSkip up
    else (si.val up.attrID).elim false fun vp => vp.canSkip up

end
end Classad.SegmentIndex
