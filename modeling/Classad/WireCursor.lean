import Classad.WireCodec

/-! Reading an encoded ad in place. A cursor walks the bytes with a 64-bit signed position, and
lengths and offsets come from the bytes themselves, so positions may wrap around; an access
outside the bytes is a panic. The same walk may be run watched: it then stops at the first
number from the bytes that would lead the cursor outside them. -/
namespace Classad.WireCursor
open Ast ByteParser WireCodec

/-- The panics of the runtime that reading may run into, and the end of a watched run. -/
inductive Panic where
  | sliceBounds
  | index
  | makeSlice
  | strays
  deriving DecidableEq, Repr

/-- The signed 64-bit number an integer wraps around to. -/
def wrap (number : Int) : Int := number.bmod (2 ^ 64)

/-- A slice expression. -/
def slice (b : Bytes) (low high : Int) : Except Panic Bytes :=
  if 0 ≤ low ∧ low ≤ high ∧ high ≤ b.length then .ok ((b.drop low.toNat).take (high - low).toNat)
  else .error .sliceBounds

structure Cursor where
  pos : Int
  ok : Bool
  deriving DecidableEq, Repr

/-- What an access returns, watched or not. -/
abbrev Access (α : Type) := ReaderT Bool (Except Panic) α

/-- A step of the cursor over the bytes. -/
abbrev Walk (α : Type) := ReaderT Bool (StateT Cursor (Except Panic)) α

/-- A result of its own inside a walk. -/
def inside {α : Type} (result : Access α) : Walk α := fun watched c => (result watched).map fun value => (value, c)

/-- The code does nothing here; a watched run ends if the test fails. -/
def watch (test : Bool) : Walk Unit := fun watched c => if watched && !test then .error .strays else .ok ((), c)

section Steps
variable (b : Bytes)

/-- `c.b[c.pos:]`. -/
def remaining : Walk Bytes := fun _ c =>
  (slice b c.pos b.length).map fun rest => (rest, c)

def isOk : Walk Bool := fun _ c => .ok (c.ok, c)

def position : Walk Int := fun _ c => .ok (c.pos, c)

def fail : Walk Unit := fun _ c => .ok ((), { c with ok := false })

def advance (count : Int) : Walk Unit := fun _ c => .ok ((), { c with pos := wrap (c.pos + count) })

/-- Advance past a number in groups of seven bits, if there is one. -/
def number : Walk Nat := do
  let rest ← remaining b
  match readGroups 10 rest with
  | none => do
    fail
    pure 0
  | some (value, after) => do
    advance (rest.length - after.length)
    pure value

/-- `cursor.uvarint`. -/
def uvarint : Walk Nat := do
  if ← isOk then number b else pure 0

/-- `cursor.byteAt`. -/
def byteAt : Walk UInt8 := fun _ c =>
  if !c.ok || decide (b.length ≤ c.pos) then .ok (0, { c with ok := false })
  else if c.pos < 0 then .error .index
  else .ok (b.getD c.pos.toNat 0, { c with pos := wrap (c.pos + 1) })

/-- `cursor.skip`. -/
def skip (count : Int) : Walk Unit := fun _ c =>
  if !c.ok || decide (count < 0) || decide (b.length < wrap (c.pos + count)) then .ok ((), { c with ok := false })
  else .ok ((), { c with pos := wrap (c.pos + count) })

/-- A length as the signed number it is converted to. A negative one is refused, one that is
just short of 2⁶³ carries positions past the largest integer. -/
def length : Walk Int := do
  let count := wrap (← uvarint b)
  watch (decide (count < 0) || decide (count + b.length < 2 ^ 63))
  pure count

/-- `c.skip(int(c.uvarint()))`. -/
def skipString : Walk Unit := do
  let count ← length b
  skip b count

/-- `cursor.readNameBytes`. -/
def readNameBytes : Walk Bytes := do
  let count ← length b
  let start ← position
  if !(← isOk) || decide (count < 0) || decide (b.length < wrap (start + count)) then do
    fail
    pure []
  else do
    let name ← inside fun _ => slice b start (wrap (start + count))
    advance count
    pure name

/-- Repeat a step as long as the cursor is sound. -/
def repeatOk (body : Walk Unit) : Nat → Walk Unit
  | 0 => pure ()
  | count + 1 => do
    if ← isOk then do
      body
      repeatOk body count
    else pure ()

/-- A counted sequence of steps. -/
def counted (body : Walk Unit) : Walk Unit := do
  let count ← uvarint b
  repeatOk body count

variable (inline : Bool)

def skipKey : Walk Unit := do
  if inline then skipString b else do
    let _ ← uvarint b

/-- What follows a tag, with the steps for the nodes and the records nested in it. -/
def skipPayload (node adBody : Walk Unit) : Tag → Walk Unit
  | .undefined | .error | .boolFalse | .boolTrue => pure ()
  | .int => do
    let _ ← number b
  | .real => skip b 8
  | .string => skipString b
  | .attrRef => do
    skip b 1
    let _ ← uvarint b
  | .attrRefStr => do
    skip b 1
    skipString b
  | .binOp => do
    skip b 1
    node
    node
  | .binOpStr => do
    skipString b
    node
    node
  | .unOp => do
    skip b 1
    node
  | .unOpStr => do
    skipString b
    node
  | .list => counted b node
  | .record => adBody
  | .func => do
    let _ ← uvarint b
    counted b node
  | .funcStr => do
    skipString b
    counted b node
  | .cond => do
    node
    node
    node
  | .elvis | .subscript => do
    node
    node
  | .select => do
    node
    let _ ← uvarint b
  | .selectStr => do
    node
    skipString b
  | .paren => node
  | .encrypted => do
    skipString b
    skipString b

/-- The hot pairs of a header, as the 32-bit numbers they are converted to. -/
def hotPairs : Nat → Walk (List (Nat × Nat))
  | 0 => pure []
  | count + 1 => do
    if ← isOk then do
      let key ← uvarint b
      let offset ← uvarint b
      let rest ← hotPairs count
      pure ((key % 2 ^ 32, offset % 2 ^ 32) :: rest)
    else pure []

mutual

/-- `skipNode`, with as many levels of nesting left as the first argument says. -/
def skipNode : Nat → Walk Unit
  | 0 => do
    if ← isOk then fail else pure ()
  | levels + 1 => do
    if ← isOk then do
      let tag ← byteAt b
      match Tag.ofByte tag with
      | none => fail
      | some tag => skipPayload b (skipNode levels) (skipAdBody levels) tag
    else pure ()

/-- `skipAdBody`. -/
def skipAdBody : Nat → Walk Unit
  | 0 => fail
  | levels + 1 => do
    if ← isOk then do
      let hotCount ← uvarint b
      let _ ← hotPairs b hotCount
      counted b do
        skipKey b inline
        skipNode levels
    else fail

end

/-- Skip a node at the top and return its bytes, if there is one. -/
def nodeBytes : Walk (Option Bytes) := do
  let start ← position
  skipNode b inline (maxDepth + 1)
  if ← isOk then do
    let stop ← position
    let node ← inside fun _ => slice b start stop
    pure (some node)
  else pure none

end Steps

section Accessors
variable (a : Bytes)

/-- What a walk from a position returns. -/
def runAt {α : Type} (pos : Int) (walk : Walk α) : Access α := fun watched =>
  (walk watched ⟨pos, true⟩).map Prod.fst

/-- `bodyStart`: whether names are inline, and the cursor past the header and an embedded table. -/
def bodyStart : Access (Option (Bool × Cursor)) := fun watched =>
  match a with
  | magic :: version :: flags :: _ =>
    if magic ≠ magicByte ∨ version ≠ formatVer then .ok none
    else do
      let (_, c) ← (if flags &&& flagStandalone ≠ 0 then counted a (skipString a) else pure () : Walk Unit)
        watched ⟨3, true⟩
      pure (if c.ok then some (decide (flags &&& flagInlineNames ≠ 0), c) else none)
  | _ => .ok none

/-- Walk from the start of the body; `bad` is the answer if there is none. -/
def fromBody {α : Type} (bad : α) (walk : Bool → Walk α) : Access α := fun watched => do
  match ← bodyStart a watched with
  | none => pure bad
  | some (inline, c) => (walk inline watched c).map Prod.fst

/-- The hot pairs and how many attributes follow them. -/
def readHeader : Walk (List (Nat × Nat) × Nat) := do
  let hotCount ← uvarint a
  let hots ← hotPairs a hotCount
  let attrCount ← uvarint a
  pure (hots, attrCount)

/-- `nodeBytesAt`. -/
def nodeBytesAt (offset : Int) : Access (Option Bytes) :=
  if offset < 0 ∨ a.length < offset then pure none else runAt offset (nodeBytes a false)

/-- `NodeLen`. -/
def nodeLen : Access (Option Int) :=
  runAt 0 do
    skipNode a false (maxDepth + 1)
    let stop ← position
    if ← isOk then pure (some stop) else pure none

/-- The node of the first entry whose key is the one wanted. -/
def findEntry {κ : Type} (inline : Bool) (key : Walk κ) (wanted : κ → Bool) : Nat → Walk (Option Bytes)
  | 0 => pure none
  | count + 1 => do
    if ← isOk then do
      let found ← key
      let start ← position
      skipNode a inline (maxDepth + 1)
      if !(← isOk) then pure none
      else if wanted found then do
        let stop ← position
        let node ← inside fun _ => slice a start stop
        pure (some node)
      else findEntry inline key wanted count
    else pure none

def keyId : Walk Nat := do
  let id ← uvarint a
  pure (id % 2 ^ 32)

/-- The offset of the last hot pair with the key. -/
def hotOffset (hots : List (Nat × Nat)) (key : Nat) : Option Nat :=
  (hots.reverse.find? fun pair => pair.1 = key).map Prod.snd

/-- `Lookup`. -/
def lookup (id : UInt32) : Access (Option Bytes) :=
  fromBody a none fun inline => do
    let (hots, attrCount) ← readHeader a
    if !(← isOk) then pure none else do
      let entriesStart ← position
      match hotOffset hots id.toNat with
      | some offset => inside (nodeBytesAt a (wrap (entriesStart + offset)))
      | none => findEntry a inline (keyId a) (· = id.toNat) attrCount

def foldEqualBytes (name other : Bytes) : Bool := foldASCII name = foldASCII other

/-- The entry a hot pair of an inline ad points at, if its name is one that is wanted. The
offset is not compared with the length. -/
def hotEntry (wanted : Bytes → Bool) (offset : Int) : Access (Option (Bytes × Bytes)) :=
  runAt offset do
    watch (decide (0 ≤ offset ∧ offset ≤ a.length))
    let name ← readNameBytes a
    if (← isOk) && wanted name then do
      let node ← nodeBytes a true
      pure (node.map fun node => (name, node))
    else pure none

/-- `LookupByName`. -/
def lookupByName (name : Bytes) : Access (Option Bytes) :=
  fromBody a none fun inline => if !inline then pure none else do
    let (hots, attrCount) ← readHeader a
    if !(← isOk) then pure none else do
      let entriesStart ← position
      let linear := findEntry a true (readNameBytes a) (fun found => foldEqualBytes found name) attrCount
      match hotOffset hots (nameHash32 name).toNat with
      | none => linear
      | some offset =>
        match ← inside (hotEntry a (fun found => foldEqualBytes found name) (wrap (entriesStart + offset))) with
        | some (_, node) => pure (some node)
        | none => linear

/-- The walk of the `ForEach` family over the entries: keys without a name are passed over, and
the callback ends the walk by returning false. What the callback saw, and the answer. -/
def forEntries {κ ν : Type} (inline : Bool) (key : Walk κ) (named : κ → Option ν) (fn : ν → Bytes → Bool) :
    Nat → Walk (List (ν × Bytes) × Bool)
  | 0 => do
    let sound ← isOk
    pure ([], sound)
  | count + 1 => do
    if ← isOk then do
      let found ← key
      match named found with
      | none => do
        skipNode a inline (maxDepth + 1)
        forEntries inline key named fn count
      | some name =>
        match ← nodeBytes a inline with
        | none => pure ([], false)
        | some node =>
          if fn name node then do
            let (rest, answer) ← forEntries inline key named fn count
            pure ((name, node) :: rest, answer)
          else pure ([(name, node)], true)
    else pure ([], false)

/-- Entries after a header that is passed over. -/
def forBody {κ ν : Type} (inline : Bool) (key : Walk κ) (named : κ → Option ν) (fn : ν → Bytes → Bool) :
    Walk (List (ν × Bytes) × Bool) := do
  let (_, attrCount) ← readHeader a
  forEntries a inline key named fn attrCount

variable (fn : Nat → Bytes → Bool)

/-- `ForEach`. -/
def forEach : Access (List (Nat × Bytes) × Bool) :=
  fromBody a ([], false) fun inline => forBody a inline (keyId a) some fn

/-- `ForEachIDNode`, for interned ads only. -/
def forEachIDNode : Access (List (Nat × Bytes) × Bool) :=
  fromBody a ([], false) fun inline => if inline then pure ([], false) else forBody a false (keyId a) some fn

/-- `ForEachNameNode`, for inline ads only. -/
def forEachNameNode (fn : Bytes → Bytes → Bool) : Access (List (Bytes × Bytes) × Bool) :=
  fromBody a ([], false) fun inline => if !inline then pure ([], false) else forBody a true (readNameBytes a) some fn

/-- `forEachNamed`, with what the table makes of a key: private and unknown ones have no name. -/
def forEachNamed (byName : Bytes → Option Text) (byId : Nat → Option Text) (fn : Text → Bytes → Bool) :
    Access (List (Text × Bytes) × Bool) :=
  fromBody a ([], false) fun inline =>
    if inline then forBody a true (readNameBytes a) byName fn else forBody a false (keyId a) byId fn

/-- Hand hot nodes to the callback until it returns false or there is none where one should be. -/
def hotNodes (fn : Nat → Bytes → Bool) (entriesStart : Int) : List (Nat × Nat) → Access (List (Nat × Bytes) × Bool)
  | [] => pure ([], true)
  | (id, offset) :: rest => do
    match ← nodeBytesAt a (wrap (entriesStart + offset)) with
    | none => pure ([], false)
    | some node =>
      if fn id node then do
        let (seen, answer) ← hotNodes fn entriesStart rest
        pure ((id, node) :: seen, answer)
      else pure ([(id, node)], true)

/-- The hot header of an ad that has one, handed over with the place where the entries start. -/
def withHots {α : Type} (empty : Bool → α) (bad : α) (allocate : Nat → Walk Unit)
    (each : Int → List (Nat × Nat) → Access α) : Walk α := do
  let hotCount ← uvarint a
  if hotCount = 0 then do
    let sound ← isOk
    pure (empty sound)
  else do
    allocate hotCount
    let hots ← hotPairs a hotCount
    let _ ← uvarint a
    if ← isOk then do
      let entriesStart ← position
      inside (each entriesStart hots)
    else pure bad

/-- `ForEachHotBuf`, for interned ads only; the pairs go to a buffer that grows with them. -/
def forEachHotBuf : Access (List (Nat × Bytes) × Bool) :=
  fromBody a ([], false) fun inline =>
    if inline then pure ([], false) else withHots a ([], ·) ([], false) (fun _ => pure ()) (hotNodes a fn)

/-- A slice of as many 32-bit numbers as there are said to be hot pairs. -/
def makeHots (count : Nat) : Walk Unit := do
  watch (decide (count ≤ sliceLimit 4))
  if count ≤ sliceLimit 4 then pure () else throw .makeSlice

/-- `ForEachHot`, which allocates two slices for the announced pairs. -/
def forEachHot : Access (List (Nat × Bytes) × Bool) :=
  fromBody a ([], false) fun _ => withHots a ([], ·) ([], false) makeHots (hotNodes a fn)

/-- Hand hot entries of an inline ad to the callback. -/
def hotNamed (fn : Nat → Bytes → Bytes → Bool) (entriesStart : Int) :
    List (Nat × Nat) → Access (List (Nat × Bytes × Bytes) × Bool)
  | [] => pure ([], true)
  | (hash, offset) :: rest => do
    match ← hotEntry a (fun _ => true) (wrap (entriesStart + offset)) with
    | some (name, node) =>
      if fn hash name node then do
        let (seen, answer) ← hotNamed fn entriesStart rest
        pure ((hash, name, node) :: seen, answer)
      else pure ([(hash, name, node)], true)
    | none => pure ([], false)

/-- `ForEachHotInlineBuf`, for inline ads only. -/
def forEachHotInlineBuf (fn : Nat → Bytes → Bytes → Bool) : Access (List (Nat × Bytes × Bytes) × Bool) :=
  fromBody a ([], false) fun inline =>
    if !inline then pure ([], false) else withHots a ([], ·) ([], false) (fun _ => pure ()) (hotNamed a fn)

/-- `AttrCount`. -/
def attrCount : Access Int :=
  fromBody a 0 fun _ => do
    let (_, count) ← readHeader a
    if ← isOk then pure (wrap count) else pure 0

/-- A string of a sealed node and what is done with it. Its length is not checked for being
negative. -/
def sealedField (node : Bytes) (next : Bytes → Walk (Option Bytes)) : Walk (Option Bytes) := do
  let count ← length node
  let start ← position
  if !(← isOk) || decide (node.length < wrap (start + count)) then pure none else do
    let field ← inside fun _ => slice node start (wrap (start + count))
    advance count
    next field

/-- `OpenEncryptedNode`. -/
def openEncryptedNode (node : Bytes) (sealer : Option Sealer) : Access (Option Bytes) :=
  match sealer, node with
  | some sealer, tag :: _ =>
    if tag ≠ Tag.encrypted.byte then pure none
    else runAt 1 (sealedField node fun nonce => sealedField node fun ciphertext => pure (sealer.opens nonce ciphertext))
  | _, _ => pure none

end Accessors

end Classad.WireCursor
