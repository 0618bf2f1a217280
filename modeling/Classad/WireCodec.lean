import Classad.Ast
import Classad.TableWriter

/-! The binary form of an ad, byte by byte: the encoders, with interned or inline names, hot
headers and sealed values, and the decoder they all share. -/
namespace Classad.WireCodec
open Ast ByteParser TableWriter

section Format

def magicByte : UInt8 := 0xCA
def formatVer : UInt8 := 1
def flagStandalone : UInt8 := 1
def flagInlineNames : UInt8 := 2

/-- Node tags, in the order of their bytes. -/
inductive Tag where
  | undefined | error | boolFalse | boolTrue | int | real | string | attrRef
  | binOp | unOp | list | record | func | cond | elvis | select
  | subscript | paren | binOpStr | unOpStr | attrRefStr | funcStr | selectStr | encrypted
  deriving DecidableEq, Repr

def tags : List Tag :=
  [.undefined, .error, .boolFalse, .boolTrue, .int, .real, .string, .attrRef,
   .binOp, .unOp, .list, .record, .func, .cond, .elvis, .select,
   .subscript, .paren, .binOpStr, .unOpStr, .attrRefStr, .funcStr, .selectStr, .encrypted]

def Tag.byte (tag : Tag) : UInt8 := (tags.idxOf tag).toUInt8

def Tag.ofByte (byte : UInt8) : Option Tag := tags[byte.toNat]?

theorem Tag.ofByte_byte (tag : Tag) : Tag.ofByte tag.byte = some tag := by
  cases tag <;> rfl

def binOps : List Text :=
  ["+", "-", "*", "/", "%", "<", ">", "<=", ">=", "==", "!=", "&", "|", "^", "<<", ">>", ">>>",
   "&&", "||", "is", "isnt"].map ascii

def unOps : List Text := ["-", "+", "!", "~"].map ascii

def lowerByte (byte : UInt8) : UInt8 := if 65 ≤ byte ∧ byte ≤ 90 then byte + 32 else byte

/-- Lower-case the ASCII letters of a name. -/
def foldASCII (name : Text) : Text := name.map lowerByte

/-- FNV-1a over the lower-cased bytes. -/
def nameHash32 (name : Text) : UInt32 :=
  name.foldl (fun hash byte => (hash ^^^ (lowerByte byte).toUInt32) * 16777619) 2166136261

end Format

section Sealing

/-- Encryption under a data key. A call of `Seal` draws a fresh nonce, so what it returns
depends on which call it is, and it may fail. -/
structure Sealer where
  seals : Nat → Bytes → Option (Bytes × Bytes)
  opens : Bytes → Bytes → Option Bytes

/-- The attributes to seal, and what to seal them with. -/
structure Sealing where
  encrypt : Text → Bool
  sealer : Sealer

/-- The sealer for an attribute that is to be sealed. -/
def sealerFor (sealing : Option Sealing) (name : Text) : Option Sealer :=
  (sealing.filter fun policy => policy.encrypt name).map Sealing.sealer

end Sealing

section Encoding

/-- How names are written: inline, or as numbers of a table that knows them by their folded
form. -/
structure Encoder where
  toLower : Text → Text
  inline : Bool

variable (e : Encoder)

/-- `Intern` and the number it gives the name. -/
def Encoder.interned (name : Text) : Writer Text :=
  ⟨fun names =>
    let (number, names') := intern e.toLower name names
    (uvarint (number % 2 ^ 32), names')⟩

def Encoder.putKey (name : Text) : Writer Text :=
  if e.inline then .literal (lengthPrefixed name) else e.interned name

/-- The tag and the operator, as its number in the table or else in full, and the operands. -/
def operation (table : List Text) (listed unlisted : Tag) (op : Text) (operands : Writer Text) : Writer Text :=
  match table.findIdx? (· = op) with
  | some number => .literal [listed.byte] ++ (.literal [number.toUInt8] ++ operands)
  | none => .literal [unlisted.byte] ++ (.literal (lengthPrefixed op) ++ operands)

/-- An empty hot header, then the entries. -/
def body (count : Nat) (entries : Writer Text) : Writer Text :=
  .literal (uvarint 0) ++ (.literal (uvarint count) ++ entries)

mutual

/-- `encoder.node`. -/
def Encoder.node (e : Encoder) : Expr → Writer Text
  | .nil | .undefined => .literal [Tag.undefined.byte]
  | .error => .literal [Tag.error.byte]
  | .boolean true => .literal [Tag.boolTrue.byte]
  | .boolean false => .literal [Tag.boolFalse.byte]
  | .integer value => .literal [Tag.int.byte] ++ .literal (varint value)
  | .real value => .literal [Tag.real.byte] ++ .literal (littleEndian 8 value.toBits.toNat)
  | .string value => .literal [Tag.string.byte] ++ .literal (lengthPrefixed value)
  | .reference name scope =>
    if e.inline then .literal [Tag.attrRefStr.byte] ++ (.literal [scope] ++ .literal (lengthPrefixed name))
    else .literal [Tag.attrRef.byte] ++ (.literal [scope] ++ e.interned name)
  | .binary op left right => operation binOps .binOp .binOpStr op (e.node left ++ e.node right)
  | .unary op operand => operation unOps .unOp .unOpStr op (e.node operand)
  | .list elements => .literal [Tag.list.byte] ++ (.literal (uvarint elements.length) ++ e.nodes elements)
  | .record attributes => .literal [Tag.record.byte] ++ body attributes.length (e.entries attributes)
  | .call name args =>
    if e.inline then
      .literal [Tag.funcStr.byte] ++ (.literal (lengthPrefixed name) ++
        (.literal (uvarint args.length) ++ e.nodes args))
    else .literal [Tag.func.byte] ++ (e.interned name ++ (.literal (uvarint args.length) ++ e.nodes args))
  | .conditional condition whenTrue whenFalse =>
    .literal [Tag.cond.byte] ++ (e.node condition ++ (e.node whenTrue ++ e.node whenFalse))
  | .elvis left right => .literal [Tag.elvis.byte] ++ (e.node left ++ e.node right)
  | .select record attr =>
    if e.inline then .literal [Tag.selectStr.byte] ++ (e.node record ++ .literal (lengthPrefixed attr))
    else .literal [Tag.select.byte] ++ (e.node record ++ e.interned attr)
  | .subscript container index => .literal [Tag.subscript.byte] ++ (e.node container ++ e.node index)
  | .paren inner => .literal [Tag.paren.byte] ++ e.node inner

def Encoder.nodes (e : Encoder) : List Expr → Writer Text
  | [] => .literal []
  | head :: rest => e.node head ++ e.nodes rest

def Encoder.entries (e : Encoder) : List (Text × Expr) → Writer Text
  | [] => .literal []
  | (name, value) :: rest => (e.putKey name ++ e.node value) ++ e.entries rest

end

/-- `encoder.adBody`. -/
def Encoder.adBody (ad : ClassAd) : Writer Text := body ad.length (e.entries ad)

/-- `encNode`: the node as a sealed one. Where sealing fails the node is written in the clear. -/
def Encoder.encNode (sealer : Sealer) (call : Nat) (value : Expr) : Writer Text :=
  ⟨fun names =>
    let (plain, names₁) := (e.node value).run names
    match sealer.seals call plain with
    | none => (e.node value).run names₁
    | some (nonce, ciphertext) =>
      (Tag.encrypted.byte :: (lengthPrefixed nonce ++ lengthPrefixed ciphertext), names₁)⟩

/-- The hot header: how many pairs, and the pairs. -/
def hotHeader (hots : List (Nat × Nat)) : Bytes :=
  uvarint hots.length ++ hots.flatMap fun (key, offset) => uvarint key ++ uvarint offset

variable (toLower : Text → Text)

/-- `Encode`: the bytes, and the table as it is left. -/
def encode (ad : ClassAd) (names : List Text) : Bytes × List Text :=
  let (body, names') := (Encoder.adBody ⟨toLower, false⟩ ad).run names
  ([magicByte, formatVer, 0] ++ body, names')

variable (sealing : Option Sealing)

/-- An attribute at the top of an ad, sealed if it is to be. -/
def Encoder.entry (call : Nat) (name : Text) (value : Expr) : Writer Text :=
  match sealerFor sealing name with
  | some sealer => e.putKey name ++ e.encNode sealer call value
  | none => e.putKey name ++ e.node value

/-- How many values have been sealed once the attribute is written. -/
def nextCall (call : Nat) (name : Text) : Nat :=
  if (sealerFor sealing name).isSome then call + 1 else call

/-- The entries of an interned ad: their bytes, the hot pairs, which point at nodes and never
at sealed ones, and the table. `offset` is the length of the entries before, and `call` how
many of them were sealed. -/
def internedEntries (e : Encoder) (sealing : Option Sealing) (hot : Nat → Bool) :
    ClassAd → Nat → Nat → List Text → Bytes × List (Nat × Nat) × List Text
  | [], _, _, names => ([], [], names)
  | (name, value) :: rest, offset, call, names =>
    let number := (intern e.toLower name names).1 % 2 ^ 32
    let (entry, names₁) := (e.entry sealing call name value).run names
    let (more, hots, names₂) :=
      internedEntries e sealing hot rest (offset + entry.length) (nextCall sealing call name) names₁
    let pair := (number, (offset + (uvarint number).length) % 2 ^ 32)
    (entry ++ more, if (sealerFor sealing name).isNone && hot number then pair :: hots else hots, names₂)

/-- `EncodeWithHotEnc`. -/
def encodeWithHotEnc (hot : Nat → Bool) (sealing : Option Sealing) (ad : ClassAd)
    (names : List Text) : Bytes × List Text :=
  let (entries, hots, names') := internedEntries ⟨toLower, false⟩ sealing hot ad 0 0 names
  ([magicByte, formatVer, 0] ++ hotHeader hots ++ uvarint ad.length ++ entries, names')

/-- The encoder of inline ads, which has no table. -/
def inlineEncoder : Encoder := ⟨fun name => name, true⟩

/-- Whether an attribute goes to the hot region. -/
def isHot (hot : Text → Bool) (name : Text) : Bool :=
  (sealerFor sealing name).isNone && hot (foldASCII name)

/-- The entries of the hot region, and the hot pairs, which point at entries. -/
def hotEntries : ClassAd → Nat → Bytes × List (Nat × Nat)
  | [], _ => ([], [])
  | (name, value) :: rest, offset =>
    let (entry, _) := (inlineEncoder.entry none 0 name value).run []
    let (more, hots) := hotEntries rest (offset + entry.length)
    (entry ++ more, ((nameHash32 name).toNat, offset % 2 ^ 32) :: hots)

/-- The entries after the hot region. -/
def coldEntries (sealing : Option Sealing) : ClassAd → Nat → Bytes
  | [], _ => []
  | (name, value) :: rest, call =>
    let (entry, _) := (inlineEncoder.entry sealing call name value).run []
    entry ++ coldEntries sealing rest (nextCall sealing call name)

/-- `EncodeInlineWithHotEnc`: hot attributes come first. -/
def encodeInlineWithHotEnc (hot : Text → Bool) (sealing : Option Sealing) (ad : ClassAd) : Bytes :=
  let (region, hots) := hotEntries (ad.filter fun attr => isHot sealing hot attr.1) 0
  [magicByte, formatVer, flagInlineNames] ++ hotHeader hots ++ uvarint ad.length ++
    (region ++ coldEntries sealing (ad.filter fun attr => !isHot sealing hot attr.1) 0)

/-- `EncodeStandalone`: the ad's own table comes before its body. -/
def encodeStandalone (ad : ClassAd) : Bytes :=
  let (body, names) := (Encoder.adBody ⟨toLower, false⟩ ad).run []
  [magicByte, formatVer, flagStandalone] ++ uvarint names.length ++ names.flatMap lengthPrefixed ++ body

end Encoding

section Decoding

/-- The ways in which input is malformed, one for each message of the decoder. -/
inductive Malformed where
  | shortHeader
  | badMagic (found : UInt8)
  | unsupportedVersion (found : UInt8)
  | standaloneAd
  | notStandalone
  | inlineAd
  | notInline
  | requiresTable
  | nestingTooDeep
  | expressionTooDeep
  | unknownInternId (id : Nat)
  | unknownAttrRefId (id : Nat)
  | unknownFuncId (id : Nat)
  | unknownSelectId (id : Nat)
  | unknownTag (found : UInt8)
  | badOperator (id : UInt8)
  | unexpectedEnd
  | badUvarint
  | badVarint
  | shortFloat
  | longString (length : Nat)
  | overCount (count : Nat)
  | sealed
  | decrypting
  deriving DecidableEq, Repr

/-- A decoder returns an error or, where the runtime stops it, panics. -/
inductive Fault where
  | malformed (reason : Malformed)
  | panicked
  deriving DecidableEq, Repr

abbrev Decodes (α : Type) := Parser Fault α

def refuse {α : Type} (reason : Malformed) : Decodes α := throw (.malformed reason)

/-- The longest slice the runtime allocates, for elements of a given width in bytes. -/
def sliceLimit (width : Nat) : Nat := 2 ^ 48 / width

/-- `make` with a length or capacity. -/
def makeSlice (width count : Nat) : Decodes Unit :=
  if count ≤ sliceLimit width then pure () else throw .panicked

/-- How names are resolved, if at all, and what is done about sealed values. -/
structure Decoder where
  resolve : Option (Nat → Option Text)
  inline : Bool
  opener : Option Sealer
  redactSealed : Bool

variable (opener : Option Sealer) (redactSealed : Bool)

def inlineDecoder : Decoder := ⟨none, true, opener, redactSealed⟩

/-- The decoder of interned ads, its resolver reading a table. -/
def tableDecoder (names : List Text) (opener : Option Sealer) (redactSealed : Bool) : Decoder :=
  ⟨some (names[·]?), false, opener, redactSealed⟩

def nextByte : Decodes UInt8 := byteAt (.malformed .unexpectedEnd)

def readNumber : Decodes Nat := readUvarint (.malformed .badUvarint)

def readString : Decodes Bytes := readPrefixed (.malformed .badUvarint) fun length => .malformed (.longString length)

variable (d : Decoder)

/-- The name a number stands for. An inline decoder has nothing to resolve it with. -/
def Decoder.nameOf (unknown : Malformed) (id : Nat) : Decodes Text :=
  match d.resolve with
  | none => throw .panicked
  | some resolve =>
    match resolve (id % 2 ^ 32) with
    | none => refuse unknown
    | some name => pure name

def Decoder.resolved (unknown : Nat → Malformed) : Decodes Text := do
  let id ← readNumber
  d.nameOf (unknown id) id

def Decoder.key : Decodes Text :=
  if d.inline then readString else d.resolved .unknownInternId

/-- `opString` for an operator of the table. -/
def listedOperator (table : List Text) : Decodes Text := do
  let id ← nextByte
  match table[id.toNat]? with
  | none => refuse (.badOperator id)
  | some op => pure op

/-- A counted sequence of nodes. -/
def counted (element : Decodes Expr) : Decodes (List Expr) := do
  let count ← readNumber
  checkCount (.malformed (.overCount count)) count
  makeSlice 16 count
  many element count

/-- A sealed value for which there is no key, or the wrong one. -/
def Decoder.unopened (reason : Malformed) : Decodes Expr :=
  if d.redactSealed then pure .undefined else refuse reason

/-- Run a parser on bytes of its own, and drop what it leaves. -/
def within {α : Type} (p : Decodes α) (bytes : Bytes) : Decodes α := fun input =>
  match p bytes with
  | .ok (value, _) => .ok (value, input)
  | .error fault => .error fault

/-- A hot pair, which decoding skips. -/
def hotPair : Decodes Unit := do
  let _ ← readNumber
  let _ ← readNumber
  pure ()

/-- What follows a tag, with the parsers for the nodes and the records nested in it. -/
def Decoder.payload (node : Decodes Expr) (adBody : Decodes ClassAd) : Tag → Decodes Expr
  | .undefined => pure .undefined
  | .error => pure .error
  | .boolFalse => pure (.boolean false)
  | .boolTrue => pure (.boolean true)
  | .int => do
    let value ← readVarint (.malformed .badVarint)
    pure (.integer value)
  | .real => do
    let bits ← readUInt64 (.malformed .shortFloat)
    pure (.real (Float.ofBits bits))
  | .string => do
    let value ← readString
    pure (.string value)
  | .attrRef => do
    let scope ← nextByte
    let name ← d.resolved .unknownAttrRefId
    pure (.reference name scope)
  | .attrRefStr => do
    let scope ← nextByte
    let name ← readString
    pure (.reference name scope)
  | .binOp => do
    let op ← listedOperator binOps
    let left ← node
    let right ← node
    pure (.binary op left right)
  | .binOpStr => do
    let op ← readString
    let left ← node
    let right ← node
    pure (.binary op left right)
  | .unOp => do
    let op ← listedOperator unOps
    let operand ← node
    pure (.unary op operand)
  | .unOpStr => do
    let op ← readString
    let operand ← node
    pure (.unary op operand)
  | .list => do
    let elements ← counted node
    pure (.list elements)
  | .record => do
    let attributes ← adBody
    pure (.record attributes)
  | .func => do
    let name ← d.resolved .unknownFuncId
    let args ← counted node
    pure (.call name args)
  | .funcStr => do
    let name ← readString
    let args ← counted node
    pure (.call name args)
  | .cond => do
    let condition ← node
    let whenTrue ← node
    let whenFalse ← node
    pure (.conditional condition whenTrue whenFalse)
  | .elvis => do
    let left ← node
    let right ← node
    pure (.elvis left right)
  | .select => do
    let record ← node
    let attr ← d.resolved .unknownSelectId
    pure (.select record attr)
  | .selectStr => do
    let record ← node
    let attr ← readString
    pure (.select record attr)
  | .subscript => do
    let container ← node
    let index ← node
    pure (.subscript container index)
  | .paren => do
    let inner ← node
    pure (.paren inner)
  | .encrypted => do
    let nonce ← readString
    let ciphertext ← readString
    match d.opener with
    | none => d.unopened .sealed
    | some sealer =>
      match sealer.opens nonce ciphertext with
      | none => d.unopened .decrypting
      | some plain => within node plain

def Decoder.attribute (node : Decodes Expr) : Decodes (Text × Expr) := do
  let name ← d.key
  let value ← node
  pure (name, value)

/-- The hot header and the entries of an ad, with the parser for the values. -/
def Decoder.attributes (node : Decodes Expr) : Decodes ClassAd := do
  let hotCount ← readNumber
  let _ ← many hotPair hotCount
  let attrCount ← readNumber
  makeSlice 8 attrCount
  many (d.attribute node) attrCount

mutual

/-- `decoder.node`, with as many levels of nesting left as the first argument says. -/
def Decoder.node (d : Decoder) : Nat → Decodes Expr
  | 0 => refuse .expressionTooDeep
  | levels + 1 => do
    let byte ← nextByte
    match Tag.ofByte byte with
    | none => refuse (.unknownTag byte)
    | some tag => d.payload (d.node levels) (d.adBody levels) tag

/-- `decoder.adBody`. -/
def Decoder.adBody (d : Decoder) : Nat → Decodes ClassAd
  | 0 => refuse .nestingTooDeep
  | levels + 1 => d.attributes (d.node levels)

end

def maxDepth : Nat := 1000

def headerFlags : Decodes UInt8
  | magic :: version :: flags :: rest =>
    if magic ≠ magicByte then .error (.malformed (.badMagic magic))
    else if version ≠ formatVer then .error (.malformed (.unsupportedVersion version))
    else .ok (flags, rest)
  | _ => .error (.malformed .shortHeader)

/-- A parser's value, once it has run. -/
def result {α : Type} (p : Decodes α) (bytes : Bytes) : Except Fault α := (p bytes).map Prod.fst

/-- `Decode`, with or without a table. -/
def decode (table : Option (List Text)) : Bytes → Except Fault ClassAd := result do
  let flags ← headerFlags
  if flags &&& flagStandalone ≠ 0 then refuse .standaloneAd
  else if flags &&& flagInlineNames ≠ 0 then (inlineDecoder none false).adBody (maxDepth + 1)
  else match table with
    | none => refuse .requiresTable
    | some names => (tableDecoder names none false).adBody (maxDepth + 1)

/-- `decodeResolveEnc`, the table standing for the resolver. -/
def decodeResolveEnc (names : List Text) (opener : Option Sealer) (redactSealed : Bool) :
    Bytes → Except Fault ClassAd := result do
  let flags ← headerFlags
  if flags &&& flagStandalone ≠ 0 then refuse .standaloneAd
  else if flags &&& flagInlineNames ≠ 0 then refuse .inlineAd
  else (tableDecoder names opener redactSealed).adBody (maxDepth + 1)

def decodeInlineEnc : Bytes → Except Fault ClassAd := result do
  let flags ← headerFlags
  if flags &&& flagStandalone ≠ 0 then refuse .standaloneAd
  else if flags &&& flagInlineNames = 0 then refuse .notInline
  else (inlineDecoder opener redactSealed).adBody (maxDepth + 1)

def decodeStandalone : Bytes → Except Fault ClassAd := result do
  let flags ← headerFlags
  if flags &&& flagStandalone = 0 then refuse .notStandalone
  else do
    let count ← readNumber
    makeSlice 16 count
    let names ← many readString count
    (tableDecoder names none false).adBody (maxDepth + 1)

end Decoding

end Classad.WireCodec
