import Classad.TreeWalk

/-! Encoded ads, read without decoding them. An encoded ad is kept as its entries, in the
order of its body, and the positions its hot header points at; what the entries are made of
is above the level of bytes. An attribute is looked up by its name or, where names are
interned, by the number a dictionary gives the name. -/
namespace Classad.Wire
open Syntax Operators TreeWalk

/-- A stored attribute value: an expression, or one sealed under the store's data key. -/
inductive Node where
  | plain (expr : Expr)
  | sealed (expr : Expr)

/-- A stored attribute key: the name itself, or the number a dictionary has given it. -/
inductive Key where
  | name (stored : String)
  | id (number : Nat)
  deriving DecidableEq, Repr

structure Ad where
  entries : List (Key × Node)
  hot : List Nat

/-- The entries the hot header points at, in its order. -/
def Ad.hotEntries (ad : Ad) : List (Key × Node) := ad.hot.filterMap (ad.entries[·]?)

/-- `Lookup`: the last pair of the hot header with the number, else the first entry with it. -/
def Ad.lookup (ad : Ad) (number : Nat) : Option Node :=
  match ad.hotEntries.reverse.find? (·.1 = .id number) with
  | some entry => some entry.2
  | none => (ad.entries.find? (·.1 = .id number)).map Prod.snd

/-- Lower-case the ASCII letters of a name. -/
def foldASCII (name : String) : String := String.ofList (name.toList.map Char.toLower)

def lowerByte (byte : UInt8) : UInt8 := if 65 ≤ byte ∧ byte ≤ 90 then byte + 32 else byte

def nameHash32 (name : String) : UInt32 :=
  name.toUTF8.data.foldl (fun hash byte => (hash ^^^ (lowerByte byte).toUInt32) * 16777619) 2166136261

/-- Whether the stored name is the given one, ASCII case aside. -/
def Key.foldEqual (name : String) : Key → Bool
  | .name stored => foldASCII stored == foldASCII name
  | .id _ => false

/-- Whether the hot header files the key under the hash of the given name. -/
def Key.sameHash (name : String) : Key → Bool
  | .name stored => nameHash32 stored == nameHash32 name
  | .id _ => false

/-- `LookupByName`: the last pair of the hot header with the name's hash, if the entry it
points at does have the name, else the first entry that has it. -/
def Ad.lookupByName (ad : Ad) (name : String) : Option Node :=
  match (ad.hotEntries.reverse.find? (·.1.sameHash name)).filter (·.1.foldEqual name) with
  | some entry => some entry.2
  | none => (ad.entries.find? (·.1.foldEqual name)).map Prod.snd

section
variable (host : Host)

/-- An attribute dictionary: the first spelling of each name, by number. No two spellings
fold to one name. A sealed segment's dictionary also has a perfect hash, which proposes a
number for any folded name; an intern table proposes none. -/
structure Dictionary where
  names : List String
  proposal : String → Option Nat
  distinct : (names.map host.toLower).Nodup

/-- The table of a collection: names are interned in the order they are first seen. -/
structure InternTable where
  names : List String
  distinct : (names.map host.toLower).Nodup

variable {host}

def InternTable.dictionary (table : InternTable host) : Dictionary host := ⟨table.names, fun _ => none, table.distinct⟩

/-- The number of a name. A proposed number is taken when its name equals the given one under
`EqualFold`; otherwise the folded names are searched. -/
def Dictionary.lookup (dict : Dictionary host) (name : String) : Option Nat :=
  let proposed := (dict.proposal (host.toLower name)).filter fun number =>
    match dict.names[number]? with
    | some stored => host.equalFold stored name
    | none => false
  proposed <|> dict.names.findIdx? fun stored => host.toLower stored == host.toLower name

variable (host)

/-- How the keys of an ad are to be read: as the names they are, or through a dictionary. -/
inductive KeyMode where
  | inline
  | interned (dict : Dictionary host)

variable {host}

/-- `wireLookup` and `wireLookupDict`. -/
def wireLookup (mode : KeyMode host) (ad : Ad) (name : String) : Option Node :=
  match mode with
  | .inline => ad.lookupByName name
  | .interned dict => (dict.lookup name).bind ad.lookup

/-- The spelling a key is decoded to. -/
def KeyMode.spelling : KeyMode host → Key → Option String
  | .inline, .name stored => some stored
  | .interned dict, .id number => dict.names[number]?
  | _, _ => none

end

/-- What a decoder does with a sealed value: open it with the data key, fail for want of the
key, or put undefined in its place. -/
inductive Opening where
  | keyed
  | keyless
  | redacting
  deriving DecidableEq, Repr

def decodeNode : Opening → Node → Option Expr
  | _, .plain expr => some expr
  | .keyed, .sealed expr => some expr
  | .keyless, .sealed _ => none
  | .redacting, .sealed _ => some .undefined

/-- `decodeWire`: all entries, or nothing if one of them cannot be decoded. -/
def decodeEntries {host : Host} (mode : KeyMode host) (opening : Opening) :
    List (Key × Node) → Option Attributes
  | [] => some []
  | (key, node) :: rest => do
    let name ← mode.spelling key
    let expr ← decodeNode opening node
    let others ← decodeEntries mode opening rest
    some ((name, expr) :: others)

def decodeWire {host : Host} (mode : KeyMode host) (opening : Opening) (ad : Ad) : Option Attributes :=
  decodeEntries mode opening ad.entries

/-- `LiteralValue` and `litToValue`: the value of a literal node. A sealed node is none. -/
def literalValue : Node → Option Value
  | .plain (.integer value) => some (.integer value)
  | .plain (.real value) => some (.real value)
  | .plain (.string value) => some (.string value)
  | .plain (.boolean value) => some (.boolean value)
  | .plain .undefined => some .undefined
  | .plain .error => some .error
  | _ => none

/-- An encoded ad together with how its keys are read. -/
structure StoredWire (host : Host) where
  mode : KeyMode host
  ad : Ad

def StoredWire.lookup {host : Host} (stored : StoredWire host) (name : String) : Option Node :=
  wireLookup stored.mode stored.ad name

def StoredWire.decode {host : Host} (stored : StoredWire host) (opening : Opening) : Option Attributes :=
  decodeWire stored.mode opening stored.ad

/-- The encoded ad a query is evaluated over, and the parent it is chained to. The two may
come from segments with different dictionaries. -/
structure WireScope (host : Host) where
  ad : StoredWire host
  parent : Option (StoredWire host)

/-- What looking a name up in one encoded ad comes to. -/
inductive Found where
  | absent
  | fellBack
  | value (value : Value)

def tryResolve {host : Host} (stored : StoredWire host) (name : String) : Found :=
  match stored.lookup name with
  | none => .absent
  | some node => match literalValue node with
    | none => .fellBack
    | some value => .value value

/-- The answer a reference gets once looking in an ad has ended the search. -/
def Found.answer : Found → Option Value
  | .absent => some .undefined
  | .fellBack => none
  | .value read => some read

/-- What the search comes to in the parent. -/
def WireScope.resolveParent {host : Host} (ws : WireScope host) (name : String) : Option Value :=
  match ws.parent with
  | none => some .undefined
  | some parent => (tryResolve parent name).answer

/-- `wireScope.resolve`; no answer means that it has fallen back. A `MY` reference is treated
like an unscoped one and goes on to the parent. -/
def WireScope.resolve {host : Host} (ws : WireScope host) (name : String) : AttributeScope → Option Value
  | .target => some .undefined
  | .parent => ws.resolveParent name
  | .none | .my => match tryResolve ws.ad name with
    | .absent => ws.resolveParent name
    | found => found.answer

end Classad.Wire
