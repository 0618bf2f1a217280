import Classad.PartialDecode
import Classad.Wire

/-! The hot header of a stored slot. A match is decided on part of a wide ad, the attributes that its
Requirements lead to, and an encoder puts these in the header. -/
namespace Classad.MatchClosure
open Syntax Operators TreeWalk PartialDecode Wire

section
variable (host : Host)

/-- Whether partial decoding is sound as far as `eval` goes. -/
def selfRefsSafe (expr : Expr) : Bool := (walkPlan host expr .empty).partialSafe

/-- `astClosure`: the folded names that the roots lead to in an ad, and whether none of their
expressions calls `eval`. -/
def astClosure (attributes : Attributes) (roots : List String) : List String × Bool :=
  let held := partialDecode host attributes roots
  (held.map fun attr => host.toLower attr.1, held.all fun attr => selfRefsSafe host attr.2)

/-- `hotSetForEncode`: the names to put in the hot header, and whether the header may be flagged as
holding a match closure. -/
def hotSetForEncode (base roots : List String) (attributes : Attributes) : List String × Bool :=
  if roots.isEmpty || (astClosure host attributes roots).1.isEmpty then (base, false)
  else (base ++ (astClosure host attributes roots).1, (astClosure host attributes roots).2)

/-- The positions of the entries whose names are in the hot set, in their order. -/
def hotPositions (hot : List String) (attributes : Attributes) : List Nat :=
  attributes.zipIdx.filterMap fun entry => if host.toLower entry.1.1 ∈ hot then some entry.2 else none

end

/-- A stored slot: its encoded ad, and whether the hot header is flagged as holding the closure. -/
structure EncodedSlot where
  ad : Ad
  closureComplete : Bool

section
variable {host : Host} (table : InternTable host)

/-- The entry of an attribute under the number of its name. -/
def entryOf (attr : String × Expr) : Option (Key × Node) :=
  (table.dictionary.lookup attr.1).map fun number => (.id number, .plain attr.2)

/-- `EncodeWithHotClosure`, once all names have been interned. -/
def encodeSlot (base roots : List String) (attributes : Attributes) : Option EncodedSlot :=
  (attributes.mapM (entryOf table)).map fun entries =>
    ⟨⟨entries, hotPositions host (hotSetForEncode host base roots attributes).1 attributes⟩,
      (hotSetForEncode host base roots attributes).2⟩

variable (opening : Opening)

variable (ad : Ad)

/-- The attributes of the hot header that can be decoded. -/
def hotAttributes : Attributes :=
  ad.hotEntries.filterMap fun entry => do
    let name ← (KeyMode.interned table.dictionary).spelling entry.1
    let expr ← decodeNode opening entry.2
    some (name, expr)

/-- The folded names the hot header brings. -/
def hotPresent : List String := (hotAttributes table opening ad).map fun attr => host.toLower attr.1

end

end Classad.MatchClosure
