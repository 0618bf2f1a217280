import Classad.QueryProbe
import Classad.Wire

/-! Zone maps. A sealed segment keeps, for each zone attribute, the span of the numbers its
records hold for it as literals. A scan leaves a segment out when a probe of the query asks
for a number outside the span. -/
namespace Classad.ZoneMap
open Syntax Operators TreeWalk QueryProbe Wire

structure ZoneRange where
  min : Float
  max : Float

section
variable {host : Host}

/-- An attribute that zones are kept for. Zones are filed under the number the collection's
intern table has given the name, however the records of a segment are encoded. -/
structure ZoneAttr (intern : InternTable host) where
  name : String
  id : Nat
  interned : intern.dictionary.lookup name = some id

/-- The zones of a segment, by attribute number. -/
abbrev Zones := Nat → Option ZoneRange

/-- The number a node holds as a literal. -/
def literalFloat (node : Node) : Option Float := (literalValue node).bind numericFloat

/-- Stretch a span to a number. -/
def widen : Option ZoneRange → Float → ZoneRange
  | none, number => ⟨number, number⟩
  | some zone, number =>
    ⟨if number < zone.min then number else zone.min, if zone.max < number then number else zone.max⟩

variable {intern : InternTable host}

/-- The number a record holds for a zone attribute. -/
def attrNumber (mode : KeyMode host) (ad : Ad) (attr : ZoneAttr intern) : Option Float :=
  (wireLookup mode ad attr.name).bind literalFloat

/-- Enter what one record holds for one zone attribute. -/
def noteAttr (mode : KeyMode host) (ad : Ad) (zones : Zones) (attr : ZoneAttr intern) : Zones :=
  match attrNumber mode ad attr with
  | none => zones
  | some number => fun id => if id = attr.id then some (widen (zones id) number) else zones id

/-- `computeSegZones` over the data records of a segment; without zone attributes there are no
zones at all. -/
def computeSegZones (mode : KeyMode host) (attrs : List (ZoneAttr intern)) (records : List Ad) : Option Zones :=
  if attrs = [] then none
  else some (records.foldl (fun zones ad => attrs.foldl (noteAttr mode ad) zones) fun _ => none)

/-- The numbers of a probe, unless one of its values is no number. -/
def probeFloats (probe : Probe) : Option (List Float) := probe.vals.mapM numericFloat

/-- Whether a record with a number in the span could pass; the orderings look at the first
value only. -/
def zoneMayMatch (zone : ZoneRange) (op : ProbeOp) (vals : List Float) : Bool :=
  match op, vals with
  | .compare .equal, vals | .member, vals => vals.any fun val => decide (zone.min ≤ val) && decide (val ≤ zone.max)
  | .compare .less, val :: _ => decide (zone.min < val)
  | .compare .lessEqual, val :: _ => decide (zone.min ≤ val)
  | .compare .greater, val :: _ => decide (val < zone.max)
  | .compare .greaterEqual, val :: _ => decide (val ≤ zone.max)
  | _, _ => true

/-- Whether one probe rules the segment out. -/
def zoneExcludes (intern : InternTable host) (zones : Zones) (probe : Probe) : Bool :=
  match (intern.dictionary.lookup probe.attr).bind zones, probeFloats probe with
  | some zone, some (val :: vals) => !zoneMayMatch zone probe.op (val :: vals)
  | _, _ => false

def zonePrune (intern : InternTable host) (zones : Zones) (probes : List Probe) : Bool :=
  probes.any (zoneExcludes intern zones)

/-- A segment as a scan finds it. Only a sealed segment has zones. -/
structure Window (host : Host) where
  mode : KeyMode host
  records : List Ad
  zones : Option Zones

/-- The segments `scanWindows` walks. -/
def walkedWindows (intern : InternTable host) (probes : List Probe) (windows : List (Window host)) :
    List (Window host) :=
  windows.filter fun window => !(window.zones.any fun zones => zonePrune intern zones probes)

end
end Classad.ZoneMap
