import Binning.Config.Basic
import Binning.Json.Decode
import Binning.Json.Printer

/-!
# Configurations as JSON

`Binning.Config.toText` writes every field of a configuration, and
`Binning.Config.ofText` reads a configuration from an object or from the sequence
of its fields, at every level.

An axis is a record with a tag, its kind, and the kind decides about its other
fields. It is therefore taken in as a whole first, wherever the kind stands in it:
a fault of the kind, and anything malformed in the axis, counts before a fault of
its fields (`Binning.AxisSpec.decode`).
-/

namespace Binning

/-! ### Axes -/

namespace AxisSpec

/-- An axis, with its kind. -/
def toJson : AxisSpec → Json
  | .uniform bins low high =>
    Json.record [("kind", Json.text "uniform"), ("bins", Json.int bins),
      ("min", Json.double low), ("max", Json.double high)]
  | .edges es =>
    Json.record [("kind", Json.text "edges"), ("edges", Json.list Json.double es)]

/-- A kind of axis. -/
inductive Kind where
  | uniform
  | edges
  deriving DecidableEq

/-- The kind of an axis. -/
def decodeKind : Decoder Kind
  | .string (some s) =>
    match s with
    | "uniform" => .ok .uniform
    | "edges" => .ok .edges
    | _ => .error (.unknownKind s)
  | v => Json.wrongType .kind v

/-- The kind among the members of an axis, and the other members. -/
def splitKind : Option Kind → List (Option String × Json) →
    Except ReadError (Option Kind × List (Option String × Json))
  | kind, [] => .ok (kind, [])
  | kind, (k, v) :: ms =>
    if k = some "kind" then do
      let kind ← Json.setOnce "kind" decodeKind kind v
      splitKind kind ms
    else do
      let (kind, rest) ← splitKind kind ms
      return (kind, (k, v) :: rest)

/-- The fields of a uniform axis, as far as they have been read. -/
structure UniformFields where
  bins : Option Nat
  low : Option Double
  high : Option Double

/-- The fields with a member put into them. -/
def UniformFields.put (f : UniformFields) (name : String) (v : Json) :
    Except ReadError UniformFields :=
  match name with
  | "bins" => do
    let bins ← Json.setOnce "bins" Json.decodeUnsigned f.bins v
    return { f with bins := bins }
  | "min" => do
    let low ← Json.setOnce "min" Json.decodeDouble f.low v
    return { f with low := low }
  | "max" => do
    let high ← Json.setOnce "max" Json.decodeDouble f.high v
    return { f with high := high }
  | _ => .ok f

/-- The edges of an axis, put into their field. -/
def putEdges (f : Option (List Double)) (name : String) (v : Json) :
    Except ReadError (Option (List Double)) :=
  match name with
  | "edges" => Json.setOnce "edges" (Json.decodeList Json.decodeDouble) f v
  | _ => .ok f

/-- An axis of a kind, from its other members. -/
def ofMembers (ms : List (Option String × Json)) : Kind → Except ReadError AxisSpec
  | .uniform => do
    let f ← Json.decodeMembers UniformFields.put ⟨none, none, none⟩ ms
    let bins ← Json.require "bins" f.bins
    let low ← Json.require "min" f.low
    let high ← Json.require "max" f.high
    return .uniform bins low high
  | .edges => do
    let f ← Json.decodeMembers putEdges none ms
    let es ← Json.require "edges" f
    return .edges es

/-- Nothing may follow the fields of an axis: there are `count` elements, and
`fields` of them are its fields. -/
def noMore (count : Nat) (fields : String) : List Json → Except ReadError Unit
  | [] => .ok ()
  | _ :: _ => .error (.invalidLength count (fields ++ " in sequence"))

/-- An axis of a kind, from the sequence of its other fields. -/
def ofElements (vs : List Json) : Kind → Except ReadError AxisSpec
  | .uniform => do
    let wanted := "struct variant AxisConfig::Uniform with 3 elements"
    let (bins, rest) ← Json.takeField 0 wanted Json.decodeUnsigned vs
    let (low, rest) ← Json.takeField 1 wanted Json.decodeDouble rest
    let (high, rest) ← Json.takeField 2 wanted Json.decodeDouble rest
    noMore vs.length "3 elements" rest
    return .uniform bins low high
  | .edges => do
    let wanted := "struct variant AxisConfig::Edges with 1 element"
    let (es, rest) ← Json.takeField 0 wanted (Json.decodeList Json.decodeDouble) vs
    noMore vs.length "1 element" rest
    return .edges es

/-- An axis that is sound as a whole. -/
def decodeSound : Decoder AxisSpec
  | .object ms => do
    let (kind, rest) ← splitKind none ms
    let kind ← Json.require "kind" kind
    ofMembers rest kind
  | .array [] => .error (.missingField "kind")
  | .array (v :: vs) => do
    let kind ← decodeKind v
    ofElements vs kind
  | v => Json.wrongType .axis v

/-- The number of values around an axis in a configuration. -/
def depthAbove : Nat := 3

/-- **An axis.** -/
def decode : Decoder AxisSpec := fun v =>
  if v.sound depthAbove then decodeSound v else .error .malformed

end AxisSpec

/-! ### Ranges -/

namespace RangeSpec

/-- A range. -/
def toJson (r : RangeSpec) : Json :=
  Json.record [("group_size", Json.int r.size), ("bins", Json.option Json.int r.bins)]

/-- The fields of a range, as far as they have been read. -/
structure Fields where
  size : Option Int
  bins : Option (Option Int)

/-- The fields with a member put into them. -/
def Fields.put (f : Fields) (name : String) (v : Json) : Except ReadError Fields :=
  match name with
  | "group_size" => do
    let size ← Json.setOnce "group_size" Json.decodeSigned f.size v
    return { f with size := size }
  | "bins" => do
    let bins ← Json.setOnce "bins" (Json.decodeOption Json.decodeSigned) f.bins v
    return { f with bins := bins }
  | _ => .ok f

/-- A range. -/
def decode : Decoder RangeSpec
  | .object ms => do
    let f ← Json.decodeMembers Fields.put ⟨none, none⟩ ms
    let size ← Json.require "group_size" f.size
    return ⟨size, f.bins.join⟩
  | .array vs => do
    let (size, vs) ←
      Json.takeField 0 "struct RangeConfig with 2 elements" Json.decodeSigned vs
    let (bins, vs) ← Json.takeDefault none (Json.decodeOption Json.decodeSigned) vs
    Json.noMore vs
    return ⟨size, bins⟩
  | v => Json.wrongType (.record "RangeConfig") v

end RangeSpec

/-! ### Dimensions -/

namespace Dimension

/-- A dimension. -/
def toJson (d : Dimension) : Json :=
  Json.record [("name", Json.option Json.text d.name), ("axis", d.axis.toJson),
    ("labels", Json.option (Json.list Json.text) d.labels),
    ("ranges", Json.list RangeSpec.toJson d.ranges)]

/-- The fields of a dimension, as far as they have been read. -/
structure Fields where
  name : Option (Option String)
  axis : Option AxisSpec
  labels : Option (Option (List String))
  ranges : Option (List RangeSpec)

/-- The fields with a member put into them. -/
def Fields.put (f : Fields) (name : String) (v : Json) : Except ReadError Fields :=
  match name with
  | "name" => do
    let name ← Json.setOnce "name" (Json.decodeOption Json.decodeString) f.name v
    return { f with name := name }
  | "axis" => do
    let axis ← Json.setOnce "axis" AxisSpec.decode f.axis v
    return { f with axis := axis }
  | "labels" => do
    let labels ←
      Json.setOnce "labels" (Json.decodeOption (Json.decodeList Json.decodeString)) f.labels v
    return { f with labels := labels }
  | "ranges" => do
    let ranges ← Json.setOnce "ranges" (Json.decodeList RangeSpec.decode) f.ranges v
    return { f with ranges := ranges }
  | _ => .ok f

/-- A dimension. -/
def decode : Decoder Dimension
  | .object ms => do
    let f ← Json.decodeMembers Fields.put ⟨none, none, none, none⟩ ms
    let axis ← Json.require "axis" f.axis
    return ⟨f.name.join, axis, f.labels.join, f.ranges.getD []⟩
  | .array vs => do
    let (name, vs) ← Json.takeDefault none (Json.decodeOption Json.decodeString) vs
    let (axis, vs) ←
      Json.takeField 1 "struct DimensionConfig with 4 elements" AxisSpec.decode vs
    let (labels, vs) ←
      Json.takeDefault none (Json.decodeOption (Json.decodeList Json.decodeString)) vs
    let (ranges, vs) ← Json.takeDefault [] (Json.decodeList RangeSpec.decode) vs
    Json.noMore vs
    return ⟨name, axis, labels, ranges⟩
  | v => Json.wrongType (.record "DimensionConfig") v

end Dimension

/-! ### Configurations -/

namespace Config

/-- A configuration. -/
def toJson (c : Config) : Json :=
  Json.record [("dimensions", Json.list Dimension.toJson c.dimensions)]

/-- **A configuration as a text.** -/
def toText (c : Config) : String := c.toJson.compact

/-- The dimensions of a configuration, put into their field. -/
def putDimensions (f : Option (List Dimension)) (name : String) (v : Json) :
    Except ReadError (Option (List Dimension)) :=
  match name with
  | "dimensions" => Json.setOnce "dimensions" (Json.decodeList Dimension.decode) f v
  | _ => .ok f

/-- A configuration. -/
def decode : Decoder Config
  | .object ms => do
    let f ← Json.decodeMembers putDimensions none ms
    let dimensions ← Json.require "dimensions" f
    return ⟨dimensions⟩
  | .array vs => do
    let (dimensions, vs) ←
      Json.takeField 0 "struct BinningConfig with 1 element" (Json.decodeList Dimension.decode) vs
    Json.noMore vs
    return ⟨dimensions⟩
  | v => Json.wrongType (.record "BinningConfig") v

/-- **The configuration that a text writes.** -/
def ofText (s : String) : Except ReadError Config := Json.readText decode s

end Config

end Binning
