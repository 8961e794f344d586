import Binning.Axis.Basic
import Binning.Json.Decode
import Binning.Json.Printer

/-!
# Axes as JSON

An axis is written as a record of its edges and, if it has them, its labels
(`Binning.Axis.toText`). Reading it back (`Binning.Axis.ofText`) makes the same
checks as making an axis does.
-/

namespace Binning

namespace Axis

/-- An axis as a JSON value. The labels are left out if there are none. -/
def toJson (a : Axis) : Json :=
  Json.record (("edges", Json.list Json.double a.edges) ::
    (match a.labels with
      | some ls => [("labels", Json.list Json.text ls)]
      | none => []))

/-- An axis as a text. -/
def toText (a : Axis) : String := a.toJson.compact

/-- The fields of an axis, as far as they have been read. -/
structure Fields where
  edges : Option (List Double)
  labels : Option (Option (List String))

/-- The fields with a member put into them. -/
def Fields.put (f : Fields) (name : String) (v : Json) : Except ReadError Fields :=
  match name with
  | "edges" => do
    let edges ← Json.setOnce "edges" (Json.decodeList Json.decodeDouble) f.edges v
    return { f with edges := edges }
  | "labels" => do
    let labels ←
      Json.setOnce "labels" (Json.decodeOption (Json.decodeList Json.decodeString)) f.labels v
    return { f with labels := labels }
  | _ => .ok f

/-- The axis that edges and labels make. -/
def ofParts (edges : List Double) (labels : Option (List String)) : Except AxisError Axis := do
  let a ← ofEdges edges
  match labels with
  | some ls => a.withLabels ls
  | none => return a

/-- The edges and labels of an axis. -/
def decodeParts : Decoder (List Double × Option (List String))
  | .object ms => do
    let f ← Json.decodeMembers Fields.put ⟨none, none⟩ ms
    let edges ← Json.require "edges" f.edges
    return (edges, f.labels.join)
  | .array vs => do
    let (edges, vs) ←
      Json.takeField 0 "struct AxisDef with 2 elements" (Json.decodeList Json.decodeDouble) vs
    let (labels, vs) ←
      Json.takeDefault none (Json.decodeOption (Json.decodeList Json.decodeString)) vs
    Json.noMore vs
    return (edges, labels)
  | v => Json.wrongType (.record "AxisDef") v

/-- An axis. -/
def decode : Decoder Axis := fun v => do
  let (edges, labels) ← decodeParts v
  match ofParts edges labels with
  | .ok a => return a
  | .error e => throw (.invalidAxis e)

/-- **The axis that a text writes.** -/
def ofText (s : String) : Except ReadError Axis := Json.readText decode s

end Axis

end Binning
