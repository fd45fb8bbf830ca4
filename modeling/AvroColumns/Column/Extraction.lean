import AvroColumns.Cell.Conversion
import AvroColumns.Column.Basic
import AvroColumns.Walk.Basic

namespace AvroColumns

namespace Guide

variable (g : Guide)

def lastPlace (segments : List Segment) : String :=
  match segments.getLast? with
  | some s => s.text
  | none => "$"

def finish (segments : List Segment) (target : Target) (w : Walk) :
    Except Walk.Fault (Option Cell) := do
  let converted (r : Except ConversionFault (Option Cell)) : Except Walk.Fault (Option Cell) :=
    r.mapError Walk.Fault.conversion
  match w with
  | .absent => return none
  | .defaulted literal kind => converted (kind.literalCell literal target)
  | .reached p =>
    let n ← g.node p.schema
    match n.leaf? with
    | some kind => converted (p.value.toCell kind target)
    | none => throw (.unresolved (lastPlace segments) (.endsOn n.label))

def extractFrom (p : Position) (segments : List Segment) (target : Target) :
    Except Walk.Fault (Option Cell) := do
  g.finish segments target (← g.walk segments p)

def extract (v : Datum) (path : BoundPath) (target : Target) :
    Except Walk.Fault (Option Cell) :=
  g.extractFrom (g.start v) path.segments target

end Guide

end AvroColumns
