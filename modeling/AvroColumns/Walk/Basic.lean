import AvroColumns.Datum.Branch
import AvroColumns.Text.Blank
import AvroColumns.Walk.Fault

/-!
# Walks

A walk follows the segments of a path through a value, with the schema of the value beside it. Unions
are settled before every step. Where a default schema is given, the walk also keeps the schema that
stands at the same place there, so that a member which the value's own schema does not have can take
the default declared for it.

A walk ends early, without a fault, at a null, at a key that a map does not have and at a position
beyond an array. `Guide.walkFrom` carries the segment last taken, at which a fault is told that comes
up after the last step.
-/

namespace AvroColumns

/-- What leads a walk: the schema of the values, the schema whose defaults stand in for missing
members, and whether a member that neither knows may be missing. -/
structure Guide where
  document : Document
  defaults : Option Document
  tolerant : Bool

/-- Where a walk has come to: a value, its schema, and the schema that stands at the same place in
the default schema. -/
structure Position where
  value : Datum
  schema : Schema
  fallback : Option Schema

inductive Walk
  | absent
  | defaulted (literal : Json) (kind : LeafKind)
  | reached (p : Position)

namespace Walk

inductive Step
  | onward (p : Position)
  | ended (w : Walk)

end Walk

namespace Guide

variable (g : Guide)

def node (s : Schema) : Except Walk.Fault Node :=
  match g.document.node s with
  | .ok n => .ok n
  | .error e => .error (.unknownType e.name)

/-- Settles a schema on the member to which a value belongs, as often as it is a union, and takes
the tags off the value. A tag on a value whose schema is no union says nothing. -/
def settle (place : String) (s : Schema) (v : Datum) : Except Walk.Fault (Schema × Datum) :=
  match v with
  | .union index inner =>
    match g.node s with
    | .error f => .error f
    | .ok (.union members) =>
      match members[index]? with
      | some member => settle place member inner
      | none => .error (.incompatible place (.noBranch (Datum.union index inner).label))
    | .ok _ => settle place s inner
  | v =>
    match g.node s with
    | .error f => .error f
    | .ok (.union members) =>
      match members.find? (g.document.accepts · v) with
      | some member => .ok (member, v)
      | none => .error (.incompatible place (.noBranch v.label))
    | .ok _ => .ok (s, v)

def defaultNode? (s : Schema) : Option Node :=
  match g.defaults with
  | none => none
  | some d => (d.node s).toOption

def isDefaultContainer (s : Schema) : Bool :=
  match g.defaultNode? s with
  | some n => n.isContainer
  | none => false

/-- The first container among the members, if a schema of the default schema is a union, else the
schema itself. -/
def defaultContainer? (s : Schema) : Option Schema :=
  match g.defaultNode? s with
  | none => none
  | some (.union members) => members.find? g.isDefaultContainer
  | some _ => some s

def defaultRecord? (fallback : Option Schema) : Option (RecordType Schema) :=
  match fallback.bind g.defaultNode? with
  | some (.record r) => some r
  | _ => none

def defaultValues? (fallback : Option Schema) : Option Schema :=
  match fallback.bind g.defaultNode? with
  | some (.map values) => some values
  | _ => none

def defaultItems? (fallback : Option Schema) : Option Schema :=
  match fallback.bind g.defaultNode? with
  | some (.array items) => some items
  | _ => none

/-- The place of the entries of a container, of either kind, in the default schema. -/
def entryFallback (container : Option Schema) : Option Schema :=
  match (container.bind g.defaultContainer?).bind g.defaultNode? with
  | some (.map values) => some values
  | some (.array items) => some items
  | _ => none

/-- The kind of leaf that the default of a member is for, which is that of the first member if the
member is a union. -/
def literalKind? (d : Document) (s : Schema) : Except UnknownType (Option LeafKind) := do
  match ← d.node s with
  | .union [] => return none
  | .union (first :: _) => return (← d.node first).leaf?
  | n => return n.leaf?

def standIn? (r : Option (RecordType Schema)) (name : String) :
    Except Walk.Fault (Option Walk) :=
  match g.defaults, r.bind (·.find? name) with
  | some d, some ⟨_, _, type, some literal⟩ =>
    match literalKind? d type with
    | .ok kind => .ok (kind.map (Walk.defaulted literal))
    | .error e => .error (.unknownType e.name)
  | _, _ => .ok none

def toMember (isLast : Bool) (place : String) (name : String) (r : RecordType Schema) (v : Datum)
    (fallback : Option Schema) : Except Walk.Fault Walk.Step := do
  let fallback := g.defaultRecord? fallback
  match r.find? name with
  | none =>
    if isLast then
      if let some w ← g.standIn? fallback name then return .ended w
    if g.tolerant then return .ended .absent
    throw (.missing place)
  | some member =>
    match v with
    | .record members =>
      match Datum.lookup name members with
      | none => return .ended .absent
      | some v => return .onward ⟨v, member.type, (fallback.bind (·.find? name)).map (·.type)⟩
    | v => throw (.incompatible place (.wrongValue "record" v.label))

def toEntry (place : String) (key : String) (values : Schema) (v : Datum)
    (fallback : Option Schema) : Except Walk.Fault Walk.Step :=
  match v with
  | .map entries =>
    match Datum.lookup key entries with
    | none => .ok (.ended .absent)
    | some v => .ok (.onward ⟨v, values, g.defaultValues? fallback⟩)
  | v => .error (.incompatible place (.wrongValue "map" v.label))

def toItem (place : String) (index : Int) (items : Schema) (v : Datum)
    (fallback : Option Schema) : Except Walk.Fault Walk.Step :=
  match v with
  | .array vs =>
    match if index < 0 then none else vs[index.toNat]? with
    | none => .ok (.ended .absent)
    | some v => .ok (.onward ⟨v, items, g.defaultItems? fallback⟩)
  | v => .error (.incompatible place (.wrongValue "array" v.label))

/-- The step along a segment, once unions are settled. A key of an array is read as a position, and
a position in a map as a key. -/
def along (isLast : Bool) (s : Segment) (n : Node) (v : Datum) (fallback : Option Schema) :
    Except Walk.Fault Walk.Step :=
  match s, n with
  | .wildcard, _ => .error (.unresolved s.text .wildcard)
  | .member name, .record r => g.toMember isLast s.text name r v fallback
  | .key k, .map values => g.toEntry s.text k values v fallback
  | .index i, .map values => g.toEntry s.text (Numeral.text i) values v fallback
  | .key k, .array items =>
    match Numeral.int64? (Text.trimChars k.toList) with
    | some i => g.toItem s.text i items v fallback
    | none => .error (.incompatible s.text (.notIndex k))
  | .index i, .array items => g.toItem s.text i items v fallback
  | .member _, n => .error (.incompatible s.text (.memberOf n.label))
  | _, n => .error (.incompatible s.text (.entryOf n.label))

def step (isLast : Bool) (s : Segment) (p : Position) : Except Walk.Fault Walk.Step := do
  let (schema, v) ← g.settle s.text p.schema p.value
  if v.isNull then return .ended .absent
  g.along isLast s (← g.node schema) v (p.fallback.bind g.defaultContainer?)

def arrive (place : String) (p : Position) : Except Walk.Fault Walk := do
  let (schema, v) ← g.settle place p.schema p.value
  if v.isNull then return .absent
  return .reached ⟨v, schema, p.fallback⟩

def walkFrom (previous : Segment) : List Segment → Position → Except Walk.Fault Walk
  | [], p => g.arrive previous.text p
  | s :: rest, p => do
    match ← g.step rest.isEmpty s p with
    | .ended w => return w
    | .onward p => walkFrom s rest p

def walk (segments : List Segment) (p : Position) : Except Walk.Fault Walk :=
  g.walkFrom (.member "$") segments p

def start (v : Datum) : Position :=
  ⟨v, g.document.root, g.defaults.map (·.root)⟩

end Guide

end AvroColumns
