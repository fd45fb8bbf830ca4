import AvroColumns.Schema.Basic

namespace AvroColumns

structure UnknownType where
  name : String
  deriving DecidableEq, Repr

def UnknownType.message (t : UnknownType) : String :=
  "unknown named type '" ++ t.name ++ "'"

structure Document where
  root : Schema
  definitions : List Definition
  definitions_eq : definitions = root.definitions

namespace Document

def ofSchema (s : Schema) : Document :=
  ⟨s, s.definitions, rfl⟩

instance : Inhabited Document := ⟨ofSchema default⟩

variable (d : Document)

def definition? (name : String) : Option Definition :=
  d.definitions.reverse.find? (·.name.full == name)

def follow (name : TypeName) : Except UnknownType Definition :=
  match d.definition? name.full with
  | some t => .ok t
  | none => .error ⟨name.full⟩

/-- The schema, or what it refers to. -/
def resolve : Schema → Except UnknownType Schema
  | .ref name => (d.follow name).map Definition.toSchema
  | s => .ok s

def node : Schema → Except UnknownType Node
  | .primitive p => .ok (.leaf p.kind)
  | .decimal _ scale _ => .ok (.leaf (.decimal scale))
  | .enum _ => .ok (.leaf .enum)
  | .fixed f => .ok (.fixed f)
  | .record r => .ok (.record r)
  | .array items => .ok (.array items)
  | .map values => .ok (.map values)
  | .union members => .ok (.union members)
  | .ref name => (d.follow name).map Definition.node

end Document

end AvroColumns
