import AvroColumns.Json.Basic

namespace AvroColumns

structure TypeName where
  space : String
  base : String
  deriving DecidableEq, Repr

namespace TypeName

def full (n : TypeName) : String :=
  if n.space = "" then n.base else n.space ++ "." ++ n.base

def within (n : TypeName) (space : String) : TypeName :=
  if n.space = "" then ⟨space, n.base⟩ else n

end TypeName

inductive TimeUnit
  | millis
  | micros
  | nanos
  deriving DecidableEq, Repr

inductive Primitive
  | null
  | boolean
  | int
  | long
  | float
  | double
  | bytes
  | string
  | bigDecimal
  | uuid
  | date
  | timeMillis
  | timeMicros
  | timestamp (unit : TimeUnit) (zoned : Bool)
  | duration
  deriving DecidableEq, Repr

structure EnumType where
  name : TypeName
  symbols : List String
  default : Option String
  deriving DecidableEq, Repr

structure FixedType where
  name : TypeName
  size : Nat
  deriving DecidableEq, Repr

inductive Carrier
  | bytes
  | fixed (f : FixedType)
  deriving DecidableEq, Repr

/-- A member of a record. Its aliases are further names that the record answers to. -/
structure Field (σ : Type) where
  name : String
  aliases : List String
  type : σ
  default : Option Json
  deriving Repr

structure RecordType (σ : Type) where
  name : TypeName
  fields : List (Field σ)
  deriving Repr

inductive Schema
  | primitive (p : Primitive)
  | decimal (precision scale : Nat) (carrier : Carrier)
  | enum (e : EnumType)
  | fixed (f : FixedType)
  | record (r : RecordType Schema)
  | array (items : Schema)
  | map (values : Schema)
  | union (members : List Schema)
  | ref (name : TypeName)
  deriving Repr, Inhabited

inductive Definition
  | enum (e : EnumType)
  | fixed (f : FixedType)
  | record (r : RecordType Schema)
  deriving Repr

inductive LeafKind
  | null
  | boolean
  | int
  | long
  | float
  | double
  | bytes
  | string
  | enum
  | fixed
  | decimal (scale : Nat)
  | bigDecimal
  | uuid
  | date
  | timeMillis
  | timeMicros
  | timestamp (unit : TimeUnit)
  | duration
  deriving DecidableEq, Repr

inductive Node
  | record (r : RecordType Schema)
  | map (values : Schema)
  | array (items : Schema)
  | union (members : List Schema)
  | fixed (f : FixedType)
  | leaf (kind : LeafKind)

namespace RecordType

variable {σ : Type} (r : RecordType σ)

/-- The member that answers to a name, its own or an alias. If several do, the last of them counts,
for a later member takes a name over from an earlier one's alias. -/
def find? (name : String) : Option (Field σ) :=
  r.fields.reverse.find? fun f => f.name == name || f.aliases.contains name

end RecordType

namespace Definition

def name : Definition → TypeName
  | .enum e => e.name
  | .fixed f => f.name
  | .record r => r.name

def toSchema : Definition → Schema
  | .enum e => .enum e
  | .fixed f => .fixed f
  | .record r => .record r

def node : Definition → Node
  | .enum _ => .leaf .enum
  | .fixed f => .fixed f
  | .record r => .record r

end Definition

namespace Primitive

def kind : Primitive → LeafKind
  | .null => .null
  | .boolean => .boolean
  | .int => .int
  | .long => .long
  | .float => .float
  | .double => .double
  | .bytes => .bytes
  | .string => .string
  | .bigDecimal => .bigDecimal
  | .uuid => .uuid
  | .date => .date
  | .timeMillis => .timeMillis
  | .timeMicros => .timeMicros
  | .timestamp unit _ => .timestamp unit
  | .duration => .duration

def label : Primitive → String
  | .null => "null"
  | .boolean => "boolean"
  | .int | .date | .timeMillis => "int"
  | .long | .timeMicros | .timestamp .. => "long"
  | .float => "float"
  | .double => "double"
  | .bytes | .bigDecimal => "bytes"
  | .string | .uuid => "string"
  | .duration => "fixed"

end Primitive

namespace Schema

def label : Schema → String
  | .primitive p => p.label
  | .decimal _ _ .bytes => "bytes"
  | .decimal _ _ (.fixed f) => f.name.full
  | .enum e => e.name.full
  | .fixed f => f.name.full
  | .record r => r.name.full
  | .array _ => "array"
  | .map _ => "map"
  | .union _ => "union"
  | .ref name => name.full

def name? : Schema → Option TypeName
  | .enum e => some e.name
  | .fixed f => some f.name
  | .record r => some r.name
  | _ => none

mutual

/-- The types defined in a schema, from left to right, an outer one before those inside it. -/
def definitions : Schema → List Definition
  | .enum e => [.enum e]
  | .fixed f => [.fixed f]
  | .decimal _ _ (.fixed f) => [.fixed f]
  | .record ⟨name, fields⟩ => .record ⟨name, fields⟩ :: definitionsOfFields fields
  | .array items => items.definitions
  | .map values => values.definitions
  | .union members => definitionsOfMembers members
  | _ => []

def definitionsOfMembers : List Schema → List Definition
  | [] => []
  | s :: ss => s.definitions ++ definitionsOfMembers ss

def definitionsOfFields : List (Field Schema) → List Definition
  | [] => []
  | ⟨_, _, s, _⟩ :: fs => s.definitions ++ definitionsOfFields fs

end

end Schema

namespace Node

def label : Node → String
  | .record _ => "record"
  | .map _ => "map"
  | .array _ => "array"
  | .union _ => "union"
  | .fixed _ => "fixed"
  | .leaf _ => "primitive"

def isContainer : Node → Bool
  | .record _ | .map _ | .array _ => true
  | _ => false

def leaf? : Node → Option LeafKind
  | .leaf kind => some kind
  | .fixed _ => some .fixed
  | _ => none

end Node

end AvroColumns
