import AvroColumns.Datum.Basic
import AvroColumns.Schema.Document

namespace AvroColumns

namespace Primitive

/-- Whether a value has the form of a primitive. Integers of either width go together, and so do
floating point numbers, and a text may be an identifier. -/
def accepts : Primitive → Datum → Bool
  | .null, .null => true
  | .boolean, .boolean _ => true
  | .int, .int _ | .int, .long _ | .long, .int _ | .long, .long _ => true
  | .float, .float _ | .float, .double _ | .double, .float _ | .double, .double _ => true
  | .string, .string _ => true
  | .bytes, .bytes _ => true
  | .bigDecimal, .bigDecimal _ => true
  | .uuid, .uuid _ | .uuid, .string _ => true
  | .date, .date _ => true
  | .timeMillis, .timeMillis _ => true
  | .timeMicros, .timeMicros _ => true
  | .timestamp unit zoned, .timestamp unit' zoned' _ => unit == unit' && zoned == zoned'
  | .duration, .duration _ => true
  | _, _ => false

end Primitive

namespace Schema

def accepts : Schema → Datum → Bool
  | .primitive p, v => p.accepts v
  | .decimal .., .decimal _ | .decimal .., .bytes _ | .decimal .., .fixed .. => true
  | .enum e, .enum _ symbol | .enum e, .string symbol => e.symbols.contains symbol
  | .fixed f, .fixed size _ => f.size == size
  | .array _, .array _ => true
  | .map _, .map _ => true
  | .record r, .record members => members.all fun (name, _) => (r.find? name).isSome
  | _, _ => false

end Schema

namespace Document

variable (d : Document)

/-- Whether a value has the form of a schema. Nothing has the form of a type that is not defined. -/
def accepts (s : Schema) (v : Datum) : Bool :=
  match d.resolve s with
  | .ok s => s.accepts v
  | .error _ => false

def branchIndex? (members : List Schema) (v : Datum) : Option (Nat × Datum) :=
  match v with
  | .union index inner => some (index, inner)
  | v => (members.findIdx? (d.accepts · v)).map (·, v)

/-- The member of a union that a value belongs to, and the value without its tag. A tag may point
beyond the members. -/
def branch? (members : List Schema) (v : Datum) : Option (Schema × Datum) := do
  let (index, inner) ← d.branchIndex? members v
  return (← members[index]?, inner)

end Document

end AvroColumns
