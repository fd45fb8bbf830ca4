import AvroColumns.Calendar.Instant
import AvroColumns.Json.Basic
import AvroColumns.Numeric.Decimal
import AvroColumns.Text.Base64

namespace AvroColumns

inductive Cell
  | string (s : String)
  | integer (n : Int)
  | number (x : Binary64)
  | bigNumber (d : Decimal)
  | boolean (b : Bool)
  | date (t : Instant)
  | binary (b : List UInt8)
  deriving DecidableEq, Repr

/-- The cells of a row; none is an empty cell. -/
abbrev Row := List (Option Cell)

namespace Cell

/-- The cell for an item of an array. A number that is no integer of 64 bits becomes a binary one,
and an array or object becomes its text. -/
def ofJson : Json → Option Cell
  | .null => none
  | .bool b => some (.boolean b)
  | .int n => some (if fitsInt64 n then .integer n else .number (.ofInt n))
  | .real x => some (.number x)
  | .str s => some (.string s)
  | j => some (.string j.text)

/-- The item of an array for a cell. A number that is not finite leaves the item empty. -/
def toJson : Cell → Json
  | .string s => .str s
  | .integer n => .int n
  | .number x => if x.isFinite then .real x else .null
  | .bigNumber d => .str d.text
  | .boolean b => .bool b
  | .date t => .str t.zuluText
  | .binary b => .str (Base64.encode b)

end Cell

namespace Row

def toJson (r : Row) : Json :=
  .arr (r.map fun c => (c.map Cell.toJson).getD .null)

end Row

end AvroColumns
