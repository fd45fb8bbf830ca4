import AvroColumns.Numeric.Decimal
import AvroColumns.Schema.Basic
import AvroColumns.Text.Uuid

namespace AvroColumns

inductive Datum
  | null
  | boolean (b : Bool)
  | int (n : Int)
  | long (n : Int)
  | float (x : Binary32)
  | double (x : Binary64)
  | bytes (b : List UInt8)
  | string (s : String)
  | fixed (size : Nat) (b : List UInt8)
  | enum (index : Nat) (symbol : String)
  | union (index : Nat) (inner : Datum)
  | array (items : List Datum)
  | map (entries : List (String × Datum))
  | record (members : List (String × Datum))
  | date (days : Int)
  | timeMillis (n : Int)
  | timeMicros (n : Int)
  | timestamp (unit : TimeUnit) (zoned : Bool) (n : Int)
  | decimal (b : List UInt8)
  | bigDecimal (d : Decimal)
  | duration (b : List UInt8)
  | uuid (u : Uuid)
  deriving Repr, Inhabited

namespace Datum

def label : Datum → String
  | .null => "null"
  | .boolean _ => "boolean"
  | .int _ | .long _ => "integer"
  | .float _ | .double _ => "floating point number"
  | .bytes _ => "bytes"
  | .string _ | .uuid _ => "string"
  | .fixed .. => "fixed"
  | .enum .. => "enum"
  | .union .. => "union"
  | .array _ => "array"
  | .map _ => "map"
  | .record _ => "record"
  | .decimal _ | .bigDecimal _ => "decimal"
  | .date _ | .timeMillis _ | .timeMicros _ | .timestamp .. => "date/time"
  | .duration _ => "duration"

def lookup (name : String) (members : List (String × Datum)) : Option Datum :=
  (members.find? (·.1 == name)).map (·.2)

def isNull : Datum → Bool
  | .null => true
  | _ => false

end Datum

end AvroColumns
