import AvroColumns.Calendar.Instant
import AvroColumns.Cell.Target
import AvroColumns.Datum.Basic
import AvroColumns.Text.Blank
import AvroColumns.Text.Utf8

namespace AvroColumns

inductive Scalar
  | boolean (b : Bool)
  | integer (n : Int)
  | double (x : Binary64)
  | text (s : String)
  | bytes (b : List UInt8)
  | decimal (d : Decimal)
  | instant (t : Instant)
  deriving DecidableEq, Repr

inductive Unconvertible
  | scalar (s : Scalar)
  | outOfRange (unit : String)
  | emptyDecimal
  | literal (j : Json)

structure ConversionFault where
  found : Unconvertible
  target : Target

namespace Scalar

def shownBytes : Nat := 32

def describe : Scalar → String
  | .boolean b => "boolean " ++ (if b then "true" else "false")
  | .integer n => "integer " ++ Numeral.text n
  | .double x => "double " ++ String.ofList (Shortest.plain.chars x)
  | .text s =>
    if shownBytes < s.utf8ByteSize then
      "text '" ++ String.ofList (Utf8.takeBytes shownBytes s.toList) ++ "...'"
    else "text '" ++ s ++ "'"
  | .bytes b => toString b.length ++ " bytes"
  | .decimal d => "decimal " ++ d.text
  | .instant t => "timestamp " ++ t.offsetText

end Scalar

def Unconvertible.text : Unconvertible → String
  | .scalar s => s.describe
  | .outOfRange unit => unit ++ " out of range"
  | .emptyDecimal => "undecodable decimal"
  | .literal j => "default " ++ j.text

def ConversionFault.message (f : ConversionFault) : String :=
  "cannot convert " ++ f.found.text ++ " to " ++ f.target.text

namespace Scalar

def ofInstant? (unit : String) (t : Option Instant) : Except Unconvertible (Option Scalar) :=
  match t with
  | some t => .ok (some (.instant t))
  | none => .error (.outOfRange unit)

def ofTimestamp (unit : TimeUnit) (n : Int) : Except Unconvertible (Option Scalar) :=
  match unit with
  | .millis => ofInstant? "timestamp" (Instant.ofMillis? n)
  | .micros => ofInstant? "timestamp" (Instant.ofMicros? n)
  | .nanos => .ok (some (.instant (Instant.ofNanos n)))

def ofInt (kind : LeafKind) (n : Int) : Except Unconvertible (Option Scalar) :=
  match kind with
  | .date => ofInstant? "date" (Instant.ofDays? n)
  | .timeMillis => ofInstant? "time" (Instant.ofMillis? n)
  | _ => .ok (some (.integer n))

def ofLong (kind : LeafKind) (n : Int) : Except Unconvertible (Option Scalar) :=
  match kind with
  | .timestamp unit => ofTimestamp unit n
  | .timeMicros => ofTimestamp .micros n
  | _ => .ok (some (.integer n))

def ofBytes (kind : LeafKind) (b : List UInt8) : Scalar :=
  match kind with
  | .decimal scale => .decimal (.ofBytes scale b)
  | _ => .bytes b

/-- The digits of a decimal. Its scale is that of its schema, and zero if that is no decimal. -/
def ofDecimal (kind : LeafKind) (b : List UInt8) : Except Unconvertible (Option Scalar) :=
  if b.isEmpty then .error .emptyDecimal
  else
    match kind with
    | .decimal scale => .ok (some (.decimal (.ofBytes scale b)))
    | _ => .ok (some (.decimal (.ofBytes 0 b)))

/-- The scalar of a leaf of a given kind. Null has none, nor have durations and containers, for
which there is no type of column. -/
def ofDatum? (kind : LeafKind) : Datum → Except Unconvertible (Option Scalar)
  | .null => .ok none
  | .union _ inner => ofDatum? kind inner
  | .boolean b => .ok (some (.boolean b))
  | .int n => ofInt kind n
  | .long n => ofLong kind n
  | .float x => .ok (some (.double x.toBinary64))
  | .double x => .ok (some (.double x))
  | .string s => .ok (some (.text s))
  | .enum _ symbol => .ok (some (.text symbol))
  | .uuid u => .ok (some (.text u.text))
  | .bytes b => .ok (some (ofBytes kind b))
  | .fixed _ b => .ok (some (ofBytes kind b))
  | .decimal b => ofDecimal kind b
  | .bigDecimal d => .ok (some (.decimal d))
  | .date days => ofInstant? "date" (Instant.ofDays? days)
  | .timeMillis n => ofInstant? "time" (Instant.ofMillis? n)
  | .timeMicros n => ofTimestamp .micros n
  | .timestamp unit _ n => ofTimestamp unit n
  | .duration _ | .array _ | .map _ | .record _ => .ok none

end Scalar

end AvroColumns
