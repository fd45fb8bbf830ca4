import AvroColumns.Cell.Basic
import AvroColumns.Cell.Scalar
import AvroColumns.Numeric.Parsing

namespace AvroColumns

namespace Scalar

def flag? (s : String) : Option Bool :=
  let word := String.ofList ((Text.trimChars s.toList).map Char.toLower)
  if ["true", "yes", "y", "1"].contains word then some true
  else if ["false", "no", "n", "0"].contains word then some false
  else none

def instant? (s : String) : Option Instant :=
  let cs := Text.trimChars s.toList
  (Instant.ofRfc3339? cs).or (Instant.ofDate? cs)

def toText : Scalar → String
  | .boolean b => if b then "true" else "false"
  | .integer n => Numeral.text n
  | .double x => String.ofList (Shortest.plain.chars x)
  | .text s => s
  | .bytes b => Utf8.decodeLossy b
  | .decimal d => d.text
  | .instant t => t.offsetText

def clampInt64 (n : Int) : Int :=
  max (-9223372036854775808) (min 9223372036854775807 n)

def integer? : Scalar → Option Int
  | .boolean b => some (if b then 1 else 0)
  | .integer n => some n
  | .double x => x.roundHalfAway?.map clampInt64
  | .text s => Numeral.int64? (Text.trimChars s.toList)
  | .bytes _ => none
  | .decimal d => d.int64?
  | .instant t => some t.toMillis

def number? : Scalar → Option Binary64
  | .boolean b => some (if b then .one else .zero false)
  | .integer n => some (.ofInt n)
  | .double x => some x
  | .text s => Numeral.binary? (Text.trimChars s.toList)
  | .bytes _ => none
  | .decimal d => some d.toBinary
  | .instant t => some (.ofInt t.toMillis)

/-- The decimal of a scalar. Bytes are an integer in two's complement. -/
def bigNumber? : Scalar → Option Decimal
  | .integer n => some (.ofInt n)
  | .double x => Decimal.ofBinary? x
  | .text s => Decimal.ofChars? (Text.trimChars s.toList)
  | .bytes b => some (.ofBytes 0 b)
  | .decimal d => some d
  | .boolean _ | .instant _ => none

def boolean? : Scalar → Option Bool
  | .boolean b => some b
  | .integer n => some (n ≠ 0)
  | .double x => some !x.isZero
  | .text s => flag? s
  | .decimal d => some (d.unscaled ≠ 0)
  | .bytes _ | .instant _ => none

def date? : Scalar → Option Instant
  | .instant t => some t
  | .integer n => Instant.ofMillis? n
  | .text s => instant? s
  | _ => none

def binary? : Scalar → Option (List UInt8)
  | .bytes b => some b
  | .text s => some (Utf8.encode s)
  | _ => none

def cell? (s : Scalar) : Target → Option Cell
  | .string => some (.string s.toText)
  | .integer => s.integer?.map .integer
  | .number => s.number?.map .number
  | .bigNumber => s.bigNumber?.map .bigNumber
  | .boolean => s.boolean?.map .boolean
  | .date => s.date?.map .date
  | .binary => s.binary?.map .binary
  | .unsupported => none

end Scalar

def Datum.toCell (v : Datum) (kind : LeafKind) (target : Target) :
    Except ConversionFault (Option Cell) :=
  if target = .unsupported then .ok none
  else
    match Scalar.ofDatum? kind v with
    | .error found => .error ⟨found, target⟩
    | .ok none => .ok none
    | .ok (some s) =>
      match s.cell? target with
      | some c => .ok (some c)
      | none => .error ⟨.scalar s, target⟩

namespace LeafKind

def literalBytes? (s : String) : Option (List UInt8) :=
  s.toList.mapM fun c => if c.toNat < 256 then some (UInt8.ofNat c.toNat) else none

/-- The value that a literal declared for a leaf of a given kind stands for. A null literal is null
whatever the kind. -/
def ofLiteral? (kind : LeafKind) : Json → Option Datum
  | .null => some .null
  | j =>
    match kind with
    | .null | .duration => none
    | .boolean => j.bool?.map .boolean
    | .int | .date | .timeMillis => (j.int64?.filter fitsInt32).map .int
    | .long | .timeMicros | .timestamp _ => j.int64?.map .long
    | .float => j.number?.map fun x => .float x.toBinary32
    | .double => j.number?.map .double
    | .string | .enum | .uuid | .bigDecimal => j.string?.map .string
    | .bytes | .fixed | .decimal _ => (j.string?.bind literalBytes?).map .bytes

def literalCell (kind : LeafKind) (j : Json) (target : Target) :
    Except ConversionFault (Option Cell) :=
  match kind.ofLiteral? j with
  | some v => v.toCell kind target
  | none => .error ⟨.literal j, target⟩

end LeafKind

end AvroColumns
