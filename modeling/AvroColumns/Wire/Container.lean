import AvroColumns.Schema.Document
import AvroColumns.Schema.Reader
import AvroColumns.Wire.Deflate
import AvroColumns.Wire.Value

/-!
# Container files

A file of values with their schema. A header gives the schema, the way in which blocks are compressed
and a marker; each block holds a number of values and ends with the marker. Values are read up to the
first fault, and the values before it count.
-/

namespace AvroColumns

inductive Codec
  | none
  | deflate
  deriving DecidableEq, Repr

inductive Container.Fault
  | shortHeader
  | wrongMagic
  | metadata (cause : Wire.Fault)
  | noSchema
  | schema (defect : Schema.Defect)
  | names (cause : Wire.Fault)
  | codecNotText
  | unknownCodec (name : String)
  | shortMarker
  | block (cause : Wire.Fault)
  | shortBlockMarker
  | wrongBlockMarker
  | notDeflated
  | value (cause : Wire.Fault)
  | emptyValue
  deriving Repr

def Container.Fault.message : Container.Fault → String
  | .shortHeader => "Failed to read header"
  | .wrongMagic => "wrong magic in header"
  | .metadata cause | .names cause | .block cause | .value cause => cause.message
  | .noSchema => "Failed to get JSON from avro.schema key in map"
  | .schema defect => defect.message
  | .codecNotText => Wire.Fault.message .notUtf8
  | .unknownCodec name => "Codec '" ++ name ++ "' is not supported/enabled"
  | .shortMarker => "Failed to read marker bytes"
  | .shortBlockMarker => "Failed to read block marker bytes"
  | .wrongBlockMarker => "block marker does not match header marker"
  | .notDeflated => "Failed to decompress with flate"
  | .emptyValue => "unable to read block"

structure Container where
  document : Document
  codec : Codec
  marker : List UInt8
  body : List UInt8

namespace Container

def magic : List UInt8 := [0x4F, 0x62, 0x6A, 0x01]

def markerSize : Nat := 16

def metadata : Wire.Reading (List (String × List UInt8)) := do
  let entries ← Wire.Reading.blocks (Wire.Reading.entry (return .bytes (← Wire.Reading.bytes)))
  return (entries.foldl Wire.Reading.insertEntry []).filterMap fun
    | (key, .bytes b) => some (key, b)
    | _ => none

def property (name : String) (properties : List (String × List UInt8)) : Option (List UInt8) :=
  (properties.find? (·.1 == name)).map (·.2)

def schemaOf (properties : List (String × List UInt8)) : Except Fault Schema := do
  let text := (property "avro.schema" properties).bind Utf8.decode?
  let some j := text.bind Json.read? | throw .noSchema
  match Schema.ofJson j with
  | .error defect => throw (.schema defect)
  | .ok s =>
    match Wire.Names.ofSchema s with
    | .error cause => throw (.names cause)
    | .ok _ => return s

def codecOf (properties : List (String × List UInt8)) : Except Fault Codec :=
  match property "avro.codec" properties with
  | none => .ok .none
  | some name =>
    match Utf8.decode? name with
    | none => .error .codecNotText
    | some "null" => .ok .none
    | some "deflate" => .ok .deflate
    | some name => .error (.unknownCodec name)

def ofBytes (bytes : List UInt8) : Except Fault Container := do
  if bytes.length < magic.length then throw .shortHeader
  if bytes.take magic.length ≠ magic then throw .wrongMagic
  match metadata.run (bytes.drop magic.length) with
  | .error cause => throw (.metadata cause)
  | .ok (properties, rest) =>
    let s ← schemaOf properties
    let codec ← codecOf properties
    if rest.length < markerSize then throw .shortMarker
    return ⟨.ofSchema s, codec, rest.take markerSize, rest.drop markerSize⟩

abbrev Values := List Datum × Option Fault

def before (front : List Datum) (vs : Values) : Values :=
  (front ++ vs.1, vs.2)

/-- Reads a number of values from the bytes of a block. Each takes at least one byte, so the number
of bytes bounds how many can be read. -/
def values (s : Schema) : (fuel : Nat) → (count : Nat) → List UInt8 → Values
  | 0, _, _ => ([], some .emptyValue)
  | _ + 1, 0, _ => ([], none)
  | fuel + 1, count + 1, bytes =>
    match s.readValue bytes with
    | .error cause => ([], some (.value cause))
    | .ok (v, rest) =>
      if rest.length = bytes.length then ([], some .emptyValue)
      else before [v] (values s fuel count rest)

def byteCount (n : Int) : Nat :=
  (n % twoTo 64).toNat

/-- Splits the bytes of a block off the body: how many values there are, and their bytes. There is
no further block where the body ends before the number or the number is zero. -/
def takeBlock (c : Container) (bytes : List UInt8) :
    Except Fault (Option (Nat × List UInt8 × List UInt8)) := do
  match Wire.Reading.long.run bytes with
  | .error .numeralEnds => return none
  | .error cause => throw (.block cause)
  | .ok (count, rest) =>
    match Wire.Reading.long.run rest with
    | .error cause => throw (.block cause)
    | .ok (size, rest) =>
      let size := byteCount size
      if Wire.largestLength < size then throw (.block (.tooLong size))
      if rest.length < size then throw (.block .shortBuffer)
      let content := rest.take size
      let rest := rest.drop size
      if rest.length < markerSize then throw .shortBlockMarker
      if rest.take markerSize ≠ c.marker then throw .wrongBlockMarker
      let content ←
        match c.codec with
        | .none => pure content
        | .deflate =>
          match Deflate.expand? content with
          | some content => pure content
          | none => throw .notDeflated
      if count = 0 then return none
      return some (byteCount count, content, rest.drop markerSize)

def blocks (c : Container) : (fuel : Nat) → List UInt8 → Values
  | 0, _ => ([], none)
  | fuel + 1, bytes =>
    match c.takeBlock bytes with
    | .error f => ([], some f)
    | .ok none => ([], none)
    | .ok (some (count, content, rest)) =>
      match values c.document.root (content.length + 1) count content with
      | (vs, some f) => (vs, some f)
      | (vs, none) => before vs (blocks c fuel rest)

def contents (c : Container) : Values :=
  c.blocks (c.body.length + 1) c.body

end Container

end AvroColumns
