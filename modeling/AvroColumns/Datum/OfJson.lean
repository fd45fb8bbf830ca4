import AvroColumns.Datum.Basic
import AvroColumns.Json.Reader
import AvroColumns.Schema.Document
import AvroColumns.Text.Utf8

/-!
# Values from JSON documents

A document is decoded against a schema: bytes are texts of small code points, enumerations their
symbols, records objects, and a value of a union is null or an object with the name of its member. A
value of a union that is not wrapped so belongs to the first member that takes it. Members that a
document leaves out take their declared defaults, and a default of a union belongs to the first
member.

Decoding a default may meet further defaults. A literal is the same whenever it is entered, so one
that is entered again while it is decoded has no value; the number of literals in the schema bounds
how deep they can nest otherwise, and `Fault.endless` says that the bound was passed. What has no end
is not made up for by another member of a union.
-/

namespace AvroColumns

namespace Schema

mutual

def defaultCount : Schema → Nat
  | .record ⟨_, fields⟩ => defaultCountOfFields fields
  | .array items => items.defaultCount
  | .map values => values.defaultCount
  | .union members => defaultCountOfMembers members
  | _ => 0

def defaultCountOfMembers : List Schema → Nat
  | [] => 0
  | s :: ss => s.defaultCount + defaultCountOfMembers ss

def defaultCountOfFields : List (Field Schema) → Nat
  | [] => 0
  | ⟨_, _, s, d⟩ :: fs => (if d.isSome then 1 else 0) + s.defaultCount + defaultCountOfFields fs

end

end Schema

namespace Datum

inductive Fault
  | mismatch (expected : String) (found : Json)
  | notByte (c : Char)
  | missingMember (record member : String)
  | unknownType (name : String)
  | emptyUnion
  | endless
  deriving Repr

namespace Fault

def shownBytes : Nat := 64

def shown (j : Json) : String :=
  let text := j.text
  if shownBytes < text.utf8ByteSize then
    String.ofList (Utf8.takeBytes shownBytes text.toList) ++ "..."
  else text

def codePoint (c : Char) : String :=
  let ds := (Nat.toDigits 16 c.toNat).map Char.toUpper
  String.ofList (List.replicate (4 - ds.length) '0' ++ ds)

def message : Fault → String
  | .mismatch expected found => "expected " ++ expected ++ ", found " ++ shown found
  | .notByte c => "character U+" ++ codePoint c ++ " is not a byte in a bytes value"
  | .missingMember owner name =>
    "record '" ++ owner ++ "' is missing member '" ++ name ++ "' which has no default"
  | .unknownType name => UnknownType.message ⟨name⟩
  | .emptyUnion => "empty union"
  | .endless => "default without end"

end Fault

namespace OfJson

def codePoints : List Char → Except Fault (List UInt8)
  | [] => .ok []
  | c :: cs =>
    if c.toNat < 256 then (codePoints cs).map (UInt8.ofNat c.toNat :: ·) else .error (.notByte c)

def int (f : Int → Datum) (j : Json) : Except Fault Datum :=
  match j with
  | .int n => if fitsInt32 n then .ok (f n) else .error (.mismatch "int" j)
  | j => .error (.mismatch "int" j)

def long (f : Int → Datum) (j : Json) : Except Fault Datum :=
  match j with
  | .int n => if fitsInt64 n then .ok (f n) else .error (.mismatch "long" j)
  | j => .error (.mismatch "long" j)

def number (f : Json → Except Fault Datum) (label : String) (j : Json) : Except Fault Datum :=
  match j with
  | .int _ | .real _ => f j
  | j => .error (.mismatch label j)

def text (f : String → Except Fault Datum) (label : String) (j : Json) : Except Fault Datum :=
  match j with
  | .str s => f s
  | j => .error (.mismatch label j)

def bigDecimal (j : Json) : Except Fault Datum :=
  let read (s : String) : Except Fault Datum :=
    match Decimal.ofString? s with
    | some d => .ok (.bigDecimal d)
    | none => .error (.mismatch "big-decimal" j)
  match j with
  | .str s => read s
  | .int _ | .real _ => read j.text
  | j => .error (.mismatch "bytes" j)

def duration (j : Json) (s : String) : Except Fault Datum := do
  let b ← codePoints s.toList
  if b.length = 12 then .ok (.duration b) else .error (.mismatch "duration of 12 bytes" j)

/-- Decodes a value of a primitive or logical type. An identifier stays the text it is. -/
def primitive (p : Primitive) (j : Json) : Except Fault Datum :=
  match p with
  | .null =>
    match j with
    | .null => .ok .null
    | j => .error (.mismatch "null" j)
  | .boolean =>
    match j with
    | .bool b => .ok (.boolean b)
    | j => .error (.mismatch "boolean" j)
  | .int => number (int .int) p.label j
  | .long => number (long .long) p.label j
  | .float =>
    match j.number? with
    | some x => .ok (.float x.toBinary32)
    | none => .error (.mismatch p.label j)
  | .double =>
    match j.number? with
    | some x => .ok (.double x)
    | none => .error (.mismatch p.label j)
  | .bytes => text (fun s => (codePoints s.toList).map .bytes) p.label j
  | .string => text (fun s => .ok (.string s)) p.label j
  | .bigDecimal => bigDecimal j
  | .uuid => text (fun s => .ok (.string s)) p.label j
  | .date => number (int .date) p.label j
  | .timeMillis => number (int .timeMillis) p.label j
  | .timeMicros => number (long .timeMicros) p.label j
  | .timestamp unit zoned => number (long (.timestamp unit zoned)) p.label j
  | .duration => text (duration j) p.label j

def enum (e : EnumType) (j : Json) : Except Fault Datum :=
  text (fun s =>
    match e.symbols.findIdx? (· == s) with
    | some i => .ok (.enum i s)
    | none => .error (.mismatch "enum symbol" j)) e.name.full j

def fixed (f : FixedType) (j : Json) : Except Fault Datum :=
  text (fun s => do
    let b ← codePoints s.toList
    if b.length = f.size then .ok (.fixed f.size b)
    else .error (.mismatch ("fixed of " ++ toString f.size ++ " bytes") j)) f.name.full j

def decimal (c : Carrier) (j : Json) : Except Fault Datum :=
  text (fun s => (codePoints s.toList).map .decimal) (Schema.decimal 0 0 c).label j

end OfJson

variable (d : Document)

/-- Whether a union's member is called by a name: a named type by its full name or its base, any
other member by the type that carries it. -/
def answersTo (name : String) (s : Schema) : Bool :=
  match d.resolve s with
  | .error _ => false
  | .ok s =>
    match s.name? with
    | some n => n.full == name || n.base == name
    | none => s.label == name

theorem sizeOf_lookup_lt {name : String} {members : List (String × Json)} {v : Json}
    (h : Json.lookup name members = some v) : sizeOf v < sizeOf members := by
  obtain ⟨m, hm, rfl⟩ := Option.map_eq_some_iff.1 h
  have := List.sizeOf_lt_of_mem (List.mem_of_find?_eq_some hm)
  have : sizeOf m = 1 + sizeOf m.1 + sizeOf m.2 := by cases m; rfl
  omega

variable (enter : Schema → Json → Except Fault Datum)

mutual

/-- Decodes a document against a schema, given how the defaults of members that it leaves out are
decoded. -/
def ofJson (s : Schema) (j : Json) : Except Fault Datum :=
  match s with
  | .primitive p => OfJson.primitive p j
  | .decimal _ _ c => OfJson.decimal c j
  | .enum e => OfJson.enum e j
  | .fixed f => OfJson.fixed f j
  | .record r => ofJsonRecord r j
  | .ref name =>
    match d.follow name with
    | .error e => .error (.unknownType e.name)
    | .ok (.enum e) => OfJson.enum e j
    | .ok (.fixed f) => OfJson.fixed f j
    | .ok (.record r) => ofJsonRecord r j
  | .array items =>
    match j with
    | .arr js => (ofJsonItems items js).map .array
    | j => .error (.mismatch "array" j)
  | .map values =>
    match j with
    | .obj members => (ofJsonEntries values members).map .map
    | j => .error (.mismatch "map" j)
  | .union members =>
    match j with
    | .obj [(name, inner)] =>
      match members.findIdx? (answersTo d name) with
      | some i =>
        match members[i]? with
        | some s => (ofJson s inner).map (.union i)
        | none => ofJsonFirst 0 members (.obj [(name, inner)])
      | none => ofJsonFirst 0 members (.obj [(name, inner)])
    | j => ofJsonFirst 0 members j
termination_by (sizeOf j, 2 * sizeOf s)

def ofJsonRecord (r : RecordType Schema) (j : Json) : Except Fault Datum :=
  match j with
  | .obj members => (ofJsonMembers r.name.full members r.fields).map .record
  | j => .error (.mismatch r.name.full j)
termination_by (sizeOf j, 0)

def ofJsonMembers (record : String) (members : List (String × Json)) :
    List (Field Schema) → Except Fault (List (String × Datum))
  | [] => .ok []
  | f :: fs => do
    let v ←
      match _h : Json.lookup f.name members, f.default with
      | some v, _ =>
        have := sizeOf_lookup_lt _h
        ofJson f.type v
      | none, none => .error (.missingMember record f.name)
      | none, some literal => enter f.type literal
    let rest ← ofJsonMembers record members fs
    return (f.name, v) :: rest
termination_by fs => (sizeOf members, fs.length)

def ofJsonItems (s : Schema) : List Json → Except Fault (List Datum)
  | [] => .ok []
  | j :: js => do
    let v ← ofJson s j
    let rest ← ofJsonItems s js
    return v :: rest
termination_by js => (sizeOf js, 0)

def ofJsonEntries (s : Schema) :
    List (String × Json) → Except Fault (List (String × Datum))
  | [] => .ok []
  | (key, j) :: rest => do
    let v ← ofJson s j
    let tail ← ofJsonEntries s rest
    return (key, v) :: tail
termination_by entries => (sizeOf entries, 0)

/-- The first member of a union, counted from `index`, that takes a document. No member is tried
behind one whose decoding has no end. -/
def ofJsonFirst (index : Nat) (members : List Schema) (j : Json) : Except Fault Datum :=
  match members with
  | [] => .error (.mismatch "any union member" j)
  | s :: ss =>
    match ofJson s j with
    | .ok v => .ok (.union index v)
    | .error .endless => .error .endless
    | .error _ => ofJsonFirst (index + 1) ss j
termination_by (sizeOf j, 2 * sizeOf members)

end

/-- Decodes a default, which belongs to the first member of a union. -/
def ofDefault (s : Schema) (j : Json) : Except Fault Datum :=
  match s with
  | .union [] => .error .emptyUnion
  | .union (first :: _) => (ofDefault first j).map (.union 0)
  | s => ofJson d enter s j

/-- Decodes a default in which further defaults nest less deep than `budget`. -/
def nested : (budget : Nat) → Schema → Json → Except Fault Datum
  | 0, _, _ => .error .endless
  | budget + 1, s, j => ofDefault d (nested budget) s j

end Datum

namespace Document

variable (d : Document)

/-- Decodes a default that a document has met, as deep as the schema's literals can nest. -/
def enter (s : Schema) (j : Json) : Except Datum.Fault Datum :=
  Datum.nested d d.root.defaultCount s j

def decode (j : Json) : Except Datum.Fault Datum :=
  Datum.ofJson d d.enter d.root j

def decodeDefault (s : Schema) (j : Json) : Except Datum.Fault Datum :=
  Datum.ofDefault d d.enter s j

end Document

end AvroColumns
