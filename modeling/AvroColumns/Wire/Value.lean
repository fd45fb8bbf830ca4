import AvroColumns.Datum.Basic
import AvroColumns.Text.Utf8
import AvroColumns.Wire.Names
import AvroColumns.Wire.Reading

namespace AvroColumns

namespace Schema

mutual

def nodeCount : Schema → Nat
  | .record ⟨_, fields⟩ => nodeCountOfFields fields + 1
  | .array items => items.nodeCount + 1
  | .map values => values.nodeCount + 1
  | .union members => nodeCountOfMembers members + 1
  | _ => 1

def nodeCountOfMembers : List Schema → Nat
  | [] => 0
  | s :: ss => s.nodeCount + nodeCountOfMembers ss

def nodeCountOfFields : List (Field Schema) → Nat
  | [] => 0
  | ⟨_, _, s, _⟩ :: fs => s.nodeCount + nodeCountOfFields fs

end

end Schema

namespace Wire.Reading

def boolean : Reading Datum := do
  match ← take? 1 with
  | some [0] => return .boolean false
  | some [1] => return .boolean true
  | some (b :: _) => fail (.notFlag b)
  | _ => return .null

def bytes : Reading (List UInt8) := do
  take (← length) .shortBytes

def string : Reading Datum := do
  match ← take? (← length) with
  | none => return .null
  | some front =>
    match Utf8.decode? front with
    | some s => return .string s
    | none => fail .notUtf8

def uuid : Reading Datum := do
  let front ← take (← length) .shortBuffer
  if front.length = 16 then return .uuid ⟨front⟩
  match Utf8.decode? front with
  | none => fail .notUtf8
  | some s =>
    match Uuid.ofChars? s.toList with
    | some u => return .uuid u
    | none => fail .notUuid

def bigDecimal : Reading Datum := do
  let inner ← bytes
  match length.run inner with
  | .error cause => fail (.decimalLength cause)
  | .ok (count, inner) =>
    if inner.length < count then fail .shortDouble
    match long.run (inner.drop count) with
    | .error _ => fail .decimalScale
    | .ok (scale, _) => return .bigDecimal ⟨Decimal.twosComplement (inner.take count), scale⟩

def primitive : Primitive → Reading Datum
  | .null => return .null
  | .boolean => boolean
  | .int => return .int (← int)
  | .long => return .long (← long)
  | .float => return .float ⟨UInt32.ofNat (littleEndian (← take 4 .shortFloat))⟩
  | .double => return .double ⟨UInt64.ofNat (littleEndian (← take 8 .shortDouble))⟩
  | .bytes => return .bytes (← bytes)
  | .string => string
  | .bigDecimal => bigDecimal
  | .uuid => uuid
  | .date => return .date (← int)
  | .timeMillis => return .timeMillis (← int)
  | .timeMicros => return .timeMicros (← long)
  | .timestamp unit zoned => return .timestamp unit zoned (← long)
  | .duration => return .duration (← take 12 .shortDuration)

def enum (e : EnumType) : Reading Datum := do
  let n ← int
  if n < 0 then fail (.negativeSymbol n)
  match e.symbols[n.toNat]? with
  | some symbol => return .enum n.toNat symbol
  | none => fail (.noSymbol n.toNat e.symbols.length)

def fixed (f : FixedType) : Reading (List UInt8) :=
  take f.size (.shortFixed f.size)

def decimal : Carrier → Reading Datum
  | .bytes => return .decimal (← bytes)
  | .fixed f => return .decimal (← fixed f)

def position? : Reading (Option Int) := do
  match groups 0 (← get) with
  | .error .numeralEnds =>
    set ([] : List UInt8)
    return none
  | .error f => fail f
  | .ok (n, rest) =>
    set rest
    return some (unfold n)

def entry (value : Reading Datum) : Reading (String × Datum) := do
  match ← string with
  | .string key => return (key, ← value)
  | _ => fail .keyMissing

def insertEntry (entries : List (String × Datum)) (e : String × Datum) : List (String × Datum) :=
  if entries.any (·.1 == e.1) then entries.map fun f => if f.1 == e.1 then e else f
  else entries ++ [e]

/-- Reads a value by a schema that stands inside a namespace. A value inside a value that takes no
bytes in between has another schema, so the numbers of bytes and schemas bound how deep values
nest. -/
def value (names : Names) : (fuel : Nat) → (space : String) → Schema → Reading Datum
  | 0, _, _ => fail .endless
  | fuel + 1, space, s =>
    match s with
    | .primitive p => primitive p
    | .decimal _ _ c => decimal c
    | .enum e => enum e
    | .fixed f => return .fixed f.size (← fixed f)
    | .record r => do
      let inner := (r.name.within space).space
      let members ← r.fields.mapM fun f => return (f.name, ← value names fuel inner f.type)
      return .record members
    | .array items => return .array (← blocks (value names fuel space items))
    | .map values => do
      let entries ← blocks (entry (value names fuel space values))
      return .map (entries.foldl insertEntry [])
    | .union members => do
      match ← position? with
      | none => return .union 0 .null
      | some n =>
        if n < 0 then fail (.negativeLength n)
        match members[n.toNat]? with
        | some s => return .union n.toNat (← value names fuel space s)
        | none => fail (.noMember n members.length)
    | .ref name =>
      let name := name.within space
      match names.find? name with
      | some s => value names fuel name.space s
      | none => fail (.unresolvedName name.full)

end Wire.Reading

namespace Schema

def readValue (s : Schema) (bytes : List UInt8) : Except Wire.Fault (Datum × List UInt8) := do
  let names ← Wire.Names.ofSchema s
  (Wire.Reading.value names ((bytes.length + 1) * (s.nodeCount + 1)) "" s).run bytes

end Schema

end AvroColumns
