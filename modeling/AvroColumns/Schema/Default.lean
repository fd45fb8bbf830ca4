import AvroColumns.Schema.Basic
import AvroColumns.Text.Uuid

namespace AvroColumns

namespace Json

mutual

def depth : Json → Nat
  | .arr items => depthOfItems items + 1
  | .obj members => depthOfMembers members + 1
  | _ => 0

def depthOfItems : List Json → Nat
  | [] => 0
  | j :: js => max (depth j) (depthOfItems js)

def depthOfMembers : List (String × Json) → Nat
  | [] => 0
  | (_, j) :: rest => max (depth j) (depthOfMembers rest)

end

end Json

namespace Schema

mutual

def defaults : Schema → List Json
  | .record ⟨_, fields⟩ => defaultsOfFields fields
  | .array items => items.defaults
  | .map values => values.defaults
  | .union members => defaultsOfMembers members
  | _ => []

def defaultsOfMembers : List Schema → List Json
  | [] => []
  | s :: ss => s.defaults ++ defaultsOfMembers ss

def defaultsOfFields : List (Field Schema) → List Json
  | [] => []
  | ⟨_, _, s, d⟩ :: fs => d.toList ++ s.defaults ++ defaultsOfFields fs

end

abbrev Known := List (TypeName × Schema)

inductive Literal
  | null
  | boolean
  | int
  | long
  | double
  | string
  | array
  | map
  deriving DecidableEq, Repr

namespace Literal

def ofJson : Json → Literal
  | .null => .null
  | .bool _ => .boolean
  | .int n => if fitsInt32 n then .int else .long
  | .real _ => .double
  | .str _ => .string
  | .arr _ => .array
  | .obj _ => .map

def text : Literal → String
  | .null => "Null"
  | .boolean => "Boolean"
  | .int => "Int"
  | .long => "Long"
  | .double => "Double"
  | .string => "String"
  | .array => "Array"
  | .map => "Map"

def isKindOf : Literal → Schema → Bool
  | .null, .primitive .null => true
  | .boolean, .primitive .boolean => true
  | .int, .primitive .int => true
  | .long, .primitive .long => true
  | .double, .primitive .double => true
  | .string, .primitive .string => true
  | .array, .array _ => true
  | .map, .map _ => true
  | _, _ => false

end Literal

def isByte : Json → Bool
  | .int n => 0 ≤ n.bmod (twoTo 32) && n.bmod (twoTo 32) ≤ 255
  | _ => false

def fitsPrimitive (p : Primitive) (j : Json) : Bool :=
  match p, j with
  | .null, .null => true
  | .boolean, .bool _ => true
  | .int, .int _ | .long, .int _ => true
  | .float, .int _ | .float, .real _ | .double, .int _ | .double, .real _ => true
  | .bytes, .str _ => true
  | .bytes, .arr items => items.all isByte
  | .string, .str _ => true
  | .uuid, .str s => (Uuid.ofChars? s.toList).isSome
  | .date, .int n | .timeMillis, .int n => fitsInt32 n
  | .timeMicros, .int _ | .timestamp .., .int _ => true
  | _, _ => false

/-- Whether a literal fits an enumeration. One with a default of its own takes any text. -/
def fitsEnum (e : EnumType) : Json → Bool
  | .str s => e.symbols.contains s || e.default.isSome
  | _ => false

/-- Whether a literal fits a schema inside a namespace. A record's missing members take their own
defaults, so `fuel` bounds how far the search goes on into the declared literals. -/
def fits (known : Known) : (fuel : Nat) → (space : String) → Schema → Json → Bool
  | 0, _, _, _ => false
  | fuel + 1, space, s, j =>
    match s with
    | .primitive p => fitsPrimitive p j
    | .decimal .. => false
    | .enum e => fitsEnum e j
    | .fixed _ => j.string?.isSome
    | .array items =>
      match j with
      | .arr js => js.all (fits known fuel space items)
      | _ => false
    | .map values =>
      match j with
      | .obj members => members.all fun (_, v) => fits known fuel space values v
      | _ => false
    | .union members =>
      match members.find? ((Literal.ofJson j).isKindOf ·) with
      | some s => fits known fuel space s j
      | none => members.any fun s => fits known fuel space s j
    | .record r =>
      match j with
      | .obj members =>
        r.fields.all fun f =>
          match Json.lookup f.name members, f.default with
          | some v, _ => fits known fuel space f.type v
          | none, some d =>
            match f.type with
            | .union (.primitive .null :: _) => true
            | .union (first :: _) => fits known fuel space first d
            | s => fits known fuel space s d
          | none, none => false
      | _ => false
    | .ref name =>
      let full := name.within space
      match known.find? (·.1 = full) with
      | some (_, s) => fits known fuel full.space s j
      | none => false

/-- As far as the search for a fit can go before it repeats itself: a level of a literal takes at
most four steps, and no default need be entered twice. -/
def fitsFuel (known : Known) (j : Json) : Nat :=
  let literals := j :: known.flatMap fun (_, s) => s.defaults
  literals.length * 4 * ((literals.map Json.depth).foldl max 0 + 1)

def kindText : Schema → String
  | .primitive p =>
    match p with
    | .null => "Null"
    | .boolean => "Boolean"
    | .int => "Int"
    | .long => "Long"
    | .float => "Float"
    | .double => "Double"
    | .bytes => "Bytes"
    | .string => "String"
    | .bigDecimal => "BigDecimal"
    | .uuid => "Uuid"
    | .date => "Date"
    | .timeMillis => "TimeMillis"
    | .timeMicros => "TimeMicros"
    | .timestamp unit zoned =>
      (if zoned then "Timestamp" else "LocalTimestamp")
        ++ (match unit with
          | .millis => "Millis"
          | .micros => "Micros"
          | .nanos => "Nanos")
    | .duration => "Duration"
  | .decimal .. => "Decimal"
  | .enum _ => "Enum"
  | .fixed _ => "Fixed"
  | .record _ => "Record"
  | .array _ => "Array"
  | .map _ => "Map"
  | .union _ => "Union"
  | .ref _ => "Ref"

end Schema

end AvroColumns
