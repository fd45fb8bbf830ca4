import AvroColumns.Json.Reader
import AvroColumns.Schema.Canonical
import AvroColumns.Schema.Default
import AvroColumns.Schema.Defect

/-!
# Reading schemas

A schema is read from a JSON document. While it is read, the types that were defined so far are known
by their names and aliases, and so are those whose definition has begun; a name that is used
otherwise is a defect. A reference keeps the full name under which it was written.
-/

namespace AvroColumns.Schema

def isIdentifier : List Char → Bool
  | [] => false
  | c :: cs => (c.isAlpha || c == '_') && cs.all fun c => c.isAlphanum || c == '_'

def isNamespace (cs : List Char) : Bool :=
  cs.isEmpty || (cs.splitOn '.').all isIdentifier

/-- Splits a name at its last dot: its namespace, if it has a dot, and its base. A namespace may be
empty but for the dot. -/
def splitName (s : String) : Except Defect (Option String × String) :=
  let cs := s.toList
  let base := (cs.reverse.takeWhile (· ≠ '.')).reverse
  let space := cs.take (cs.length - base.length - 1)
  if isIdentifier base && isNamespace space then
    .ok (if base.length = cs.length then none else some (String.ofList space), String.ofList base)
  else .error (.invalidName s)

/-- What is known while a schema is read: the types whose definition is complete, and for each name
of a type whose definition has begun, the type's own name. -/
structure Scope where
  known : Known
  begun : List (TypeName × TypeName)

abbrev Reading := StateT Scope (Except Defect)

namespace Reading

def fail {α : Type} (d : Defect) : Reading α := throw d

def start (name : TypeName) (aliases : List TypeName) : Reading Unit :=
  modify fun scope => { scope with
    begun := (name :: aliases).reverse.map (·, name) ++ scope.begun }

def finish (name : TypeName) (aliases : List TypeName) (s : Schema) : Reading Unit :=
  modify fun scope =>
    { known := (name :: aliases).reverse.map (·, s) ++ scope.known
      begun := scope.begun.filter fun (n, _) => !(name :: aliases).contains n }

def reference (s : String) (space : String) : Reading Schema := do
  let (own, base) ← splitName s
  let name := TypeName.within ⟨own.getD "", base⟩ space
  let scope ← get
  if scope.known.any (·.1 = name) then return .ref name
  match scope.begun.find? (·.1 = name) with
  | some (_, own) => return .ref own
  | none => fail (.unknownName name.full)

def named (s : String) (space : String) : Reading Schema :=
  match s with
  | "null" => return .primitive .null
  | "boolean" => return .primitive .boolean
  | "int" => return .primitive .int
  | "long" => return .primitive .long
  | "double" => return .primitive .double
  | "float" => return .primitive .float
  | "bytes" => return .primitive .bytes
  | "string" => return .primitive .string
  | _ => reference s space

abbrev Members := List (String × Json)

def textOf (name : String) (members : Members) : Option String :=
  (Json.lookup name members).bind Json.string?

def typeName (members : Members) (space : String) : Reading TypeName := do
  let some s := textOf "name" members | fail .noName
  let (own, base) ← splitName s
  let space := (own.or (textOf "namespace" members)).getD space
  if isNamespace space.toList then return ⟨space, base⟩
  else fail (.invalidNamespace space)

/-- The aliases of a type, which stand in its namespace unless they name another. A list that holds
anything but texts counts as none. -/
def aliases (members : Members) (space : String) : List TypeName :=
  match Json.lookup "aliases" members with
  | some (.arr items) =>
    match items.mapM Json.string? with
    | some names =>
      names.filterMap fun s =>
        match splitName s with
        | .ok (own, base) => some (TypeName.within ⟨own.getD "", base⟩ space)
        | .error _ => none
    | none => []
  | _ => []

/-- A definition without its characteristic member may only repeat a type that bears the name of the
kind of definition. -/
def seen (members : Members) (space : String) : Reading (Option Schema) := do
  let some s := textOf "type" members | return none
  match splitName s with
  | .error _ => return none
  | .ok (own, base) =>
    let name := TypeName.within ⟨own.getD "", base⟩ space
    let scope ← get
    match scope.begun.find? (·.1 = name), scope.known.find? (·.1 = name) with
    | some (_, own), _ => return some (.ref own)
    | none, some (_, s) => return some s
    | none, none => return none

def symbolDefect? (before : List String) : List String → Option Defect
  | [] => none
  | s :: ss =>
    if !isIdentifier s.toList then some (.invalidSymbol s)
    else if before.contains s then some (.duplicateSymbol s)
    else symbolDefect? (s :: before) ss

def symbolsOf (given : Option Json) : Reading (List String) := do
  let some (.arr items) := given | fail .noSymbols
  let some symbols := items.mapM Json.string? | fail .symbolsNotTexts
  if let some d := symbolDefect? [] symbols then fail d
  return symbols

def symbolDefault (members : Members) (symbols : List String) : Reading (Option String) :=
  match Json.lookup "default" members with
  | none => return none
  | some (.str s) =>
    if symbols.contains s then return some s else fail (.enumDefaultUnknown s symbols)
  | some j => fail (.enumDefaultNotText j)

def enumeration (members : Members) (space : String) : Reading Schema := do
  let given := Json.lookup "symbols" members
  if given.isNone then
    if let some s ← seen members space then return s
  let name ← typeName members space
  let symbols ← symbolsOf given
  let default ← symbolDefault members symbols
  let s := Schema.enum ⟨name, symbols, default⟩
  finish name (aliases members name.space) s
  return s

def blockSize (given : Option Json) (members : Members) : Reading Nat := do
  let some given := given | fail .noSize
  let some size := given.nat? | fail (.sizeNotNatural given)
  if let some d := textOf "default" members then
    if d.utf8ByteSize ≠ size then fail (.fixedDefaultLength d.utf8ByteSize size)
  return size

def fixed (members : Members) (space : String) : Reading Schema := do
  let given := Json.lookup "size" members
  if given.isNone then
    if let some s ← seen members space then return s
  let size ← blockSize given members
  let name ← typeName members space
  let s := Schema.fixed ⟨name, size⟩
  finish name (aliases members name.space) s
  return s

def sameKind : Schema → Schema → Bool
  | .primitive p, .primitive q => p == q
  | .decimal .., .decimal .. => true
  | .array _, .array _ => true
  | .map _, .map _ => true
  | _, _ => false

def unionDefect? (before : List Schema) : List Schema → Option Defect
  | [] => none
  | .union _ :: _ => some .nestedUnion
  | s :: ss => if before.any (sameKind s) then some .duplicateMember else unionDefect? (s :: before) ss

def decimalParts? (members : Members) : Option (Nat × Nat) := do
  let precision ← (← Json.lookup "precision" members).nat?
  let scale ←
    match Json.lookup "scale" members with
    | none => some 0
    | some j => j.nat?
  if 1 ≤ precision ∧ scale ≤ precision then some (precision, scale) else none

/-- The schema of a logical type over a base, which stays as it is if the two do not go together;
none if the logical type is not known. -/
def logical? (type : String) (members : Members) (base : Schema) : Option Schema :=
  let inPlaceOf (p : Primitive) (q : Primitive) : Option Schema :=
    match base with
    | .primitive r => some (if r = p then .primitive q else base)
    | _ => some base
  match type with
  | "decimal" =>
    match base, decimalParts? members with
    | .primitive .bytes, some (precision, scale) => some (.decimal precision scale .bytes)
    | .fixed f, some (precision, scale) => some (.decimal precision scale (.fixed f))
    | _, _ => some base
  | "big-decimal" => inPlaceOf .bytes .bigDecimal
  | "uuid" =>
    match base with
    | .fixed f => some (if f.size = 16 then .primitive .uuid else base)
    | _ => inPlaceOf .string .uuid
  | "date" => inPlaceOf .int .date
  | "time-millis" => inPlaceOf .int .timeMillis
  | "time-micros" => inPlaceOf .long .timeMicros
  | "timestamp-millis" => inPlaceOf .long (.timestamp .millis true)
  | "timestamp-micros" => inPlaceOf .long (.timestamp .micros true)
  | "local-timestamp-millis" => inPlaceOf .long (.timestamp .millis false)
  | "local-timestamp-micros" => inPlaceOf .long (.timestamp .micros false)
  | "duration" =>
    match base with
    | .fixed _ => some (.primitive .duration)
    | _ => some base
  | _ => none

def isLogical (type : String) : Bool :=
  (logical? type [] (.primitive .null)).isSome

def checkDefault (field : String) (record : TypeName) (s : Schema) (j : Json) : Reading Unit := do
  let known := (← get).known
  let space (s : Schema) : String :=
    match s with
    | .ref name => name.space
    | s => (s.name?.map (·.space)).getD ""
  let ok (s : Schema) : Bool := fits known (fitsFuel known j) (space s) s j
  match s with
  | .union members =>
    if !members.any ok then
      match members with
      | [] => fail .emptyUnionDefault
      | first :: _ => fail (.unionDefault first.kindText (Literal.ofJson j).text)
  | s => if !ok s then fail (.fieldDefault field record.full s.canonical)

variable (self : Json → (space : String) → Reading Schema)

/-- A member of a record. The object that describes it is read as a type itself. -/
def field (record : TypeName) (members : Members) : Reading (Field Schema) := do
  let some name := textOf "name" members | fail .noFieldName
  if !isIdentifier name.toList then fail (.invalidFieldName name)
  let s ← self (.obj members) record.space
  let default := Json.lookup "default" members
  if let some j := default then checkDefault name record s j
  let aliases :=
    match Json.lookup "aliases" members with
    | some (.arr items) => items.filterMap Json.string?
    | _ => []
  return ⟨name, aliases, s, default⟩

def duplicateField? (before : List String) : List (Field Schema) → Option String
  | [] => none
  | f :: fs =>
    if before.contains f.name then some f.name
    else duplicateField? (f.aliases ++ f.name :: before) fs

def fieldsOf (record : TypeName) (given : Option Json) : Reading (List (Field Schema)) := do
  let some (.arr items) := given | fail .noFields
  let objects := items.filterMap fun
    | .obj members => some members
    | _ => none
  let fields ← objects.mapM (field self record)
  if let some n := duplicateField? [] fields then fail (.duplicateField n)
  return fields

/-- A record. Its name is known while its members are read; what is not an object among them is
passed over. -/
def record (members : Members) (space : String) : Reading Schema := do
  let given := Json.lookup "fields" members
  if given.isNone then
    if let some s ← seen members space then return s
  let name ← typeName members space
  let aliases := aliases members name.space
  start name aliases
  let fields ← fieldsOf self name given
  let s := Schema.record ⟨name, fields⟩
  finish name aliases s
  return s

def union (items : List Json) (space : String) : Reading Schema := do
  let members ← items.mapM fun j => self j space
  if let some d := unionDefect? [] members then fail d
  return .union members

def base (members : Members) (space : String) : Reading Schema :=
  match Json.lookup "type" members with
  | some (.str "fixed") => fixed members space
  | some j => self j space
  | none => fail .noBaseType

def plain (members : Members) (space : String) : Reading Schema :=
  match Json.lookup "type" members with
  | some (.str "record") => record self members space
  | some (.str "enum") => enumeration members space
  | some (.str "array") => do
    let some items := Json.lookup "items" members | fail .noItems
    return .array (← self items space)
  | some (.str "map") => do
    let some values := Json.lookup "values" members | fail .noValues
    return .map (← self values space)
  | some (.str "fixed") => fixed members space
  | some (.str s) => named s space
  | some (.obj inner) => self (.obj inner) space
  | some (.arr items) => union self items space
  | some j => fail (.unknownType j)
  | none => fail .noType

def document (j : Json) (space : String) : Reading Schema :=
  match j with
  | .str s => named s space
  | .arr items => union self items space
  | .obj members =>
    match Json.lookup "logicalType" members with
    | some (.str type) => do
      if isLogical type then
        let s ← base self members space
        return (logical? type members s).getD s
      plain self members space
    | some j => fail (.logicalTypeNotText j)
    | none => plain self members space
  | _ => fail .notSchema

def schema : (depth : Nat) → Json → (space : String) → Reading Schema
  | 0, _, _ => fail .notSchema
  | depth + 1, j, space => document (schema depth) j space

end Reading

def ofJson (j : Json) : Except Defect Schema :=
  (·.1) <$> (Reading.schema (j.depth + 1) j "").run ⟨[], []⟩

def ofText (s : String) : Except Defect Schema :=
  match Json.read? s with
  | some j => ofJson j
  | none => .error .notJson

end AvroColumns.Schema
