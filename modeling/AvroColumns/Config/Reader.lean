import AvroColumns.Config.Basic
import AvroColumns.Json.Reader

namespace AvroColumns

namespace Json

def slots? (names : List String) : Json → Option (List (Option Json))
  | .obj members =>
    names.mapM fun name =>
      match members.filter (·.1 == name) with
      | [] => some none
      | [(_, j)] => some (some j)
      | _ => none
  | .arr items =>
    if items.length ≤ names.length then
      some (items.map some ++ List.replicate (names.length - items.length) none)
    else none
  | _ => none

def orDefault {α : Type} (default : α) (read : Json → Option α) : Option Json → Option α
  | none => some default
  | some j => read j

def nullable {α : Type} (read : Json → Option α) : Json → Option (Option α)
  | .null => some none
  | j => (read j).map some

def listOf? {α : Type} (read : Json → Option α) : Json → Option (List α)
  | .arr items => items.mapM read
  | _ => none

def choice? : Json → Option String
  | .str s => some s
  | .obj [(name, .null)] => some name
  | _ => none

end Json

def Encoding.ofJson? (j : Json) : Option Encoding :=
  match j.choice? with
  | some "binary" => some .binary
  | some "json" => some .json
  | _ => none

def Target.ofJson? (j : Json) : Option Target :=
  j.choice?.bind Target.ofName?

namespace Column

def ofJson? (j : Json) : Option Column :=
  match j.slots? ["name", "path", "type", "indexed_values"] with
  | some [some name, some path, some target, symbols] => do
    return {
      name := ← name.string?
      path := ← path.string?
      target := ← Target.ofJson? target
      symbols := ← Json.orDefault none (Json.nullable (Json.listOf? Json.string?)) symbols }
  | _ => none

end Column

namespace Config

def memberNames : List String :=
  ["fields", "default_schema", "default_schema_path", "payload_column", "schema_column",
    "schema_column_is_path", "encoding", "cache_schemas", "dont_complain_about_missing_fields"]

def ofJson? (j : Json) : Option Config :=
  match j.slots? memberNames with
  | some [columns, schemaText, schemaPath, payload, schemaColumn, isPath, encoding, cache,
      tolerate] => do
    return {
      columns := ← Json.orDefault [] (Json.listOf? Column.ofJson?) columns
      schemaText := ← Json.orDefault none (Json.nullable Json.string?) schemaText
      schemaPath := ← Json.orDefault none (Json.nullable Json.string?) schemaPath
      payloadColumn := ← Json.orDefault 0 Json.nat? payload
      schemaColumn := ← Json.orDefault none (Json.nullable Json.nat?) schemaColumn
      schemaIsPath := ← Json.orDefault false Json.bool? isPath
      encoding := ← Json.orDefault .binary Encoding.ofJson? encoding
      cacheSchemas := ← Json.orDefault true Json.bool? cache
      tolerateMissing := ← Json.orDefault false Json.bool? tolerate }
  | _ => none

def ofText? (s : String) : Option Config :=
  (Json.readWritten? Json.strict s.toList).bind ofJson?

end Config

end AvroColumns
