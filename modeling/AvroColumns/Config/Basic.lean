import AvroColumns.Column.Basic
import AvroColumns.Json.Basic

namespace AvroColumns

inductive Encoding
  | binary
  | json
  deriving DecidableEq, Repr

def Encoding.text : Encoding → String
  | .binary => "binary"
  | .json => "json"

structure Config where
  columns : List Column := []
  schemaText : Option String := none
  schemaPath : Option String := none
  payloadColumn : Nat := 0
  schemaColumn : Option Nat := none
  schemaIsPath : Bool := false
  encoding : Encoding := .binary
  cacheSchemas : Bool := true
  tolerateMissing : Bool := false

namespace Column

def toJson (c : Column) : Json :=
  .obj ([("name", .str c.name), ("path", .str c.path), ("type", .str c.target.text)]
    ++ match c.symbols with
      | some symbols => [("indexed_values", .arr (symbols.map .str))]
      | none => [])

end Column

namespace Config

def toJson (c : Config) : Json :=
  .obj [("fields", .arr (c.columns.map Column.toJson)),
    ("default_schema", (c.schemaText.map Json.str).getD .null),
    ("default_schema_path", (c.schemaPath.map Json.str).getD .null),
    ("payload_column", .int c.payloadColumn),
    ("schema_column", (c.schemaColumn.map fun n => Json.int n).getD .null),
    ("schema_column_is_path", .bool c.schemaIsPath),
    ("encoding", .str c.encoding.text),
    ("cache_schemas", .bool c.cacheSchemas),
    ("dont_complain_about_missing_fields", .bool c.tolerateMissing)]

end Config

end AvroColumns
