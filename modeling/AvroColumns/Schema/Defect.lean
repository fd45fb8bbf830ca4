import AvroColumns.Json.Basic
import AvroColumns.Text.Quoted

namespace AvroColumns

inductive Schema.Defect
  | notJson
  | notSchema
  | noType
  | noBaseType
  | unknownType (type : Json)
  | unknownName (name : String)
  | logicalTypeNotText (type : Json)
  | noName
  | invalidName (name : String)
  | invalidNamespace (space : String)
  | noFields
  | noFieldName
  | invalidFieldName (name : String)
  | duplicateField (name : String)
  | noSymbols
  | symbolsNotTexts
  | invalidSymbol (symbol : String)
  | duplicateSymbol (symbol : String)
  | enumDefaultNotText (default : Json)
  | enumDefaultUnknown (symbol : String) (symbols : List String)
  | noItems
  | noValues
  | noSize
  | sizeNotNatural (size : Json)
  | fixedDefaultLength (length size : Nat)
  | nestedUnion
  | duplicateMember
  | emptyUnionDefault
  | unionDefault (member value : String)
  | fieldDefault (field record canonical : String)
  deriving Repr

namespace Json

def braced (s : String) : String :=
  "\x7b" ++ s ++ "\x7d"

mutual

def described : Json → String
  | .null => "Null"
  | .bool b => "Bool(" ++ (if b then "true" else "false") ++ ")"
  | .int n => "Number(" ++ (Json.int n).text ++ ")"
  | .real x => "Number(" ++ (Json.real x).text ++ ")"
  | .str s => "String(" ++ Text.quote s ++ ")"
  | .arr items => "Array [" ++ ", ".intercalate (describedItems items) ++ "]"
  | .obj members => "Object " ++ braced (", ".intercalate (describedMembers members))

def describedItems : List Json → List String
  | [] => []
  | j :: js => described j :: describedItems js

def describedMembers : List (String × Json) → List String
  | [] => []
  | (n, j) :: rest => (Text.quote n ++ ": " ++ described j) :: describedMembers rest

end

end Json

namespace Schema.Defect

def nameRule : String :=
  "^((?P<namespace>([A-Za-z_][A-Za-z0-9_]*(\\.[A-Za-z_][A-Za-z0-9_]*)*)?)\\.)?"
    ++ "(?P<name>[A-Za-z_][A-Za-z0-9_]*)$"

def namespaceRule : String :=
  "^([A-Za-z_][A-Za-z0-9_]*(\\.[A-Za-z_][A-Za-z0-9_]*)*)?$"

def message : Defect → String
  | .notJson => "Failed to parse schema from JSON"
  | .notSchema => "Must be a JSON string, object or array"
  | .noType => "No `type` in complex type"
  | .noBaseType => "No `type` field found for `logicalType`"
  | .unknownType type => "Unknown complex type: " ++ type.text
  | .unknownName name => "Unknown primitive type: " ++ name
  | .logicalTypeNotText type => "logicalType must be a string, but is " ++ type.described
  | .noName => "No `name` field"
  | .invalidName name =>
    "Invalid schema name " ++ name ++ ". It must match the regex '" ++ nameRule ++ "'"
  | .invalidNamespace space =>
    "Invalid namespace " ++ space ++ ". It must match the regex '" ++ namespaceRule ++ "'"
  | .noFields => "No `fields` in record"
  | .noFieldName => "No `name` in record field"
  | .invalidFieldName name => "Invalid field name " ++ name
  | .duplicateField name => "Duplicate field name " ++ name
  | .noSymbols => "No `symbols` field in enum"
  | .symbolsNotTexts => "Unable to parse `symbols` in enum"
  | .invalidSymbol symbol => "Invalid enum symbol name " ++ symbol
  | .duplicateSymbol symbol => "Duplicate enum symbol " ++ symbol
  | .enumDefaultNotText default => "Default value for enum must be a string! Got: " ++ default.text
  | .enumDefaultUnknown symbol symbols =>
    "Enum default " ++ Text.quote symbol ++ " is not among allowed symbols "
      ++ Text.quoteList symbols
  | .noItems => "No `items` in array"
  | .noValues => "No `values` in map"
  | .noSize => "Fixed schema has no `size`"
  | .sizeNotNatural size => "Fixed schema `size` value must be a positive integer: " ++ size.text
  | .fixedDefaultLength length size =>
    "Fixed schema's default value length (" ++ toString length ++ ") does not match its size ("
      ++ toString size ++ ")"
  | .nestedUnion => "Unions may not directly contain a union"
  | .duplicateMember => "Unions cannot contain duplicate types"
  | .emptyUnionDefault => "Union type should not be empty"
  | .unionDefault member value =>
    "One union type " ++ member ++ " must match the `default`'s value type " ++ value
  | .fieldDefault field owner canonical =>
    "`default`'s value type of field " ++ Text.quote field ++ " in " ++ Text.quote owner
      ++ " must be " ++ Text.quote canonical

end Schema.Defect

end AvroColumns
