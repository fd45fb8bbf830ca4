import AvroColumns.Schema.Basic

namespace AvroColumns.Schema

def textMember (name value : String) : String :=
  "\"" ++ name ++ "\":" ++ value

def quotedName (s : String) : String :=
  "\"" ++ s ++ "\""

def textObject (members : List String) : String :=
  "\x7b" ++ ",".intercalate members ++ "\x7d"

def canonicalFixed (f : FixedType) : List String :=
  [textMember "name" (quotedName f.name.full), textMember "type" (quotedName "fixed"),
    textMember "size" (toString f.size)]

def canonicalDecimal (precision scale : Nat) : List String :=
  [textMember "precision" (toString precision), textMember "scale" (toString scale)]

def canonicalPrimitive : Primitive → String
  | .duration =>
    textObject [textMember "type" (textObject (canonicalFixed ⟨⟨"", "duration"⟩, 12⟩))]
  | p =>
    match p with
    | .null | .boolean | .int | .long | .float | .double | .bytes | .string => quotedName p.label
    | _ => textObject [textMember "type" (quotedName p.label)]

mutual

def canonical : Schema → String
  | .primitive p => canonicalPrimitive p
  | .decimal precision scale carrier =>
    match carrier with
    | .bytes => textObject (textMember "type" (quotedName "bytes") :: canonicalDecimal precision scale)
    | .fixed f => textObject (canonicalFixed f ++ canonicalDecimal precision scale)
  | .enum e =>
    textObject [textMember "name" (quotedName e.name.full), textMember "type" (quotedName "enum"),
      textMember "symbols" ("[" ++ ",".intercalate (e.symbols.map quotedName) ++ "]")]
  | .fixed f => textObject (canonicalFixed f)
  | .record ⟨name, fields⟩ =>
    textObject [textMember "name" (quotedName name.full), textMember "type" (quotedName "record"),
      textMember "fields" ("[" ++ ",".intercalate (canonicalFields fields) ++ "]")]
  | .array items =>
    textObject [textMember "type" (quotedName "array"), textMember "items" items.canonical]
  | .map values =>
    textObject [textMember "type" (quotedName "map"), textMember "values" values.canonical]
  | .union members => "[" ++ ",".intercalate (canonicalMembers members) ++ "]"
  | .ref name => quotedName name.full

def canonicalMembers : List Schema → List String
  | [] => []
  | s :: ss => s.canonical :: canonicalMembers ss

def canonicalFields : List (Field Schema) → List String
  | [] => []
  | ⟨name, _, s, _⟩ :: fs =>
    textObject [textMember "name" (quotedName name), textMember "type" s.canonical]
      :: canonicalFields fs

end

end AvroColumns.Schema
