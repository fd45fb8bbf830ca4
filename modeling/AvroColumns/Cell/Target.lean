namespace AvroColumns

inductive Target
  | string
  | integer
  | number
  | bigNumber
  | boolean
  | date
  | binary
  | unsupported
  deriving DecidableEq, Repr

namespace Target

def text : Target → String
  | .string => "String"
  | .integer => "Integer"
  | .number => "Number"
  | .bigNumber => "BigNumber"
  | .boolean => "Boolean"
  | .date => "Date"
  | .binary => "Binary"
  | .unsupported => "Unsupported"

def all : List Target :=
  [.string, .integer, .number, .bigNumber, .boolean, .date, .binary, .unsupported]

def ofName? (s : String) : Option Target :=
  all.find? (·.text == s)

/-- The type with the given name, in letters of either case. The unsupported type may also be called
`none`. -/
def ofText? (s : String) : Option Target :=
  let cs := s.toList.map Char.toLower
  if cs = "none".toList then some .unsupported
  else all.find? fun t => t.text.toList.map Char.toLower == cs

end Target

end AvroColumns
