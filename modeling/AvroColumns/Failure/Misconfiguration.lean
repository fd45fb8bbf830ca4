import AvroColumns.Path.Reader

namespace AvroColumns

inductive Misconfiguration
  | invalidFile (name : String)
  | unknownTarget (text : String)
  | path (fault : Path.Fault)
  | noPath (column : String)
  | manyWildcards (column : String) (count : Nat) (path : String)
  | emptyGroup (container : String)
  | manyContainers (containers : List String)
  | noSchema
  | noColumns
  | noLeaves
  | payloadOutOfRange (column cells : Nat)

def Misconfiguration.message : Misconfiguration → String
  | .invalidFile name => "invalid config " ++ name
  | .unknownTarget text => "unknown target type '" ++ text ++ "'"
  | .path fault => fault.message
  | .noPath column => "no path set for field '" ++ column ++ "'"
  | .manyWildcards column count written =>
    "field '" ++ column ++ "': only one [*] is allowed per path, found " ++ toString count
      ++ " in '" ++ written ++ "'"
  | .emptyGroup container => "expansion over '" ++ container ++ "' has no fields"
  | .manyContainers containers =>
    "all [*] paths must share one container, found " ++ ", ".intercalate containers
  | .noSchema => "no default schema and no schema column configured"
  | .noColumns => "no fields configured and no default schema to discover them from"
  | .noLeaves => "the default schema has no leaf fields to decode"
  | .payloadOutOfRange column cells =>
    "payload column " ++ toString column ++ " is out of range for a row of " ++ toString cells
      ++ " cells"

end AvroColumns
