import AvroColumns.Cell.Scalar
import AvroColumns.Path.Basic

namespace AvroColumns

inductive Unresolved
  | wildcard
  | endsOn (label : String)
  | groupUnbound
  | pathsUnbound
  deriving DecidableEq, Repr

def Unresolved.message : Unresolved → String
  | .wildcard => "wildcard can only be resolved by an expansion"
  | .endsOn label => "path ends on a " ++ label ++ " rather than a leaf"
  | .groupUnbound => "expansion paths are not bound"
  | .pathsUnbound => "paths are not bound"

inductive Incompatible
  | noBranch (found : String)
  | wrongValue (expected found : String)
  | notIndex (key : String)
  | memberOf (label : String)
  | entryOf (label : String)
  | notExpandable (label : String)
  deriving DecidableEq, Repr

def Incompatible.message : Incompatible → String
  | .noBranch found => "no union member matches a " ++ found
  | .wrongValue expected found =>
    "schema declares a " ++ expected ++ " but the value is a " ++ found
  | .notIndex key => "'" ++ key ++ "' is not a valid array index"
  | .memberOf label => "record member access on a " ++ label
  | .entryOf label => "bracket access on a " ++ label
  | .notExpandable label => "[*] needs a map or array, found a " ++ label

inductive Walk.Fault
  | unresolved (place : String) (reason : Unresolved)
  | missing (place : String)
  | incompatible (place : String) (reason : Incompatible)
  | conversion (cause : ConversionFault)
  | unknownType (name : String)

def Walk.Fault.message (column : String) : Walk.Fault → String
  | .unresolved place reason =>
    "path resolution error for field '" ++ column ++ "' at '" ++ place ++ "': " ++ reason.message
  | .missing place =>
    "field '" ++ column ++ "': '" ++ place ++ "' does not exist in the record schema"
  | .incompatible place reason =>
    "field '" ++ column ++ "': schema incompatibility at '" ++ place ++ "': " ++ reason.message
  | .conversion cause => "field '" ++ column ++ "': " ++ cause.message
  | .unknownType name => "schema error: unknown named type '" ++ name ++ "'"

end AvroColumns
