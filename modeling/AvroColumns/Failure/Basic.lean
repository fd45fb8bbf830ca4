import AvroColumns.Cell.Basic
import AvroColumns.Datum.OfJson
import AvroColumns.Failure.Misconfiguration
import AvroColumns.File.Basic
import AvroColumns.Walk.Fault
import AvroColumns.Wire.Container

namespace AvroColumns

inductive Schema.Fault
  | malformed (defect : Schema.Defect)
  | unreadable (path : String) (cause : File.Fault)
  | unreadableContainer (path : String) (cause : Container.Fault)
  | unknownType (name : String)
  | emptyUnion
  | cellNotText (column : Nat)
  | noneInRow
  | noneConfigured

def Schema.Fault.message : Schema.Fault → String
  | .malformed defect => "failed to parse schema: " ++ defect.message
  | .unreadable path cause => "cannot read schema " ++ path ++ ": " ++ cause.message
  | .unreadableContainer path cause => "cannot read container " ++ path ++ ": " ++ cause.message
  | .unknownType name => UnknownType.message ⟨name⟩
  | .emptyUnion => Datum.Fault.message .emptyUnion
  | .cellNotText column => "schema cell in column " ++ toString column ++ " is not text"
  | .noneInRow => "row carries no schema and no default schema is configured"
  | .noneConfigured => "no default schema configured"

namespace Cell

def words : (fuel : Nat) → Nat → List Nat
  | 0, _ => []
  | fuel + 1, n => if n = 0 then [] else n % twoTo 64 :: words fuel (n / twoTo 64)

def describeDecimal (d : Decimal) : String :=
  let sign := if d.unscaled < 0 then "Minus" else if d.unscaled = 0 then "NoSign" else "Plus"
  let n := d.unscaled.natAbs
  "BigDecimal(sign=" ++ sign ++ ", scale=" ++ Numeral.text d.scale ++ ", digits=["
    ++ ", ".intercalate ((words (n.log2 + 1) n).map toString) ++ "])"

def describe : Cell → String
  | .string s => "String(" ++ Text.quote s ++ ")"
  | .integer n => "Integer(" ++ Numeral.text n ++ ")"
  | .number x => "Number(" ++ String.ofList (Shortest.described.chars x) ++ ")"
  | .bigNumber d => "BigNumber(" ++ describeDecimal d ++ ")"
  | .boolean b => "Boolean(" ++ (if b then "true" else "false") ++ ")"
  | .date t => "Date(" ++ t.zuluText ++ ")"
  | .binary b => "Binary([" ++ ", ".intercalate (b.map fun x => toString x.toNat) ++ "])"

end Cell

inductive Payload.Fault
  | malformed
  | notText
  | notBinary (found : Cell)
  | value (fault : Datum.Fault)
  | wire (fault : Wire.Fault)
  | container (fault : Container.Fault)

def Payload.Fault.message : Payload.Fault → String
  | .malformed => "malformed JSON payload"
  | .notText => "JSON payload is not UTF-8 text"
  | .notBinary found => "binary payload expected, found " ++ found.describe
  | .value fault => fault.message
  | .wire fault => fault.message
  | .container fault => fault.message

inductive Failure
  | configuration (m : Misconfiguration)
  | column (name : String) (fault : Walk.Fault)
  | schema (fault : Schema.Fault)
  | payload (fault : Payload.Fault)
  | file (fault : File.Fault)

namespace Failure

inductive Kind
  | configuration
  | pathResolution
  | missingField
  | schemaIncompatibility
  | conversion
  | schema
  | payload
  | file
  deriving DecidableEq, Repr

def kind : Failure → Kind
  | .configuration _ => .configuration
  | .column _ fault =>
    match fault with
    | .unresolved .. => .pathResolution
    | .missing _ => .missingField
    | .incompatible .. => .schemaIncompatibility
    | .conversion _ => .conversion
    | .unknownType _ => .schema
  | .schema _ => .schema
  | .payload _ => .payload
  | .file _ => .file

def column? : Failure → Option String
  | .column _ (.unknownType _) => none
  | .column name _ => some name
  | _ => none

def message : Failure → String
  | .configuration m => "configuration error: " ++ m.message
  | .column name fault => fault.message name
  | .schema fault => "schema error: " ++ fault.message
  | .payload fault => "payload error: " ++ fault.message
  | .file fault => "io error: " ++ fault.message

def ofDatum : Datum.Fault → Failure
  | .unknownType name => .schema (.unknownType name)
  | .emptyUnion => .schema .emptyUnion
  | fault => .payload (.value fault)

def ofUnknown (t : UnknownType) : Failure :=
  .schema (.unknownType t.name)

end Failure

end AvroColumns
