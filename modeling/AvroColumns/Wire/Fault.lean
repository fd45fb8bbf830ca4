import AvroColumns.Numeric.Integer

namespace AvroColumns.Wire

def largestLength : Nat := 536870912

inductive Fault
  | repeatedName (name : String)
  | unresolvedName (name : String)
  | notFlag (b : UInt8)
  | numeralEnds
  | numeralTooLong
  | notInt32 (n : Int)
  | negativeLength (n : Int)
  | negativeSymbol (n : Int)
  | tooLong (n : Int)
  | shortFloat
  | shortDouble
  | shortBytes
  | shortFixed (size : Nat)
  | shortDuration
  | shortBuffer
  | notUtf8
  | notUuid
  | keyMissing
  | noSymbol (index count : Nat)
  | noMember (index : Int) (count : Nat)
  | decimalLength (cause : Fault)
  | decimalScale
  | endless
  deriving DecidableEq, Repr

def Fault.message : Fault → String
  | .repeatedName name => "Two named schema defined for same fullname: " ++ name ++ "."
  | .unresolvedName name => "Unresolved schema reference: " ++ name
  | .notFlag b => "Invalid u8 for bool: " ++ toString b.toNat
  | .numeralEnds => "Failed to read bytes for decoding variable length integer"
  | .numeralTooLong => "Overflow when decoding integer value"
  | .notInt32 n => "Decoded integer out of range for i32: " ++ Numeral.text n
  | .negativeLength n => "Cannot convert i64 to usize: " ++ Numeral.text n
  | .negativeSymbol n => "Cannot convert i32 to usize: " ++ Numeral.text n
  | .tooLong n =>
    "Unable to allocate " ++ Numeral.text n ++ " bytes (maximum allowed: "
      ++ toString largestLength ++ ")"
  | .shortFloat => "Failed to read float"
  | .shortDouble => "Failed to read double"
  | .shortBytes => "Failed to read bytes"
  | .shortFixed size => "Failed to read fixed number of bytes: " ++ toString size
  | .shortDuration => "Failed to read duration"
  | .shortBuffer => "Read into buffer failed"
  | .notUtf8 => "Invalid utf-8 string"
  | .notUuid => "Failed to convert &str to UUID"
  | .keyMissing => "Map key is not a string; key type is Null"
  | .noSymbol index count =>
    "Enum value index " ++ toString index ++ " is out of bounds " ++ toString count
  | .noMember index count =>
    "Union index " ++ Numeral.text index ++ " out of bounds: " ++ toString count
  | .decimalLength cause =>
    "Unreadable length for big decimal inner bytes: " ++ cause.message
  | .decimalScale => "Unreadable big decimal scale"
  | .endless => "value without end"

end AvroColumns.Wire
