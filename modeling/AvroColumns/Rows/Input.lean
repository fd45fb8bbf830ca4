import AvroColumns.Config.Basic
import AvroColumns.Failure.Basic

namespace AvroColumns

inductive Input.Unfit
  | notArray
  | notBase64 (column : Nat)
  deriving DecidableEq, Repr

def Input.Unfit.message : Input.Unfit → String
  | .notArray => "Input row must be a JSON array of cells"
  | .notBase64 column => "Payload in column " ++ toString column ++ " is not base64"

inductive Input.Fault
  | step (cause : Failure)
  | worker (cause : Failure)
  | unreadable (cause : File.Fault)
  | malformed (line : Nat)
  | unfit (cause : Input.Unfit)
  | undecoded (line : Nat) (cause : Failure)

namespace Failure

def chain (f : Failure) : List String :=
  f.message ::
    match f with
    | .column _ (.conversion cause) => [cause.message]
    | .file cause => [cause.message]
    | _ => []

end Failure

def Input.Fault.chain : Input.Fault → List String
  | .step cause => "Failed to initialize decode step" :: cause.chain
  | .worker cause => cause.chain
  | .unreadable cause => ["Failed to read line", cause.message]
  | .malformed line => ["Failed to parse JSON on line " ++ toString line]
  | .unfit cause => [cause.message]
  | .undecoded line cause => ("Failed to decode line " ++ toString line) :: cause.chain

namespace Row

def inputCell (c : Config) (column : Nat) (item : Json) :
    Except Input.Unfit (Option Cell) :=
  match item, c.encoding with
  | .str s, .binary =>
    if column = c.payloadColumn then
      match Base64.decode? (Text.trim s) with
      | some b => .ok (some (.binary b))
      | none => .error (.notBase64 column)
    else .ok (Cell.ofJson item)
  | item, _ => .ok (Cell.ofJson item)

def ofInput (c : Config) : Json → Except Input.Unfit Row
  | .arr items => items.zipIdx.mapM fun (item, column) => inputCell c column item
  | _ => .error .notArray

end Row

namespace Input

def splitLines : List UInt8 → List (List UInt8)
  | [] => []
  | b :: bytes =>
    if b = 10 then [] :: splitLines bytes
    else
      match splitLines bytes with
      | [] => [[b]]
      | line :: lines => (b :: line) :: lines

structure Numbered where
  number : Nat
  row : Row

def ofLine (read : String → Option Json) (c : Config) (number : Nat) (line : List UInt8) :
    Option (Except Fault Numbered) :=
  match Utf8.decode? line with
  | none => some (.error (.unreadable .notUtf8))
  | some text =>
    let text := Text.trim text
    if text = "" then none
    else
      some (match read text with
        | none => .error (.malformed number)
        | some j =>
          match Row.ofInput c j with
          | .ok r => .ok ⟨number, r⟩
          | .error cause => .error (.unfit cause))

def rows (read : String → Option Json) (c : Config) (bytes : List UInt8) :
    List (Except Fault Numbered) :=
  (splitLines bytes).zipIdx.filterMap fun (line, i) => ofLine read c (i + 1) line

end Input

end AvroColumns
