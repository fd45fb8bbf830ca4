import AvroColumns.Numeric.Integer
import AvroColumns.Text.Blank

namespace AvroColumns

inductive Request (α : Type)
  | run (options : α)
  | help
  | refuse
  deriving DecidableEq, Repr

namespace Arguments

/-- Whether an argument looks like an option. A lone hyphen does not. -/
def isOption (arg : String) : Bool :=
  match arg.toList with
  | '-' :: _ :: _ => true
  | _ => false

inductive Form
  | ending
  | long (name : String) (value : Option String)
  | short (letter : Char) (more : List Char)
  | plain
  deriving DecidableEq, Repr

def Form.ofArgument (arg : String) : Form :=
  match arg.toList with
  | ['-', '-'] => .ending
  | '-' :: '-' :: cs =>
    let name := String.ofList (cs.takeWhile (· ≠ '='))
    match cs.dropWhile (· ≠ '=') with
    | [] => .long name none
    | _ :: value => .long name (some (String.ofList value))
  | '-' :: c :: cs => .short c cs
  | _ => .plain

def attached (more : List Char) : Option String :=
  match more with
  | [] => none
  | '=' :: value => some (String.ofList value)
  | value => some (String.ofList value)

def value? (given : Option String) (rest : List String) : Option (String × List String) :=
  match given, rest with
  | some value, rest => some (value, rest)
  | none, value :: rest => if isOption value then none else some (value, rest)
  | none, [] => none

theorem length_le_of_value? {given : Option String} {rest tail : List String} {value : String}
    (h : value? given rest = some (value, tail)) : tail.length ≤ rest.length := by
  unfold value? at h
  split at h
  · simp_all
  · split at h <;> simp_all
  · simp at h

def once {α : Type} (old : Option α) (new : α) : Option (Option α) :=
  if old.isSome then none else some (some new)

def fileName? (s : String) : Option String :=
  if s = "" then none else some s

def count? (s : String) : Option Nat :=
  let ds :=
    match s.toList with
    | '+' :: cs => cs
    | cs => cs
  if Numeral.isDigits ds ∧ Numeral.value ds < twoTo 64 then some (Numeral.value ds) else none

def assignment? (s : String) : Option (String × String) :=
  let cs := s.toList
  match cs.dropWhile (· ≠ '=') with
  | [] => none
  | _ :: value =>
    some (String.ofList (Text.trimChars (cs.takeWhile (· ≠ '='))), String.ofList value)

end Arguments

end AvroColumns
