namespace AvroColumns

abbrev Variables := String → Option String

namespace Variables

def none : Variables := fun _ => .none

/-- The values of a list of names, the last of those that share a name. -/
def ofList (bindings : List (String × String)) : Variables :=
  fun name => (bindings.reverse.find? (·.1 == name)).map (·.2)

def orElse (first second : Variables) : Variables :=
  fun name => (first name).or (second name)

end Variables

namespace Placeholder

def occurs : List Char → Bool
  | '$' :: '\x7b' :: _ => true
  | _ :: cs => occurs cs
  | [] => false

/-- The text with underscores for dots in placeholders, read from outside or from inside one; none
if a placeholder is left open. -/
def cleanseFrom : (inside : Bool) → List Char → Option (List Char)
  | false, '$' :: '\x7b' :: cs => (cleanseFrom true cs).map fun ds => '$' :: '\x7b' :: ds
  | false, c :: cs => (cleanseFrom false cs).map (c :: ·)
  | false, [] => some []
  | true, '\x7d' :: cs => (cleanseFrom false cs).map ('\x7d' :: ·)
  | true, c :: cs => (cleanseFrom true cs).map ((if c = '.' then '_' else c) :: ·)
  | true, [] => none

/-- Writes each dot inside a placeholder as an underscore. A text in which some placeholder is left
open stays as it is. -/
def cleanse (cs : List Char) : List Char :=
  (cleanseFrom false cs).getD cs

variable (vars : Variables)

def replacement (name : List Char) : List Char :=
  let verbatim := '$' :: '\x7b' :: (name ++ ['\x7d'])
  if name = [] then verbatim
  else
    match vars (String.ofList name) with
    | some v => v.toList
    | none => verbatim

/-- Replaces placeholders from left to right. Inside one, its name so far is given, last character
first; values are not searched again, and a placeholder left open stays as written. -/
def substituteFrom : (name : Option (List Char)) → List Char → List Char
  | none, '$' :: '\x7b' :: cs => substituteFrom (some []) cs
  | none, c :: cs => c :: substituteFrom none cs
  | none, [] => []
  | some name, '\x7d' :: cs => replacement vars name.reverse ++ substituteFrom none cs
  | some name, c :: cs => substituteFrom (some (c :: name)) cs
  | some name, [] => '$' :: '\x7b' :: name.reverse

/-- The names of placeholders from left to right. Inside one, its name so far is given, last
character first. -/
def namesFrom : (name : Option (List Char)) → List Char → List String
  | none, '$' :: '\x7b' :: cs => namesFrom (some []) cs
  | none, _ :: cs => namesFrom none cs
  | some name, '\x7d' :: cs => String.ofList name.reverse :: namesFrom none cs
  | some name, c :: cs => namesFrom (some (c :: name)) cs
  | _, [] => []

def names (s : String) : List String :=
  namesFrom none s.toList

def substitute (s : String) : String :=
  String.ofList (substituteFrom vars none s.toList)

end Placeholder

end AvroColumns
