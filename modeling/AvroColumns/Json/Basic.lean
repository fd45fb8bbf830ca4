import AvroColumns.Numeric.Shortest
import AvroColumns.Text.Hexadecimal

namespace AvroColumns

inductive Json
  | null
  | bool (b : Bool)
  | int (n : Int)
  | real (x : Binary64)
  | str (s : String)
  | arr (items : List Json)
  | obj (members : List (String × Json))
  deriving Repr, Inhabited

namespace Json

def lookup (name : String) (members : List (String × Json)) : Option Json :=
  (members.find? (·.1 == name)).map (·.2)

def get? : Json → String → Option Json
  | .obj members, name => lookup name members
  | _, _ => none

def insertMember (name : String) (v : Json) : List (String × Json) → List (String × Json)
  | [] => [(name, v)]
  | (n, w) :: rest =>
    if name < n then (name, v) :: (n, w) :: rest
    else if name = n then (name, v) :: rest
    else (n, w) :: insertMember name v rest

def sortMembers (members : List (String × Json)) : List (String × Json) :=
  members.foldl (fun acc (n, v) => insertMember n v acc) []

mutual

def normalize : Json → Json
  | .arr items => .arr (normalizeItems items)
  | .obj members => .obj (sortMembers (normalizeMembers members))
  | j => j

def normalizeItems : List Json → List Json
  | [] => []
  | j :: js => normalize j :: normalizeItems js

def normalizeMembers : List (String × Json) → List (String × Json)
  | [] => []
  | (n, j) :: rest => (n, normalize j) :: normalizeMembers rest

end

def string? : Json → Option String
  | .str s => some s
  | _ => none

def bool? : Json → Option Bool
  | .bool b => some b
  | _ => none

def int64? : Json → Option Int
  | .int n => if fitsInt64 n then some n else none
  | _ => none

def nat? : Json → Option Nat
  | .int n => if 0 ≤ n then some n.toNat else none
  | _ => none

def number? : Json → Option Binary64
  | .int n => some (.ofInt n)
  | .real x => some x
  | _ => none

def charEscape (c : Char) : List Char :=
  if c = '"' then ['\\', '"']
  else if c = '\\' then ['\\', '\\']
  else if c = '\n' then ['\\', 'n']
  else if c = '\r' then ['\\', 'r']
  else if c = '\t' then ['\\', 't']
  else if c = '\x08' then ['\\', 'b']
  else if c = '\x0c' then ['\\', 'f']
  else if c.toNat < 32 then
    ['\\', 'u', '0', '0', Text.hexDigit (c.toNat / 16), Text.hexDigit (c.toNat % 16)]
  else [c]

def quoted (s : String) : List Char :=
  '"' :: (s.toList.flatMap charEscape ++ ['"'])

/-- The text of a document that holds no others. A real number that is not finite has no form of its
own and is written as null. -/
def scalarChars : Json → List Char
  | .bool b => if b then "true".toList else "false".toList
  | .int n => Numeral.ofInt n
  | .real x => if x.isFinite then Shortest.document.chars x else "null".toList
  | .str s => quoted s
  | _ => "null".toList

mutual

def chars : Json → List Char
  | .arr items => '[' :: (itemsChars items ++ [']'])
  | .obj members => '\x7b' :: (membersChars members ++ ['\x7d'])
  | j => scalarChars j

def itemsChars : List Json → List Char
  | [] => []
  | [j] => chars j
  | j :: js => chars j ++ ',' :: itemsChars js

def membersChars : List (String × Json) → List Char
  | [] => []
  | [(n, j)] => quoted n ++ ':' :: chars j
  | (n, j) :: rest => quoted n ++ ':' :: (chars j ++ ',' :: membersChars rest)

end

def text (j : Json) : String :=
  String.ofList j.chars

def newline (level : Nat) : List Char :=
  '\n' :: List.replicate (2 * level) ' '

mutual

def prettyChars (level : Nat) : Json → List Char
  | .arr [] => ['[', ']']
  | .arr (j :: js) =>
    '[' :: (newline (level + 1) ++ prettyChars (level + 1) j ++ prettyItems (level + 1) js
      ++ newline level ++ [']'])
  | .obj [] => ['\x7b', '\x7d']
  | .obj ((n, j) :: rest) =>
    '\x7b' :: (newline (level + 1) ++ quoted n ++ ':' :: ' ' :: prettyChars (level + 1) j
      ++ prettyMembers (level + 1) rest ++ newline level ++ ['\x7d'])
  | j => scalarChars j

def prettyItems (level : Nat) : List Json → List Char
  | [] => []
  | j :: js => ',' :: (newline level ++ prettyChars level j ++ prettyItems level js)

def prettyMembers (level : Nat) : List (String × Json) → List Char
  | [] => []
  | (n, j) :: rest =>
    ',' :: (newline level ++ quoted n ++ ':' :: ' ' :: prettyChars level j
      ++ prettyMembers level rest)

end

def prettyText (j : Json) : String :=
  String.ofList (j.prettyChars 0)

end Json

end AvroColumns
