import AvroColumns.Json.Number

namespace AvroColumns.Json

/-- How a reader treats what the grammar leaves open: the value of a number, how deep arrays and
objects may nest, and whether halves of pairs that do not match are let through, and what follows a
null character too. -/
structure Dialect where
  number : Numerals → Option Json
  depth : Nat
  isLax : Bool

namespace Reader

def isSpace (c : Char) : Bool :=
  c = ' ' || c = '\n' || c = '\r' || c = '\t'

def skipSpace (cs : List Char) : List Char :=
  cs.dropWhile isSpace

def hex4? (a b c d : Char) : Option Nat := do
  return (((← Text.hexValue? a) * 16 + (← Text.hexValue? b)) * 16 + (← Text.hexValue? c)) * 16
    + (← Text.hexValue? d)

def escape? (c : Char) : Option Char :=
  if c = '"' ∨ c = '\\' ∨ c = '/' then some c
  else if c = 'n' then some '\n'
  else if c = 'r' then some '\r'
  else if c = 't' then some '\t'
  else if c = 'b' then some '\x08'
  else if c = 'f' then some '\x0c'
  else none

/-- The character that a pair of surrogates stands for. A lax reader takes anything from the second
halves on for a second half. -/
def pair? (isLax : Bool) (first second : Nat) : Option Char :=
  if 0xDC00 ≤ second ∧ (isLax ∨ second ≤ 0xDFFF) then
    some (Char.ofNat (0x10000 + (((first - 0xD800) * 0x400) ||| (second - 0xDC00))))
  else none

variable (isLax : Bool)

/-- Reads a string up to its closing quote; `done` holds the characters before, last first. A
character outside the first plane is written as a pair of surrogates, and none stands alone. To a
lax reader a second half that does is three bytes that are no character. -/
def string (done : List Char) : List Char → Option (String × List Char)
  | [] => none
  | '"' :: cs => some (String.ofList done.reverse, cs)
  | '\\' :: 'u' :: a :: b :: c :: d :: cs =>
    match hex4? a b c d with
    | none => none
    | some n =>
      if 0xD800 ≤ n ∧ n ≤ 0xDBFF then
        match cs with
        | '\\' :: 'u' :: e :: f :: g :: h :: cs =>
          match hex4? e f g h with
          | none => none
          | some m =>
            match pair? isLax n m with
            | none => none
            | some c => string (c :: done) cs
        | _ => none
      else if 0xDC00 ≤ n ∧ n ≤ 0xDFFF then
        if isLax then string ('\uFFFD' :: '\uFFFD' :: '\uFFFD' :: done) cs else none
      else string (Char.ofNat n :: done) cs
  | '\\' :: c :: cs =>
    match escape? c with
    | some e => string (e :: done) cs
    | none => none
  | c :: cs => if c.toNat < 32 ∨ c = '\\' then none else string (c :: done) cs

/-- Reads the items of an array, the first of which stands at the front; `done` holds those before,
last first. Every item takes at least one character, so the length of the text is fuel enough. -/
def items (item : List Char → Option (Json × List Char)) :
    (fuel : Nat) → (done : List Json) → List Char → Option (List Json × List Char)
  | 0, _, _ => none
  | fuel + 1, done, cs =>
    match item cs with
    | none => none
    | some (j, cs) =>
      match skipSpace cs with
      | ',' :: cs => items item fuel (j :: done) (skipSpace cs)
      | ']' :: cs => some ((j :: done).reverse, cs)
      | _ => none

def members (item : List Char → Option (Json × List Char)) :
    (fuel : Nat) → (done : List (String × Json)) → List Char →
      Option (List (String × Json) × List Char)
  | 0, _, _ => none
  | fuel + 1, done, cs =>
    match cs with
    | '"' :: cs =>
      match string isLax [] cs with
      | none => none
      | some (name, cs) =>
        match skipSpace cs with
        | ':' :: cs =>
          match item (skipSpace cs) with
          | none => none
          | some (j, cs) =>
            match skipSpace cs with
            | ',' :: cs => members item fuel ((name, j) :: done) (skipSpace cs)
            | '\x7d' :: cs => some (((name, j) :: done).reverse, cs)
            | _ => none
        | _ => none
    | _ => none

/-- What is left of a text behind a number or a name. A lax reader passes over a null character and
what else comes before the next blank, quote or mark. -/
def afterWord (cs : List Char) : List Char :=
  match isLax, cs with
  | true, '\x00' :: cs => cs.dropWhile fun c => !(isSpace c || "\",:[]\x7b\x7d".toList.contains c)
  | _, cs => cs

variable (number : Numerals → Option Json)

def scalar : List Char → Option (Json × List Char)
  | 'n' :: 'u' :: 'l' :: 'l' :: cs => some (.null, afterWord isLax cs)
  | 't' :: 'r' :: 'u' :: 'e' :: cs => some (.bool true, afterWord isLax cs)
  | 'f' :: 'a' :: 'l' :: 's' :: 'e' :: cs => some (.bool false, afterWord isLax cs)
  | '"' :: cs => (string isLax [] cs).map fun (s, cs) => (.str s, cs)
  | cs => do
    let (n, cs) ← Numerals.take cs
    return (← number n, afterWord isLax cs)

def value : (depth : Nat) → List Char → Option (Json × List Char)
  | 0, '[' :: _ => none
  | 0, '\x7b' :: _ => none
  | depth + 1, '[' :: cs =>
    match skipSpace cs with
    | ']' :: cs => some (.arr [], cs)
    | cs => (items (value depth) (cs.length + 1) [] cs).map fun (js, cs) => (.arr js, cs)
  | depth + 1, '\x7b' :: cs =>
    match skipSpace cs with
    | '\x7d' :: cs => some (.obj [], cs)
    | cs => (members isLax (value depth) (cs.length + 1) [] cs).map fun (ms, cs) => (.obj ms, cs)
  | _, cs => scalar isLax number cs

end Reader

def readWritten? (d : Dialect) (cs : List Char) : Option Json := do
  let (j, rest) ← Reader.value d.isLax d.number d.depth (Reader.skipSpace cs)
  if Reader.skipSpace rest = [] then some j else none

def strict : Dialect := ⟨Numerals.staged, 127, false⟩

def read? (s : String) : Option Json :=
  (readWritten? strict s.toList).map normalize

/-- Reads a line of input at the command line: numbers are read as the nearest ones, arrays and
objects to any depth, and the reader is lax. A line that it refuses is read as any other text. -/
def readLine? (s : String) : Option Json :=
  let cs := s.toList
  ((readWritten? ⟨Numerals.nearest, cs.length, true⟩ cs).map normalize).or (read? s)

end AvroColumns.Json
