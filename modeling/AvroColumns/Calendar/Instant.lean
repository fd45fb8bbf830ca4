import AvroColumns.Calendar.Date
import AvroColumns.Numeric.Integer
import AvroColumns.Text.Blank

namespace AvroColumns

structure Instant where
  seconds : Int
  nanos : Nat
  deriving DecidableEq, Repr

namespace Instant

def ofCount? (perSecond : Nat) (count : Int) : Option Instant :=
  let seconds := count / perSecond
  let part := (count % perSecond).toNat
  if Date.inRange (seconds / 86400) then some ⟨seconds, part * (1000000000 / perSecond)⟩ else none

def ofDays? (days : Int) : Option Instant :=
  ofCount? 1 (days * 86400)

def ofMillis? (n : Int) : Option Instant :=
  ofCount? 1000 n

def ofMicros? (n : Int) : Option Instant :=
  ofCount? 1000000 n

def ofNanos (n : Int) : Instant :=
  ⟨n / 1000000000, (n % 1000000000).toNat⟩

def toMillis (t : Instant) : Int :=
  t.seconds * 1000 + (t.nanos / 1000000 : Nat)

def yearChars (year : Int) : List Char :=
  if 0 ≤ year ∧ year ≤ 9999 then Numeral.padded 4 year.toNat
  else (if year < 0 then '-' else '+') :: Numeral.padded 4 year.natAbs

def fractionChars (nanos : Nat) : List Char :=
  if nanos = 0 then []
  else if nanos % 1000000 = 0 then '.' :: Numeral.padded 3 (nanos / 1000000)
  else if nanos % 1000 = 0 then '.' :: Numeral.padded 6 (nanos / 1000)
  else '.' :: Numeral.padded 9 nanos

def localChars (t : Instant) : List Char :=
  let date := Date.ofDays (t.seconds / 86400)
  let second := (t.seconds % 86400).toNat
  let isLeap := 1000000000 ≤ t.nanos
  let shown := second % 60 + (if isLeap then 1 else 0)
  yearChars date.year ++ '-' :: Numeral.padded 2 date.month ++ '-' :: Numeral.padded 2 date.day
    ++ 'T' :: Numeral.padded 2 (second / 3600) ++ ':' :: Numeral.padded 2 (second / 60 % 60)
    ++ ':' :: Numeral.padded 2 shown ++ fractionChars (t.nanos % 1000000000)

def zuluText (t : Instant) : String :=
  String.ofList (t.localChars ++ ['Z'])

def offsetText (t : Instant) : String :=
  String.ofList (t.localChars ++ "+00:00".toList)

def takeDigits (least most : Nat) (cs : List Char) : Option (Nat × List Char) :=
  let ds := (cs.take most).takeWhile Char.isDigit
  if least ≤ ds.length ∧ ds ≠ [] then some (Numeral.value ds, cs.drop ds.length) else none

def takeChar (c : Char) : List Char → Option (List Char)
  | d :: cs => if c = d then some cs else none
  | [] => none

def takeFraction : List Char → Option (Nat × List Char)
  | '.' :: cs => do
    let (n, rest) ← takeDigits 1 9 cs
    let count := cs.length - rest.length
    return (n * tenTo (9 - count), rest.dropWhile Char.isDigit)
  | cs => some (0, cs)

def takeOffset : List Char → Option (Int × List Char)
  | [] => none
  | c :: cs =>
    if c = 'Z' ∨ c = 'z' then some (0, cs)
    else do
      let sign : Int ←
        if c = '+' then some 1 else if c = '-' ∨ c = '−' then some (-1) else none
      let (hours, cs) ← takeDigits 2 2 cs
      let cs ← takeChar ':' cs
      let (minutes, cs) ← takeDigits 2 2 cs
      if 23 < hours ∨ 59 < minutes then none
      return (sign * (hours * 3600 + minutes * 60), cs)

/-- The instant that a date, a time of day and an offset name. A second `60` is a leap second. -/
def ofFields? (date : Date) (hour minute second nanos : Nat) (offset : Int) : Option Instant :=
  if date.isValid && hour ≤ 23 && minute ≤ 59 && second ≤ 60 then
    let (second, nanos) := if second = 60 then (59, nanos + 1000000000) else (second, nanos)
    let ofDay : Int := hour * 3600 + minute * 60 + second
    some ⟨date.toDays * 86400 + ofDay - offset, nanos⟩
  else none

/-- The instant that a text of RFC 3339 names. The letters may be small, and a blank may stand
between date and time. -/
def ofRfc3339? (cs : List Char) : Option Instant := do
  let (year, cs) ← takeDigits 4 4 cs
  let cs ← takeChar '-' cs
  let (month, cs) ← takeDigits 2 2 cs
  let cs ← takeChar '-' cs
  let (day, cs) ← takeDigits 2 2 cs
  let cs ←
    match cs with
    | c :: cs => if c = 'T' ∨ c = 't' ∨ c = ' ' then some cs else none
    | [] => none
  let (hour, cs) ← takeDigits 2 2 cs
  let cs ← takeChar ':' cs
  let (minute, cs) ← takeDigits 2 2 cs
  let cs ← takeChar ':' cs
  let (second, cs) ← takeDigits 2 2 cs
  let (nanos, cs) ← takeFraction cs
  let (offset, cs) ← takeOffset cs
  if cs ≠ [] then none
  ofFields? ⟨year, month, day⟩ hour minute second nanos offset

def takeYear : List Char → Option (Int × List Char)
  | '-' :: cs => (takeDigits 1 cs.length cs).map fun (n, rest) => (-(n : Int), rest)
  | '+' :: cs => (takeDigits 1 cs.length cs).map fun (n, rest) => ((n : Int), rest)
  | cs => (takeDigits 1 4 cs).map fun (n, rest) => ((n : Int), rest)

/-- The midnight that a text with year, month and day names. Month and day may have one digit, and
blanks may stand before them. -/
def ofDate? (cs : List Char) : Option Instant := do
  let (year, cs) ← takeYear (cs.dropWhile Text.isBlank)
  let cs ← takeChar '-' cs
  let (month, cs) ← takeDigits 1 2 (cs.dropWhile Text.isBlank)
  let cs ← takeChar '-' cs
  let (day, cs) ← takeDigits 1 2 (cs.dropWhile Text.isBlank)
  if cs ≠ [] then none
  let date : Date := ⟨year, month, day⟩
  if date.isValid && Date.inRange date.toDays then some ⟨date.toDays * 86400, 0⟩ else none

end Instant

end AvroColumns
