import AvroColumns.Json.Basic
import AvroColumns.Numeric.Parsing

/-!
# Numbers in JSON texts

A number's digits are read in one of two ways. `staged` keeps as many leading digits as fit 64 bits,
rounds them to a binary number, and scales that by a power of ten, so a result may be one place off
the nearest number. `nearest` finds the nearest number, as long as the exponent fits 32 bits. Both
refuse what lies beyond the largest finite number.
-/

namespace AvroColumns.Json

structure Numerals where
  negative : Bool
  whole : List Char
  fraction : Option (List Char)
  exponent : Option Int

namespace Numerals

def takeSign : List Char → Bool × List Char
  | '-' :: cs => (true, cs)
  | cs => (false, cs)

def takeWhole (cs : List Char) : Option (List Char × List Char) :=
  let ds := cs.takeWhile Char.isDigit
  if ds = [] ∨ (1 < ds.length ∧ ds.head? = some '0') then none
  else some (ds, cs.dropWhile Char.isDigit)

def takeFraction : List Char → Option (Option (List Char) × List Char)
  | '.' :: cs =>
    let ds := cs.takeWhile Char.isDigit
    if ds = [] then none else some (some ds, cs.dropWhile Char.isDigit)
  | cs => some (none, cs)

def takeExponentSign : List Char → Int × List Char
  | '-' :: cs => (-1, cs)
  | '+' :: cs => (1, cs)
  | cs => (1, cs)

def takeExponent : List Char → Option (Option Int × List Char)
  | [] => some (none, [])
  | c :: cs =>
    if c = 'e' ∨ c = 'E' then
      let (sign, cs) := takeExponentSign cs
      let ds := cs.takeWhile Char.isDigit
      if ds = [] then none else some (some (sign * Numeral.value ds), cs.dropWhile Char.isDigit)
    else some (none, c :: cs)

def take (cs : List Char) : Option (Numerals × List Char) := do
  let (negative, cs) := takeSign cs
  let (whole, cs) ← takeWhole cs
  let (fraction, cs) ← takeFraction cs
  let (exponent, cs) ← takeExponent cs
  return (⟨negative, whole, fraction, exponent⟩, cs)

def isWhole (n : Numerals) : Bool :=
  n.fraction.isNone && n.exponent.isNone

def whole? (n : Numerals) : Option Int :=
  let v := Numeral.value n.whole
  if n.negative then if v ≤ twoTo 63 then some (-(v : Int)) else none
  else if v < twoTo 64 then some v else none

def accumulate (significand : Nat) : List Char → Nat × Nat
  | [] => (significand, 0)
  | c :: cs =>
    let next := 10 * significand + (c.toNat - '0'.toNat)
    if next < twoTo 64 then accumulate next cs else (significand, (c :: cs).length)

def lower : (fuel : Nat) → Binary64 → (exponent : Nat) → Binary64 × Nat
  | 0, x, e => (x, e)
  | fuel + 1, x, e =>
    if 308 < e ∧ !x.isZero then lower fuel (divide x (.ofRatio false (tenTo 308) 1)) (e - 308)
    else (x, e)
where
  divide (x y : Binary64) : Binary64 :=
    match y.read with
    | .finite _ m e => x.scale (twoTo (-e).toNat) (m * twoTo e.toNat)
    | _ => x

def scaled (negative : Bool) (significand : Nat) (exponent : Int) : Option Binary64 :=
  let x := Binary64.ofRatio negative significand 1
  if x.isZero then some x
  else if 0 ≤ exponent then
    if 308 < exponent then none
    else
      match (Binary64.ofRatio false (tenTo exponent.toNat) 1).read with
      | .finite _ m e =>
        let y := x.scale (m * twoTo e.toNat) (twoTo (-e).toNat)
        if y.isFinite then some y else none
      | _ => none
  else
    let (x, e) := lower 4 x (-exponent).toNat
    if x.isZero then some x
    else some (lower.divide x (.ofRatio false (tenTo e) 1))

/-- The number in stages. Minus zero is a real number. -/
def staged (n : Numerals) : Option Json :=
  match n.isWhole, n.whole? with
  | true, some v =>
    if n.negative ∧ v = 0 then some (.real (.zero true)) else some (.int v)
  | _, _ =>
    let (significand, dropped) := accumulate 0 n.whole
    let fraction := n.fraction.getD []
    let (significand, left) := accumulate significand fraction
    let exponent := (dropped : Int) - (fraction.length - left : Nat)
    let written := n.exponent.getD 0
    -- An exponent that does not fit 32 bits settles the matter by its sign.
    if written.natAbs < twoTo 31 then (scaled n.negative significand (exponent + written)).map .real
    else if significand ≠ 0 ∧ 0 < written then none
    else some (.real (.zero n.negative))

/-- How many significant digits are taken together as one significand. -/
def room (n : Numerals) : Nat :=
  if n.fraction.isSome ∧ n.whole ≠ ['0'] then 18 else 19

/-- The number nearest to a significand of few digits, with the exponent that 32 bits keep of the
one written. It counts if the number is normal. -/
def nearestKept? (n : Numerals) (digits : List Char) (exponent : Int) : Option Binary64 :=
  let x := Numeral.nearest n.negative (Numeral.value digits) exponent
  if (digits.dropWhile (· = '0')).length ≤ n.room ∧ -325 ≤ exponent ∧ x.isNormal then some x
  else none

/-- The nearest number. Whole numbers fit 64 bits, and minus zero is the whole number zero. An
exponent that has another digit behind a value beyond `2 ^ 32` is refused, and one that 32 bits do
not hold comes down to what they keep of it. -/
def nearest (n : Numerals) : Option Json :=
  if n.isWhole then n.whole?.map .int
  else
    let fraction := n.fraction.getD []
    let digits := n.whole ++ fraction
    let written := n.exponent.getD 0
    let exponent := written - fraction.length
    let x := Numeral.nearest n.negative (Numeral.value digits) exponent
    let kept := exponent.bmod (twoTo 32)
    let x := if kept = exponent then x else (n.nearestKept? digits kept).getD x
    if written.natAbs / 10 ≤ twoTo 32 ∧ x.isFinite then some (.real x) else none

end Numerals

end AvroColumns.Json
