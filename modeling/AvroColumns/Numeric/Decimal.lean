import AvroColumns.Numeric.Binary
import AvroColumns.Numeric.Integer

namespace AvroColumns

/-- The number `unscaled * 10 ^ (-scale)`. -/
structure Decimal where
  unscaled : Int
  scale : Int
  deriving DecidableEq, Repr

namespace Decimal

def ofInt (n : Int) : Decimal :=
  ⟨n, 0⟩

/-- The value of digits with underscores between them. The first character is a digit. -/
def digits? (cs : List Char) : Option Nat :=
  match cs with
  | [] => none
  | '_' :: _ => none
  | cs =>
    let ds := cs.filter (· ≠ '_')
    if ds.all Char.isDigit then some (Numeral.value ds) else none

def signedDigits? : List Char → Option Int
  | '-' :: cs => (digits? cs).map fun n => -(n : Int)
  | '+' :: cs => (digits? cs).map fun n => (n : Int)
  | cs => (digits? cs).map fun n => (n : Int)

/-- The number that a text stands for: digits with an optional sign, point and exponent. The digits
around the point are read as one integer, and the resulting scale fits 64 bits. -/
def ofChars? (cs : List Char) : Option Decimal := do
  let isMark (c : Char) : Bool := c == 'e' || c == 'E'
  let base := cs.takeWhile (!isMark ·)
  let exponent ←
    match cs.dropWhile (!isMark ·) with
    | [] => some 0
    | _ :: e => Numeral.integer? e
  let lead := base.takeWhile (· ≠ '.')
  let trail := (base.dropWhile (· ≠ '.')).drop 1
  let unscaled ← signedDigits? (lead ++ trail)
  let scale := ((trail.filter (· ≠ '_')).length : Int) - exponent
  if fitsInt64 scale then some ⟨unscaled, scale⟩ else none

def ofString? (s : String) : Option Decimal :=
  ofChars? s.toList

/-- The decimal with the same value as a finite binary number. Halves that a full significand has to
spare are taken out first; a number too small for a full significand keeps all its places. -/
def ofBinary? (x : Binary64) : Option Decimal :=
  match x.read with
  | .finite negative m e =>
    let n : Int := if negative then -(m : Int) else m
    if m = 0 then some ⟨0, 0⟩
    else if 0 ≤ e then some ⟨n * twoTo e.toNat, 0⟩
    else
      let spare := if m < twoTo Format.double.fraction then 0 else min (-e).toNat (twos m.log2 m)
      let k := (-e).toNat - spare
      some ⟨n / twoTo spare * fiveTo k, k⟩
  | _ => none
where
  twos : (fuel : Nat) → Nat → Nat
    | 0, _ => 0
    | fuel + 1, m => if m % 2 = 0 then twos fuel (m / 2) + 1 else 0

def unsigned (bytes : List UInt8) : Nat :=
  bytes.foldl (fun n b => 256 * n + b.toNat) 0

def twosComplement (bytes : List UInt8) : Int :=
  let n := unsigned bytes
  if 128 ≤ (bytes.headD 0).toNat then (n : Int) - twoTo (8 * bytes.length) else n

/-- The decimal whose digits are bytes in two's complement. A scale is a number of 64 bits with a
sign, so one beyond them stands for a negative one. -/
def ofBytes (scale : Nat) (bytes : List UInt8) : Decimal :=
  ⟨twosComplement bytes, (scale : Int).bmod (twoTo 64)⟩

def truncate (d : Decimal) : Int :=
  d.unscaled.tdiv (tenTo d.scale.toNat) * tenTo (-d.scale).toNat

def wholeDigits (d : Decimal) : Int :=
  ((Nat.toDigits 10 d.unscaled.natAbs).length : Int) - d.scale

/-- The integer part if it fits 64 bits. A number with no digits before its point, or with more than
an integer of 64 bits can have, is settled without its power of ten. -/
def int64? (d : Decimal) : Option Int :=
  if d.unscaled = 0 ∨ d.wholeDigits ≤ 0 then some 0
  else if 19 < d.wholeDigits then none
  else
    let n := d.truncate
    if fitsInt64 n then some n else none

/-- The nearest binary number. A number with so many digits before its point that it lies beyond
the largest finite one, or with so many zeros behind it that it lies below the smallest, is settled
without its power of ten. -/
def toBinary (d : Decimal) : Binary64 :=
  if d.unscaled = 0 then .zero false
  else
    let negative : Bool := d.unscaled < 0
    let n := d.unscaled.natAbs
    if 400 < d.wholeDigits then .infinity negative
    else if d.wholeDigits < -400 then .zero negative
    else .ofRatio negative (n * tenTo (-d.scale).toNat) (tenTo d.scale.toNat)

def chars (d : Decimal) : List Char :=
  let ds := Nat.toDigits 10 d.unscaled.natAbs
  let scale := if d.unscaled = 0 then 0 else d.scale
  let body :=
    if 0 < scale ∧ 5 < scale - ds.length then
      let e := ds.length - 1 - scale
      (match ds with
        | d :: e :: rest => d :: '.' :: e :: rest
        | ds => ds) ++ 'E' :: Numeral.ofInt e
    else if 15 < -scale then ds ++ 'e' :: '+' :: Numeral.ofInt (-scale)
    else if scale ≤ 0 then ds ++ List.replicate (-scale).toNat '0'
    else if scale < ds.length then
      ds.take (ds.length - scale.toNat) ++ '.' :: ds.drop (ds.length - scale.toNat)
    else '0' :: '.' :: (List.replicate (scale.toNat - ds.length) '0' ++ ds)
  if d.unscaled < 0 then '-' :: body else body

def text (d : Decimal) : String :=
  String.ofList d.chars

end Decimal

end AvroColumns
