import AvroColumns.Numeric.Binary
import AvroColumns.Numeric.Integer

/-!
# The shortest decimal of a binary number

`Shortest.digits` finds the decimal with the fewest digits that reads back to a given number of 64
bits, and of those the nearest to it. `Layout` is what a notation decides beyond the digits: where
positional notation ends, how an exponent is written, and which of two equally near decimals wins.
-/

namespace AvroColumns.Shortest

structure Scientific where
  digits : Nat
  exponent : Int
  deriving DecidableEq, Repr

inductive Tie
  | toEven
  | awayFromZero
  deriving DecidableEq, Repr

def compareScaled (a : Nat) (i : Int) (n : Nat) (j : Int) : Ordering :=
  compare (a * tenTo i.toNat * twoTo (-j).toNat) (n * twoTo j.toNat * tenTo (-i).toNat)

/-- Whether a decimal lies among the reals whose nearest number is `m * 2 ^ q`. The gap to the
number below a power of two is half the gap above it, save among the smallest numbers. -/
def readsBack (m : Nat) (q : Int) (d : Scientific) : Bool :=
  let narrow := m == twoTo 52 && Format.double.leastExponent < q
  let low := compareScaled d.digits d.exponent (if narrow then 4 * m - 1 else 4 * m - 2) (q - 2)
  let high := compareScaled d.digits d.exponent (4 * m + 2) (q - 2)
  (low == .gt || (m % 2 == 0 && low == .eq)) && (high == .lt || (m % 2 == 0 && high == .eq))

def magnitude (num den : Nat) : Int :=
  if den ≤ num then (Nat.toDigits 10 (num / den)).length
  else 1 - ((Nat.toDigits 10 ((den - 1) / num)).length : Int)

def onGrid (tie : Tie) (m : Nat) (q k : Int) (count : Nat) : Option Scientific :=
  let e := k - count
  let num := m * twoTo q.toNat * tenTo (-e).toNat
  let den := twoTo (-q).toNat * tenTo e.toNat
  let below : Scientific := ⟨num / den, e⟩
  let above : Scientific := ⟨num / den + 1, e⟩
  match readsBack m q below, readsBack m q above with
  | false, false => none
  | true, false => some below
  | false, true => some above
  | true, true =>
    let r := 2 * (num % den)
    if r < den then some below
    else if den < r then some above
    else
      match tie with
      | .awayFromZero => some above
      | .toEven => if below.digits % 2 = 0 then some below else some above

def strip : (fuel : Nat) → Scientific → Scientific
  | 0, d => d
  | fuel + 1, d =>
    if d.digits ≠ 0 ∧ d.digits % 10 = 0 then strip fuel ⟨d.digits / 10, d.exponent + 1⟩ else d

/-- The shortest decimal that reads back to the positive number `m * 2 ^ q`. -/
def digits (tie : Tie) (m : Nat) (q : Int) : Scientific :=
  let k := magnitude (m * twoTo q.toNat) (twoTo (-q).toNat)
  match (List.range 17).findSome? fun n => onGrid tie m q k (n + 1) with
  | some d => strip 17 d
  | none => ⟨m * twoTo q.toNat * fiveTo (-q).toNat, min q 0⟩

structure Layout where
  tie : Tie
  positional : Int → Bool
  integral : List Char
  exponentMark : List Char
  nan : List Char
  infinity : List Char

def positionalChars (integral : List Char) (ds : List Char) (k : Int) : List Char :=
  if k ≤ 0 then '0' :: '.' :: (List.replicate (-k).toNat '0' ++ ds)
  else if (ds.length : Int) ≤ k then ds ++ List.replicate (k - ds.length).toNat '0' ++ integral
  else ds.take k.toNat ++ '.' :: ds.drop k.toNat

def exponentChars (mark : List Char) (ds : List Char) (e : Int) : List Char :=
  let mantissa :=
    match ds with
    | [] => []
    | [d] => [d]
    | d :: rest => d :: '.' :: rest
  mantissa ++ (if e < 0 then 'e' :: Numeral.ofInt e else mark ++ Numeral.ofInt e)

def Layout.chars (l : Layout) (x : Binary64) : List Char :=
  match x.read with
  | .nan => l.nan
  | .infinite negative => if negative then '-' :: l.infinity else l.infinity
  | .finite negative m q =>
    let body :=
      if m = 0 then '0' :: l.integral
      else
        let d := digits l.tie m q
        let ds := Nat.toDigits 10 d.digits
        let k := d.exponent + ds.length
        if l.positional (k - 1) then positionalChars l.integral ds k
        else exponentChars l.exponentMark ds (k - 1)
    if negative then '-' :: body else body

def document : Layout where
  tie := .toEven
  positional e := -5 ≤ e && e < 16
  integral := ['.', '0']
  exponentMark := ['e', '+']
  nan := "null".toList
  infinity := "null".toList

def plain : Layout where
  tie := .awayFromZero
  positional _ := true
  integral := []
  exponentMark := ['e']
  nan := "NaN".toList
  infinity := "inf".toList

def described : Layout where
  tie := .awayFromZero
  positional e := -4 ≤ e && e < 16
  integral := ['.', '0']
  exponentMark := ['e']
  nan := "NaN".toList
  infinity := "inf".toList

end AvroColumns.Shortest
