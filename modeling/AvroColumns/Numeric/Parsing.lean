import AvroColumns.Numeric.Binary
import AvroColumns.Numeric.Integer

namespace AvroColumns.Numeral

def sameLetters (cs : List Char) (name : String) : Bool :=
  cs.map Char.toLower == name.toList

/-- The number nearest to `n * 10 ^ e`. A power of ten that is far out of reach is not computed. -/
def nearest (negative : Bool) (n : Nat) (e : Int) : Binary64 :=
  if n = 0 then .zero negative
  else
    let lead := ((Nat.toDigits 10 n).length : Int) + e
    if 400 < lead then .infinity negative
    else if lead < -400 then .zero negative
    else .ofRatio negative (n * tenTo e.toNat) (tenTo (-e).toNat)

def unsignedBinary? (negative : Bool) (cs : List Char) : Option Binary64 :=
  if sameLetters cs "inf" || sameLetters cs "infinity" then some (.infinity negative)
  else if sameLetters cs "nan" then some .nan
  else do
    let whole := cs.takeWhile Char.isDigit
    let rest := cs.dropWhile Char.isDigit
    let (fraction, rest) :=
      match rest with
      | '.' :: rest => (rest.takeWhile Char.isDigit, rest.dropWhile Char.isDigit)
      | rest => ([], rest)
    if whole.isEmpty && fraction.isEmpty then none
    let exponent ←
      match rest with
      | [] => some 0
      | c :: e => if c = 'e' ∨ c = 'E' then integer? e else none
    return nearest negative (value (whole ++ fraction)) (exponent - fraction.length)

def binary? : List Char → Option Binary64
  | '-' :: cs => unsignedBinary? true cs
  | '+' :: cs => unsignedBinary? false cs
  | cs => unsignedBinary? false cs

end AvroColumns.Numeral
