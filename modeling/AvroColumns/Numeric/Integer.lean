import AvroColumns.Numeric.Power

namespace AvroColumns

def fitsInt32 (n : Int) : Bool :=
  -2147483648 ≤ n && n ≤ 2147483647

def fitsInt64 (n : Int) : Bool :=
  -9223372036854775808 ≤ n && n ≤ 9223372036854775807

namespace Numeral

def value (cs : List Char) : Nat :=
  cs.foldl (fun n c => 10 * n + (c.toNat - '0'.toNat)) 0

def isDigits (cs : List Char) : Bool :=
  !cs.isEmpty && cs.all Char.isDigit

def signed? : List Char → Option Int
  | '-' :: cs => if isDigits cs then some (-(value cs : Int)) else none
  | cs => if isDigits cs then some (value cs : Int) else none

def integer? : List Char → Option Int
  | '+' :: cs => if isDigits cs then some (value cs : Int) else none
  | cs => signed? cs

def index? (cs : List Char) : Option Int :=
  (signed? cs).filter fitsInt64

def int64? (cs : List Char) : Option Int :=
  (integer? cs).filter fitsInt64

def ofInt (n : Int) : List Char :=
  if n < 0 then '-' :: Nat.toDigits 10 n.natAbs else Nat.toDigits 10 n.natAbs

def text (n : Int) : String :=
  String.ofList (ofInt n)

def padded (width n : Nat) : List Char :=
  let ds := Nat.toDigits 10 n
  List.replicate (width - ds.length) '0' ++ ds

end Numeral

end AvroColumns
