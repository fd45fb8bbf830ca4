import AvroColumns.Numeric.Power

namespace AvroColumns

structure Format where
  fraction : Nat
  exponent : Nat

namespace Format

def single : Format := ⟨23, 8⟩

def double : Format := ⟨52, 11⟩

def leastExponent (f : Format) : Int :=
  2 - twoTo (f.exponent - 1) - f.fraction

def infinity (f : Format) : Nat :=
  (twoTo f.exponent - 1) * twoTo f.fraction

def sign (f : Format) (negative : Bool) : Nat :=
  if negative then twoTo (f.fraction + f.exponent) else 0

end Format

/-- What the bits of a number say: a finite number is `significand * 2 ^ exponent` with its sign. -/
inductive Reading
  | nan
  | infinite (negative : Bool)
  | finite (negative : Bool) (significand : Nat) (exponent : Int)
  deriving DecidableEq, Repr

namespace Format

variable (f : Format)

def read (bits : Nat) : Reading :=
  let fraction := bits % twoTo f.fraction
  let field := bits / twoTo f.fraction % twoTo f.exponent
  let negative := bits / twoTo (f.fraction + f.exponent) % 2 == 1
  if field = twoTo f.exponent - 1 then
    if fraction = 0 then .infinite negative else .nan
  else if field = 0 then .finite negative fraction f.leastExponent
  else .finite negative (twoTo f.fraction + fraction) (f.leastExponent + field - 1)

def divideToEven (num den : Nat) : Nat :=
  let q := num / den
  let r := num % den
  if 2 * r < den then q
  else if 2 * r = den then q + q % 2
  else q + 1

def placeExponent (num den : Nat) : Int :=
  let guess : Int := (num.log2 : Int) - den.log2 - f.fraction
  -- The quotient lies between `2 ^ (guess + fraction - 1)` and `2 ^ (guess + fraction + 1)`.
  let exact := if num * twoTo (-(guess + f.fraction)).toNat < den * twoTo (guess + f.fraction).toNat
    then guess - 1 else guess
  max exact f.leastExponent

/-- The bits of the number nearest to `num / den`, for a positive `den`; ties go to the even
significand, and what lies beyond the largest finite number is infinite. -/
def round (negative : Bool) (num den : Nat) : Nat :=
  if num = 0 then f.sign negative
  else
    let e := f.placeExponent num den
    let significand := divideToEven (num * twoTo (-e).toNat) (den * twoTo e.toNat)
    -- A significand that rounds up to a power of two carries into the exponent field by itself.
    let magnitude := (e - f.leastExponent).toNat * twoTo f.fraction + significand
    f.sign negative + min magnitude f.infinity

end Format

structure Binary64 where
  bits : UInt64
  deriving DecidableEq, Repr

structure Binary32 where
  bits : UInt32
  deriving DecidableEq, Repr

namespace Binary64

def read (x : Binary64) : Reading :=
  Format.double.read x.bits.toNat

def ofRatio (negative : Bool) (num den : Nat) : Binary64 :=
  ⟨UInt64.ofNat (Format.double.round negative num den)⟩

def ofInt (n : Int) : Binary64 :=
  ofRatio (n < 0) n.natAbs 1

def infinity (negative : Bool) : Binary64 :=
  ⟨UInt64.ofNat (Format.double.sign negative + Format.double.infinity)⟩

def nan : Binary64 := ⟨0x7FF8000000000000⟩

def zero (negative : Bool) : Binary64 :=
  ⟨UInt64.ofNat (Format.double.sign negative)⟩

def one : Binary64 := ofInt 1

def isFinite (x : Binary64) : Bool :=
  match x.read with
  | .finite .. => true
  | _ => false

def isNormal (x : Binary64) : Bool :=
  match x.read with
  | .finite _ m _ => twoTo Format.double.fraction ≤ m
  | _ => false

def isNaN (x : Binary64) : Bool :=
  x.read == .nan

def isZero (x : Binary64) : Bool :=
  match x.read with
  | .finite _ 0 _ => true
  | _ => false

/-- The product of a finite number and a fraction, rounded once. -/
def scale (x : Binary64) (num den : Nat) : Binary64 :=
  match x.read with
  | .finite negative m e => ofRatio negative (m * twoTo e.toNat * num) (twoTo (-e).toNat * den)
  | _ => x

/-- The integer nearest to a finite number, halves away from zero. -/
def roundHalfAway? (x : Binary64) : Option Int :=
  match x.read with
  | .finite negative m e =>
    let den := twoTo (-e).toNat
    let n : Nat := (2 * (m * twoTo e.toNat) + den) / (2 * den)
    some (if negative then -(n : Int) else n)
  | _ => none

end Binary64

namespace Binary32

def read (x : Binary32) : Reading :=
  Format.single.read x.bits.toNat

def isNaN (x : Binary32) : Bool :=
  x.read == .nan

def toBinary64 (x : Binary32) : Binary64 :=
  match x.read with
  | .nan => .nan
  | .infinite negative => .infinity negative
  | .finite negative m e => .ofRatio negative (m * twoTo e.toNat) (twoTo (-e).toNat)

end Binary32

def Binary64.toBinary32 (x : Binary64) : Binary32 :=
  match x.read with
  | .nan => ⟨0x7FC00000⟩
  | .infinite negative =>
    ⟨UInt32.ofNat (Format.single.sign negative + Format.single.infinity)⟩
  | .finite negative m e =>
    ⟨UInt32.ofNat (Format.single.round negative (m * twoTo e.toNat) (twoTo (-e).toNat))⟩

end AvroColumns
