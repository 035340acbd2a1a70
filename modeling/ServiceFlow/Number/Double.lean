/-!
# Double precision numbers

A number is held as its 64 bits, so that equality is decidable and every operation is exact integer
arithmetic.
-/

namespace ServiceFlow

structure Double where
  bits : UInt64
deriving DecidableEq, Repr, Inhabited

namespace Double

/-- What the bits of a number stand for. A finite number is `± mantissa * 2 ^ exponent`. -/
inductive Reading where
  | nan
  | infinite (negative : Bool)
  | finite (negative : Bool) (mantissa : Nat) (exponent : Int)
deriving DecidableEq, Repr

def read (d : Double) : Reading :=
  let n := d.bits.toNat
  let negative := Nat.pow 2 63 ≤ n
  let exponent : Nat := n / Nat.pow 2 52 % Nat.pow 2 11
  let fraction : Nat := n % Nat.pow 2 52
  if exponent = 2047 then
    if fraction = 0 then .infinite negative else .nan
  else if exponent = 0 then
    .finite negative fraction (-1074)
  else
    .finite negative (Nat.pow 2 52 + fraction) ((exponent : Int) - 1075)

def ofBits (negative : Bool) (magnitude : Nat) : Double :=
  ⟨(magnitude + if negative then Nat.pow 2 63 else 0).toUInt64⟩

def zero (negative : Bool) : Double := ofBits negative 0

def infinite (negative : Bool) : Double := ofBits negative (2047 * Nat.pow 2 52)

def nan : Double := ofBits false (2047 * Nat.pow 2 52 + Nat.pow 2 51)

/-- The quotient rounded to the nearest integer, a half going to the even neighbour. -/
def roundQuotient (n d : Nat) : Nat :=
  let q := n / d
  let r := 2 * (n % d)
  if r < d then q else if d < r then q + 1 else q + q % 2

/-- The greatest `k` with `2 ^ k ≤ n / d`, for positive `n` and `d`. -/
def floorLog2 (n d : Nat) : Int :=
  let k : Int := (n.log2 : Int) - d.log2
  if d * Nat.pow 2 k.toNat ≤ n * Nat.pow 2 (-k).toNat then k else k - 1

/-- The number nearest to `± n / d`, for positive `d`. A tie goes to the even mantissa, and what is
too large becomes infinite. A mantissa that rounds up to `2 ^ 53` carries into the exponent. -/
def ofRatio (negative : Bool) (n d : Nat) : Double :=
  if n = 0 then zero negative
  else
    let exponent := max (floorLog2 n d - 52) (-1074)
    let mantissa := roundQuotient (n * Nat.pow 2 (-exponent).toNat) (d * Nat.pow 2 exponent.toNat)
    let magnitude :=
      if mantissa < Nat.pow 2 52 then mantissa
      else (exponent + 1075).toNat * Nat.pow 2 52 + (mantissa - Nat.pow 2 52)
    ofBits negative (min magnitude (2047 * Nat.pow 2 52))

/-- The number nearest to `± significand * 10 ^ exponent`. Exponents far outside the range are
answered without computing the power. -/
def ofDecimal (negative : Bool) (significand : Nat) (exponent : Int) : Double :=
  if significand = 0 then zero negative
  else
    let width : Int := (Nat.toDigits 10 significand).length
    if 400 < exponent + width then infinite negative
    else if exponent + width < -400 then zero negative
    else ofRatio negative (significand * Nat.pow 10 exponent.toNat) (Nat.pow 10 (-exponent).toNat)

def ofNat (n : Nat) : Double := ofRatio false n 1

def ofInt (n : Int) : Double := ofRatio (n < 0) n.natAbs 1

instance (n : Nat) : OfNat Double n := ⟨ofNat n⟩

def neg (d : Double) : Double := ⟨d.bits ^^^ 0x8000000000000000⟩

instance : Neg Double := ⟨neg⟩

def isNaN (d : Double) : Bool := d.read == .nan

def isZero (d : Double) : Bool :=
  match d.read with
  | .finite _ mantissa _ => mantissa == 0
  | _ => false

def isFinite (d : Double) : Bool :=
  match d.read with
  | .finite .. => true
  | _ => false

/-- Equality of numbers: the two zeros are equal, and no NaN equals anything. -/
def equals (a b : Double) : Bool :=
  !a.isNaN && !b.isNaN && (a.bits == b.bits || (a.isZero && b.isZero))

/-- The rank of a number among the numbers that are not NaN: the bits below the sign grow with the
size of a number. Both zeros have rank zero. -/
def rank (d : Double) : Int :=
  let n := d.bits.toNat
  if n < Nat.pow 2 63 then n else -((n - Nat.pow 2 63 : Nat) : Int)

def compare? (a b : Double) : Option Ordering :=
  if a.isNaN || b.isNaN then none else some (compare a.rank b.rank)

def whole? (d : Double) : Option Int :=
  match d.read with
  | .finite negative mantissa exponent =>
    let unit := Nat.pow 2 (-exponent).toNat
    if mantissa % unit = 0 then
      let magnitude : Int := mantissa / unit * Nat.pow 2 exponent.toNat
      some (if negative then -magnitude else magnitude)
    else
      none
  | _ => none

/-- The largest 64 bit count, at which list positions saturate. -/
def maxIndex : Nat := Nat.pow 2 64 - 1

def index? (d : Double) : Option Nat :=
  d.whole?.bind fun n => if 0 ≤ n then some (min n.toNat maxIndex) else none

end Double

end ServiceFlow
