import ServiceFlow.Number.Double

/-!
# Scaled decimals

The leading digits of a decimal are one whole number, scaled by a rounded power of ten. The result
can be a neighbour of the double nearest to the decimal.
-/

namespace ServiceFlow

namespace Double

/-- The natural number of 53 significant bits nearest to `n`, a tie going to the even neighbour. -/
def nearestNat (n : Nat) : Nat :=
  let unit := Nat.pow 2 (n.log2 - 52)
  roundQuotient n unit * unit

def times (d : Double) (n : Nat) : Double :=
  match d.read with
  | .finite negative mantissa exponent =>
    ofRatio negative (mantissa * n * Nat.pow 2 exponent.toNat) (Nat.pow 2 (-exponent).toNat)
  | _ => d

def dividedBy (d : Double) (n : Nat) : Double :=
  match d.read with
  | .finite negative mantissa exponent =>
    ofRatio negative (mantissa * Nat.pow 2 exponent.toNat) (n * Nat.pow 2 (-exponent).toNat)
  | _ => d

end Double

structure Scaled where
  significand : Nat
  exponent : Int
deriving DecidableEq, Repr

namespace Scaled

/-- A significand followed by one more digit, if it still fits 64 bits. -/
def append? (significand : Nat) (digit : Char) : Option Nat :=
  let longer := 10 * significand + (digit.toNat - 48)
  if longer < Nat.pow 2 64 then some longer else none

/-- Append the digits before the point. From the first that does not fit, each only raises the
exponent. -/
def appendWhole (significand : Nat) : List Char → Scaled
  | [] => ⟨significand, 0⟩
  | digit :: rest =>
    match append? significand digit with
    | some longer => appendWhole longer rest
    | none => ⟨significand, rest.length + 1⟩

/-- Append the digits after the point. From the first that does not fit, all are dropped. -/
def appendFraction (d : Scaled) : List Char → Scaled
  | [] => d
  | digit :: rest =>
    match append? d.significand digit with
    | some longer => appendFraction ⟨longer, d.exponent - 1⟩ rest
    | none => d

def ofDigits (whole fraction : List Char) (exponent : Int) : Scaled :=
  let d := appendFraction (appendWhole 0 whole) fraction
  ⟨d.significand, d.exponent + exponent⟩

def maxPower : Nat := 308

def power (k : Nat) : Nat := Double.nearestNat (Nat.pow 10 k)

def raise? (d : Double) (k : Nat) : Option Double :=
  if k ≤ maxPower then
    let product := d.times (power k)
    if product.isFinite then some product else none
  else if d.isZero then some d
  else none

/-- The quotient by `10 ^ k`. A large power is divided out in parts, each rounded. -/
def lower (d : Double) (k : Nat) : Double :=
  if k ≤ maxPower then d.dividedBy (power k)
  else if d.isZero then d
  else lower (d.dividedBy (power maxPower)) (k - maxPower)
termination_by k
decreasing_by simp only [maxPower] at *; omega

def toDouble? (d : Scaled) : Option Double :=
  let whole := Double.ofNat d.significand
  if 0 ≤ d.exponent then raise? whole d.exponent.toNat
  else some (lower whole (-d.exponent).toNat)

end Scaled

end ServiceFlow
