/-!
Floating-point numbers of 64 bits. A finite number is a mantissa of at most 53 bits times a power of
two. A decimal number is rounded to the nearest of them, and of two equally near ones to the one
with the even mantissa.
-/

namespace Rematch

/-- A floating-point number. A finite one is its mantissa times a power of two. -/
inductive Double where
  | finite (negative : Bool) (mantissa : Nat) (exponent : Int)
  | infinite (negative : Bool)
  | nan
  deriving DecidableEq

namespace Double

def roundQuotient (numerator denominator : Nat) : Nat :=
  let quotient := numerator / denominator
  let rest := 2 * (numerator % denominator)
  if denominator < rest ∨ (rest = denominator ∧ quotient % 2 = 1) then quotient + 1 else quotient

def minExponent : Int := -1074

def maxExponent : Int := 971

/-- The exponent with which the mantissa of a quotient has 53 bits, or the least one. -/
def exponentOf (numerator denominator : Nat) : Int :=
  let guess : Int := (numerator.log2 : Int) - denominator.log2 - 53
  let tooSmall :=
    denominator * Nat.pow 2 (guess + 53).toNat ≤ numerator * Nat.pow 2 (-(guess + 53)).toNat
  max minExponent (if tooSmall then guess + 1 else guess)

def ofQuotient (negative : Bool) (numerator denominator : Nat) : Double :=
  let exponent := exponentOf numerator denominator
  let mantissa :=
    roundQuotient (numerator * Nat.pow 2 (-exponent).toNat) (denominator * Nat.pow 2 exponent.toNat)
  let (mantissa, exponent) :=
    if mantissa = Nat.pow 2 53 then (Nat.pow 2 52, exponent + 1) else (mantissa, exponent)
  if maxExponent < exponent then .infinite negative else .finite negative mantissa exponent

def ofDecimal (negative : Bool) (digits : Nat) (exponent : Int) : Double :=
  let places := (Nat.toDigits 10 digits).length + exponent
  if digits = 0 ∨ places < -400 then .finite negative 0 minExponent
  else if 400 < places then .infinite negative
  else ofQuotient negative (digits * Nat.pow 10 exponent.toNat) (Nat.pow 10 (-exponent).toNat)

def ofInt (value : Int) : Double := ofDecimal (value < 0) value.natAbs 0

def isNonzero : Double → Bool
  | .finite _ mantissa _ => mantissa ≠ 0
  | _ => true

def noInt : Int := -Nat.pow 2 63

def toInt : Double → Int
  | .finite negative mantissa exponent =>
    let whole : Int := (mantissa * Nat.pow 2 exponent.toNat / Nat.pow 2 (-exponent).toNat : Nat)
    let value := if negative then -whole else whole
    if value < -Nat.pow 2 63 ∨ Nat.pow 2 63 ≤ value then noInt else value
  | _ => noInt

end Double

end Rematch
