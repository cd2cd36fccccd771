import Rematch.Number.Double
import Rematch.Text.Digits

/-!
The shortest decimal of a floating-point number: the fewest digits from which rounding gives the
number back, and of these the ones nearest to it.
-/

namespace Rematch

structure Decimal where
  digits : Nat
  exponent : Int
  deriving DecidableEq

namespace Shortest

def compareScaled (decimal : Decimal) (count : Nat) (power : Int) : Ordering :=
  compare (decimal.digits * Nat.pow 10 decimal.exponent.toNat * Nat.pow 2 (-power).toNat)
    (count * Nat.pow 2 power.toNat * Nat.pow 10 (-decimal.exponent).toNat)

/-- Whether rounding a decimal gives `mantissa * 2 ^ exponent`. It must not lie farther away than
half the gap to the next number on its side, and that gap is smaller below a power of two. The
number with the even mantissa takes the ends of the gap. -/
def roundsTo (mantissa : Nat) (exponent : Int) (decimal : Decimal) : Bool :=
  let isNarrow := mantissa = Nat.pow 2 52 ∧ exponent ≠ Double.minExponent
  let lower := if isNarrow then 4 * mantissa - 1 else 4 * mantissa - 2
  let above := compareScaled decimal lower (exponent - 2)
  let below := compareScaled decimal (4 * mantissa + 2) (exponent - 2)
  let takesEnds := mantissa % 2 = 0
  (above = .gt || (takesEnds && above = .eq)) && (below = .lt || (takesEnds && below = .eq))

def leadingPower (numerator denominator : Nat) : Int :=
  if denominator ≤ numerator then (Nat.toDigits 10 (numerator / denominator)).length - 1
  else
    let places :=
      (Nat.toDigits 10 denominator).length - (Nat.toDigits 10 numerator).length
    if denominator ≤ numerator * Nat.pow 10 places then -places else -(places + 1)

/-- The nearer of the two multiples of `10 ^ power` around a number, if rounding it gives the number
back. -/
def neighbour? (mantissa : Nat) (exponent power : Int) : Option Decimal :=
  let numerator := mantissa * Nat.pow 2 exponent.toNat * Nat.pow 10 (-power).toNat
  let denominator := Nat.pow 2 (-exponent).toNat * Nat.pow 10 power.toNat
  let lower := numerator / denominator
  let rest := 2 * (numerator % denominator)
  let preferred :=
    if rest < denominator ∨ (rest = denominator ∧ lower % 2 = 0) then lower else lower + 1
  let other := 2 * lower + 1 - preferred
  [preferred, other].findSome? fun digits =>
    let decimal : Decimal := { digits, exponent := power }
    if roundsTo mantissa exponent decimal then some decimal else none

def exact (mantissa : Nat) (exponent : Int) : Decimal :=
  if 0 ≤ exponent then { digits := mantissa * Nat.pow 2 exponent.toNat, exponent := 0 }
  else { digits := mantissa * Nat.pow 5 (-exponent).toNat, exponent }

def select (mantissa : Nat) (exponent : Int) : Decimal :=
  let first :=
    leadingPower (mantissa * Nat.pow 2 exponent.toNat) (Nat.pow 2 (-exponent).toNat)
  ((List.range 17).findSome? fun (more : Nat) => neighbour? mantissa exponent (first - more)).getD
    (exact mantissa exponent)

end Shortest

def Decimal.render (decimal : Decimal) : String :=
  if 0 ≤ decimal.exponent then toString (decimal.digits * Nat.pow 10 decimal.exponent.toNat)
  else
    let places := (-decimal.exponent).toNat
    let decimals := Digits.padLeft '0' places (toString (decimal.digits % Nat.pow 10 places))
    let shown := String.ofList (decimals.toList.reverse.dropWhile (· = '0')).reverse
    toString (decimal.digits / Nat.pow 10 places) ++ if shown.isEmpty then "" else "." ++ shown

def Decimal.renderExponent (decimal : Decimal) : String :=
  let digits := toString decimal.digits
  let power := digits.length - 1 + decimal.exponent
  let decimals := digits.toList.drop 1
  let point := if decimals.isEmpty then "" else "."
  String.ofList (digits.toList.take 1) ++ point ++ String.ofList decimals ++
    (if power < 0 then "e-" else "e+") ++ Digits.padLeft '0' 2 (toString power.natAbs)

/-- A number in its shortest decimals, with an exponent if it is below a ten-thousandth or at
least a million. -/
def Double.renderCompact : Double → String
  | .finite negative mantissa exponent =>
    let decimal := if mantissa = 0 then ⟨0, 0⟩ else Shortest.select mantissa exponent
    let power := (toString decimal.digits).length - 1 + decimal.exponent
    (if negative then "-" else "") ++
      if power < -4 ∨ 6 ≤ power then decimal.renderExponent else decimal.render
  | .infinite negative => if negative then "-Inf" else "+Inf"
  | .nan => "NaN"

def Double.render : Double → String
  | .finite negative mantissa exponent =>
    let decimal := if mantissa = 0 then ⟨0, 0⟩ else Shortest.select mantissa exponent
    (if negative then "-" else "") ++ decimal.render
  | .infinite negative => if negative then "-Inf" else "+Inf"
  | .nan => "NaN"

end Rematch
