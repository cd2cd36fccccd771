import Rematch.Number.Double
import Rematch.Text.Digits
import Rematch.Text.Integer

/-!
Decimal numerals: digits with a point and an exponent, and the floating-point number that each
stands for.
-/

namespace Rematch.Double

def ofParts (negative : Bool) (whole decimals : Bytes) (exponent : Int) : Double :=
  ofDecimal negative (Digits.decimalNumber (whole ++ decimals)) (exponent - decimals.length)

def splitDigits (text : Bytes) : Bytes × Bytes :=
  text.span fun byte => (Digits.decimalValue? byte).isSome

def exponent? (text : Bytes) : Option Int :=
  if text.isEmpty then some 0
  else if Bytes.peek text = 'e' ∨ Bytes.peek text = 'E' then
    let (negative, digits) := Integer.splitSign (text.drop 1)
    match splitDigits digits with
    | (_ :: _, []) =>
      let value : Int := Digits.decimalNumber digits
      some (if negative then -value else value)
    | _ => none
  else none

def parse (text : Bytes) : Except NumeralError Double :=
  let (negative, unsigned) := Integer.splitSign text
  let (whole, rest) := splitDigits unsigned
  let (decimals, rest) := if Bytes.peek rest = '.' then splitDigits (rest.drop 1) else ([], rest)
  if whole.isEmpty && decimals.isEmpty then .error .malformed
  else
    match exponent? rest with
    | none => .error .malformed
    | some exponent =>
      match ofParts negative whole decimals exponent with
      | .infinite _ => .error .outOfRange
      | number => .ok number

end Rematch.Double
