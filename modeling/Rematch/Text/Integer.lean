import Rematch.Text.Bytes

/-!
Signed integers of 64 bits in the spellings of program text: decimal, or with a prefix binary, octal
or hexadecimal, with underscores between digits.
-/

namespace Rematch

inductive NumeralError where
  | malformed
  | outOfRange
  deriving DecidableEq

def NumeralError.message : NumeralError → String
  | .malformed => "invalid syntax"
  | .outOfRange => "value out of range"

namespace Integer

def underscore : UInt8 := Bytes.ascii '_'

def digitValue? (byte : UInt8) : Option Nat :=
  let code := byte.toNat
  if 0x30 ≤ code ∧ code ≤ 0x39 then some (code - 0x30)
  else if 0x61 ≤ code ∧ code ≤ 0x7A then some (code - 0x61 + 10)
  else if 0x41 ≤ code ∧ code ≤ 0x5A then some (code - 0x41 + 10)
  else none

/-- Reads on in a number of the given base, up to the first digit with which it has more than 64
bits. Underscores count for nothing. -/
def readFrom (base : Nat) : Nat → Bytes → Except NumeralError Nat
  | value, [] => .ok value
  | value, byte :: rest =>
    if byte = underscore then readFrom base value rest
    else
      match digitValue? byte with
      | some digit =>
        if base ≤ digit then .error .malformed
        else if Nat.pow 2 64 ≤ base * value + digit then .error .outOfRange
        else readFrom base (base * value + digit) rest
      | none => .error .malformed

def splitBase (text : Bytes) : Nat × Bytes :=
  match text.map Bytes.char with
  | '0' :: letter :: _ :: _ =>
    if letter = 'b' ∨ letter = 'B' then (2, text.drop 2)
    else if letter = 'o' ∨ letter = 'O' then (8, text.drop 2)
    else if letter = 'x' ∨ letter = 'X' then (16, text.drop 2)
    else (8, text.drop 1)
  | '0' :: _ => (8, text.drop 1)
  | _ => (10, text)

/-- Whether each underscore stands between two digits, where `afterDigit` says that a digit or a
prefix precedes the text. -/
def separated (afterDigit : Bool) : Bytes → Bool
  | [] => true
  | byte :: rest =>
    if byte = underscore then afterDigit && !rest.isEmpty && separated false rest
    else separated true rest

def splitSign (text : Bytes) : Bool × Bytes :=
  match text.map Bytes.char with
  | '-' :: _ => (true, text.drop 1)
  | '+' :: _ => (false, text.drop 1)
  | _ => (false, text)

def withSign (negative : Bool) (value : Nat) : Except NumeralError Int :=
  if value < Nat.pow 2 63 then .ok (if negative then -(value : Int) else value)
  else if negative ∧ value = Nat.pow 2 63 then .ok (-(value : Int))
  else .error .outOfRange

def parse (text : Bytes) : Except NumeralError Int :=
  let (negative, unsigned) := splitSign text
  let (base, digits) := splitBase unsigned
  let afterPrefix := digits.length < unsigned.length
  if unsigned.isEmpty then .error .malformed
  else
    match readFrom base 0 digits with
    | .error error => .error error
    | .ok value =>
      if !separated afterPrefix digits then .error .malformed else withSign negative value

def parseDigits (base : Nat) (text : Bytes) : Except NumeralError Int :=
  let (negative, unsigned) := splitSign text
  if unsigned.isEmpty ∨ underscore ∈ unsigned then .error .malformed
  else
    match readFrom base 0 unsigned with
    | .error error => .error error
    | .ok value => withSign negative value

end Integer

end Rematch
