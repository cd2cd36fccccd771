import Rematch.Config.Toml.Error
import Rematch.Number.Numeral

/-!
Numbers, with underscores between their digits.
-/

namespace Rematch.Config.Toml

def isDigit (byte : UInt8) : Bool := (Digits.decimalValue? byte).isSome

def isSign (byte : UInt8) : Bool := byte = Bytes.ascii '+' || byte = Bytes.ascii '-'

inductive Numeral where
  | integer (spelling : Bytes)
  | float (spelling : Bytes)

def finishNumeral (isFloat : Bool) (taken rest : Bytes) : Except NumberFault (Numeral × Bytes) :=
  if taken.isEmpty then .error .incomplete
  else .ok (if isFloat then .float taken.reverse else .integer taken.reverse, rest)

/-- Reads a number, where `taken` is its front in reverse. -/
def scanNumeral (isFloat : Bool) (taken : Bytes) : Bytes → Except NumberFault (Numeral × Bytes)
  | [] => finishNumeral isFloat taken []
  | byte :: rest =>
    let word := fun (letter : Char) (spelling : String) =>
      if (Bytes.ofString spelling).isPrefixOf (byte :: rest) then
        .ok (.float (taken.reverse ++ Bytes.ofString spelling), rest.drop 2)
      else .error (.unexpectedLetter letter)
    match Bytes.char byte with
    | '+' | '-' | '_' => scanNumeral isFloat (byte :: taken) rest
    | '.' | 'e' | 'E' => scanNumeral true (byte :: taken) rest
    | 'i' => word 'i' "inf"
    | 'n' => word 'n' "nan"
    | char =>
      if char.isDigit then scanNumeral isFloat (byte :: taken) rest
      else finishNumeral isFloat taken (byte :: rest)

def baseOf? (letter : UInt8) : Option Nat :=
  match Bytes.char letter with
  | 'x' => some 16
  | 'o' => some 8
  | 'b' => some 2
  | _ => none

def isDigitOf (base : Nat) (byte : UInt8) : Bool :=
  byte = Integer.underscore || (Integer.digitValue? byte).any (· < base)

/-- Reads a number. A zero before a letter that names a base begins a number of that base, and a
zero before any other byte but a point or an exponent is a number of its own. -/
def readNumeral (text : Bytes) : Except NumberFault (Numeral × Bytes) :=
  match text with
  | zero :: letter :: third :: rest =>
    if Bytes.char zero = '0' ∧ ¬ Bytes.char letter ∈ ['.', 'e', 'E'] then
      match baseOf? letter with
      | some base =>
        let (digits, rest) := (third :: rest).span (isDigitOf base)
        .ok (.integer (zero :: letter :: digits), rest)
      | none => .ok (.integer [zero], letter :: third :: rest)
    else scanNumeral false [] text
  | _ => scanNumeral false [] text

/-- Removes the underscores after the first one, between each two of which must be a digit.
`afterDigit` says that a digit comes before. -/
def removeUnderscores (afterDigit : Bool) : Bytes → Except NumberFault Bytes
  | [] => .ok []
  | byte :: rest =>
    if byte = Integer.underscore then
      if afterDigit then removeUnderscores false rest else .error .doubleUnderscore
    else (removeUnderscores true rest).map (byte :: ·)

def cleanInteger (spelling : Bytes) : Except NumberFault Bytes :=
  let unsigned := if isSign (spelling.headD 0) then spelling.drop 1 else spelling
  if unsigned.isEmpty then .ok spelling
  else if unsigned.head? = some Integer.underscore then .error .leadingUnderscore
  else if spelling.getLast? = some Integer.underscore then .error .trailingUnderscore
  else
    let (front, rest) := spelling.span (· ≠ Integer.underscore)
    (removeUnderscores false (rest.drop 1)).map (front ++ ·)

def integerOf (base : Nat) (kind : String) (digits : Bytes) : Except NumberFault Int :=
  (Integer.parseDigits base digits).mapError (.notInteger kind digits)

def integerValue (spelling : Bytes) : Except NumberFault Int := do
  match spelling with
  | zero :: letter :: digit :: digits =>
    if Bytes.char zero = '0' then
      let digits ← cleanInteger (digit :: digits)
      match baseOf? letter with
      | some 16 => return ← integerOf 16 "hexadecimal" digits
      | some 8 => return ← integerOf 8 "octal" digits
      | _ => return ← integerOf 2 "binary" digits
  | _ => pure ()
  let digits ← cleanInteger spelling
  let unsigned := if isSign (digits.headD 0) then digits.drop 1 else digits
  if unsigned.head? = some (Bytes.ascii '0') ∧ 1 < unsigned.length then throw .leadingZero
  integerOf 10 "decimal" digits

def cleanFloatFrom (afterDigit : Bool) (last : UInt8) : Bytes → Except NumberFault Bytes
  | [] => .ok []
  | byte :: rest =>
    let isBeforeUnderscore := rest.head? = some Integer.underscore
    match Bytes.char byte with
    | '_' =>
      if !afterDigit then .error .doubleUnderscore
      else if Bytes.peek rest = 'e' ∨ Bytes.peek rest = 'E' then .error .underscoreBeforeExponent
      else cleanFloatFrom false byte rest
    | '+' | '-' => (cleanFloatFrom false byte rest).map (byte :: ·)
    | 'e' | 'E' =>
      if isBeforeUnderscore then .error .underscoreAfterExponent
      else (cleanFloatFrom afterDigit byte rest).map (byte :: ·)
    | '.' =>
      if isBeforeUnderscore then .error .underscoreAfterPoint
      else if last = Integer.underscore then .error .underscoreBeforePoint
      else (cleanFloatFrom afterDigit byte rest).map (byte :: ·)
    | _ => (cleanFloatFrom true byte rest).map (byte :: ·)

def cleanFloat (spelling : Bytes) : Except NumberFault Bytes :=
  if spelling.head? = some Integer.underscore then .error .leadingUnderscore
  else if spelling.getLast? = some Integer.underscore then .error .trailingUnderscore
  else if Integer.underscore ∈ spelling then cleanFloatFrom false 0 spelling
  else .ok spelling

def pointFault? (seen : Bool) (last : UInt8) : Bytes → Option NumberFault
  | [] => none
  | byte :: rest =>
    if Bytes.char byte = '.' then
      if seen then some .secondPoint
      else if !isDigit last then some .noDigitBeforePoint
      else if !isDigit (rest.headD 0) then some .noDigitAfterPoint
      else pointFault? true byte rest
    else pointFault? seen byte rest

def floatOf (digits : Bytes) : Except NumeralError Double :=
  match Bytes.toString? digits with
  | some "inf" | some "+inf" => .ok (.infinite false)
  | some "-inf" => .ok (.infinite true)
  | some "nan" | some "+nan" | some "-nan" => .ok .nan
  | _ => Double.parse digits

def floatValue (spelling : Bytes) : Except NumberFault Double := do
  let digits ← cleanFloat spelling
  if Bytes.peek digits = '.' then throw .leadingPoint
  if digits.getLast? = some (Bytes.ascii '.') then throw .trailingPoint
  if let some fault := pointFault? false 0 digits then throw fault
  let unsigned := if isSign (digits.headD 0) then digits.drop 1 else digits
  if Bytes.peek unsigned = '0' ∧ isDigit ((unsigned.drop 1).headD 0) then throw .leadingZeros
  (floatOf digits).mapError (.notNumber digits)

end Rematch.Config.Toml
