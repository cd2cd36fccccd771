/-!
Digits of numbers: decimal and hexadecimal spellings, and padding on the left.
-/

namespace Rematch.Digits

def hex (number : Nat) : String := String.ofList (Nat.toDigits 16 number)

def upperHex (number : Nat) : String :=
  String.ofList ((Nat.toDigits 16 number).map Char.toUpper)

def padLeft (fill : Char) (width : Nat) (text : String) : String :=
  String.ofList (List.replicate (width - text.length) fill) ++ text

def padRight (width : Nat) (text : String) : String :=
  text ++ String.ofList (List.replicate (width - text.length) ' ')

def hexPadded (width number : Nat) : String := padLeft '0' width (hex number)

def codePoint (code : Nat) : String := "U+" ++ padLeft '0' 4 (upperHex code)

def decimalValue? (byte : UInt8) : Option Nat :=
  if 0x30 ≤ byte && byte ≤ 0x39 then some (byte.toNat - 0x30) else none

def decimalNumber (digits : List UInt8) : Nat :=
  digits.foldl (fun value byte => 10 * value + (decimalValue? byte).getD 0) 0

def hexValue? (code : Nat) : Option Nat :=
  if 0x30 ≤ code ∧ code ≤ 0x39 then some (code - 0x30)
  else if 0x61 ≤ code ∧ code ≤ 0x66 then some (code - 0x61 + 10)
  else if 0x41 ≤ code ∧ code ≤ 0x46 then some (code - 0x41 + 10)
  else none

def hexNumber (digits : List UInt8) : Nat :=
  digits.foldl (fun value byte => 16 * value + (hexValue? byte.toNat).getD 0) 0

def hexBytes (bytes : List UInt8) : String :=
  String.join (bytes.map fun byte => hexPadded 2 byte.toNat)

end Rematch.Digits
