/-!
Byte strings. Patterns, texts and messages are byte strings, because they need not be well-formed
UTF-8.
-/

namespace Rematch

abbrev Bytes := List UInt8

namespace Bytes

def ofString (text : String) : Bytes := text.toUTF8.toList

instance : Coe String Bytes := ⟨ofString⟩

def toString? (bytes : Bytes) : Option String := String.fromUTF8? ⟨bytes.toArray⟩

def indexOf? (needle : Bytes) : Bytes → Option Nat
  | [] => if needle.isEmpty then some 0 else none
  | byte :: rest =>
    if needle.isPrefixOf (byte :: rest) then some 0
    else (indexOf? needle rest).map (· + 1)

/-- Splits at the first occurrence of `needle`, which belongs to neither part. -/
def cut? (needle bytes : Bytes) : Option (Bytes × Bytes) :=
  (indexOf? needle bytes).map fun position =>
    (bytes.take position, bytes.drop (position + needle.length))

/-- The front part of `whole` that is left when its tail `rest` is taken away. -/
def before (whole rest : Bytes) : Bytes := whole.take (whole.length - rest.length)

def isSorted : Bytes → Bytes → Bool
  | [], _ => true
  | _ :: _, [] => false
  | first :: rest, second :: others =>
    first < second || (first = second && isSorted rest others)

def ascii (char : Char) : UInt8 := UInt8.ofNat char.toNat

def char (byte : UInt8) : Char := Char.ofNat byte.toNat

/-- The character with the number of the first byte; a zero byte stands for the end. -/
def peek (bytes : Bytes) : Char := char (bytes.headD 0)

end Bytes

end Rematch
