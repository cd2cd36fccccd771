import Rematch.Text.Bytes

/-!
Base 64: each character stands for six bits, and four of them for three bytes. A text is filled up
with signs of equality to a multiple of four characters.
-/

namespace Rematch.Base64

def value? (byte : UInt8) : Option Nat :=
  let char := Bytes.char byte
  let code := byte.toNat
  if char.isUpper then some (code - 0x41)
  else if char.isLower then some (code - 0x61 + 26)
  else if char.isDigit then some (code - 0x30 + 52)
  else if char = '+' then some 62
  else if char = '/' then some 63
  else none

def group? (characters : Bytes) : Option Bytes := do
  let values ← characters.mapM value?
  let bits := (values ++ List.replicate (4 - values.length) 0).foldl (64 * · + ·) 0
  if values.length < 2 then none
  else
    let bytes := [bits / 65536, bits / 256, bits].map UInt8.ofNat
    return bytes.take (values.length - 1)

def groups? : Bytes → Option Bytes
  | [] => some []
  | first :: second :: third :: fourth :: rest =>
    let filler := Bytes.ascii '='
    if rest.isEmpty ∧ fourth = filler then
      group? (if third = filler then [first, second] else [first, second, third])
    else do
      let bytes ← group? [first, second, third, fourth]
      return bytes ++ (← groups? rest)
  | _ => none

def decode? (text : Bytes) : Option Bytes :=
  groups? (text.filter fun byte => byte ≠ 0x0A && byte ≠ 0x0D)

end Rematch.Base64
