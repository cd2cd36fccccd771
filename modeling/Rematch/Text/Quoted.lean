import Rematch.Text.Digits
import Rematch.Text.Utf8
import Rematch.Unicode.Category

/-!
Quoted text: a byte string between quotes, with the code points that may be shown as they are and
everything else escaped.
-/

namespace Rematch.Quoted

def escape (code : Nat) : String :=
  match code with
  | 0x07 => "\\a"
  | 0x08 => "\\b"
  | 0x0C => "\\f"
  | 0x0A => "\\n"
  | 0x0D => "\\r"
  | 0x09 => "\\t"
  | 0x0B => "\\v"
  | _ =>
    if code < 0x20 ∨ code = 0x7F then "\\x" ++ Digits.hexPadded 2 code
    else if code < 0x10000 then "\\u" ++ Digits.hexPadded 4 code
    else "\\U" ++ Digits.hexPadded 8 code

def encodeCode (quote : Char) (shown : Nat → Bool) (code : Nat) : String :=
  if code = quote.toNat ∨ code = 0x5C then "\\" ++ String.singleton (Char.ofNat code)
  else if shown code then String.singleton (Char.ofNat code)
  else escape code

def piecesFrom (shown : Nat → Bool) : Nat → Bytes → List String
  | _, [] => []
  | skip + 1, _ :: rest => piecesFrom shown skip rest
  | 0, byte :: rest =>
    match Utf8.decode? (byte :: rest) with
    | some (code, width) => encodeCode '"' shown code :: piecesFrom shown (width - 1) rest
    | none => ("\\x" ++ Digits.hexPadded 2 byte.toNat) :: piecesFrom shown 0 rest

def encodeWith (shown : Nat → Bool) (bytes : Bytes) : String :=
  "\"" ++ String.join (piecesFrom shown 0 bytes) ++ "\""

def encode (bytes : Bytes) : String := encodeWith Unicode.isPrintable bytes

def isPlain (code : Nat) : Bool := 0x20 ≤ code && code < 0x7F

def encodeAscii (bytes : Bytes) : String := encodeWith isPlain bytes

def encodeChar (code : Nat) : String := "'" ++ encodeCode '\'' Unicode.isPrintable code ++ "'"

def isRaw (bytes : Bytes) : Bool :=
  Utf8.valid bytes && (Utf8.codes bytes).all fun code =>
    code = 0x09 || (0x20 ≤ code && code ≠ 0x60 && code ≠ 0x7F && code ≠ 0xFEFF)

def encodeRaw (bytes : Bytes) : Bytes :=
  if isRaw bytes then Bytes.ofString "`" ++ bytes ++ Bytes.ofString "`"
  else Bytes.ofString (encode bytes)

end Rematch.Quoted
