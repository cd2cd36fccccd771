import Rematch.Text.Utf8

/-!
Loose spelling: names that may be written in either case and with blanks around them.
-/

namespace Rematch.Loose

def resized : List (Nat × Nat) := [
  (0x130, 0x69), (0x23A, 0x2C65), (0x23E, 0x2C66), (0x1E9E, 0xDF), (0x2126, 0x3C9),
  (0x212A, 0x6B), (0x212B, 0xE5), (0x2C62, 0x26B), (0x2C64, 0x27D), (0x2C6D, 0x251),
  (0x2C6E, 0x271), (0x2C6F, 0x250), (0x2C70, 0x252), (0x2C7E, 0x23F), (0x2C7F, 0x240),
  (0xA78D, 0x265), (0xA7AA, 0x266), (0xA7AB, 0x25C), (0xA7AC, 0x261), (0xA7AD, 0x26C),
  (0xA7AE, 0x26A), (0xA7B0, 0x29E), (0xA7B1, 0x287), (0xA7B2, 0x29D), (0xA7C5, 0x282),
  (0xA7CB, 0x264), (0xA7DC, 0x19B)]

/-- A code point in lower case, where a letter outside ASCII stands for a lower-case one of the same
width. -/
def lowerCode (code : Nat) : Nat :=
  if 0x41 ≤ code && code ≤ 0x5A then code + 0x20 else (resized.lookup code).getD code

/-- A text in lower case, to be compared with an ASCII name: no letter outside ASCII is in the name,
so only its width counts. -/
def lower (text : Bytes) : Bytes :=
  (Utf8.codes text).flatMap fun code => Utf8.encode (lowerCode code)

def isBlank (code : Nat) : Bool :=
  (0x09 ≤ code && code ≤ 0x0D) || code = 0x20 || code = 0x85 || code = 0xA0 || code = 0x1680 ||
    (0x2000 ≤ code && code ≤ 0x200A) || code = 0x2028 || code = 0x2029 || code = 0x202F ||
    code = 0x205F || code = 0x3000

def isBlankPiece (piece : Bytes) : Bool := (Utf8.decode? piece).any fun (code, _) => isBlank code

def trim (text : Bytes) : Bytes :=
  (((Utf8.pieces text).dropWhile isBlankPiece).reverse.dropWhile isBlankPiece).reverse.flatten

def normalize (text : Bytes) : Bytes := lower (trim text)

end Rematch.Loose
