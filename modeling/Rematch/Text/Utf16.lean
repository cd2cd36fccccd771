import Rematch.Text.Utf8

/-!
UTF-16. A code point above 0xFFFF is a pair of surrogates; a surrogate without its partner is no
code point.
-/

namespace Rematch.Utf16

inductive Order where
  | little
  | big
  deriving DecidableEq

def unit (order : Order) (first second : UInt8) : Nat :=
  match order with
  | .little => second.toNat * 256 + first.toNat
  | .big => first.toNat * 256 + second.toNat

/-- The units of a byte string. A last byte without a partner stands for the replacement
character. -/
def units (order : Order) : Bytes → List Nat
  | [] => []
  | [_] => [Utf8.replacement]
  | first :: second :: rest => unit order first second :: units order rest

def isHigh (unit : Nat) : Bool := 0xD800 ≤ unit && unit < 0xDC00

def isLow (unit : Nat) : Bool := 0xDC00 ≤ unit && unit < 0xE000

def join (high low : Nat) : Nat := 0x10000 + 0x400 * (high - 0xD800) + (low - 0xDC00)

def codes : List Nat → List Nat
  | [] => []
  | [unit] => [if isHigh unit || isLow unit then Utf8.replacement else unit]
  | unit :: next :: rest =>
    if isHigh unit && isLow next then join unit next :: codes rest
    else (if isHigh unit || isLow unit then Utf8.replacement else unit) :: codes (next :: rest)

def toUtf8 (order : Order) (bytes : Bytes) : Bytes :=
  (codes (units order bytes)).flatMap Utf8.encode

end Rematch.Utf16
