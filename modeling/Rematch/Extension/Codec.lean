import Rematch.Automaton.Extension
import Rematch.Text.Utf8
import Rematch.Unicode.Category

/-!
Codes of extensions. An extension travels through a pattern as a private-use code point: its kind
and its argument fill the low twelve bits of the block from U+F0000 to U+F0FFF. `encode` and
`decode?` are inverse on the known kinds.
-/

namespace Rematch.Codec

def reservedLo : Nat := 0xF0000

def reservedHi : Nat := 0xF0FFF

def isReserved (code : Nat) : Bool := reservedLo ≤ code && code ≤ reservedHi

def encode (kind : ExtensionKind) (arg : Nat) : Nat := reservedLo ||| kind.code <<< 8 ||| arg

/-- The extension of a code point; `none` outside the reserved block and for unknown kinds. -/
def decode? (code : Nat) : Option (ExtensionKind × Nat) :=
  if isReserved code then
    let kind := ExtensionKind.ofCode (code / 256 % 16)
    if kind.isKnown then some (kind, code % 256) else none
  else none

/-- Whether an argument means something for a kind: a known category, or a group after the whole
match. -/
def validArg (kind : ExtensionKind) (arg : Nat) : Bool :=
  match kind with
  | .category | .notCategory => arg < Unicode.Category.count
  | .backreference => 0 < arg
  | .unknown _ => false

def hasReserved (bytes : Bytes) : Bool := (Utf8.codes bytes).any isReserved

end Rematch.Codec
