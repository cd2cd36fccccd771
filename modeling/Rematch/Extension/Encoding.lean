import Rematch.Extension.Codec
import Rematch.Text.Digits

/-!
Extensions in patterns. A category escape or a backreference in a pattern is replaced by the code
point of its extension, so that the rest of the pattern can be read without knowing extensions.
Names that are no categories stay as they are, and so does everything quoted. Inside a set there
are no backreferences, and inside a negated set categories stay as they are too, because a set of
extensions has no complement.
-/

namespace Rematch.Encoding

inductive EncodingError where
  | reserved
  | groupTooLarge (reference : Bytes)
  deriving DecidableEq

inductive Place where
  | outside
  | inSet
  | inNegatedSet
  deriving DecidableEq

def maxGroup : Nat := 255

def encoded (kind : ExtensionKind) (arg : Nat) : Bytes := Utf8.encode (Codec.encode kind arg)

def category? (input : Bytes) : Option (Bytes × Nat) :=
  match input with
  | 0x5C :: letter :: first :: _ =>
    let isBraced := first = 0x7B
    let found : Option (Bytes × Nat) :=
      if isBraced then
        (Bytes.indexOf? [0x7D] input).map fun last => ((input.take last).drop 3, last + 1)
      else some ([first], 3)
    found.bind fun (name, width) =>
      let inverted := isBraced && name.head? = some 0x5E
      let plain := if inverted then name.drop 1 else name
      ((Bytes.toString? plain).bind Unicode.Category.numberOf?).map fun number =>
        let isNegated := inverted != decide (letter = 0x50)
        (encoded (if isNegated then .notCategory else .category) number, width)
  | _ => none

/-- Reads the digits of a backreference after those with the given value and count; `none` if the
number is too large, with the number of digits up to there. -/
def groupNumber (value count : Nat) : Bytes → Option Nat × Nat
  | [] => (some value, count)
  | byte :: rest =>
    match Digits.decimalValue? byte with
    | none => (some value, count)
    | some digit =>
      let next := 10 * value + digit
      if maxGroup < next then (none, count + 1) else groupNumber next (count + 1) rest

/-- What a part of a pattern is replaced by: the new bytes, how many bytes they replace, and where
the rest stands. -/
structure Piece where
  bytes : Bytes
  width : Nat
  place : Place

def keep (input : Bytes) (width : Nat) (place : Place) : Piece := ⟨input.take width, width, place⟩

def escape (place : Place) (input : Bytes) (letter : UInt8) : Except EncodingError Piece :=
  let plain := keep input 2 place
  if letter = 0x51 ∧ place = .outside then
    match Bytes.indexOf? (Bytes.ofString "\\E") (input.drop 2) with
    | none => .ok (keep input input.length place)
    | some length => .ok (keep input (length + 4) place)
  else if (letter = 0x70 ∨ letter = 0x50) ∧ place ≠ .inNegatedSet then
    match category? input with
    | some (bytes, width) => .ok ⟨bytes, width, place⟩
    | none => .ok plain
  else if 0x31 ≤ letter ∧ letter ≤ 0x39 ∧ place = .outside then
    match groupNumber 0 0 (input.drop 1) with
    | (some group, digits) => .ok ⟨encoded .backreference group, digits + 1, place⟩
    | (none, digits) => .error (.groupTooLarge (input.take (digits + 1)))
  else .ok plain

def openSet (input : Bytes) : Piece :=
  let isNegated := (input.drop 1).head? = some 0x5E
  let width := if isNegated then 2 else 1
  let width := if (input.drop width).head? = some 0x5D then width + 1 else width
  keep input width (if isNegated then .inNegatedSet else .inSet)

def piece (place : Place) (input : Bytes) : Except EncodingError Piece :=
  match input with
  | 0x5C :: letter :: _ => escape place input letter
  | 0x5B :: rest =>
    if place = .outside then .ok (openSet input)
    else if rest.head? = some 0x3A then
      match Bytes.indexOf? (Bytes.ofString ":]") (rest.drop 1) with
      | none => .ok (keep input 1 place)
      | some length => .ok (keep input (length + 4) place)
    else .ok (keep input 1 place)
  | 0x5D :: _ => .ok (keep input 1 .outside)
  | _ => .ok (keep input 1 place)

/-- Replaces the extensions in the rest of a pattern. Every piece takes at least one byte, so that
`fuel` is at least the length of the rest. -/
def encodeFrom : Nat → Place → Bytes → Except EncodingError Bytes
  | 0, _, _ => .ok []
  | _, _, [] => .ok []
  | fuel + 1, place, input =>
    match piece place input with
    | .error error => .error error
    | .ok piece => (encodeFrom fuel piece.place (input.drop piece.width)).map (piece.bytes ++ ·)

def encode (pattern : Bytes) : Except EncodingError Bytes :=
  if Codec.hasReserved pattern then .error .reserved
  else encodeFrom pattern.length .outside pattern

end Rematch.Encoding
