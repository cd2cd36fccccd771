import Rematch.Text.Utf16

/-!
The characters of a text. The bytes are read in blocks, and a block with a fault gives no character
at all.
-/

namespace Rematch.Config.Yaml

/-- The characters of a text up to its end, or up to the block in which it cannot be read. -/
structure Source where
  characters : List Nat
  fault? : Option String

inductive Lead where
  | character (code width : Nat)
  | incomplete (problem : String)
  | malformed (problem : String)

def leadWidth? (first : UInt8) : Option Nat :=
  if first < 0x80 then some 1
  else if 0xC0 ≤ first && first < 0xE0 then some 2
  else if 0xE0 ≤ first && first < 0xF0 then some 3
  else if 0xF0 ≤ first && first < 0xF8 then some 4
  else none

def leastCode (width : Nat) : Nat :=
  match width with
  | 2 => 0x80
  | 3 => 0x800
  | 4 => 0x10000
  | _ => 0

def leadBits (width : Nat) (first : UInt8) : Nat :=
  match width with
  | 1 => first.toNat
  | 2 => first.toNat % 32
  | 3 => first.toNat % 16
  | _ => first.toNat % 8

def leadUtf8 (bytes : Bytes) : Lead :=
  let first := bytes.headD 0
  match leadWidth? first with
  | none => .malformed "invalid leading UTF-8 octet"
  | some width =>
    let trailing := (bytes.drop 1).take (width - 1)
    if trailing.length < width - 1 then .incomplete "incomplete UTF-8 octet sequence"
    else if !trailing.all Utf8.isContinuation then .malformed "invalid trailing UTF-8 octet"
    else
      let code := trailing.foldl (fun code byte => 64 * code + Utf8.payload byte)
        (leadBits width first)
      if code < leastCode width then .malformed "invalid length of a UTF-8 sequence"
      else if Utf8.isScalar code then .character code width
      else .malformed "invalid Unicode character"

def leadUtf16 (order : Utf16.Order) (bytes : Bytes) : Lead :=
  match bytes with
  | first :: second :: rest =>
    let unit := Utf16.unit order first second
    if Utf16.isLow unit then .malformed "unexpected low surrogate area"
    else if Utf16.isHigh unit then
      match rest with
      | third :: fourth :: _ =>
        let next := Utf16.unit order third fourth
        if Utf16.isLow next then .character (Utf16.join unit next) 4
        else .malformed "expected low surrogate area"
      | _ => .incomplete "incomplete UTF-16 surrogate pair"
    else .character unit 2
  | _ => .incomplete "incomplete UTF-16 character"

def isAllowed (code : Nat) : Bool :=
  code = 0x09 || code = 0x0A || code = 0x0D || (0x20 ≤ code && code ≤ 0x7E) || code = 0x85 ||
    (0xA0 ≤ code && code ≤ 0xD7FF) || (0xE000 ≤ code && code ≤ 0xFFFD) ||
    (0x10000 ≤ code && code ≤ 0x10FFFF)

inductive BlockEnd where
  | complete
  | incomplete (rest : Bytes) (problem : String)
  | fault (problem : String)

def decodeBlock (lead : Bytes → Lead) : Nat → Bytes → List Nat × BlockEnd
  | 0, _ | _, [] => ([], .complete)
  | fuel + 1, bytes =>
    match lead bytes with
    | .incomplete problem => ([], .incomplete bytes problem)
    | .malformed problem => ([], .fault problem)
    | .character code width =>
      if isAllowed code then
        let (codes, ending) := decodeBlock lead fuel (bytes.drop width)
        (code :: codes, ending)
      else ([], .fault "control characters are not allowed")

def blockSize : Nat := 512

def decodeBlocks (lead : Bytes → Lead) : Nat → Nat → Bytes → Source
  | 0, _, _ | _, _, [] => { characters := [], fault? := none }
  | fuel + 1, size, bytes =>
    let after := bytes.drop size
    let go := fun codes bytes =>
      let source := decodeBlocks lead fuel blockSize bytes
      { source with characters := codes ++ source.characters }
    match decodeBlock lead size (bytes.take size) with
    | (_, .fault problem) => { characters := [], fault? := some problem }
    | (codes, .complete) => go codes after
    | ([], .incomplete _ problem) => { characters := [], fault? := some problem }
    | (codes, .incomplete rest _) => go codes (rest ++ after)

def Source.ofBytes (bytes : Bytes) : Source :=
  let fuel := bytes.length + 1
  if [0xFF, 0xFE].isPrefixOf bytes then
    decodeBlocks (leadUtf16 .little) fuel (blockSize - 2) (bytes.drop 2)
  else if [0xFE, 0xFF].isPrefixOf bytes then
    decodeBlocks (leadUtf16 .big) fuel (blockSize - 2) (bytes.drop 2)
  else if [0xEF, 0xBB, 0xBF].isPrefixOf bytes then
    decodeBlocks leadUtf8 fuel (blockSize - 3) (bytes.drop 3)
  else if bytes.isEmpty then { characters := [0x0A], fault? := none }
  else decodeBlocks leadUtf8 fuel blockSize bytes

end Rematch.Config.Yaml
