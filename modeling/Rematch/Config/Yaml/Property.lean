import Rematch.Config.Yaml.Scalar
import Rematch.Config.Yaml.Token

/-!
Anchors, aliases and tags before a node, and the directives before a document.
-/

namespace Rematch.Config.Yaml

def readName (cursor : Cursor) : Except YamlError (Bytes × Cursor) := do
  let (name, next) ← cursor.skip.take isNameCharacter
  if name.isEmpty ∨ !(isGap next.here || isOneOf next.here "?:,]\x7d%@`") then
    throw (next.fault cursor.mark "did not find expected alphabetic or numeric character")
  return (textOf name, next)

def isTagCharacter (code : Nat) : Bool :=
  isNameCharacter code || isOneOf code ";/?:@&=+$,.!~*'()[]%"

def readOctet (start : Mark) (cursor : Cursor) : Except YamlError (UInt8 × Cursor) := do
  cursor.require 3
  let digits := ((cursor.rest.drop 1).take 2).map Digits.hexValue?
  match cursor.isAt '%', digits with
  | true, [some high, some low] => return (UInt8.ofNat (16 * high + low), cursor.skipMany 3)
  | _, _ => throw (cursor.fault start "did not find URI escaped octet")

def readTrailingOctets (start : Mark) :
    Nat → Bytes → Cursor → Except YamlError (Bytes × Cursor)
  | 0, octets, cursor => .ok (octets, cursor)
  | count + 1, octets, cursor => do
    let (octet, next) ← readOctet start cursor
    if !Utf8.isContinuation octet then
      throw (cursor.fault start "found an incorrect trailing UTF-8 octet")
    readTrailingOctets start count (octet :: octets) next

def readOctets (start : Mark) (cursor : Cursor) : Except YamlError (Bytes × Cursor) := do
  let (octet, next) ← readOctet start cursor
  let some width := leadWidth? octet
    | throw (cursor.fault start "found an incorrect leading UTF-8 octet")
  readTrailingOctets start (width - 1) [octet] next

def readTagFrom (start : Mark) : Nat → Bytes → Cursor → Except YamlError (Bytes × Cursor)
  | 0, tag, cursor => .ok (tag, cursor)
  | fuel + 1, tag, cursor => do
    cursor.require 1
    if !isTagCharacter cursor.here then return (tag, cursor)
    if cursor.isAt '%' then
      let (octets, next) ← readOctets start cursor
      readTagFrom start fuel (octets ++ tag) next
    else readTagFrom start fuel (UInt8.ofNat cursor.here :: tag) cursor.skip

def readTagSuffix (start : Mark) (cursor : Cursor) : Except YamlError (Bytes × Cursor) := do
  let (tag, next) ← readTagFrom start cursor.limit [] cursor
  if tag.isEmpty then throw (next.fault start "did not find expected tag URI")
  return (tag.reverse, next)

/-- Reads a handle: an exclamation mark, or a name between two of them. What only begins like a
handle is given back too. -/
def readHandle (start : Mark) (cursor : Cursor) : Except YamlError (Bytes × Cursor) := do
  cursor.require 1
  if !cursor.isAt '!' then throw (cursor.fault start "did not find expected '!'")
  let (name, next) ← cursor.skip.take isNameCharacter
  let front := Bytes.ascii '!' :: textOf name
  if next.isAt '!' then return (front ++ Bytes.ofString "!", next.skip) else return (front, next)

def isWholeHandle (handle : Bytes) : Bool :=
  1 < handle.length && handle.getLast? = some (Bytes.ascii '!')

def readTag (cursor : Cursor) : Except YamlError (Lexeme × Cursor) := do
  let start := cursor.mark
  cursor.require 2
  let (lexeme, next) ←
    if cursor.ahead 1 = '<'.toNat then
      let (suffix, next) ← readTagSuffix start (cursor.skipMany 2)
      if !next.isAt '>' then throw (next.fault start "did not find the expected '>'")
      pure (Lexeme.tag [] suffix, next.skip)
    else
      let (handle, next) ← readHandle start cursor
      if isWholeHandle handle then
        let (suffix, next) ← readTagSuffix start next
        pure (Lexeme.tag handle suffix, next)
      else
        let (suffix, next) ← readTagFrom start cursor.limit (handle.drop 1).reverse next
        let mark := Bytes.ofString "!"
        pure (if suffix.isEmpty then (Lexeme.tag [] mark, next)
          else (Lexeme.tag mark suffix.reverse, next))
  next.require 1
  if !isGap next.here then
    throw (next.fault start "did not find expected whitespace or line break")
  return (lexeme, next)

def readVersionPart (start : Mark) (cursor : Cursor) : Except YamlError (Nat × Cursor) := do
  let isDigit := fun code => '0'.toNat ≤ code && code ≤ '9'.toNat
  let (digits, next) ← cursor.take isDigit
  if 2 < digits.length then throw (cursor.fault start "found extremely long version number")
  if digits.isEmpty then throw (cursor.fault start "did not find expected version number")
  return (digits.foldr (fun digit value => 10 * value + (digit - '0'.toNat)) 0, next)

def readVersion (start : Mark) (cursor : Cursor) : Except YamlError (Lexeme × Cursor) := do
  let cursor ← cursor.skipBlanks
  let (major, cursor) ← readVersionPart start cursor
  if !cursor.isAt '.' then
    throw (cursor.fault start "did not find expected digit or '.' character")
  let (minor, cursor) ← readVersionPart start cursor.skip
  return (.version major minor, cursor)

def readExpansion (start : Mark) (cursor : Cursor) : Except YamlError (Lexeme × Cursor) := do
  let cursor ← cursor.skipBlanks
  let (name, cursor) ← readHandle start cursor
  if name.length ≠ 1 ∧ !isWholeHandle name then
    throw (cursor.fault start "did not find expected '!'")
  cursor.require 1
  if !isBlank cursor.here then throw (cursor.fault start "did not find expected whitespace")
  let (expansion, cursor) ← readTagSuffix start (← cursor.skipBlanks)
  cursor.require 1
  if !isGap cursor.here then
    throw (cursor.fault start "did not find expected whitespace or line break")
  return (.handle name expansion, cursor)

def readDirective (cursor : Cursor) : Except YamlError (Lexeme × Cursor) := do
  let start := cursor.mark
  let (name, next) ← cursor.skip.take isNameCharacter
  if name.isEmpty then throw (next.fault start "could not find expected directive name")
  if !isGap next.here then
    throw (next.fault start "found unexpected non-alphabetical character")
  let (lexeme, next) ←
    if textOf name = Bytes.ofString "YAML" then readVersion start next
    else if textOf name = Bytes.ofString "TAG" then readExpansion start next
    else throw (next.fault start "found unknown directive name")
  return (lexeme, ← next.closeLine start)

end Rematch.Config.Yaml
