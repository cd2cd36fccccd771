import Rematch.Config.Yaml.Error
import Rematch.Config.Yaml.Source

/-!
A place in the characters of a text, and the moves from it. A zero stands for the end of the text,
where no character is. Characters are required before they are looked at, which brings up the fault
of a block that cannot be read.
-/

namespace Rematch.Config.Yaml

def isBlank (code : Nat) : Bool := code = 0x20 || code = 0x09

def isBreak (code : Nat) : Bool :=
  code = 0x0A || code = 0x0D || code = 0x85 || code = 0x2028 || code = 0x2029

def isBreakOrEnd (code : Nat) : Bool := code = 0 || isBreak code

def isGap (code : Nat) : Bool := isBlank code || isBreakOrEnd code

def isNameCharacter (code : Nat) : Bool :=
  let char := Char.ofNat code
  char.isAlphanum || char = '-' || char = '_'

def isOneOf (code : Nat) (chars : String) : Bool := chars.toList.any fun char => code = char.toNat

/-- The number, the line and the column of a character, each counted from zero. -/
structure Mark where
  index : Nat := 0
  line : Nat := 0
  column : Nat := 0

structure Cursor where
  rest : List Nat
  fault? : Option String
  mark : Mark := {}
  /-- The ends of lines since the last character that is no blank. -/
  newlines : Nat := 0
  /-- More than the number of characters of the whole text. -/
  limit : Nat

namespace Cursor

def ofSource (source : Source) : Cursor :=
  { rest := source.characters
    fault? := source.fault?
    limit := source.characters.length + 1 }

variable (cursor : Cursor)

def here : Nat := cursor.rest.headD 0

def ahead (distance : Nat) : Nat := (cursor.rest.drop distance).headD 0

def isAt (char : Char) : Bool := cursor.here = char.toNat

def require (count : Nat) : Except YamlError Unit :=
  match cursor.fault? with
  | none => .ok ()
  | some problem =>
    if (cursor.rest.take count).length < count then .error (.reading problem) else .ok ()

def fault (start : Mark) (problem : String) : YamlError :=
  .scanning start.line cursor.mark.line problem

def skip : Cursor :=
  { cursor with
    rest := cursor.rest.drop 1
    mark :=
      { cursor.mark with index := cursor.mark.index + 1, column := cursor.mark.column + 1 }
    newlines := if isBlank cursor.here then cursor.newlines else 0 }

def skipMany (cursor : Cursor) : Nat → Cursor
  | 0 => cursor
  | count + 1 => skipMany cursor.skip count

def skipLine : Cursor :=
  if isBreak cursor.here then
    let width := if cursor.here = 0x0D ∧ cursor.ahead 1 = 0x0A then 2 else 1
    { cursor with
      rest := cursor.rest.drop width
      mark := { index := cursor.mark.index + width, line := cursor.mark.line + 1, column := 0 }
      newlines := cursor.newlines + 1 }
  else cursor

def lineBreak : List Nat :=
  if cursor.here = 0x2028 ∨ cursor.here = 0x2029 then [cursor.here]
  else if isBreak cursor.here then [0x0A]
  else []

def takeFrom (test : Nat → Bool) :
    Nat → List Nat → Cursor → Except YamlError (List Nat × Cursor)
  | 0, taken, cursor => .ok (taken, cursor)
  | fuel + 1, taken, cursor => do
    cursor.require 1
    if test cursor.here then takeFrom test fuel (cursor.here :: taken) cursor.skip
    else return (taken, cursor)

def take (test : Nat → Bool) : Except YamlError (List Nat × Cursor) :=
  takeFrom (fun code => !isBreakOrEnd code && test code) cursor.limit [] cursor

def skipBlanks : Except YamlError Cursor := do
  return (← cursor.take isBlank).2

def skipToLineEnd : Except YamlError Cursor := do
  return (← cursor.take fun _ => true).2

def skipRequiredLine : Except YamlError Cursor := do
  if isBreak cursor.here then cursor.require 2
  return cursor.skipLine

def closeLine (start : Mark) : Except YamlError Cursor := do
  let cursor ← cursor.skipBlanks
  let cursor ← if cursor.isAt '#' then cursor.skipToLineEnd else pure cursor
  if isBreakOrEnd cursor.here then cursor.skipRequiredLine
  else throw (cursor.fault start "did not find expected comment or line break")

def isAtMark (char : Char) : Bool :=
  cursor.mark.column = 0 && cursor.rest.take 3 == List.replicate 3 char.toNat &&
    isGap (cursor.ahead 3)

def isAtDocumentMark : Bool := cursor.isAtMark '-' || cursor.isAtMark '.'

def commentReach : Nat := 512

def skipLineComment : Except YamlError Cursor := do
  if 0 < cursor.newlines then return cursor
  let count := ((cursor.rest.take commentReach).takeWhile isBlank).length
  cursor.require (min (count + 1) commentReach)
  if count < commentReach ∧ cursor.ahead count = '#'.toNat then cursor.skipToLineEnd
  else return cursor

def skipToIndex (index : Nat) : Nat → Cursor → Cursor
  | 0, cursor => cursor
  | fuel + 1, cursor =>
    if index ≤ cursor.mark.index then cursor
    else skipToIndex index fuel (if isBreak cursor.here then cursor.skipLine else cursor.skip)

def skipComments : Nat → Cursor → Except YamlError Cursor
  | 0, cursor => .ok cursor
  | fuel + 1, cursor => do
    let cursor ← cursor.skipToLineEnd
    if cursor.here ≠ 0x0A ∧ cursor.here ≠ 0x0D then
      cursor.require 2
      return cursor
    let isBetween := fun code => isBlank code || code = 0x0A || code = 0x0D
    let count := ((cursor.rest.take commentReach).takeWhile isBetween).length
    cursor.require (min (count + 1) commentReach)
    if count < commentReach ∧ cursor.ahead count = '#'.toNat then
      skipComments fuel (skipToIndex (cursor.mark.index + count) count cursor)
    else return cursor

end Cursor

end Rematch.Config.Yaml
