import Rematch.Config.Yaml.Cursor

/-!
Scalars: plain ones, quoted ones, and blocks of lines. The characters read so far stand with the
last one first. The margin is the least column in which a line may go on with what stands around it.
-/

namespace Rematch.Config.Yaml

def textOf (characters : List Nat) : Bytes :=
  characters.foldl (fun text code => Utf8.encode code ++ text) []

/-- Blanks and ends of lines between the words of a scalar. -/
structure Gap where
  blanks : List Nat := []
  isBroken : Bool := false
  firstBreak : List Nat := []
  laterBreaks : List Nat := []

namespace Gap

def addBlank (gap : Gap) (code : Nat) : Gap :=
  if gap.isBroken then gap else { gap with blanks := code :: gap.blanks }

def addBreak (gap : Gap) (lineBreak : List Nat) : Gap :=
  if gap.isBroken then { gap with laterBreaks := lineBreak ++ gap.laterBreaks }
  else { isBroken := true, firstBreak := lineBreak }

/-- What a gap stands for. The first end of a line is folded to a blank. -/
def content (gap : Gap) : List Nat :=
  if !gap.isBroken then gap.blanks
  else if gap.firstBreak = [0x0A] then
    if gap.laterBreaks.isEmpty then [0x20] else gap.laterBreaks
  else gap.laterBreaks ++ gap.firstBreak

end Gap

/-- Reads blanks and ends of lines within what begins at the given mark. No tab may stand before the
margin. -/
def readGap (margin : Nat) (start : Mark) : Nat → Gap → Cursor → Except YamlError (Gap × Cursor)
  | 0, gap, cursor => .ok (gap, cursor)
  | fuel + 1, gap, cursor => do
    cursor.require 1
    if isBlank cursor.here then
      if gap.isBroken ∧ cursor.mark.column < margin ∧ cursor.isAt '\t' then
        throw (cursor.fault start "found a tab character that violates indentation")
      readGap margin start fuel (gap.addBlank cursor.here) cursor.skip
    else if isBreak cursor.here then
      cursor.require 2
      readGap margin start fuel (gap.addBreak cursor.lineBreak) cursor.skipLine
    else return (gap, cursor)

def endsPlain (isFlow : Bool) (cursor : Cursor) : Bool :=
  (cursor.isAt ':' && isGap (cursor.ahead 1)) || (isFlow && isOneOf cursor.here ",?[]\x7b\x7d")

def readPlainWord (isFlow : Bool) :
    Nat → List Nat → Cursor → Except YamlError (List Nat × Cursor)
  | 0, word, cursor => .ok (word, cursor)
  | fuel + 1, word, cursor => do
    if isGap cursor.here ∨ endsPlain isFlow cursor then return (word, cursor)
    let next := cursor.skip
    next.require 2
    readPlainWord isFlow fuel (cursor.here :: word) next

def readPlainFrom (isFlow : Bool) (margin : Nat) (start : Mark) :
    Nat → List Nat → Gap → Cursor → Except YamlError (List Nat × Gap × Cursor)
  | 0, text, gap, cursor => .ok (text, gap, cursor)
  | fuel + 1, text, gap, cursor => do
    cursor.require 4
    if cursor.isAtDocumentMark ∨ cursor.isAt '#' then return (text, gap, cursor)
    let (word, cursor) ← readPlainWord isFlow cursor.limit [] cursor
    let (text, gap) :=
      if word.isEmpty then (text, gap) else (word ++ gap.content ++ text, {})
    if !isBlank cursor.here ∧ !isBreak cursor.here then return (text, gap, cursor)
    let (gap, cursor) ← readGap margin start cursor.limit gap cursor
    if !isFlow ∧ cursor.mark.column < margin then return (text, gap, cursor)
    readPlainFrom isFlow margin start fuel text gap cursor

def readPlain (isFlow : Bool) (margin : Nat) (cursor : Cursor) :
    Except YamlError (Bytes × Bool × Cursor) := do
  let (text, gap, cursor) ← readPlainFrom isFlow margin cursor.mark cursor.limit [] {} cursor
  return (textOf text, gap.isBroken, cursor)

inductive Quote where
  | single
  | double
  deriving DecidableEq

def Quote.char : Quote → Char
  | .single => '\''
  | .double => '"'

def escapedCode? (char : Char) : Option Nat :=
  match char with
  | '0' => some 0x00
  | 'a' => some 0x07
  | 'b' => some 0x08
  | 't' | '\t' => some 0x09
  | 'n' => some 0x0A
  | 'v' => some 0x0B
  | 'f' => some 0x0C
  | 'r' => some 0x0D
  | 'e' => some 0x1B
  | ' ' | '"' | '\'' | '\\' => some char.toNat
  | 'N' => some 0x85
  | '_' => some 0xA0
  | 'L' => some 0x2028
  | 'P' => some 0x2029
  | _ => none

def escapeDigits? (char : Char) : Option Nat :=
  match char with
  | 'x' => some 2
  | 'u' => some 4
  | 'U' => some 8
  | _ => none

def readEscape (start : Mark) (cursor : Cursor) : Except YamlError (Nat × Cursor) := do
  let char := Char.ofNat (cursor.ahead 1)
  let next := cursor.skipMany 2
  if let some code := escapedCode? char then return (code, next)
  let some count := escapeDigits? char
    | throw (cursor.fault start "found unknown escape character")
  next.require count
  match (next.rest.take count).mapM Digits.hexValue? with
  | none => throw (next.fault start "did not find expected hexdecimal number")
  | some digits =>
    if digits.length < count then
      throw (next.fault start "did not find expected hexdecimal number")
    let code := digits.foldl (16 * · + ·) 0
    if !Utf8.isScalar code then
      throw (next.fault start "found invalid Unicode character escape code")
    return (code, next.skipMany count)

/-- Reads a word of a quoted scalar, and tells whether an escaped end of a line follows it. -/
def readQuotedWord (quote : Quote) (start : Mark) :
    Nat → List Nat → Cursor → Except YamlError (List Nat × Bool × Cursor)
  | 0, word, cursor => .ok (word, false, cursor)
  | fuel + 1, word, cursor => do
    let go := fun (code : Nat) (next : Cursor) => do
      next.require 2
      readQuotedWord quote start fuel (code :: word) next
    if isGap cursor.here then return (word, false, cursor)
    else if cursor.isAt quote.char then
      if quote = .single ∧ cursor.ahead 1 = cursor.here then go cursor.here (cursor.skipMany 2)
      else return (word, false, cursor)
    else if quote = .double ∧ cursor.isAt '\\' then
      if isBreak (cursor.ahead 1) then
        cursor.require 3
        return (word, true, cursor.skip.skipLine)
      else
        let (code, next) ← readEscape start cursor
        go code next
    else go cursor.here cursor.skip

def readQuotedFrom (quote : Quote) (start : Mark) :
    Nat → List Nat → Cursor → Except YamlError (List Nat × Cursor)
  | 0, text, cursor => .ok (text, cursor)
  | fuel + 1, text, cursor => do
    cursor.require 4
    if cursor.isAtDocumentMark then
      throw (cursor.fault start "found unexpected document indicator")
    if cursor.here = 0 then throw (cursor.fault start "found unexpected end of stream")
    let (word, isEscaped, cursor) ← readQuotedWord quote start cursor.limit [] cursor
    cursor.require 1
    if cursor.isAt quote.char then return (word ++ text, cursor.skip)
    let (gap, cursor) ← readGap 0 start cursor.limit { isBroken := isEscaped } cursor
    readQuotedFrom quote start fuel (gap.content ++ word ++ text) cursor

def readQuoted (quote : Quote) (cursor : Cursor) : Except YamlError (Bytes × Cursor) := do
  let (text, next) ← readQuotedFrom quote cursor.mark cursor.limit [] cursor.skip
  return (textOf text, next)

inductive Chomping where
  | strip
  | clip
  | keep
  deriving DecidableEq

structure BlockHead where
  chomping : Chomping := .clip
  /-- By how much the block is indented, where zero stands for what its first line shows. -/
  increment : Nat := 0

def readChomping (head : BlockHead) (cursor : Cursor) : BlockHead × Cursor :=
  if cursor.isAt '+' then ({ head with chomping := .keep }, cursor.skip)
  else if cursor.isAt '-' then ({ head with chomping := .strip }, cursor.skip)
  else (head, cursor)

def readIncrement (start : Mark) (head : BlockHead) (cursor : Cursor) :
    Except YamlError (BlockHead × Cursor) :=
  if cursor.isAt '0' then
    .error (cursor.fault start "found an indentation indicator equal to 0")
  else if '0'.toNat ≤ cursor.here ∧ cursor.here ≤ '9'.toNat then
    .ok ({ head with increment := cursor.here - '0'.toNat }, cursor.skip)
  else .ok (head, cursor)

def readBlockHead (start : Mark) (cursor : Cursor) : Except YamlError (BlockHead × Cursor) := do
  cursor.require 1
  let (head, next) ←
    if cursor.isAt '+' ∨ cursor.isAt '-' then
      let (head, next) := readChomping {} cursor
      next.require 1
      readIncrement start head next
    else
      let (head, next) ← readIncrement start {} cursor
      next.require 1
      pure (if head.increment = 0 then (head, next) else readChomping head next)
  return (head, ← next.closeLine start)

/-- Whether a column stands before the text of a block, whose column zero is not known yet. -/
def isIndentation (indent column : Nat) : Bool := indent = 0 || column < indent

def skipIndentation (indent : Nat) : Nat → Cursor → Except YamlError Cursor
  | 0, cursor => .ok cursor
  | fuel + 1, cursor => do
    cursor.require 1
    if isIndentation indent cursor.mark.column ∧ cursor.isAt ' ' then
      skipIndentation indent fuel cursor.skip
    else return cursor

def readBlockBreaks (start : Mark) (indent : Nat) :
    Nat → Nat → List Nat → Cursor → Except YamlError (Nat × List Nat × Cursor)
  | 0, widest, breaks, cursor => .ok (widest, breaks, cursor)
  | fuel + 1, widest, breaks, cursor => do
    let cursor ← skipIndentation indent cursor.limit cursor
    let widest := max widest cursor.mark.column
    if isIndentation indent cursor.mark.column ∧ cursor.isAt '\t' then
      throw
        (cursor.fault start "found a tab character where an indentation space is expected")
    if isBreak cursor.here then
      cursor.require 2
      readBlockBreaks start indent fuel widest (cursor.lineBreak ++ breaks) cursor.skipLine
    else return (widest, breaks, cursor)

structure BlockLines where
  text : List Nat := []
  firstBreak : List Nat := []
  laterBreaks : List Nat := []
  isBlank : Bool := false

/-- What stands between the last line and the next one, where blanks at the front of neither keep
the lines of a folded block apart. -/
def BlockLines.joint (lines : BlockLines) (isFolded isNextBlank : Bool) : List Nat :=
  if isFolded && !lines.isBlank && !isNextBlank && lines.firstBreak == [0x0A] then
    if lines.laterBreaks.isEmpty then [0x20] else lines.laterBreaks
  else lines.laterBreaks ++ lines.firstBreak

def readBlockLines (start : Mark) (isFolded : Bool) (indent : Nat) :
    Nat → BlockLines → Cursor → Except YamlError (BlockLines × Cursor)
  | 0, lines, cursor => .ok (lines, cursor)
  | fuel + 1, lines, cursor => do
    if cursor.mark.column ≠ indent ∨ cursor.here = 0 then return (lines, cursor)
    let startsBlank := Yaml.isBlank cursor.here
    let (line, cursor) ← cursor.take fun _ => true
    cursor.require 2
    let (_, laterBreaks, next) ← readBlockBreaks start indent cursor.limit 0 [] cursor.skipLine
    let text := line ++ lines.joint isFolded startsBlank ++ lines.text
    readBlockLines start isFolded indent fuel
      { text, firstBreak := cursor.lineBreak, laterBreaks, isBlank := startsBlank } next

def readBlock (margin : Nat) (cursor : Cursor) : Except YamlError (Bytes × Cursor) := do
  let start := cursor.mark
  let isFolded := cursor.isAt '>'
  let (head, cursor) ← readBlockHead start cursor.skip
  let indent := if head.increment = 0 then 0 else margin - 1 + head.increment
  let (widest, laterBreaks, cursor) ← readBlockBreaks start indent cursor.limit 0 [] cursor
  let indent := if indent = 0 then max widest (max margin 1) else indent
  cursor.require 1
  let (lines, cursor) ← readBlockLines start isFolded indent cursor.limit { laterBreaks } cursor
  let last := if head.chomping = .strip then [] else lines.firstBreak
  let empty := if head.chomping = .keep then lines.laterBreaks else []
  return (textOf (empty ++ last ++ lines.text), cursor)

end Rematch.Config.Yaml
