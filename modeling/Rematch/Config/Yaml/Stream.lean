import Rematch.Config.Yaml.Property

/-!
The tokens of a text, one after the other. A scalar turns out to be a key only when a colon follows
it. So tokens wait in a queue while the first of them may be a key, and at least three of them do.
-/

namespace Rematch.Config.Yaml

structure PossibleKey where
  isPossible : Bool := false
  isRequired : Bool := false
  isAwaited : Bool := false
  number : Nat := 0
  mark : Mark := {}

def maxKeyLength : Nat := 1024

def maxDepth : Nat := 10000

def PossibleKey.fault (key : PossibleKey) (cursor : Cursor) : YamlError :=
  cursor.fault key.mark "could not find expected ':'"

def PossibleKey.isValid (key : PossibleKey) (cursor : Cursor) : Except YamlError Bool :=
  if !key.isPossible then .ok false
  else if key.mark.line < cursor.mark.line ∨ key.mark.index + maxKeyLength < cursor.mark.index then
    if key.isRequired then .error (key.fault cursor) else .ok false
  else .ok true

/-- The tokens of a text, with what is known of the place up to which they were read. -/
structure Stream where
  cursor : Cursor
  queue : List Token := []
  taken : Nat := 0
  isReady : Bool := false
  /-- The least column of what belongs to the innermost block. -/
  margin : Nat := 0
  margins : List Nat := []
  allowsKey : Bool := true
  /-- The possible key at the innermost level of brackets. -/
  key : PossibleKey := {}
  outerKeys : List PossibleKey := []
  depth : Nat := 0

namespace Stream

variable (stream : Stream)

def isFlow : Bool := 0 < stream.depth

def faultHere (problem : String) : YamlError :=
  stream.cursor.fault stream.cursor.mark problem

def push (lexeme : Lexeme) (line : Nat) : Stream :=
  { stream with queue := stream.queue ++ [{ lexeme, line }] }

/-- Puts a sign before the token with a number, or at the end if that token was taken. -/
def insert (number : Nat) (sign : Sign) (line : Nat) : Stream :=
  if number < stream.taken then stream.push (.sign sign) line
  else
    let (before, after) := stream.queue.splitAt (number - stream.taken)
    { stream with queue := before ++ { lexeme := .sign sign, line } :: after }

def nextNumber : Nat := stream.taken + stream.queue.length

/-- Begins a block at a column, if it lies beyond the margin, with a sign before the token with the
given number. -/
def openBlock (number : Nat) (sign : Sign) (mark : Mark) :
    Except YamlError Stream := do
  if stream.isFlow ∨ mark.column < stream.margin then return stream
  if maxDepth ≤ stream.margins.length then
    throw (stream.cursor.fault stream.key.mark s!"exceeded max depth of {maxDepth}")
  return { stream with margin := mark.column + 1, margins := stream.margin :: stream.margins }
    |>.insert number sign mark.line

def closeBlocksFrom (limit : Nat) : List Nat → Stream → Stream
  | [], stream => stream
  | margin :: margins, stream =>
    if stream.margin ≤ limit then stream
    else
      closeBlocksFrom limit margins
        ({ stream with margin, margins }.push (.sign .blockEnd) stream.cursor.mark.line)

def closeBlocks (limit : Nat) : Stream :=
  if stream.isFlow then stream else closeBlocksFrom limit stream.margins stream

def dropKey : Except YamlError Stream :=
  if stream.key.isPossible ∧ stream.key.isRequired then .error (stream.key.fault stream.cursor)
  else .ok { stream with key := { stream.key with isPossible := false } }

def saveKey : Except YamlError Stream := do
  if !stream.allowsKey then return stream
  let mark := stream.cursor.mark
  let key : PossibleKey :=
    { isPossible := true
      isRequired := !stream.isFlow && stream.margin = mark.column + 1
      isAwaited := true
      number := stream.nextNumber
      mark }
  return { ← stream.dropKey with key }

def openLevel : Except YamlError Stream := do
  if maxDepth ≤ stream.depth then throw (stream.faultHere s!"exceeded max depth of {maxDepth}")
  return { stream with
    key := { number := stream.nextNumber, mark := stream.cursor.mark }
    outerKeys := stream.key :: stream.outerKeys
    depth := stream.depth + 1 }

/-- Closes a bracket. A bracket in which no key was possible does not wait for a colon. -/
def closeLevel : Stream :=
  match stream.outerKeys with
  | [] => stream
  | key :: outerKeys =>
    let isAwaited := key.isAwaited && key.number ≠ stream.key.number
    { stream with key := { key with isAwaited }, outerKeys, depth := stream.depth - 1 }

def pushSign (sign : Sign) (width : Nat) : Stream :=
  { stream with cursor := stream.cursor.skipMany width }
    |>.push (.sign sign) stream.cursor.mark.line

def pushRead (lexeme : Lexeme) (cursor : Cursor) : Stream :=
  { stream with cursor }.push lexeme stream.cursor.mark.line

def skipIndent : Except YamlError Cursor := do
  let takesTabs := stream.isFlow || !stream.allowsKey
  let (_, cursor) ← stream.cursor.take fun code => code = 0x20 || (takesTabs && code = 0x09)
  return cursor

def skipToToken : Nat → Stream → Except YamlError Stream
  | 0, stream => .ok stream
  | fuel + 1, stream => do
    let cursor ← stream.skipIndent
    let cursor ← if cursor.isAt '#' then cursor.skipComments cursor.limit else pure cursor
    if isBreak cursor.here then
      cursor.require 2
      skipToToken fuel { stream with
        cursor := cursor.skipLine
        allowsKey := stream.allowsKey || !stream.isFlow }
    else return { stream with cursor }

def readEnd : Except YamlError Stream := do
  let mark := stream.cursor.mark
  let mark := if mark.column = 0 then mark else { mark with line := mark.line + 1, column := 0 }
  let stream := { stream with cursor := { stream.cursor with mark } }.closeBlocks 0
  let stream ← stream.dropKey
  return { stream with allowsKey := false }.pushSign .streamEnd 0

def leaveDocument : Except YamlError Stream := do
  return { ← (stream.closeBlocks 0).dropKey with allowsKey := false }

def readOpening (sign : Sign) : Except YamlError Stream := do
  let stream ← (← stream.saveKey).openLevel
  return { stream with allowsKey := true }.pushSign sign 1

def readClosing (sign : Sign) : Except YamlError Stream := do
  let stream := (← stream.dropKey).closeLevel
  return { stream with allowsKey := false }.pushSign sign 1

def readFlowEntry : Except YamlError Stream := do
  return { ← stream.dropKey with allowsKey := true }.pushSign .flowEntry 1

def enterBlock (sign : Sign) (problem : String) : Except YamlError Stream := do
  if stream.isFlow then return stream
  if !stream.allowsKey then throw (stream.faultHere problem)
  stream.openBlock stream.nextNumber sign stream.cursor.mark

def readBlockEntry : Except YamlError Stream := do
  let stream ← stream.enterBlock .blockSequenceStart
    "block sequence entries are not allowed in this context"
  return { ← stream.dropKey with allowsKey := true }.pushSign .blockEntry 1

def readKey : Except YamlError Stream := do
  let stream ← stream.enterBlock .blockMappingStart
    "mapping keys are not allowed in this context"
  return { ← stream.dropKey with allowsKey := !stream.isFlow }.pushSign .key 1

/-- Reads the colon before a value. If a possible key precedes it, the sign of a key is put before
that. -/
def readValue : Except YamlError Stream := do
  let key := stream.key
  if ← key.isValid stream.cursor then
    let stream := stream.insert key.number .key key.mark.line
    let stream ← stream.openBlock key.number .blockMappingStart key.mark
    return { stream with key := { key with isPossible := false }, allowsKey := false }
      |>.pushSign .value 1
  else
    let stream ← stream.enterBlock .blockMappingStart
      "mapping values are not allowed in this context"
    return { stream with
      key := { key with isPossible := false }
      allowsKey := !stream.isFlow }.pushSign .value 1

def readNamed (lexeme : Bytes → Lexeme) : Except YamlError Stream := do
  let stream ← stream.saveKey
  let (name, cursor) ← readName stream.cursor
  return { stream with allowsKey := false }.pushRead (lexeme name) cursor

def readTagged : Except YamlError Stream := do
  let stream ← stream.saveKey
  let (lexeme, cursor) ← readTag stream.cursor
  return { stream with allowsKey := false }.pushRead lexeme cursor

def readBlockScalar : Except YamlError Stream := do
  let stream ← stream.dropKey
  let (text, cursor) ← readBlock stream.margin stream.cursor
  return { stream with allowsKey := true }.pushRead (.scalar text false) cursor

def readQuotedScalar (quote : Quote) : Except YamlError Stream := do
  let stream ← stream.saveKey
  let (text, cursor) ← readQuoted quote stream.cursor
  return { stream with allowsKey := false }.pushRead (.scalar text false) cursor

def readPlainScalar : Except YamlError Stream := do
  let stream ← stream.saveKey
  let (text, isBroken, cursor) ← readPlain stream.isFlow stream.margin stream.cursor
  return { stream with allowsKey := isBroken }.pushRead (.scalar text true) cursor

def startsPlain : Bool :=
  let cursor := stream.cursor
  let isIndicator := isOneOf cursor.here "-?:,[]\x7b\x7d#&*!|>'\"%@`"
  !(isGap cursor.here || isIndicator) ||
    (cursor.isAt '-' && !isBlank (cursor.ahead 1)) ||
    (!stream.isFlow && isOneOf cursor.here "?:" && !isGap (cursor.ahead 1))

def readToken : Except YamlError Stream :=
  let isFree := isGap (stream.cursor.ahead 1)
  let isScalar :=
    if stream.startsPlain then stream.readPlainScalar
    else .error (stream.faultHere "found character that cannot start any token")
  match Char.ofNat stream.cursor.here with
  | '[' => stream.readOpening .flowSequenceStart
  | '\x7b' => stream.readOpening .flowMappingStart
  | ']' => stream.readClosing .flowSequenceEnd
  | '\x7d' => stream.readClosing .flowMappingEnd
  | ',' => stream.readFlowEntry
  | '-' => if isFree then stream.readBlockEntry else isScalar
  | '?' => if stream.isFlow || isFree then stream.readKey else isScalar
  | ':' => if stream.isFlow || isFree then stream.readValue else isScalar
  | '*' => stream.readNamed .alias_
  | '&' => stream.readNamed .anchor
  | '!' => stream.readTagged
  | '|' | '>' => if stream.isFlow then isScalar else stream.readBlockScalar
  | '\'' => stream.readQuotedScalar .single
  | '"' => stream.readQuotedScalar .double
  | _ => isScalar

def readNext : Except YamlError Stream := do
  stream.cursor.require 1
  let stream ← stream.skipToToken stream.cursor.limit
  let stream := stream.closeBlocks (stream.cursor.mark.column + 1)
  let cursor := stream.cursor
  cursor.require 4
  if cursor.here = 0 then stream.readEnd
  else if cursor.mark.column = 0 ∧ cursor.isAt '%' then
    let stream ← stream.leaveDocument
    let (lexeme, cursor) ← readDirective stream.cursor
    return stream.pushRead lexeme cursor
  else if cursor.isAtMark '-' then return (← stream.leaveDocument).pushSign .documentStart 3
  else if cursor.isAtMark '.' then return (← stream.leaveDocument).pushSign .documentEnd 3
  else
    let stream ← stream.readToken
    if stream.queue.getLast?.any (·.is .blockEntry) then return stream
    return { stream with cursor := ← stream.cursor.skipLineComment }

def isWaiting : Except YamlError Bool :=
  let isFirst := fun (key : PossibleKey) =>
    key.isPossible && key.isAwaited && key.number = stream.taken
  match (stream.key :: stream.outerKeys).find? isFirst with
  | some key => key.isValid stream.cursor
  | none => .ok false

def fill : Nat → Stream → Except YamlError Stream
  | 0, stream => .ok stream
  | fuel + 1, stream => do
    if (stream.queue.take 3).length < 3 then fill fuel (← stream.readNext)
    else if ← stream.isWaiting then fill fuel (← stream.readNext)
    else return { stream with isReady := true }

def peek : Except YamlError (Token × Stream) := do
  let stream ← if stream.isReady then pure stream else fill (stream.cursor.limit + 3) stream
  return (stream.queue.headD { lexeme := .sign .streamEnd, line := 0 }, stream)

def skip : Stream :=
  { stream with queue := stream.queue.drop 1, taken := stream.taken + 1, isReady := false }

end Stream

end Rematch.Config.Yaml
