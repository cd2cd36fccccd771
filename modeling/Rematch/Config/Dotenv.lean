import Rematch.Config.Value
import Rematch.Text.Lines
import Rematch.Text.Utf16

/-!
Settings as assignments to variables: a name, an equals sign or a colon, and a value on each line. A
value in quotes may go on over several lines, and a value without single quotes may refer to other
variables.
-/

namespace Rematch.Config.Dotenv

inductive DotenvError where
  | unmatched (line : Bytes)
  /-- The line exports a variable without a value. -/
  | unset (line : Bytes)
  | missingQuotes
  | lineTooLong

def DotenvError.message : DotenvError → Bytes
  | .unmatched line => Bytes.ofString "line `" ++ line ++ Bytes.ofString "` doesn't match format"
  | .unset line => Bytes.ofString "line `" ++ line ++ Bytes.ofString "` has an unset variable"
  | .missingQuotes => Bytes.ofString "missing quotes"
  | .lineTooLong => Bytes.ofString Lines.tooLong

/-- Variables with their values, later ones first. -/
abbrev Variables := List (Bytes × Bytes)

def isBlank (byte : UInt8) : Bool :=
  byte = 0x20 || byte = 0x09 || byte = 0x0A || byte = 0x0C || byte = 0x0D

def skipBlanks (text : Bytes) : Bytes := text.dropWhile isBlank

def isName (byte : UInt8) : Bool :=
  let char := Bytes.char byte
  char.isAlphanum || char = '_' || char = '.'

def quote? (text : Bytes) : Option UInt8 :=
  text.head?.filter fun byte => byte = Bytes.ascii '"' || byte = Bytes.ascii '\''

def lastIndexOf? (byte : UInt8) (text : Bytes) : Option Nat :=
  ((text.zipIdx.filter fun (other, _) => other = byte).getLast?).map (·.2)

def openQuote? (line : Bytes) : Option UInt8 := do
  let sign := if Bytes.ascii '=' ∈ line then '=' else ':'
  let (name, value) ← Bytes.cut? [Bytes.ascii sign] line
  if name.isEmpty then none
  let value := Loose.trim value
  let quote ← quote? value
  match lastIndexOf? quote (Loose.trim (value.drop 1)) with
  | none => some quote
  | some position => if Bytes.peek (value.drop position) = '\\' then some quote else none

def closes (quote : UInt8) (line : Bytes) : Bool :=
  match lastIndexOf? quote line with
  | none => false
  | some 0 => true
  | some (position + 1) => Bytes.peek (line.drop position) ≠ '\\'

/-- A line with those after it up to one that closes its value, and the lines after that. -/
def joinLines? (quote : UInt8) : Bytes → List Bytes → Option (Bytes × List Bytes)
  | _, [] => none
  | line, next :: rest =>
    let joined := line ++ 0x0A :: next
    if closes quote next then some (joined, rest) else joinLines? quote joined rest

def isEnding (text : Bytes) : Bool :=
  match skipBlanks text with
  | [] => true
  | byte :: rest => byte = Bytes.ascii '#' && !rest.contains 0x0A

/-- The number of bytes before the last quote in a text after which nothing but a comment stands. -/
def closing? (quote : UInt8) : Bytes → Option Nat
  | [] => none
  | byte :: rest =>
    match closing? quote rest with
    | some position => some (position + 1)
    | none => if byte = quote && isEnding rest then some 0 else none

def quoted? (text : Bytes) : Option Bytes := do
  let quote ← quote? text
  let width ← closing? quote (text.drop 1)
  some (text.take (width + 2))

def value? (text : Bytes) : Option Bytes :=
  match quoted? text with
  | some value => some value
  | none =>
    let value := text.takeWhile fun byte => byte ≠ Bytes.ascii '#' && byte ≠ 0x0A
    if isEnding (text.drop value.length) then some value else none

def assignment? (text : Bytes) : Option (Bytes × Bytes) :=
  let (name, rest) := text.span isName
  let afterBlanks := skipBlanks rest
  if name.isEmpty then none
  else if Bytes.peek afterBlanks = '=' then
    (value? (skipBlanks (afterBlanks.drop 1))).map (name, ·)
  else if Bytes.peek rest = ':' then
    let blanks := ((rest.drop 1).takeWhile isBlank).length
    ((List.range blanks).findSome? fun (more : Nat) => value? (rest.drop (more + 2))).map (name, ·)
  else none

def readLine? (line : Bytes) : Option (Bytes × Bytes) :=
  let line := skipBlanks line
  let word := Bytes.ofString "export"
  let exported? :=
    if word.isPrefixOf line && isBlank ((line.drop word.length).headD 0) then
      assignment? (skipBlanks (line.drop word.length))
    else none
  exported?.or (assignment? line)

def replaceEscape (letter : Char) (byte : UInt8) : Bytes → Bytes
  | [] => []
  | [last] => [last]
  | first :: second :: rest =>
    if Bytes.char first = '\\' ∧ Bytes.char second = letter then
      byte :: replaceEscape letter byte rest
    else first :: replaceEscape letter byte (second :: rest)

def removeBackslashes : Bytes → Bytes
  | [] => []
  | [last] => [last]
  | first :: second :: rest =>
    if Bytes.char first = '\\' ∧ Bytes.char second ≠ '$' then second :: removeBackslashes rest
    else first :: removeBackslashes (second :: rest)

def unescape (value : Bytes) : Bytes :=
  removeBackslashes (replaceEscape 'r' 0x0D (replaceEscape 'n' 0x0A value))

def isReference (byte : UInt8) : Bool :=
  let char := Bytes.char byte
  char.isUpper || char.isDigit || char = '_'

def reference (text : Bytes) : Bytes × Nat :=
  let opening := if Bytes.peek text = '\x7b' then 1 else 0
  let name := (text.drop opening).takeWhile isReference
  let width := opening + name.length
  (name, if Bytes.peek (text.drop width) = '\x7d' then width + 1 else width)

/-- Puts the values of variables for the references to them in a text, of which the next `skip`
bytes are already taken. A backslash before a dollar sign makes it no reference. -/
def expandFrom (lookup : Bytes → Bytes) : Nat → Bytes → Bytes
  | _, [] => []
  | skip + 1, _ :: rest => expandFrom lookup skip rest
  | 0, byte :: rest =>
    if Bytes.char byte = '\\' ∧ Bytes.peek rest = '$' then
      let (_, width) := reference (rest.drop 1)
      rest.take (width + 1) ++ expandFrom lookup (width + 1) rest
    else if Bytes.char byte = '$' then
      let (name, width) := reference rest
      (if name.isEmpty then byte :: rest.take width else lookup name) ++
        expandFrom lookup width rest
    else byte :: expandFrom lookup 0 rest

def valueOf (environment : List (String × Bytes)) (assigned : Variables) (name : Bytes) : Bytes :=
  let given := (Bytes.toString? name).bind fun name => environment.lookup name
  (given.or (assigned.lookup name)).getD []

def evaluate (lookup : Bytes → Bytes) (value : Bytes) : Bytes :=
  let value := Loose.trim value
  let isBetween := fun (quote : Char) =>
    2 ≤ value.length && Bytes.peek value = quote && value.getLast? = some (Bytes.ascii quote)
  let content := (value.drop 1).dropLast
  if isBetween '\'' then content
  else expandFrom lookup 0 (if isBetween '"' then unescape content else value)

def lineError (assigned : Variables) (line : Bytes) : DotenvError :=
  let trimmed := Loose.trim line
  match Bytes.cut? [0x20] trimmed with
  | some (_, name) =>
    if (Bytes.ofString "export").isPrefixOf trimmed && (assigned.lookup name).isNone then
      .unset trimmed
    else .unmatched line
  | none => .unmatched line

def readLines (environment : List (String × Bytes)) :
    Nat → Variables → List Bytes → Except DotenvError Variables
  | 0, assigned, _ | _, assigned, [] => .ok assigned
  | fuel + 1, assigned, line :: rest => do
    let line := Loose.trim line
    if line.isEmpty ∨ Bytes.peek line = '#' then readLines environment fuel assigned rest
    else
      let (line, rest) ← match openQuote? line with
        | none => pure (line, rest)
        | some quote =>
          match joinLines? quote line rest with
          | some joined => pure joined
          | none => throw .missingQuotes
      match readLine? line with
      | none => throw (lineError assigned line)
      | some (name, value) =>
        let value := evaluate (valueOf environment assigned) value
        readLines environment fuel ((name, value) :: assigned) rest

def toUtf8 (text : Bytes) : Bytes :=
  if [0xEF, 0xBB, 0xBF].isPrefixOf text then
    (Utf8.codes (text.drop 3)).flatMap Utf8.encode
  else if [0xFF, 0xFE].isPrefixOf text then Utf16.toUtf8 .little (text.drop 2)
  else if [0xFE, 0xFF].isPrefixOf text then Utf16.toUtf8 .big (text.drop 2)
  else text

def decode (environment : List (String × Bytes)) (text : Bytes) : Except DotenvError Table := do
  let (lines, isCut) := Lines.fitting (Lines.splitAny (toUtf8 text))
  let assigned ← readLines environment (lines.length + 1) [] lines
  if isCut then throw .lineTooLong
  return Table.ofEntries (assigned.map fun (name, value) => (name, .text value))

end Rematch.Config.Dotenv
