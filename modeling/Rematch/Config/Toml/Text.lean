import Rematch.Config.Toml.Error

/-!
Blanks, comments and strings. A string is read to its closing quote before its escapes are resolved,
so a missing quote is found before a bad escape.
-/

namespace Rematch.Config.Toml

abbrev Reading (α : Type) := Except TomlError (α × Bytes)

def isBlank (byte : UInt8) : Bool := byte = 0x20 || byte = 0x09

def skipBlanks (text : Bytes) : Bytes := text.dropWhile isBlank

def isForbidden (byte : UInt8) : Bool :=
  byte = 0x7F || (byte < 0x20 && byte ≠ 0x09 && byte ≠ 0x0A && byte ≠ 0x0D)

def characterWidth? (text : Bytes) : Option Nat :=
  if isForbidden (text.headD 0) then none else (Utf8.decode? text).map (·.2)

def isPlain : Nat → Bytes → Bool
  | _, [] => true
  | skip + 1, _ :: rest => isPlain skip rest
  | 0, byte :: rest =>
    match characterWidth? (byte :: rest) with
    | some width => isPlain (width - 1) rest
    | none => false

def skipComment : Nat → Bytes → Except TomlError Bytes
  | _, [] => .ok []
  | skip + 1, _ :: rest => skipComment skip rest
  | 0, byte :: rest =>
    if byte = 0x0A then .ok (byte :: rest)
    else if byte = 0x0D then
      if rest.head? = some 0x0A then .ok rest else .error .commentCharacter
    else
      match characterWidth? (byte :: rest) with
      | some width => skipComment (width - 1) rest
      | none => .error .commentCharacter

def skipOptionalComment (text : Bytes) : Except TomlError Bytes :=
  if Bytes.peek text = '#' then skipComment 0 (text.drop 1) else .ok text

def skipNewline : Bytes → Except TomlError Bytes
  | [] => .ok []
  | 0x0A :: rest => .ok rest
  | [0x0D] => .error .endAfterReturn
  | 0x0D :: next :: rest => if next = 0x0A then .ok rest else .error .loneReturn
  | byte :: _ => .error (.expectedNewline byte)

def atNewline (text : Bytes) : Bool := text.head? = some 0x0A || text.head? = some 0x0D

def skipLines : Nat → Bytes → Except TomlError Bytes
  | 0, text => .ok text
  | fuel + 1, text =>
    match skipOptionalComment (skipBlanks text) with
    | .error error => .error error
    | .ok rest =>
      if atNewline rest then
        match skipNewline rest with
        | .error error => .error error
        | .ok rest => skipLines fuel rest
      else .ok rest

def keep (bytes : Bytes) (reading : Reading Bytes) : Reading Bytes :=
  reading.map fun (content, rest) => (bytes ++ content, rest)

/-- The quotes that end a block at the front of a text: three, and up to two that belong to the
content. -/
def closingQuotes? (quote : UInt8) (text : Bytes) : Option Nat :=
  let count := ((text.take 6).takeWhile (· = quote)).length
  if count < 3 then none else some count

def dropFirstNewline : Bytes → Bytes
  | 0x0A :: rest => rest
  | 0x0D :: 0x0A :: rest => rest
  | content => content

/-- Reads a string without escapes after its first quote, of which the next `skip` bytes are already
found to be well formed. -/
def scanLiteral : Nat → Bytes → Reading Bytes
  | _, [] => .error (.string .unterminatedLiteral)
  | skip + 1, byte :: rest => keep [byte] (scanLiteral skip rest)
  | 0, byte :: rest =>
    if byte = Bytes.ascii '\'' then .ok ([], rest)
    else if byte = 0x0A ∨ byte = 0x0D then .error (.string .newlineInLiteral)
    else
      match characterWidth? (byte :: rest) with
      | some width => keep [byte] (scanLiteral (width - 1) rest)
      | none => .error (.string .malformedLiteral)

def scanLiteralBlock : Nat → Bytes → Reading Bytes
  | _, [] => .error (.string .unterminatedLiteralBlock)
  | skip + 1, byte :: rest => keep [byte] (scanLiteralBlock skip rest)
  | 0, byte :: rest =>
    match closingQuotes? (Bytes.ascii '\'') (byte :: rest) with
    | some count =>
      if count = 6 then .error (.string .quotesInLiteralBlock)
      else .ok (List.replicate (count - 3) byte, (byte :: rest).drop count)
    | none =>
      if byte = 0x0D ∧ rest.head? ≠ some 0x0A then .error (.string .loneReturn)
      else
        match characterWidth? (byte :: rest) with
        | some width => keep [byte] (scanLiteralBlock (width - 1) rest)
        | none => .error (.string .malformedLiteral)

/-- Reads a string after its first quote, with its escapes as they are. The next byte is escaped if
`escaped`. -/
def scanString (escaped : Bool) : Bytes → Reading Bytes
  | [] => .error (.string (if escaped then .nothingEscaped else .unterminated))
  | byte :: rest =>
    if escaped then keep [byte] (scanString false rest)
    else if byte = Bytes.ascii '"' then .ok ([], rest)
    else if byte = 0x0A ∨ byte = 0x0D then .error (.string .newline)
    else keep [byte] (scanString (byte = Bytes.ascii '\\') rest)

def scanBlock (escaped : Bool) : Bytes → Reading Bytes
  | [] => .error (.string (if escaped then .nothingEscaped else .unterminatedBlock))
  | byte :: rest =>
    if escaped then keep [byte] (scanBlock false rest)
    else
      match closingQuotes? (Bytes.ascii '"') (byte :: rest) with
      | some count =>
        if count = 6 then .error (.string .quotesInBlock)
        else .ok (List.replicate (count - 3) byte, (byte :: rest).drop count)
      | none =>
        if byte = 0x0D ∧ rest.head? ≠ some 0x0A then .error (.string .loneReturn)
        else keep [byte] (scanBlock (byte = Bytes.ascii '\\') rest)

def codePoint (count : Nat) (text : Bytes) : Except TomlError Nat :=
  let digits := text.take count
  if digits.length < count then .error (.string (.shortCode count digits.length))
  else if digits.any fun byte => (Digits.hexValue? byte.toNat).isNone then
    .error (.string .notHex)
  else
    let code := Digits.hexNumber digits
    if Utf8.isScalar code then .ok code else .error (.string .notScalar)

def endsLine : Bytes → Bool
  | [] => false
  | byte :: rest =>
    byte = 0x0A || (byte = 0x0D && rest.head? = some 0x0A) || (isBlank byte && endsLine rest)

/-- What an escape stands for and the number of bytes it takes after the backslash. `rest` is the
text after the backslash and `closing` are the quotes that follow. -/
def readEscape (closing rest : Bytes) : Except TomlError (Bytes × Nat) :=
  let code := fun count =>
    (codePoint count (rest.tail.take count ++ closing)).map fun code =>
      (Utf8.encode code, count + 1)
  match Bytes.peek rest with
  | '"' => .ok ([0x22], 1)
  | '\\' => .ok ([0x5C], 1)
  | 'b' => .ok ([0x08], 1)
  | 'f' => .ok ([0x0C], 1)
  | 'n' => .ok ([0x0A], 1)
  | 'r' => .ok ([0x0D], 1)
  | 't' => .ok ([0x09], 1)
  | 'e' => .ok ([0x1B], 1)
  | 'u' => code 4
  | 'U' => code 8
  | _ => .error (.string (.unknownEscape (rest.headD 0)))

/-- Resolves the escapes of a string with the given closing quotes, of which the next `skip` bytes
are already taken. In a block, a backslash at the end of a line joins it to the next word. -/
def resolveEscapes (isBlock : Bool) (closing : Bytes) : Nat → Bytes → Except TomlError Bytes
  | _, [] => .ok []
  | skip + 1, _ :: rest => resolveEscapes isBlock closing skip rest
  | 0, byte :: rest =>
    if byte = Bytes.ascii '\\' then
      if isBlock && endsLine rest then
        resolveEscapes isBlock closing
          (rest.takeWhile fun byte => isBlank byte || byte = 0x0A || byte = 0x0D).length rest
      else
        match readEscape closing rest with
        | .error error => .error error
        | .ok (piece, width) => (resolveEscapes isBlock closing width rest).map (piece ++ ·)
    else
      match characterWidth? (byte :: rest) with
      | none => .error (.string (.malformedByte byte))
      | some width =>
        (resolveEscapes isBlock closing (width - 1) rest).map ((byte :: rest).take width ++ ·)

def unescape (isBlock : Bool) (content : Bytes) : Except TomlError Bytes :=
  if Bytes.ascii '\\' ∈ content then
    resolveEscapes isBlock (List.replicate (if isBlock then 3 else 1) (Bytes.ascii '"')) 0 content
  else if isPlain 0 content then .ok content
  else .error (.string .malformed)

def readString (text : Bytes) : Except TomlError (Bytes × Bytes) := do
  if Bytes.peek text = '"' then
    let (content, rest) ← scanString false (text.drop 1)
    return (← unescape false content, rest)
  else scanLiteral 0 (text.drop 1)

def readText (text : Bytes) : Except TomlError (Bytes × Bytes) := do
  match closingQuotes? (text.headD 0) text with
  | none => readString text
  | some _ =>
    if Bytes.peek text = '"' then
      let (content, rest) ← scanBlock false (text.drop 3)
      return (← unescape true (dropFirstNewline content), rest)
    else
      let (content, rest) ← scanLiteralBlock 0 (text.drop 3)
      return (dropFirstNewline content, rest)

end Rematch.Config.Toml
