import Rematch.Config.Value
import Rematch.Number.Numeral
import Rematch.Text.Quoted
import Rematch.Text.Utf16

/-!
Settings in JSON: one object whose members are the settings. The text is read to its end before any
number in it is valued, so a fault in its form comes before a number that is too large. A fault is
reported at the first character that cannot go on, with what was being read there.
-/

namespace Rematch.Config.Json

inductive JsonError where
  | unexpectedEnd
  | invalidCharacter (rest : Bytes) (context : String)
  | invalidEscape (spelling : Bytes)
  | tooDeep
  | notTable (kind : String)
  | outOfRange (spelling : Bytes) (path : List Bytes)

def quoteFirst (text : Bytes) : String :=
  match Utf8.decode? text with
  | some (code, _) => Quoted.encodeChar code
  | none => "'\\x" ++ Digits.hex (text.headD 0).toNat ++ "'"

def quoteEscape (spelling : Bytes) : Bytes :=
  let isShown := fun code =>
    code ≠ 0x60 && code ≠ Utf8.replacement && !Loose.isBlank code && Unicode.isPrintable code
  if (Utf8.codes spelling).all isShown then
    Bytes.ofString "`" ++ spelling ++ Bytes.ofString "`"
  else Bytes.ofString (Quoted.encode spelling)

def pathPart (key : Bytes) : Bytes :=
  key.flatMap fun byte =>
    if byte = Bytes.ascii '~' then Bytes.ofString "~0"
    else if byte = Bytes.ascii '/' then Bytes.ofString "~1"
    else [byte]

def JsonError.message : JsonError → Bytes
  | .unexpectedEnd => Bytes.ofString "unexpected end of JSON input"
  | .invalidCharacter rest context =>
    Bytes.ofString s!"invalid character {quoteFirst rest} {context}"
  | .invalidEscape spelling =>
    Bytes.ofString "invalid escape sequence " ++ quoteEscape spelling ++
      Bytes.ofString " in string"
  | .tooDeep => Bytes.ofString "exceeded max depth"
  | .notTable kind =>
    Bytes.ofString ("json: cannot unmarshal " ++ kind ++
      " into Go value of type map[string]interface \x7b\x7d")
  | .outOfRange spelling path =>
    let field := List.intercalate (Bytes.ofString ".") (path.map pathPart)
    Bytes.ofString "json: cannot unmarshal number " ++ spelling ++ Bytes.ofString " into Go " ++
      (if field.isEmpty then Bytes.ofString "value"
        else Bytes.ofString "struct field ." ++ field) ++
      Bytes.ofString " of type float64"

abbrev Reading (α : Type) := Except JsonError (α × Bytes)

def isBlank (byte : UInt8) : Bool := byte = 0x20 || byte = 0x09 || byte = 0x0A || byte = 0x0D

def skipBlanks (text : Bytes) : Bytes := text.dropWhile isBlank

def fault (context : String) : Bytes → JsonError
  | [] => .unexpectedEnd
  | text => .invalidCharacter text context

def readWord (word : String) : List Char → Bytes → Except JsonError Bytes
  | [], text => .ok text
  | char :: chars, text =>
    if text.head? = some (Bytes.ascii char) then readWord word chars (text.drop 1)
    else .error (fault s!"in literal {word} (expecting {Quoted.encodeChar char.toNat})" text)

def isHex (byte : UInt8) : Bool := (Digits.hexValue? byte.toNat).isSome

def escapeWidth (text : Bytes) : Except JsonError Nat :=
  match text.drop 1 with
  | [] => .error .unexpectedEnd
  | letter :: digits =>
    if letter = Bytes.ascii 'u' then
      let spelling := text.take 6
      if (digits.take 4).all isHex then
        if spelling.length = 6 then .ok 5 else .error .unexpectedEnd
      else .error (.invalidEscape spelling)
    else if Bytes.char letter ∈ ['b', 'f', 'n', 'r', 't', '\\', '/', '"'] then .ok 1
    else .error (.invalidEscape (text.take 2))

/-- Reads a string after its first quote, with its escapes as they are. The next `skip` bytes belong
to an escape. -/
def readString : Nat → Bytes → Reading Bytes
  | _, [] => .error .unexpectedEnd
  | skip + 1, byte :: rest =>
    (readString skip rest).map fun (content, rest) => (byte :: content, rest)
  | 0, byte :: rest =>
    if byte = Bytes.ascii '"' then .ok ([], rest)
    else if byte < 0x20 then .error (.invalidCharacter (byte :: rest) "in string")
    else
      match if byte = Bytes.ascii '\\' then escapeWidth (byte :: rest) else .ok 0 with
      | .error error => .error error
      | .ok width =>
        (readString width rest).map fun (content, rest) => (byte :: content, rest)

inductive Piece where
  | byte (value : UInt8)
  | unit (value : Nat)

def escapedByte (byte : UInt8) : UInt8 :=
  match Bytes.char byte with
  | 'b' => 0x08
  | 'f' => 0x0C
  | 'n' => 0x0A
  | 'r' => 0x0D
  | 't' => 0x09
  | _ => byte

def piecesFrom : Nat → Bytes → List Piece
  | _, [] => []
  | skip + 1, _ :: rest => piecesFrom skip rest
  | 0, byte :: rest =>
    if byte = Bytes.ascii '\\' then
      match rest with
      | [] => []
      | escape :: digits =>
        if escape = Bytes.ascii 'u' then
          .unit (Digits.hexNumber (digits.take 4)) :: piecesFrom 5 rest
        else .byte (escapedByte escape) :: piecesFrom 1 rest
    else .byte byte :: piecesFrom 0 rest

/-- The bytes that parts of a string stand for. A half without its partner stands for the
replacement character. -/
def join : List Piece → Bytes
  | [] => []
  | .byte byte :: rest => byte :: join rest
  | .unit high :: .unit low :: rest =>
    if Utf16.isHigh high && Utf16.isLow low then Utf8.encode (Utf16.join high low) ++ join rest
    else Utf8.encode high ++ join (.unit low :: rest)
  | .unit unit :: rest => Utf8.encode unit ++ join rest

def unescape (content : Bytes) : Bytes :=
  join (piecesFrom 0 ((Utf8.codes content).flatMap Utf8.encode))

structure Numeral where
  negative : Bool
  whole : Bytes
  decimals : Bytes
  mark : Bytes
  power : Bytes

namespace Numeral

def spelling (numeral : Numeral) : Bytes :=
  (if numeral.negative then Bytes.ofString "-" else []) ++ numeral.whole ++
    (if numeral.decimals.isEmpty then [] else Bytes.ofString "." ++ numeral.decimals) ++
    numeral.mark ++ numeral.power

def exponent (numeral : Numeral) : Int :=
  let value : Int := Digits.decimalNumber numeral.power
  if Bytes.ascii '-' ∈ numeral.mark then -value else value

def value (numeral : Numeral) : Double :=
  Double.ofParts numeral.negative numeral.whole numeral.decimals numeral.exponent

end Numeral

def readDigits (text : Bytes) : Reading Bytes :=
  match Double.splitDigits text with
  | ([], rest) => .error (fault "in numeric literal" rest)
  | digits => .ok digits

def readWhole (text : Bytes) : Reading Bytes :=
  if Bytes.peek text = '0' then .ok (text.take 1, text.drop 1) else readDigits text

def readDecimals (text : Bytes) : Reading Bytes :=
  if Bytes.peek text = '.' then readDigits (text.drop 1) else .ok ([], text)

def readExponent (text : Bytes) : Reading (Bytes × Bytes) :=
  if Bytes.peek text = 'e' ∨ Bytes.peek text = 'E' then
    let sign := Bytes.peek (text.drop 1)
    let width := if sign = '+' ∨ sign = '-' then 2 else 1
    (readDigits (text.drop width)).map fun (digits, rest) => ((text.take width, digits), rest)
  else .ok (([], []), text)

def readNumeral (text : Bytes) : Except JsonError (Numeral × Bytes) := do
  let negative := Bytes.peek text = '-'
  let (whole, rest) ← readWhole (if negative then text.drop 1 else text)
  let (decimals, rest) ← readDecimals rest
  let ((mark, power), rest) ← readExponent rest
  return ({ negative, whole, decimals, mark, power }, rest)

inductive Node where
  | null
  | flag (value : Bool)
  | number (numeral : Numeral)
  | text (content : Bytes)
  | list (items : List Node)
  | object (members : List (Bytes × Node))

def maxDepth : Nat := 10000

mutual

def readNode : Nat → Nat → Bytes → Reading Node
  | 0, _, _ => .error .unexpectedEnd
  | fuel + 1, depth, text =>
    let text := skipBlanks text
    match Bytes.peek text with
    | '\x7b' =>
      let inside := skipBlanks (text.drop 1)
      if maxDepth ≤ depth then .error .tooDeep
      else if Bytes.peek inside = '\x7d' then .ok (.object [], inside.drop 1)
      else
        (readMembers fuel (depth + 1) inside).map fun (members, rest) => (.object members, rest)
    | '[' =>
      let inside := skipBlanks (text.drop 1)
      if maxDepth ≤ depth then .error .tooDeep
      else if Bytes.peek inside = ']' then .ok (.list [], inside.drop 1)
      else (readItems fuel (depth + 1) inside).map fun (items, rest) => (.list items, rest)
    | '"' =>
      (readString 0 (text.drop 1)).map fun (content, rest) => (.text (unescape content), rest)
    | 't' => (readWord "true" ['r', 'u', 'e'] (text.drop 1)).map fun rest => (.flag true, rest)
    | 'f' =>
      (readWord "false" ['a', 'l', 's', 'e'] (text.drop 1)).map fun rest => (.flag false, rest)
    | 'n' => (readWord "null" ['u', 'l', 'l'] (text.drop 1)).map fun rest => (.null, rest)
    | first =>
      if first = '-' ∨ first.isDigit then
        (readNumeral text).map fun (numeral, rest) => (.number numeral, rest)
      else .error (fault "looking for beginning of value" text)

def readItems : Nat → Nat → Bytes → Reading (List Node)
  | 0, _, _ => .error .unexpectedEnd
  | fuel + 1, depth, text =>
    match readNode fuel depth text with
    | .error error => .error error
    | .ok (item, rest) =>
      let rest := skipBlanks rest
      match Bytes.peek rest with
      | ',' =>
        (readItems fuel depth (rest.drop 1)).map fun (items, rest) => (item :: items, rest)
      | ']' => .ok ([item], rest.drop 1)
      | _ => .error (fault "after array element" rest)

def readMembers : Nat → Nat → Bytes → Reading (List (Bytes × Node))
  | 0, _, _ => .error .unexpectedEnd
  | fuel + 1, depth, text =>
    let text := skipBlanks text
    if Bytes.peek text ≠ '"' then .error (fault "looking for beginning of object key string" text)
    else
      match readString 0 (text.drop 1) with
      | .error error => .error error
      | .ok (key, rest) =>
        let rest := skipBlanks rest
        if Bytes.peek rest ≠ ':' then .error (fault "after object key" rest)
        else
          match readNode fuel depth (rest.drop 1) with
          | .error error => .error error
          | .ok (node, rest) =>
            let member := (unescape key, node)
            let rest := skipBlanks rest
            match Bytes.peek rest with
            | ',' =>
              (readMembers fuel depth (rest.drop 1)).map fun (members, rest) =>
                (member :: members, rest)
            | '\x7d' => .ok ([member], rest.drop 1)
            | _ => .error (fault "after object key:value pair" rest)

end

mutual

def valueOf (path : List Bytes) : Node → Except JsonError Value
  | .null => .ok .null
  | .flag value => .ok (.flag value)
  | .number numeral =>
    match numeral.value with
    | .infinite _ => .error (.outOfRange numeral.spelling path.reverse)
    | value => .ok (.number value)
  | .text content => .ok (.text content)
  | .list items => (itemValues path 0 items).map .list
  | .object members =>
    (memberValues path members).map fun table =>
      .table (table.map fun (key, value) => (.text key, value))

def itemValues (path : List Bytes) (position : Nat) : List Node → Except JsonError (List Value)
  | [] => .ok []
  | item :: rest => do
    let value ← valueOf (Bytes.ofString (toString position) :: path) item
    return value :: (← itemValues path (position + 1) rest)

def memberValues (path : List Bytes) :
    List (Bytes × Node) → Except JsonError (List (Bytes × Value))
  | [] => .ok []
  | (key, node) :: rest => do
    let value ← valueOf (key :: path) node
    return (key, value) :: (← memberValues path rest)

end

def decode (text : Bytes) : Except JsonError Table := do
  let (node, rest) ← readNode (2 * text.length + 2) 0 text
  let rest := skipBlanks rest
  if !rest.isEmpty then .error (fault "after top-level value" rest)
  else
    match node with
    | .object members =>
      let settings ← memberValues [] members
      return Table.ofEntries settings.reverse
    | .null => return []
    | .list _ => .error (.notTable "array")
    | .flag _ => .error (.notTable "bool")
    | .number _ => .error (.notTable "number")
    | .text _ => .error (.notTable "string")

end Rematch.Config.Json
