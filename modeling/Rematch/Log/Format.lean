import Rematch.Log.Record
import Rematch.Text.Quoted

/-!
The formats in which log records are written, one record a line: coloured for a terminal, as pairs
of keys and values, or as JSON.
-/

namespace Rematch.Log

inductive Format where
  | colored
  | pairs
  | json
  deriving DecidableEq

namespace Format

def isSafe (byte : Nat) : Bool := 0x20 ≤ byte && byte < 0x80 && byte ≠ 0x22 && byte ≠ 0x5C

def isRough (extra : List Nat) (code : Nat) : Bool :=
  if code < 0x80 then
    code ≠ 0x5C && !extra.contains code && (code = 0x20 || code = 0x3D || !isSafe code)
  else code = Utf8.replacement || !Unicode.isPrintable code

def quoteIfRough (extra : List Nat) (text : Bytes) : Bytes :=
  if text.isEmpty || (Utf8.codes text).any (isRough extra) then Bytes.ofString (Quoted.encode text)
  else text

def escapeByte : UInt8 := 0x1B

def color (code : String) : Bytes := escapeByte :: Bytes.ofString s!"[{code}m"

def painted (code : String) (text : Bytes) : Bytes := color code ++ text ++ color "0"

/-- Replaces the escape of the control byte by the byte itself, in a text of which the next `skip`
bytes are already taken. -/
def restoreEscapes : Nat → Bytes → Bytes
  | _, [] => []
  | skip + 1, _ :: rest => restoreEscapes skip rest
  | 0, byte :: rest =>
    if (Bytes.ofString "\\x1b").isPrefixOf (byte :: rest) then escapeByte :: restoreEscapes 3 rest
    else byte :: restoreEscapes 0 rest

def coloredValue (value : Value) : Bytes :=
  match value with
  | .text bytes =>
    let quoted := quoteIfRough [escapeByte.toNat] bytes
    if quoted = bytes then bytes else restoreEscapes 0 quoted
  | _ => value.render

def levelMark : Level → Bytes
  | .debug => Bytes.ofString "DBG"
  | .info => painted "92" (Bytes.ofString "INF")
  | .warn => painted "93" (Bytes.ofString "WRN")
  | .error => painted "91" (Bytes.ofString "ERR")

def jsonCode (code : Nat) : Bytes :=
  if isSafe code then [UInt8.ofNat code]
  else if 0x80 ≤ code then
    if code = 0x2028 ∨ code = 0x2029 then Bytes.ofString ("\\u" ++ Digits.hexPadded 4 code)
    else Utf8.encode code
  else
    Bytes.ofString (match code with
      | 0x22 => "\\\""
      | 0x5C => "\\\\"
      | 0x08 => "\\b"
      | 0x0C => "\\f"
      | 0x0A => "\\n"
      | 0x0D => "\\r"
      | 0x09 => "\\t"
      | _ => "\\u" ++ Digits.hexPadded 4 code)

def jsonText (text : Bytes) : Bytes :=
  Bytes.ofString "\"" ++ (Utf8.codes text).flatMap jsonCode ++ Bytes.ofString "\""

def jsonValue (value : Value) : Bytes :=
  match value with
  | .text bytes => jsonText bytes
  | _ => value.render

def pairValue (value : Value) : Bytes :=
  match value with
  | .text bytes => quoteIfRough [] bytes
  | _ => value.render

def line (format : Format) (stamp : Bytes) (record : Record) : Bytes :=
  let blank := Bytes.ofString " "
  let message := Bytes.ofString record.message
  let parts : List Bytes := match format with
    | .colored =>
      [painted "2" stamp, blank, levelMark record.level, blank, message] ++
        record.attributes.flatMap fun (key, value) =>
          [blank, painted "2" (Bytes.ofString s!"{key}="), coloredValue value]
    | .pairs =>
      [stamp, Bytes.ofString s!" level={record.level.name} msg=", quoteIfRough [] message] ++
        record.attributes.flatMap fun (key, value) =>
          [Bytes.ofString s!" {key}=", pairValue value]
    | .json =>
      [Bytes.ofString "\x7b", stamp, Bytes.ofString s!",\"level\":\"{record.level.name}\",\"msg\":",
        jsonText message] ++
        (record.attributes.flatMap fun (key, value) =>
          [Bytes.ofString s!",\"{key}\":", jsonValue value]) ++
        [Bytes.ofString "\x7d"]
  parts.flatten ++ [0x0A]

end Format

end Rematch.Log
