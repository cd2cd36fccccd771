import Rematch.Text.Integer
import Rematch.Text.Quoted

/-!
Why a text in TOML holds no settings. The faults of strings, numbers, moments and definitions are
kept apart.
-/

namespace Rematch.Config.Toml

inductive StringFault where
  | unterminated
  | unterminatedBlock
  | quotesInBlock
  | newline
  | nothingEscaped
  | loneReturn
  | malformed
  | malformedByte (byte : UInt8)
  | unknownEscape (byte : UInt8)
  | shortCode (expected found : Nat)
  | notHex
  | notScalar
  | unterminatedLiteral
  | unterminatedLiteralBlock
  | quotesInLiteralBlock
  | newlineInLiteral
  | malformedLiteral

inductive NumberFault where
  | incomplete
  | unexpectedLetter (letter : Char)
  | leadingUnderscore
  | trailingUnderscore
  | doubleUnderscore
  | leadingZero
  | notInteger (kind : String) (spelling : Bytes) (error : NumeralError)
  | underscoreBeforeExponent
  | underscoreAfterExponent
  | underscoreAfterPoint
  | underscoreBeforePoint
  | leadingPoint
  | trailingPoint
  | secondPoint
  | noDigitBeforePoint
  | noDigitAfterPoint
  | leadingZeros
  | notNumber (spelling : Bytes) (error : NumeralError)

inductive MomentFault where
  | dateForm
  | notDigit
  | impossibleDate
  | dateTimeForm
  | separator
  | timeForm
  | hour
  | colonAfterHours
  | minutes
  | colonAfterMinutes
  | seconds
  | emptyFraction
  | missingFraction
  | offsetForm
  | offsetSign
  | offsetColon
  | offsetHours
  | offsetMinutes
  | afterOffset
  | afterTime
  | afterDateTime

inductive EntryKind where
  | value
  | table
  | arrayTable
  deriving DecidableEq

inductive DefinitionFault where
  | alreadyDefined (key : Bytes)
  | expectedTable (key : Bytes) (kind : EntryKind)
  | closedTable (key : Bytes)
  | notTable (key : Bytes) (kind : EntryKind)
  | secondTable (key : Bytes)
  | notArrayTable (key : Bytes) (kind : EntryKind)

inductive TomlError where
  | expectedNewline (byte : UInt8)
  | endAfterReturn
  | loneReturn
  | commentCharacter
  | expectedKey
  | keyStart (byte : UInt8)
  | endAfterKey
  | expectedCharacter (char : Char)
  | endBeforeCharacter (char : Char)
  | expectedValue
  | expectedWord (word : String)
  | incompleteTable
  | incompleteArray
  | leadingComma
  | missingComma
  | string (fault : StringFault)
  | number (fault : NumberFault)
  | moment (fault : MomentFault)
  | definition (fault : DefinitionFault)

def byteText (byte : UInt8) : String := String.singleton (Bytes.char byte)

def showByte (byte : UInt8) : String :=
  Digits.codePoint byte.toNat ++
    if Unicode.isPrintable byte.toNat then s!" '{byteText byte}'" else ""

def StringFault.message : StringFault → String
  | .unterminated => "basic string not terminated by \""
  | .unterminatedBlock => "multiline basic string not terminated by \"\"\""
  | .quotesInBlock => "\"\"\" not allowed in multiline basic string"
  | .newline => "basic strings cannot have new lines"
  | .nothingEscaped => "need a character after \\"
  | .loneReturn => "need a \\n after \\r"
  | .malformed => "invalid UTF-8"
  | .malformedByte byte => s!"invalid character {showByte byte}"
  | .unknownEscape byte => s!"invalid escaped character {showByte byte}"
  | .shortCode expected found => s!"unicode point needs {expected} character, not {found}"
  | .notHex => "non-hex character"
  | .notScalar => "escape sequence is invalid Unicode code point"
  | .unterminatedLiteral => "unterminated literal string"
  | .unterminatedLiteralBlock => "multiline literal string not terminated by '''"
  | .quotesInLiteralBlock => "''' not allowed in multiline literal string"
  | .newlineInLiteral => "literal strings cannot have new lines"
  | .malformedLiteral => "invalid character"

def NumberFault.message : NumberFault → String
  | .incomplete => "incomplete number"
  | .unexpectedLetter letter =>
    s!"unexpected character '{letter}' while scanning for a number"
  | .leadingUnderscore => "number cannot start with underscore"
  | .trailingUnderscore => "number cannot end with underscore"
  | .doubleUnderscore => "number must have at least one digit between underscores"
  | .leadingZero => "leading zero not allowed on decimal number"
  | .notInteger kind spelling error =>
    s!"couldn't parse {kind} number: strconv.ParseInt: parsing {Quoted.encode spelling}: " ++
      error.message
  | .underscoreBeforeExponent => "cannot have underscore before exponent"
  | .underscoreAfterExponent => "cannot have underscore after exponent"
  | .underscoreAfterPoint => "cannot have underscore after decimal point"
  | .underscoreBeforePoint => "cannot have underscore before decimal point"
  | .leadingPoint => "float cannot start with a dot"
  | .trailingPoint => "float cannot end with a dot"
  | .secondPoint => "float can have at most one decimal point"
  | .noDigitBeforePoint => "float decimal point must be preceded by a digit"
  | .noDigitAfterPoint => "float decimal point must be followed by a digit"
  | .leadingZeros => "float integer part cannot have leading zeroes"
  | .notNumber spelling error =>
    s!"unable to parse float: strconv.ParseFloat: parsing {Quoted.encode spelling}: " ++
      error.message

def MomentFault.message : MomentFault → String
  | .dateForm => "dates are expected to have the format YYYY-MM-DD"
  | .notDigit => "expected digit (0-9)"
  | .impossibleDate => "impossible date"
  | .dateTimeForm =>
    "local datetimes are expected to have the format YYYY-MM-DDTHH:MM:SS[.NNNNNNNNN]"
  | .separator => "datetime separator is expected to be T or a space"
  | .timeForm => "times are expected to have the format HH:MM:SS[.NNNNNN]"
  | .hour => "hour cannot be greater 23"
  | .colonAfterHours => "expecting colon between hours and minutes"
  | .minutes => "minutes cannot be greater 59"
  | .colonAfterMinutes => "expecting colon between minutes and seconds"
  | .seconds => "seconds cannot be greater than 59"
  | .emptyFraction => "need at least one digit after fraction point"
  | .missingFraction => "nanoseconds need at least one digit"
  | .offsetForm => "invalid date-time timezone"
  | .offsetSign => "invalid timezone offset character"
  | .offsetColon => "expected a : separator"
  | .offsetHours => "invalid timezone offset hours"
  | .offsetMinutes => "invalid timezone offset minutes"
  | .afterOffset => "extra bytes at the end of the timezone"
  | .afterTime => "extra characters at the end of a local time"
  | .afterDateTime => "extra characters at the end of a local date time"

def EntryKind.name : EntryKind → String
  | .value => "value"
  | .table => "table"
  | .arrayTable => "array table"

def DefinitionFault.message : DefinitionFault → Bytes
  | .alreadyDefined key => Bytes.ofString "key " ++ key ++ Bytes.ofString " is already defined"
  | .expectedTable key kind =>
    Bytes.ofString "expected " ++ key ++ Bytes.ofString s!" to be a table, not a {kind.name}"
  | .closedTable key =>
    Bytes.ofString "cannot redefine table " ++ key ++
      Bytes.ofString " that has already been explicitly defined"
  | .notTable key kind =>
    Bytes.ofString "key " ++ key ++ Bytes.ofString s!" should be a table, not a {kind.name}"
  | .secondTable key => Bytes.ofString "table " ++ key ++ Bytes.ofString " already exists"
  | .notArrayTable key kind =>
    Bytes.ofString s!"key {kind.name} already exists as a " ++ key ++
      Bytes.ofString ",  but should be an array table"

def TomlError.reason : TomlError → Bytes
  | .expectedNewline byte => Bytes.ofString s!"expected newline but got {showByte byte}"
  | .endAfterReturn => Bytes.ofString "windows new line expected"
  | .loneReturn => Bytes.ofString "windows new line should be \\r\\n"
  | .commentCharacter => Bytes.ofString "invalid character in comment"
  | .expectedKey => Bytes.ofString "expected key but found none"
  | .keyStart byte =>
    Bytes.ofString s!"invalid character at start of key: {byteText byte}"
  | .endAfterKey => Bytes.ofString "expected = after a key, but the document ends there"
  | .expectedCharacter char => Bytes.ofString s!"expected character {char}"
  | .endBeforeCharacter char =>
    Bytes.ofString s!"expected character {char} but the document ended here"
  | .expectedValue => Bytes.ofString "expected value, not eof"
  | .expectedWord word => Bytes.ofString s!"expected '{word}'"
  | .incompleteTable => Bytes.ofString "inline table is incomplete"
  | .incompleteArray => Bytes.ofString "array is incomplete"
  | .leadingComma => Bytes.ofString "array cannot start with comma"
  | .missingComma => Bytes.ofString "array elements must be separated by commas"
  | .string fault => Bytes.ofString fault.message
  | .number fault => Bytes.ofString fault.message
  | .moment fault => Bytes.ofString fault.message
  | .definition fault => fault.message

def TomlError.message (error : TomlError) : Bytes := Bytes.ofString "toml: " ++ error.reason

end Rematch.Config.Toml
