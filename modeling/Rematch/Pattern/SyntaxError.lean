import Rematch.Text.Bytes

/-!
Why a pattern cannot be read. An error holds the part of the pattern that is to blame.
-/

namespace Rematch

inductive SyntaxFault where
  | invalidRange
  | invalidEscape
  | invalidGroupName
  | invalidGroup
  | nestedRepetition
  | invalidCount
  | invalidUtf8
  | missingBracket
  | missingParenthesis
  | missingOperand
  | trailingBackslash
  | unexpectedParenthesis
  | tooDeep
  | tooLarge
  deriving DecidableEq

def SyntaxFault.message : SyntaxFault → String
  | .invalidRange => "invalid character class range"
  | .invalidEscape => "invalid escape sequence"
  | .invalidGroupName => "invalid named capture"
  | .invalidGroup => "invalid or unsupported Perl syntax"
  | .nestedRepetition => "invalid nested repetition operator"
  | .invalidCount => "invalid repeat count"
  | .invalidUtf8 => "invalid UTF-8"
  | .missingBracket => "missing closing ]"
  | .missingParenthesis => "missing closing )"
  | .missingOperand => "missing argument to repetition operator"
  | .trailingBackslash => "trailing backslash at end of expression"
  | .unexpectedParenthesis => "unexpected )"
  | .tooDeep => "expression nests too deeply"
  | .tooLarge => "expression too large"

structure SyntaxError where
  fault : SyntaxFault
  part : Bytes
  deriving DecidableEq

def SyntaxError.message (error : SyntaxError) : Bytes :=
  Bytes.ofString s!"error parsing regexp: {error.fault.message}: `" ++ error.part ++ [0x60]

end Rematch
