import Rematch.Text.Bytes

/-!
The tokens of a text: signs, properties of nodes, directives and scalars.
-/

namespace Rematch.Config.Yaml

/-- A sign, which is an indicator of the text or follows from its indentation. -/
inductive Sign where
  | streamEnd
  | documentStart
  | documentEnd
  | blockSequenceStart
  | blockMappingStart
  | blockEnd
  | flowSequenceStart
  | flowSequenceEnd
  | flowMappingStart
  | flowMappingEnd
  | blockEntry
  | flowEntry
  | key
  | value
  deriving DecidableEq

inductive Lexeme where
  | sign (sign : Sign)
  | version (major minor : Nat)
  | handle (name expansion : Bytes)
  | anchor (name : Bytes)
  | alias_ (name : Bytes)
  | tag (handle suffix : Bytes)
  | scalar (text : Bytes) (isPlain : Bool)

structure Token where
  lexeme : Lexeme
  line : Nat

namespace Token

def sign? (token : Token) : Option Sign :=
  match token.lexeme with
  | .sign sign => some sign
  | _ => none

def is (token : Token) (sign : Sign) : Bool := token.sign? = some sign

def isAny (token : Token) (signs : List Sign) : Bool := signs.any token.is

def isDirective (token : Token) : Bool :=
  match token.lexeme with
  | .version .. | .handle .. => true
  | _ => false

end Token

end Rematch.Config.Yaml
