import Rematch.Text.Bytes

/-!
Log records: a level, a message, and attributes in the order they were given.
-/

namespace Rematch.Log

inductive Level where
  | debug
  | info
  | warn
  | error
  deriving DecidableEq

namespace Level

def name : Level → String
  | .debug => "DEBUG"
  | .info => "INFO"
  | .warn => "WARN"
  | .error => "ERROR"

def severity : Level → Int
  | .debug => -4
  | .info => 0
  | .warn => 4
  | .error => 8

end Level

inductive Value where
  | number (value : Int)
  | flag (value : Bool)
  | text (bytes : Bytes)

def Value.render : Value → Bytes
  | .number value => Bytes.ofString (toString value)
  | .flag value => Bytes.ofString (if value then "true" else "false")
  | .text bytes => bytes

structure Record where
  level : Level
  message : String
  attributes : List (String × Value)

def Record.debug (message : String) (attributes : List (String × Value)) : Record :=
  ⟨.debug, message, attributes⟩

def Record.fields (record : Record) : List Bytes :=
  Bytes.ofString record.level.name :: Bytes.ofString record.message ::
    record.attributes.flatMap fun (key, value) => [Bytes.ofString key, value.render]

end Rematch.Log
