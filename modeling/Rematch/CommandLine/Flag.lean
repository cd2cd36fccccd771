import Rematch.Config.Value
import Rematch.Text.Quoted

/-!
Flags of a command line. A flag is written `--name value` or `--name=value`, and one that is on or
off also `--name` alone; flags and other arguments may be mixed, and `--` ends the flags.
-/

namespace Rematch.CommandLine

inductive FlagKind where
  | text
  | number
  | switch
  deriving DecidableEq

structure Flag where
  name : String
  letter : Option Char := none
  kind : FlagKind
  initial : String := ""
  usage : String
  deriving DecidableEq

inductive ValueFault where
  | number (error : NumeralError)
  | switch
  deriving DecidableEq

inductive FlagError where
  | badSyntax (argument : Bytes)
  | unknown (name : Bytes)
  | unknownLetter (letters : Bytes)
  | missingValue (flag : Flag)
  | invalidValue (flag : Flag) (value : Bytes) (fault : ValueFault)
  deriving DecidableEq

def Flag.spelling (flag : Flag) : String :=
  match flag.letter with
  | some letter => s!"-{letter}, --{flag.name}"
  | none => s!"--{flag.name}"

def ValueFault.message (value : Bytes) : ValueFault → String
  | .number error => s!"strconv.ParseInt: parsing {Quoted.encode value}: {error.message}"
  | .switch => s!"strconv.ParseBool: parsing {Quoted.encode value}: invalid syntax"

/-- The code point that stands for a first letter in a message: the first byte of the UTF-8 form of
the code point with the letter's number. -/
def letterCode (letters : Bytes) : Nat :=
  ((Utf8.encode (letters.headD 0).toNat).headD 0).toNat

def FlagError.message : FlagError → Bytes
  | .badSyntax argument => Bytes.ofString "bad flag syntax: " ++ argument
  | .unknown name => Bytes.ofString "unknown flag: --" ++ name
  | .unknownLetter letters =>
    Bytes.ofString s!"unknown shorthand flag: {Quoted.encodeChar (letterCode letters)} in -" ++
      letters
  | .missingValue flag => Bytes.ofString s!"flag needs an argument: --{flag.name}"
  | .invalidValue flag value fault =>
    let spelling := Quoted.encode (Bytes.ofString flag.spelling)
    Bytes.ofString
      s!"invalid argument {Quoted.encode value} for {spelling} flag: {fault.message value}"

namespace Flag

def named? (flags : List Flag) (name : Bytes) : Option Flag :=
  flags.find? fun flag => Bytes.ofString flag.name == name

def lettered? (flags : List Flag) (letter : UInt8) : Option Flag :=
  flags.find? fun flag => flag.letter.any fun own => Bytes.ascii own == letter

def normalize (flag : Flag) (value : Bytes) : Except FlagError Bytes :=
  match flag.kind with
  | .text => .ok value
  | .number =>
    match Integer.parse value with
    | .ok number => .ok (Bytes.ofString (toString number))
    | .error error => .error (.invalidValue flag value (.number error))
  | .switch =>
    match Config.truth? value with
    | some isOn => .ok (Bytes.ofString (if isOn then "true" else "false"))
    | none => .error (.invalidValue flag value .switch)

end Flag

/-- Arguments that were read: the flags that were given, later ones first, and all else. -/
structure Parsed where
  values : List (String × Bytes) := []
  arguments : List Bytes := []

namespace Parsed

def value? (parsed : Parsed) (flag : Flag) : Option Bytes := parsed.values.lookup flag.name

def set (parsed : Parsed) (flag : Flag) (value : Bytes) : Except FlagError Parsed :=
  (flag.normalize value).map fun value =>
    { parsed with values := (flag.name, value) :: parsed.values }

def add (parsed : Parsed) (arguments : List Bytes) : Parsed :=
  { parsed with arguments := parsed.arguments ++ arguments }

end Parsed

def dash : UInt8 := Bytes.ascii '-'

def isForTests (letters : Bytes) : Bool := (Bytes.ofString "test.").isPrefixOf letters

def readLetters (flags : List Flag) : Parsed → Bytes → Except FlagError Parsed
  | parsed, [] => .ok parsed
  | parsed, letter :: rest =>
    if isForTests (letter :: rest) then .ok parsed
    else
      match Flag.lettered? flags letter with
      | none => .error (.unknownLetter (letter :: rest))
      | some flag =>
        if 1 < rest.length ∧ rest.head? = some (Bytes.ascii '=') then
          parsed.set flag (rest.drop 1)
        else do readLetters flags (← parsed.set flag (Bytes.ofString "true")) rest

def splitName (argument : Bytes) : Bytes × Option Bytes :=
  match Bytes.cut? [Bytes.ascii '='] argument with
  | some (name, value) => (name, some value)
  | none => (argument, none)

def isBadName (argument : Bytes) : Bool :=
  argument.isEmpty || argument.head? = some dash || argument.head? = some (Bytes.ascii '=')

def readArguments (flags : List Flag) : Parsed → List Bytes → Except FlagError Parsed
  | parsed, [] => .ok parsed
  | parsed, argument :: rest =>
    match argument with
    | first :: second :: letters =>
      if first ≠ dash then readArguments flags (parsed.add [argument]) rest
      else if second ≠ dash then do
        readArguments flags (← readLetters flags parsed (second :: letters)) rest
      else if letters.isEmpty then .ok (parsed.add rest)
      else if isBadName letters then .error (.badSyntax argument)
      else
        match Flag.named? flags (splitName letters).1, (splitName letters).2 with
        | none, _ => .error (.unknown (splitName letters).1)
        | some flag, some value => do readArguments flags (← parsed.set flag value) rest
        | some flag, none =>
          if flag.kind = .switch then do
            readArguments flags (← parsed.set flag (Bytes.ofString "true")) rest
          else
            match rest with
            | [] => .error (.missingValue flag)
            | value :: rest => do readArguments flags (← parsed.set flag value) rest
    | short => readArguments flags (parsed.add [short]) rest

def parse (flags : List Flag) (arguments : List Bytes) : Except FlagError Parsed :=
  readArguments flags {} arguments

end Rematch.CommandLine
