import Rematch.CommandLine.Verb
import Rematch.Config.File
import Rematch.Log.Format

/-!
Settings of a run. A setting comes from its flag when that is given, else from the environment, else
from the settings file, else it has its initial value.
-/

namespace Rematch.CommandLine

structure Settings where
  parsed : Parsed
  environment : List (String × Bytes)
  file : Config.Table

def variableName (name : String) : String :=
  "REJIT_" ++ String.ofList (name.toList.map fun char => if char = '-' then '_' else char.toUpper)

namespace Settings

def fromEnvironment? (settings : Settings) (flag : Flag) : Option Bytes :=
  (settings.environment.lookup (variableName flag.name)).filter (!·.isEmpty)

def fromFile? (settings : Settings) (flag : Flag) : Option Config.Value :=
  (settings.file.get? (Bytes.ofString flag.name)).filter (!·.isNull)

def ofFlag (settings : Settings) (flag : Flag) : Config.Value :=
  ((settings.parsed.value? flag).map .text).getD
    (((settings.fromEnvironment? flag).map .text).getD
      ((settings.fromFile? flag).getD (.text (Bytes.ofString flag.initial))))

def get (settings : Settings) (name : String) : Config.Value :=
  match (searchFlags ++ globalFlags).find? (·.name = name) with
  | some flag => settings.ofFlag flag
  | none => .null

end Settings

def configPath? (parsed : Parsed) : Option Bytes :=
  (parsed.values.lookup "config").filter (!·.isEmpty)

def levelNamed? (name : Bytes) : Option Log.Level :=
  match Bytes.toString? (Loose.normalize name) with
  | some "debug" => some .debug
  | some "info" => some .info
  | some "warn" => some .warn
  | some "error" => some .error
  | _ => none

def formatNamed? (name : Bytes) : Option Log.Format :=
  match Bytes.toString? (Loose.normalize name) with
  | some "tint" | some "" => some .colored
  | some "text" | some "logfmt" => some .pairs
  | some "json" => some .json
  | _ => none

inductive SetupError where
  | config (error : Config.FileError)
  | level (name : Bytes)
  | format (name : Bytes)

def SetupError.message : SetupError → Bytes
  | .config error => Bytes.ofString "reading config: " ++ error.message
  | .level name =>
    Bytes.ofString
      s!"invalid log-level {Quoted.encode name}: expected debug, info, warn or error"
  | .format name =>
    Bytes.ofString s!"invalid log-fmt {Quoted.encode name}: expected tint, text or json"

structure Setup where
  settings : Settings
  level : Log.Level
  format : Log.Format

def setUp (parsed : Parsed) (environment : List (String × Bytes))
    (content? : Bytes → Option Bytes) : Except SetupError Setup := do
  let file ← match configPath? parsed with
    | none => pure []
    | some path => (Config.readFile path environment (content? path)).mapError .config
  let settings : Settings := { parsed, environment, file }
  let levelName := (settings.get "log-level").toText
  let formatName := (settings.get "log-fmt").toText
  match levelNamed? levelName, formatNamed? formatName with
  | none, _ => .error (.level levelName)
  | some _, none => .error (.format formatName)
  | some level, some format => return { settings, level, format }

end Rematch.CommandLine
