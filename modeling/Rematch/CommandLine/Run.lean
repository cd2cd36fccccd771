import Rematch.CommandLine.Lookup
import Rematch.CommandLine.Settings
import Rematch.CommandLine.Usage
import Rematch.Regex.Groups
import Rematch.Regex.Metrics
import Rematch.Text.Size

/-!
Runs of the program, from arguments and input to output. Logs and errors are written apart from the
output, and metrics only at the end of a run that succeeds.
-/

namespace Rematch.CommandLine

structure Invocation where
  arguments : List Bytes
  input : Bytes
  environment : List (String × Bytes)
  content? : Bytes → Option Bytes
  stamp : Log.Format → Bytes

structure Outcome where
  succeeded : Bool
  output : Bytes
  errors : Bytes
  crashed : Bool := false

structure Progress where
  pieces : List Bytes := []
  records : List Log.Record := []
  metrics : Metrics := {}
  failure? : Option Bytes := none
  /-- Whether the command needs more than memory can hold. -/
  crashed : Bool := false

namespace Progress

def output (progress : Progress) : Bytes := progress.pieces.reverse.flatten

def write (progress : Progress) (piece : Bytes) : Progress :=
  { progress with pieces := piece :: progress.pieces }

def log (progress : Progress) (records : List Log.Record) : Progress :=
  { progress with records := records.reverse ++ progress.records }

def fail (progress : Progress) (reason : Bytes) : Progress :=
  { progress with failure? := some reason }

end Progress

def inputLines (input : Bytes) : List Bytes × Bool :=
  let (lines, isCut) := Lines.fitting (Lines.splitRaw input)
  (lines.map Lines.dropReturn, isCut)

def searchLine (regex : Regex) (text : Bytes) (slots : Option (List Int)) : String :=
  match slots with
  | none => s!"{Quoted.encode text}\tno match\n"
  | some slots =>
    let last := regex.lastGroup slots
    let numbers := " ".intercalate (slots.map toString)
    s!"{Quoted.encode text}\t[{numbers}]" ++
      (if last.isEmpty then "" else s!"\tlast={last}") ++ "\n"

def slotCount (groups : Int) : Int := (2 * (groups + 1)).bmod (Nat.pow 2 64)

def fitsMemory (slots : Int) : Bool := 0 ≤ slots && slots ≤ Nat.pow 2 45

def searchText (regex : Regex) (anchor : Anchor) (groups : Int) (progress : Progress)
    (text : Bytes) : Progress :=
  if progress.crashed then progress
  else if !fitsMemory (slotCount groups) then { progress with crashed := true }
  else
    let slots := List.replicate (slotCount groups).toNat (0 : Int)
    let ended := regex.search text.toArray anchor slots.length
    let found := ended.result?.map (·.writeOver slots)
    let progress := { progress with metrics := progress.metrics.countSearch regex ended }
    (progress.log (ended.notices.reverse.map Notice.record)).write
      (Bytes.ofString (searchLine regex text found))

def withRegex (settings : Settings) (pattern : Bytes) (next : Regex → Progress → Progress) :
    Progress :=
  let compiled := Regex.compile
    { pattern
      native := !(settings.get "no-jit").toFlag
      maxThreads := (settings.get "max-threads").toInt }
  let progress : Progress := { metrics := Metrics.countCompilation {} compiled }
  match compiled with
  | .error error => progress.fail error.message
  | .ok regex => next regex (progress.log regex.compilationRecords)

def runSearch (settings : Settings) (pattern : Bytes) (texts : List Bytes) (input : Bytes) :
    Progress :=
  withRegex settings pattern fun regex progress =>
    let anchorName := (settings.get "anchor").toText
    match Anchor.ofName? anchorName with
    | none => progress.fail (Bytes.ofString (Anchor.unknown anchorName))
    | some anchor =>
      let asked := (settings.get "groups").toInt
      let groups : Int := if asked < 0 then regex.groups else asked
      let searchAll := List.foldl (searchText regex anchor groups) progress
      match texts, inputLines input with
      | [], (lines, false) => searchAll lines
      | [], (lines, true) => (searchAll lines).fail (Bytes.ofString Lines.tooLong)
      | texts, _ => searchAll texts

def engineLine (regex : Regex) : String :=
  match regex.engine with
  | .native compiled =>
    let code := Size.render compiled.size
    let stack := Size.render compiled.stack
    s!"engine: native, {code} code, {stack} stack per match\n"
  | .interpreter reason => s!"engine: interpreter ({reason.message})\n"

def runDump (settings : Settings) (pattern : Bytes) : Progress :=
  withRegex settings pattern fun regex progress =>
    progress.write (Bytes.ofString (String.join regex.listing ++ engineLine regex ++
      String.join (regex.namedGroups.map fun (group, name) => s!"group {group}: {name}\n")))

def runEncode (pattern : Bytes) : Progress :=
  match Encoding.encode pattern with
  | .ok encoded => Progress.write {} (Bytes.ofString (Quoted.encodeAscii encoded ++ "\n"))
  | .error error => Progress.fail {} (PatternError.encoding error).message

def runHelp (topics : List Bytes) : Progress :=
  match lookup topics with
  | .ok (verb, _) => Progress.write {} (Bytes.ofString verb.helpText)
  | .error _ =>
    let shown := ((topics.map Quoted.encodeRaw).intersperse [0x20]).flatten
    Progress.write {} (Bytes.ofString "Unknown help topic [" ++ shown ++
      Bytes.ofString ("]\n" ++ Verb.program.usage false))

def Verb.run (verb : Verb) (settings : Settings) (arguments : List Bytes) (input : Bytes) :
    Progress :=
  match verb, arguments with
  | .search, pattern :: texts => runSearch settings pattern texts input
  | .dump, pattern :: _ => runDump settings pattern
  | .encode, pattern :: _ => runEncode pattern
  | .help, topics => runHelp topics
  | _, _ => {}

def Verb.arityFault? (verb : Verb) (arguments : List Bytes) : Option String :=
  let given := arguments.length
  match verb.arity, arguments with
  | .none, word :: _ => some s!"unknown command {Quoted.encode word} for \"{verb.path}\""
  | .exactly count, _ =>
    if given = count then none else some s!"accepts {count} arg(s), received {given}"
  | .atLeast count, _ =>
    if count ≤ given then none
    else some s!"requires at least {count} arg(s), only received {given}"
  | _, _ => none

def errorLine (reason : Bytes) : Bytes :=
  Bytes.ofString "Error: " ++ reason ++ Bytes.ofString "\n"

def Outcome.refused (reason : Bytes) : Outcome :=
  { succeeded := false, output := [], errors := errorLine reason }

def Outcome.written (output : String) : Outcome :=
  { succeeded := true, output := Bytes.ofString output, errors := [] }

def Setup.finish (setup : Setup) (stamp : Log.Format → Bytes) (progress : Progress) : Outcome :=
  let shown := progress.records.reverse.filter fun record =>
    setup.level.severity ≤ record.level.severity
  let logs := shown.flatMap (setup.format.line (stamp setup.format))
  match progress.failure? with
  | some reason =>
    { succeeded := false
      output := progress.output
      errors := logs ++ errorLine reason
      crashed := progress.crashed }
  | none =>
    let metrics :=
      if (setup.settings.get "metrics").toFlag then progress.metrics.render else ""
    { succeeded := true
      output := progress.output ++ Bytes.ofString metrics
      errors := logs
      crashed := progress.crashed }

def Invocation.runVerb (invocation : Invocation) (verb : Verb) (arguments : List Bytes) : Outcome :=
  match parse (verb.helpFlag :: verb.flags) arguments with
  | .error error => .refused error.message
  | .ok parsed =>
    if parsed.value? verb.helpFlag = some (Bytes.ofString "true") ∨ !verb.isRunnable then
      .written verb.helpText
    else
      match verb.arityFault? parsed.arguments with
      | some fault => .refused (Bytes.ofString fault)
      | none =>
        match setUp parsed invocation.environment invocation.content? with
        | .error error => .refused error.message
        | .ok setup =>
          setup.finish invocation.stamp
            (verb.run setup.settings parsed.arguments invocation.input)

def Invocation.run (invocation : Invocation) : Outcome :=
  match lookup invocation.arguments with
  | .error word =>
    { succeeded := false
      output := []
      errors := errorLine (Bytes.ofString (unknownCommand word)) ++
        Bytes.ofString s!"Run '{Verb.program.path} --help' for usage.\n" }
  | .ok (verb, arguments) => invocation.runVerb verb arguments

def request? (arguments : List Bytes) : Option (Verb × Parsed) :=
  match lookup arguments with
  | .error _ => none
  | .ok (verb, rest) =>
    match parse (verb.helpFlag :: verb.flags) rest with
    | .error _ => none
    | .ok parsed => some (verb, parsed)

def configFile? (arguments : List Bytes) : Option Bytes :=
  (request? arguments).bind fun (_, parsed) => configPath? parsed

def readsInput (arguments : List Bytes) : Bool :=
  (request? arguments).any fun (verb, parsed) => verb = .search && parsed.arguments.length = 1

end Rematch.CommandLine
