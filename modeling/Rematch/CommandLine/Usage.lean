import Rematch.CommandLine.Verb

/-!
Help texts: how a command is used, the commands below it, and its flags in columns.
-/

namespace Rematch.CommandLine

def Flag.column (flag : Flag) : String :=
  (match flag.letter with
    | some letter => s!"  -{letter}, --{flag.name}"
    | none => s!"      --{flag.name}") ++
  match flag.kind with
  | .text => " string"
  | .number => " int"
  | .switch => ""

def Flag.hasInitial (flag : Flag) : Bool :=
  match flag.kind with
  | .text => !flag.initial.isEmpty
  | .number => flag.initial ≠ "0"
  | .switch => flag.initial ≠ "false"

def Flag.explanation (flag : Flag) : String :=
  if !flag.hasInitial then flag.usage
  else if flag.kind = .text then
    s!"{flag.usage} (default {Quoted.encode (Bytes.ofString flag.initial)})"
  else s!"{flag.usage} (default {flag.initial})"

def sortFlags (flags : List Flag) : List Flag :=
  flags.mergeSort fun first second => decide (first.name ≤ second.name)

def flagLines (flags : List Flag) : List String :=
  let width := ((flags.map (·.column.length)).max?.getD 0) + 3
  (sortFlags flags).map fun flag => Digits.padRight width flag.column ++ flag.explanation

def helpSection (title : String) (lines : List String) : String :=
  if lines.isEmpty then "" else s!"\n\n{title}:\n" ++ "\n".intercalate lines

namespace Verb

def nameWidth : Nat := 11

def callLines (verb : Verb) : List String :=
  (if verb.isRunnable then
    [s!"  {verb.path}{verb.argumentsShown}" ++ if verb = .script .bash then "" else " [flags]"]
  else []) ++
  if verb.children.isEmpty then [] else [s!"  {verb.path} [command]"]

def childLines (verb : Verb) : List String :=
  (verb.children.mergeSort fun first second => decide (first.name ≤ second.name)).map fun child =>
    s!"  {Digits.padRight nameWidth child.name} {child.summary}"

/-- How a command is used. The flag that asks for help is only listed when it is defined. -/
def usage (verb : Verb) (hasHelp : Bool) : String :=
  let help := if hasHelp then [verb.helpFlag] else []
  let (own, inherited) :=
    if verb = .program then (help ++ globalFlags, []) else (help ++ verb.ownFlags, globalFlags)
  "Usage:\n" ++ "\n".intercalate verb.callLines ++
    helpSection "Available Commands" verb.childLines ++
    helpSection "Flags" (flagLines own) ++
    helpSection "Global Flags" (flagLines inherited) ++
    (if verb.children.isEmpty then ""
      else s!"\n\nUse \"{verb.path} [command] --help\" for more information about a command.") ++
    "\n"

def trimEnd (text : String) : String :=
  String.ofList (text.toList.reverse.dropWhile (· = '\n')).reverse

def helpText (verb : Verb) : String := s!"{trimEnd verb.description}\n\n{verb.usage true}"

end Verb

end Rematch.CommandLine
