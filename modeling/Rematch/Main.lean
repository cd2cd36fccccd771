import Rematch.CommandLine.Run
import Std.Time.Format

/-!
The program: it reads its arguments, its environment, the settings file and the input, and writes
what a run leaves.
-/

namespace Rematch.CommandLine

def readVariable? (entry : Bytes) : Option (String × Bytes) := do
  let (name, value) ← Bytes.cut? [Bytes.ascii '='] entry
  return (← Bytes.toString? name, value)

def readEnvironment : IO (List (String × Bytes)) := do
  let entries ← IO.FS.readBinFile "/proc/self/environ"
  return (entries.toList.splitOn 0).filterMap readVariable?

def readSettings (path : Option Bytes) : IO (Option Bytes) := do
  match path.bind Bytes.toString? with
  | none => return none
  | some name =>
    try
      return some (← IO.FS.readBinFile name).toList
    catch _ => return none

def readClock : IO (Log.Format → Bytes) := do
  let now ← Std.Time.PlainDateTime.now
  let time := now.format "uuuu-MM-dd'T'HH:mm:ss.SSS"
  let day := Digits.padLeft ' ' 2 (now.format "d")
  return fun
    | .colored => Bytes.ofString (now.format "MMM " ++ day ++ now.format " HH:mm:ss.SSS")
    | .pairs => Bytes.ofString s!"time={time}"
    | .json => Bytes.ofString s!"\"time\":\"{time}\""

def readInput (arguments : List Bytes) : IO Bytes := do
  if readsInput arguments then return (← (← IO.getStdin).readBinToEnd).toList else return []

end Rematch.CommandLine

open Rematch CommandLine in
def main (arguments : List String) : IO UInt32 := do
  let arguments := arguments.map Bytes.ofString
  let settings ← readSettings (configFile? arguments)
  let invocation : Invocation :=
    { arguments
      input := ← readInput arguments
      environment := ← readEnvironment
      content? := fun _ => settings
      stamp := ← readClock }
  let outcome := invocation.run
  (← IO.getStdout).write ⟨outcome.output.toArray⟩
  (← IO.getStderr).write ⟨outcome.errors.toArray⟩
  return if outcome.crashed then 2 else if outcome.succeeded then 0 else 1
