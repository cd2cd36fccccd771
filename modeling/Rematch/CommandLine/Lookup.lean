import Rematch.CommandLine.Verb
import Rematch.Text.Distance

/-!
Finding the command among arguments. Flags may stand before the command, so a flag that takes a
value takes the argument after it; a flag that is not known counts as one.
-/

namespace Rematch.CommandLine

def takesNext (flags : List Flag) (argument : Bytes) : Bool :=
  match argument with
  | first :: second :: letters =>
    first = dash && !argument.contains (Bytes.ascii '=') &&
      if second = dash then !(Flag.named? flags letters).any (·.kind = .switch)
      else letters.isEmpty && !(Flag.lettered? flags second).any (·.kind = .switch)
  | _ => false

def endsFlags (argument : Bytes) : Bool := argument == [dash, dash]

def words (flags : List Flag) : List Bytes → List Bytes
  | [] => []
  | argument :: rest =>
    if endsFlags argument then []
    else if takesNext flags argument then
      match rest with
      | [] | [_] => []
      | _ :: next :: rest => words flags (next :: rest)
    else if argument.isEmpty || argument.head? = some dash then words flags rest
    else argument :: words flags rest

def eraseWord (flags : List Flag) (word : Bytes) : List Bytes → List Bytes
  | [] => []
  | argument :: rest =>
    if endsFlags argument then argument :: rest
    else if takesNext flags argument then
      match rest with
      | [] => [argument]
      | value :: rest => argument :: value :: eraseWord flags word rest
    else if argument == word then rest
    else argument :: eraseWord flags word rest

def Verb.child? (verb : Verb) (name : Bytes) : Option Verb :=
  verb.children.find? fun child => Bytes.ofString child.name == name

def descend : Nat → Verb → List Bytes → Verb × List Bytes
  | 0, verb, arguments => (verb, arguments)
  | fuel + 1, verb, arguments =>
    match (words verb.flags arguments).head? with
    | none => (verb, arguments)
    | some word =>
      match verb.child? word with
      | none => (verb, arguments)
      | some child => descend fuel child (eraseWord verb.flags word arguments)

def suggestionDistance : Nat := 2

def Verb.resembles (verb : Verb) (word : Bytes) : Bool :=
  let name := Bytes.ofString verb.name
  let word := Loose.lower word
  Distance.edits word name ≤ suggestionDistance || word.isPrefixOf name

def suggestions (word : Bytes) : List Verb :=
  Verb.program.children.filter fun verb => verb ≠ .help && verb.resembles word

def unknownCommand (word : Bytes) : String :=
  s!"unknown command {Quoted.encode word} for \"{Verb.program.path}\"" ++
    match suggestions word with
    | [] => ""
    | verbs =>
      "\n\nDid you mean this?\n" ++ String.join (verbs.map fun verb => s!"\t{verb.name}\n")

def lookup (arguments : List Bytes) : Except Bytes (Verb × List Bytes) :=
  let (verb, rest) := descend arguments.length .program arguments
  match verb, words verb.flags rest with
  | .program, word :: _ => .error word
  | verb, _ => .ok (verb, rest)

end Rematch.CommandLine
