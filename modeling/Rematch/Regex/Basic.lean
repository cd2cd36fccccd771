import Rematch.Matching.Search
import Rematch.Native.Compiled
import Rematch.Pattern.Compiled
import Rematch.Regex.Anchor

/-!
Regular expressions that are ready to match: an analysed automaton, the engine that computes its
closures, and the names of its groups.
-/

namespace Rematch

structure Options where
  pattern : Bytes
  native : Bool := true
  /-- How many threads may be alive at once; zero sets no bound. -/
  maxThreads : Int := 0

def minThreads : Nat := 2

inductive OptionsError where
  | malformedPattern
  | negativeThreads
  | tooFewThreads (count : Int)
  deriving DecidableEq

def OptionsError.message : OptionsError → String
  | .malformedPattern => "pattern is not valid UTF-8"
  | .negativeThreads => "max threads cannot be negative"
  | .tooFewThreads count => s!"max threads must be 0 or at least {minThreads}, got {count}"

def Options.fault? (options : Options) : Option OptionsError :=
  if !Utf8.valid options.pattern then some .malformedPattern
  else if options.maxThreads < 0 then some .negativeThreads
  else if 0 < options.maxThreads ∧ options.maxThreads < minThreads then
    some (.tooFewThreads options.maxThreads)
  else none

inductive Interpreted where
  | disabled
  | closed
  | refused (error : Native.EmissionError)

def Interpreted.message : Interpreted → String
  | .disabled => "jit: not compiled: disabled"
  | .closed => "jit: not compiled: closed"
  | .refused error => Native.notCompiled error

inductive Engine where
  | native (compiled : Native.Compiled)
  | interpreter (reason : Interpreted)

namespace Engine

def choose (native : Bool) (analysis : Analysis) : Engine :=
  if native then
    match Native.compile analysis.automaton analysis with
    | .ok compiled => .native compiled
    | .error error => .interpreter (.refused error)
  else .interpreter .disabled

def compiled? : Engine → Option Native.Compiled
  | .native compiled => some compiled
  | .interpreter _ => none

def reason? : Engine → Option Interpreted
  | .native _ => none
  | .interpreter reason => some reason

def name : Engine → String
  | .native _ => "native"
  | .interpreter _ => "interpreter"

def close : Engine → Engine
  | .native _ => .interpreter .closed
  | .interpreter reason => .interpreter reason

end Engine

structure Regex where
  pattern : Bytes
  analysis : Analysis
  names : List String
  maxThreads : Nat
  engine : Engine

inductive RegexError where
  | options (error : OptionsError)
  | pattern (source : Bytes) (error : PatternError)
  | automaton (source : Bytes) (error : AutomatonError)

def RegexError.compiling (source fault : Bytes) : Bytes :=
  Bytes.ofString s!"rejit: compiling {Quoted.encode source}: " ++ fault

def RegexError.message : RegexError → Bytes
  | .options error => Bytes.ofString s!"invalid options: {error.message}"
  | .pattern source error => compiling source error.message
  | .automaton source error => compiling source (Bytes.ofString error.message)

namespace Regex

def compile (options : Options) : Except RegexError Regex :=
  match options.fault? with
  | some fault => .error (.options fault)
  | none =>
    match CompiledPattern.compile options.pattern with
    | .error error => .error (.pattern options.pattern error)
    | .ok compiled =>
      match compiled.analyze with
      | .error error => .error (.automaton options.pattern error)
      | .ok analysis => .ok
        { pattern := options.pattern
          analysis
          names := compiled.names
          maxThreads := options.maxThreads.toNat
          engine := .choose options.native analysis }

variable (regex : Regex)

def compilationRecords : List Log.Record :=
  let analysis := regex.analysis
  [.debug "pattern compiled" [("pattern", .text regex.pattern), ("insts", .number analysis.size),
      ("blocks", .number analysis.blocks.length), ("extensions", .number analysis.extensions),
      ("backrefs", .flag analysis.hasBackrefs)],
    match regex.engine with
    | .native compiled => compiled.installed
    | .interpreter reason =>
      .debug "using interpreter"
        [("pattern", .text regex.pattern), ("reason", .text reason.message)]]

def groups : Nat := regex.names.length - 1

/-- The least number of capture slots of a search: backreferences need the slots of their groups. -/
def minSlots : Nat := max 2 (2 * (regex.analysis.maxBackrefGroup + 1)).toNat

def runner (regex : Regex) : Runner :=
  match regex.engine with
  | .native compiled => compiled.runner
  | .interpreter _ => regex.analysis.interpreter

def search (text : Text) (anchor : Anchor) (slots : Nat) : Scheduler :=
  ((Scheduler.new regex.analysis.size regex.maxThreads).init text regex.analysis.start anchor.flags
    (max slots regex.minSlots)).complete regex.runner

def close (regex : Regex) : Regex := { regex with engine := regex.engine.close }

def codeSize : Nat := (regex.engine.compiled?.map (·.size)).getD 0

def stackSize : Nat := (regex.engine.compiled?.map (·.stack)).getD 0

def listing : List String :=
  [s!"pattern {Quoted.encode regex.pattern}, {regex.groups} groups\n" ++
      regex.analysis.automaton.render,
    regex.analysis.render]

end Regex

end Rematch
