import Rematch.Regex.Basic

/-!
Metrics: how many patterns were compiled, by result, how many searches were run, by engine, and how
many closures compiled code had to leave to the interpreter.
-/

namespace Rematch

structure Metrics where
  compileErrors : Nat := 0
  compiledInterpreted : Nat := 0
  compiledNative : Nat := 0
  interpretedSearches : Nat := 0
  nativeSearches : Nat := 0
  fallbacks : Nat := 0

structure MetricFamily where
  name : String
  help : String
  /-- The label and its value, when the count has one, and the count. -/
  counts : List (Option (String × String) × Nat)

namespace Metrics

/-- Counts a compilation. Options that are refused are no compilation. -/
def countCompilation (metrics : Metrics) : Except RegexError Regex → Metrics
  | .error (.options _) => metrics
  | .error _ => { metrics with compileErrors := metrics.compileErrors + 1 }
  | .ok regex =>
    match regex.engine with
    | .native _ => { metrics with compiledNative := metrics.compiledNative + 1 }
    | .interpreter _ => { metrics with compiledInterpreted := metrics.compiledInterpreted + 1 }

def countSearch (metrics : Metrics) (regex : Regex) (ended : Scheduler) : Metrics :=
  match regex.engine with
  | .native _ =>
    { metrics with
      nativeSearches := metrics.nativeSearches + 1
      fallbacks := metrics.fallbacks + ended.notices.countP Notice.isOverflow }
  | .interpreter _ => { metrics with interpretedSearches := metrics.interpretedSearches + 1 }

def labelled (label : String) (counts : List (String × Nat)) :
    List (Option (String × String) × Nat) :=
  (counts.filter fun (_, count) => 0 < count).map fun (value, count) => (some (label, value), count)

def families (metrics : Metrics) : List MetricFamily :=
  [{ name := "rejit_compile_total"
     help := "Patterns compiled, by resulting engine or error."
     counts := labelled "result" [("error", metrics.compileErrors),
      ("interpreter", metrics.compiledInterpreted), ("native", metrics.compiledNative)] },
    { name := "rejit_match_total"
      help := "Match calls, by engine."
      counts := labelled "engine" [("interpreter", metrics.interpretedSearches),
        ("native", metrics.nativeSearches)] },
    { name := "rejit_native_fallback_total"
      help := "Native closures rerun by the interpreter after an outbox overflow."
      counts := [(none, metrics.fallbacks)] }].filter fun family => !family.counts.isEmpty

end Metrics

namespace MetricFamily

def line (name : String) : Option (String × String) × Nat → String
  | (none, count) => s!"{name} {count}\n"
  | (some (label, value), count) => s!"{name}\x7b{label}=\"{value}\"\x7d {count}\n"

def render (family : MetricFamily) : String :=
  s!"# HELP {family.name} {family.help}\n# TYPE {family.name} counter\n" ++
    String.join (family.counts.map (line family.name))

end MetricFamily

def Metrics.render (metrics : Metrics) : String :=
  String.join (metrics.families.map MetricFamily.render)

end Rematch
