import Rematch.Proofs.Matching.Preference
import Rematch.Regex.Basic

/-!
Searches of regular expressions are searches of their automata, whichever engine computes the
closures: compiled code notes when its outbox was too small and differs in nothing else.
-/

namespace Rematch

variable {q : Query} {o rn : Runner} {s s' : Search}

/-- Two runners compute the same closures, whatever they note besides. -/
def Runner.Alike (runner other : Runner) : Prop :=
  ∀ sched entry, (runner sched entry).events = (other sched entry).events ∧
    (runner sched entry).scope = (other sched entry).scope

theorem Runner.Alike.orderly (alike : rn.Alike o) (ord : o.Orderly) : rn.Orderly := by
  intro s e work
  rw [(alike s e).1, (alike s e).2]
  exact ord s e work

theorem Search.Step.congr (alike : rn.Alike o) (step : s.Step rn q s') : s.Step o q s' := by
  cases step with
  | postpone feq delayed => exact .postpone feq delayed
  | @close t _ _ _ _ _ sched feq due beg abs owned =>
    obtain ⟨events, scope⟩ := alike sched t.entry
    rw [events] at abs
    rw [scope]
    exact .close feq due beg abs owned
  | advance feq unfinished seeded => exact .advance feq unfinished seeded

theorem Search.Reaches.congr (alike : rn.Alike o) (reached : s.Reaches rn q s') :
    s.Reaches o q s' :=
  Relation.ReflTransGen.mono (fun _ _ step => Search.Step.congr alike step) _ _ reached

namespace Regex

variable {opt : Options} {re : Regex} {g : Graph}
variable {an : Anchor} {compiled : CompiledPattern} {sl : Nat} {t : Text}

/-- The closures of a regular expression are those of a valid automaton, whatever computes them. -/
structure Runs (regex : Regex) (graph : Graph) : Prop where
  valid : graph.Valid
  analysis_eq : regex.analysis = graph.summary
  code_eq : ∀ code, regex.engine = .native code → code.analysis = graph.summary

theorem Runs.alike (runs : re.Runs g) : re.runner.Alike g.summary.interpreter := by
  intro s e
  unfold runner
  cases engine : re.engine with
  | interpreter => simp [runs.analysis_eq]
  | native c =>
    simp only [Native.Compiled.runner, Analysis.interpreter, runs.code_eq c engine]
    split <;> exact ⟨rfl, rfl⟩

theorem exists_regex (wf : Utf8.valid opt.pattern = true) (unb : opt.maxThreads = 0)
    (got : CompiledPattern.compile opt.pattern = .ok compiled) {an : Analysis}
    (analyzed : compiled.analyze = .ok an) : ∃ re, compile opt = .ok re := by
  have faultless : opt.fault? = none := by simp [Options.fault?, wf, unb]
  simp only [compile, faultless, got, analyzed]
  exact ⟨_, rfl⟩

theorem exists_runs (made : compile opt = .ok re) :
    ∃ compiled, CompiledPattern.compile opt.pattern = .ok compiled ∧
      re.Runs compiled.toGraph ∧ re.maxThreads = opt.maxThreads.toNat ∧
      re.names = compiled.names := by
  unfold compile at made
  split at made
  · simp at made
  split at made
  · simp at made
  next compiled got =>
  split at made
  · simp at made
  next an acc =>
  cases made
  obtain ⟨ok, rfl⟩ := Graph.analyze_eq_ok acc
  refine ⟨compiled, got, ⟨ok, rfl, fun c engine => ?_⟩, rfl, rfl⟩
  unfold Engine.choose at engine
  split at engine
  · split at engine
    · next native =>
      cases engine
      unfold Native.compile Except.map at native
      split at native
      · simp at native
      · rw [← Except.ok.inj native]
    · simp at engine
  · simp at engine

def asks (regex : Regex) (text : Text) (anchor : Anchor) (slots : Nat) : Query :=
  ⟨text, anchor.flags, max slots regex.minSlots, regex.analysis.start, 0⟩

theorem Runs.search_reaches (runs : re.Runs g) (t : Text) (an : Anchor) (sl : Nat) :
    let q : Query := { re.asks t an sl with maxThreads := re.maxThreads }
    ∃ z, (Search.initial q).Reaches g.summary.interpreter q z ∧
      z.isDone q = true ∧ z.front.later = [] ∧ z.front.now = [] ∧
      (re.search t an sl).result? = z.front.best := by
  have ord := runs.alike.orderly (Analysis.interpreter_orderly _)
  have enough : 2 ≤ max sl re.minSlots := by
    unfold minSlots
    omega
  obtain ⟨f, fin⟩ := Scheduler.dispatch_zero re.runner
    ((Scheduler.new re.analysis.size re.maxThreads).init t re.analysis.start an.flags
      (max sl re.minSlots))
  obtain ⟨z, reached, done, noLater, noNow, res⟩ := (Scheduler.Finishes.done fin).result?_eq ord
  rw [max_eq_left enough] at reached done
  refine ⟨z, reached.congr runs.alike, done, noLater, noNow, ?_⟩
  change ((Scheduler.new re.analysis.size re.maxThreads).init t re.analysis.start
    an.flags (max sl re.minSlots) |>.dispatch re.runner 0).2.result? = _
  rw [fin, res]

theorem Runs.reports (runs : re.Runs g)
    {c : Captures} (got : (re.search t an sl).result? = some c) :
    g.Reports { re.asks t an sl with maxThreads := re.maxThreads } c := by
  obtain ⟨z, reached, -, -, -, res⟩ := runs.search_reaches t an sl
  have start : re.analysis.start = g.start := by rw [runs.analysis_eq]; rfl
  exact (Search.Reaches.sound runs.valid start reached).best c (res.symm.trans got)

theorem search_eq_backtrack (made : compile opt = .ok re) (unb : opt.maxThreads = 0)
    (got : CompiledPattern.compile opt.pattern = .ok compiled)
    (steady : compiled.toGraph.Steady (re.asks t an sl)) :
    (re.search t an sl).result? = compiled.toGraph.backtrack (re.asks t an sl) := by
  obtain ⟨compiled', got', runs, threads, -⟩ := exists_runs made
  cases got.symm.trans got'
  obtain ⟨z, reached, done, noLater, noNow, res⟩ := runs.search_reaches t an sl
  have start : (re.asks t an sl).start = compiled.toGraph.start := by
    rw [asks, runs.analysis_eq]
    rfl
  -- without a bound on the number of threads, nothing is refused
  rw [threads, unb] at reached done
  obtain ⟨-, outlook⟩ := reached.preserves_steady_outlook runs.valid steady start rfl
  rw [res, ← outlook]
  exact (Search.outlook_of_done done noLater noNow).symm

end Regex

end Rematch
