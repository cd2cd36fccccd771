import Rematch.Proofs.Matching.Jobs
import Rematch.Threads.Session

/-!
Closures undo their scopes. Here every job carries the instructions on the way to it, and the marks
of all open scopes lie in one buffer: the job that closes a scope knows where its marks begin, and
takes back all that lies there. The buffer grows and shrinks with the stack, so these are the marks
that were saved (`Mirrors`), and the jobs do what they do with marks of their own. A job finds what
the captures on its own way have set, whatever was explored before it, and in the end all is as it
was: `closure_unwinds`.
-/

namespace Rematch

open List Analysis
open Session (wordsOf)

/-- The bitmap of words, the lowest first. -/
def bitmapOf (words : List Nat) : Nat :=
  words.foldr (fun word higher => word + Nat.pow 2 64 * higher) 0

/-- Copies words over others, for as many as there are of both. -/
def overwrite (words source : List Nat) : List Nat :=
  source.take words.length ++ words.drop source.length

/-- A bitmap that fits into some words. -/
def Within (words visited : Nat) : Prop :=
  ∀ bit, visited.testBit bit = true → bit < 64 * words

theorem length_wordsOf (n v : Nat) : (wordsOf n v).length = n := by simp [wordsOf]

theorem wordsOf_succ (n v : Nat) :
    wordsOf (n + 1) v = v % Nat.pow 2 64 :: wordsOf n (v >>> 64) := by
  simp only [wordsOf, range_succ_eq_map, map_cons, map_map, Nat.mul_zero, Nat.shiftRight_zero,
    Function.comp_def, ← Nat.shiftRight_add]
  congr! 5
  omega

theorem bitmapOf_wordsOf {n v : Nat} (within : Within n v) : bitmapOf (wordsOf n v) = v := by
  induction n generalizing v with
  | zero =>
    refine Nat.eq_of_testBit_eq fun bit => ?_
    cases got : v.testBit bit with
    | true => exact absurd (within bit got) (by simp)
    | false => exact Nat.zero_testBit bit
  | succ n ih =>
    have higher : bitmapOf (wordsOf n (v >>> 64)) = v >>> 64 := by
      refine ih fun bit got => ?_
      have lt := within (64 + bit) (by rwa [Nat.testBit_shiftRight] at got)
      omega
    rw [wordsOf_succ]
    change v % Nat.pow 2 64 + Nat.pow 2 64 * bitmapOf (wordsOf n (v >>> 64)) = v
    rw [higher, Nat.shiftRight_eq_div_pow]
    exact Nat.mod_add_div v _

theorem overwrite_wordsOf (n v w : Nat) : overwrite (wordsOf n v) (wordsOf n w) = wordsOf n w := by
  rw [overwrite, length_wordsOf, length_wordsOf, take_of_length_le (length_wordsOf n w).le,
    drop_of_length_le (length_wordsOf n v).le, append_nil]

namespace Job

/-- The way to what a job leaves to do. -/
def onward (route : List Nat) : Job → List Nat
  | .visit pc => route ++ [pc]
  | _ => route

/-- What a job makes of the captures by taking them back. -/
def undo (captures : Captures) : Job → Captures
  | .restoreCapture slot value => captures.setIfInBounds slot value
  | _ => captures

def restoresMarks : Job → Bool
  | .restoreVisited .. => true
  | _ => false

/-- The job as it goes onto the stack: in place of marks it has where they begin in the buffer. -/
def stored (start : Nat) : Job → Job
  | .restoreVisited _ visitId => .restoreVisited start visitId
  | job => job

end Job

/-- The stack of a closure, the words of the marks that its scopes have saved, and what is explored
so far. -/
structure Unwinding where
  jobs : List (List Nat × Job)
  saved : List Nat := []
  state : Exploration

namespace Analysis

def captureAt (analysis : Analysis) (sched : Scheduler) (captures : Captures) (pc : Nat) :
    Captures :=
  let inst := analysis.inst pc
  if (analysis.extensionsAt? pc).isNone ∧ inst.op = .capture ∧ inst.arg < sched.slots then
    captures.setIfInBounds inst.arg sched.offset
  else captures

/-- The captures of a way: every capture on it sets its slot to the offset. -/
def capturesAlong (analysis : Analysis) (sched : Scheduler) (route : List Nat) : Captures :=
  route.foldl (analysis.captureAt sched) sched.scope.captures

/-- Does the first job; `none` if there is none or a match was found. A job that saves marks puts
them behind those in the buffer, and one that takes marks back cuts the buffer off where they
begin. -/
def unwind? (analysis : Analysis) (sched : Scheduler) : Unwinding → Option Unwinding
  | ⟨[], _, _⟩ => none
  | ⟨(route, job) :: rest, saved, state⟩ =>
    if state.accepted then none
    else
      match job with
      | .restoreVisited start visitId =>
        let visited := bitmapOf
          (overwrite (wordsOf sched.words state.scope.visited) (saved.drop start))
        some ⟨rest, saved.take start,
          { state with scope := { state.scope with visited, visitId } }⟩
      | job =>
        let (jobs, state) := analysis.perform sched job state
        let marks := if jobs.any Job.restoresMarks then wordsOf sched.words state.scope.visited
          else []
        some ⟨jobs.map (job.onward route, ·.stored saved.length) ++ rest, saved ++ marks, state⟩

def Unwinds (analysis : Analysis) (sched : Scheduler) : Unwinding → Unwinding → Prop :=
  Relation.ReflTransGen fun before after => analysis.unwind? sched before = some after

end Analysis

namespace Graph

/-- The instructions on a way that consumes nothing, the first one first. -/
inductive Route (graph : Graph) (first : Nat) : List Nat → Nat → Prop where
  | start : Route graph first [] first
  | step {route last pc} (before : Route graph first route last)
      (stays : graph.Stays last pc) : Route graph first (route ++ [last]) pc

/-- A way leads to a job: to the instruction that it visits, through the instruction that it tries
the extensions of, or through the capture that it takes back. -/
inductive Routed (graph : Graph) (first : Nat) : List Nat → Job → Prop where
  | visit {route pc} (goes : graph.Route first route pc) :
      Routed graph first route (.visit pc)
  | options {route pc all exts}
      (goes : graph.Route first route pc) (listed : graph.extensionsAt? pc = some all)
      (left : exts <:+ all) : Routed graph first (route ++ [pc]) (.options exts)
  | restoreCapture {route pc value} (goes : graph.Route first route pc)
      (captures : (graph.inst pc).op = .capture) :
      Routed graph first (route ++ [pc]) (.restoreCapture (graph.inst pc).arg value)
  | restoreVisited {route pc visited visitId} (goes : graph.Route first route pc)
      (captures : (graph.inst pc).op = .capture) :
      Routed graph first (route ++ [pc]) (.restoreVisited visited visitId)

/-- Each job on the stack finds the captures of its way, once those above it are done. -/
def Stowed (graph : Graph) (sched : Scheduler) (first : Nat) :
    List (List Nat × Job) → Captures → Prop
  | [], _ => True
  | (route, job) :: rest, captures =>
    (graph.Routed first route job ∧ captures = graph.summary.capturesAlong sched route) ∧
      graph.Stowed sched first rest (job.undo captures)

end Graph

/-- A stack with its buffer stands for jobs that carry their marks: the words of the marks lie in
the buffer one after the other, those of the first job last. -/
inductive Mirrors (words : Nat) : List Nat → List (List Nat × Job) → List Job → Prop where
  | nil : Mirrors words [] [] []
  | plain {saved tagged jobs job} (route : List Nat) (plain : job.restoresMarks = false)
      (below : Mirrors words saved tagged jobs) :
      Mirrors words saved ((route, job) :: tagged) (job :: jobs)
  | marks {saved tagged jobs visited} (route : List Nat) (visitId : Nat)
      (within : Within words visited) (below : Mirrors words saved tagged jobs) :
      Mirrors words (saved ++ wordsOf words visited)
        ((route, .restoreVisited saved.length visitId) :: tagged)
        (.restoreVisited visited visitId :: jobs)

namespace Analysis

variable {an : Analysis} {s : Scheduler} {st : Exploration} {pc : Nat} {job : Job}

theorem performInst_visited : (an.performInst s pc st).2.scope.visited = st.scope.visited := by
  dsimp only [performInst]
  cases (an.inst pc).op with
  | byteRange => exact congrArg Scope.visited (Explores.exploreBytes_scope an s pc st).1
  | capture =>
    dsimp only
    split
    · exact Exploration.openScope_visited ..
    · rfl
  | accept =>
    dsimp only
    split <;> rfl
  | alt | altMatch | emptyWidth | nop | fail | unknown => rfl

/-- A job saves the marks at most once, below what it goes on with and above what takes the capture
back. -/
def SavesOnce (jobs : List Job) (visited : Nat) : Prop :=
  (∀ job ∈ jobs, job.restoresMarks = false) ∨ ∃ pc visitId slot value,
    jobs = [.visit pc, .restoreVisited visited visitId, .restoreCapture slot value]

theorem performInst_savesOnce :
    SavesOnce (an.performInst s pc st).1 (an.performInst s pc st).2.scope.visited := by
  rw [performInst_visited]
  dsimp only [performInst]
  cases (an.inst pc).op with
  | capture =>
    dsimp only
    split
    · cases an.backrefGroups.contains ((an.inst pc).arg / 2) with
      | true => exact .inr ⟨_, _, _, _, rfl⟩
      | false => exact .inl (by simp [Exploration.restores, Job.restoresMarks])
    · exact .inl (by simp [Job.restoresMarks])
  | emptyWidth =>
    refine .inl ?_
    dsimp only
    split <;> simp [Job.restoresMarks]
  | alt | altMatch | byteRange | nop | accept | fail | unknown =>
    exact .inl (by simp [Job.restoresMarks])

theorem restoresMarks_of_tries {exts : List Extension} (mem : job ∈ Job.tries exts) :
    job.restoresMarks = false := by
  unfold Job.tries at mem
  split at mem
  · simp at mem
  · rw [mem_singleton.mp mem]
    rfl

theorem perform_savesOnce (plain : job.restoresMarks = false) :
    SavesOnce (an.perform s job st).1 (an.perform s job st).2.scope.visited := by
  cases job with
  | visit pc =>
    dsimp only [perform]
    split
    · exact .inl (by simp)
    · split
      · exact .inl fun _ => restoresMarks_of_tries
      · exact performInst_savesOnce
  | options exts =>
    cases exts with
    | nil => exact .inl (by simp [perform])
    | cons ext rest =>
      refine .inl ?_
      dsimp only [perform]
      split
      · exact fun _ => restoresMarks_of_tries
      · intro job mem
        rcases mem_cons.mp mem with rfl | mem
        · rfl
        · exact restoresMarks_of_tries mem
      · exact fun _ => restoresMarks_of_tries
  | restoreCapture => exact .inl (by simp [perform])
  | restoreVisited => simp [Job.restoresMarks] at plain

/-- A job marks the instruction that it visits, if any. -/
theorem perform_visited (plain : job.restoresMarks = false) {bit : Nat}
    (got : (an.perform s job st).2.scope.visited.testBit bit = true) :
    job = .visit bit ∨ st.scope.visited.testBit bit = true := by
  cases job with
  | visit pc =>
    dsimp only [perform] at got
    split at got
    · exact .inr got
    · next en enters =>
      obtain ⟨-, -, -, -, -, marks⟩ := Exploration.enters_kept enters
      rw [Job.visit.injEq, eq_comm]
      refine marks bit ?_
      split at got
      · exact got
      · rwa [performInst_visited] at got
  | options exts =>
    cases exts with
    | nil => exact .inr got
    | cons ext rest =>
      dsimp only [perform] at got
      split at got <;> exact .inr got
  | restoreCapture => exact .inr got
  | restoreVisited => simp [Job.restoresMarks] at plain

theorem unwind?_eq_none (now : Unwinding) :
    an.unwind? s now = none ↔ now.jobs = [] ∨ now.state.accepted = true := by
  obtain ⟨jobs, saved, state⟩ := now
  rcases jobs with _ | ⟨⟨route, job⟩, rest⟩
  · simp [unwind?]
  · cases acc : state.accepted <;> cases job <;> simp [unwind?, acc]

theorem work?_eq_none (js : List Job) :
    an.work? s (js, st) = none ↔ js = [] ∨ st.accepted = true := by
  cases js with
  | nil => simp [work?]
  | cons job rest => cases acc : st.accepted <;> simp [work?, acc]

theorem unwind?_of_plain (plain : job.restoresMarks = false) (run : st.accepted = false)
    (route saved : List Nat) (rest : List (List Nat × Job)) :
    an.unwind? s ⟨(route, job) :: rest, saved, st⟩ =
      some ⟨(an.perform s job st).1.map (job.onward route, ·.stored saved.length) ++ rest,
        saved ++ (if (an.perform s job st).1.any Job.restoresMarks then
          wordsOf s.words (an.perform s job st).2.scope.visited else []),
        (an.perform s job st).2⟩ := by
  cases job with
  | restoreVisited => simp [Job.restoresMarks] at plain
  | visit | options | restoreCapture => simp [unwind?, run]

theorem unwind?_of_marks {visited : Nat} (within : Within s.words visited)
    (run : st.accepted = false) (route saved : List Nat) (visitId : Nat)
    (rest : List (List Nat × Job)) :
    an.unwind? s ⟨(route, .restoreVisited saved.length visitId) :: rest,
        saved ++ wordsOf s.words visited, st⟩ =
      some ⟨rest, saved, { st with scope := { st.scope with visited, visitId } }⟩ := by
  rw [unwind?, if_neg (by simp [run]), drop_left, take_left, overwrite_wordsOf,
    bitmapOf_wordsOf within]

end Analysis

namespace Mirrors

variable {words : Nat} {saved route : List Nat} {tagged : List (List Nat × Job)} {js new : List Job}

theorem nil_iff (mirrors : Mirrors words saved tagged js) : tagged = [] ↔ js = [] := by
  cases mirrors <;> simp

theorem push (mirrors : Mirrors words saved tagged js)
    (plain : ∀ job ∈ new, job.restoresMarks = false) (start : Nat) :
    Mirrors words saved (new.map (route, ·.stored start) ++ tagged) (new ++ js) := by
  induction new with
  | nil => exact mirrors
  | cons job new ih =>
    have below := ih fun job mem => plain job (.tail _ mem)
    have isPlain := plain job (.head _)
    have same : job.stored start = job := by
      cases job with
      | restoreVisited => simp [Job.restoresMarks] at isPlain
      | visit | options | restoreCapture => rfl
    rw [map_cons, same]
    exact .plain _ isPlain below

/-- What a job leaves to do is stored together with the marks that it has saved. -/
theorem store {visited : Nat} (mirrors : Mirrors words saved tagged js)
    (once : SavesOnce new visited) (within : Within words visited) :
    Mirrors words (saved ++ if new.any Job.restoresMarks then wordsOf words visited else [])
      (new.map (route, ·.stored saved.length) ++ tagged) (new ++ js) := by
  rcases once with plain | ⟨pc, visitId, slot, value, rfl⟩
  · have none : new.any Job.restoresMarks = false := by simpa using plain
    rw [none, if_neg Bool.false_ne_true, append_nil]
    exact mirrors.push plain _
  · exact .plain _ rfl (.marks _ visitId within (.plain _ rfl mirrors))

end Mirrors

namespace Graph

variable {g : Graph} {s : Scheduler} {first pc : Nat} {route : List Nat} {c : Captures}
  {st : Exploration} {rest : List (List Nat × Job)}

namespace Stowed

theorem push {js : List Job} (routed : ∀ job ∈ js, g.Routed first route job ∧ job.undo c = c)
    (eq : c = g.summary.capturesAlong s route) (stowed : g.Stowed s first rest c) :
    g.Stowed s first (js.map (route, ·) ++ rest) c := by
  induction js with
  | nil => exact stowed
  | cons job js ih =>
    obtain ⟨leads, same⟩ := routed job (.head _)
    refine ⟨⟨leads, eq⟩, ?_⟩
    rw [same]
    exact ih fun job mem => routed job (.tail _ mem)

section

variable (goes : g.Route first route pc)

include goes

theorem restores {c' : Captures} {t : Nat} (op : (g.inst pc).op = .capture) (stays : g.Stays pc t)
    (isReferenced : Bool) (set_eq : st.scope.captures.setIfInBounds (g.inst pc).arg s.offset = c')
    (along : c' = g.summary.capturesAlong s (route ++ [pc]))
    (stowed : g.Stowed s first rest st.scope.captures) :
    g.Stowed s first ((.visit t :: st.restores (g.inst pc).arg isReferenced).map
      (route ++ [pc], ·) ++ rest) c' := by
  have below : g.Stowed s first ((route ++ [pc], .restoreCapture (g.inst pc).arg
      (st.scope.captures.getD (g.inst pc).arg 0)) :: rest) c' := by
    refine ⟨⟨.restoreCapture goes op, along⟩, ?_⟩
    rw [Job.undo, ← set_eq, Captures.setIfInBounds_back]
    exact stowed
  refine ⟨⟨.visit (.step goes stays), along⟩, ?_⟩
  cases isReferenced with
  | true => exact ⟨⟨.restoreVisited goes op, along⟩, below⟩
  | false => exact below

theorem performInst (plain : g.extensionsAt? pc = none)
    (eq : st.scope.captures = g.summary.capturesAlong s route)
    (stowed : g.Stowed s first rest st.scope.captures) : g.Stowed s first
      ((g.summary.performInst s pc st).1.map (route ++ [pc], ·) ++ rest)
      (g.summary.performInst s pc st).2.scope.captures := by
  have along : g.summary.capturesAlong s (route ++ [pc]) =
      g.summary.captureAt s st.scope.captures pc := by
    rw [capturesAlong, foldl_append, eq]
    rfl
  have passes : ∀ {js : List Job},
      ¬((g.inst pc).op = .capture ∧ (g.inst pc).arg < s.slots) →
      (∀ job ∈ js, ∃ t, g.Stays pc t ∧ job = .visit t) →
      g.Stowed s first (js.map (route ++ [pc], ·) ++ rest) st.scope.captures := by
    intro js quiet visits
    refine push (fun job mem => ?_) ?_ stowed
    · obtain ⟨t, stays, rfl⟩ := visits job mem
      exact ⟨.visit (.step goes stays), rfl⟩
    · rw [along, captureAt, if_neg fun got => quiet got.2]
  have same : g.summary.inst pc = g.inst pc := rfl
  unfold Analysis.performInst
  simp only [same]
  cases op : (g.inst pc).op with
  | alt | altMatch =>
    refine passes (by simp [op]) fun job mem => ?_
    rcases mem_pair.mp mem with rfl | rfl
    · exact ⟨_, .out plain (by simp [op]), rfl⟩
    · exact ⟨_, .out1 plain (by simp [op]), rfl⟩
  | byteRange =>
    obtain ⟨scope, -⟩ := Explores.exploreBytes_scope g.summary s pc st
    rw [scope]
    exact stowed
  | capture =>
    have target : g.Stays pc _ := .out plain (by simp [op])
    dsimp only
    split
    · next tracked =>
      refine restores goes op target _ (Exploration.openScope_captures ..).symm ?_ stowed
      rw [along, Exploration.openScope_captures, captureAt, if_pos]
      · rfl
      · exact ⟨Option.isNone_iff_eq_none.mpr plain, op, tracked⟩
    · next untracked =>
      exact passes (fun got => untracked got.2) fun job mem => ⟨_, target, mem_singleton.mp mem⟩
  | emptyWidth =>
    have target : g.Stays pc _ := .out plain (by simp [op])
    dsimp only
    split
    · exact passes (by simp [op]) fun job mem => ⟨_, target, mem_singleton.mp mem⟩
    · exact stowed
  | nop =>
    have target : g.Stays pc _ := .out plain (by simp [op])
    exact passes (by simp [op]) fun job mem => ⟨_, target, mem_singleton.mp mem⟩
  | accept =>
    dsimp only
    split <;> exact stowed
  | fail | unknown => exact stowed

theorem tries {all exts : List Extension} (listed : g.extensionsAt? pc = some all)
    (left : exts <:+ all) (eq : c = g.summary.capturesAlong s (route ++ [pc]))
    (stowed : g.Stowed s first rest c) :
    g.Stowed s first ((Job.tries exts).map (route ++ [pc], ·) ++ rest) c := by
  refine push (fun job mem => ?_) eq stowed
  unfold Job.tries at mem
  split at mem
  · simp at mem
  · obtain rfl := mem_singleton.mp mem
    exact ⟨.options goes listed left, rfl⟩

end

theorem perform {job : Job} (stowed : g.Stowed s first ((route, job) :: rest) st.scope.captures) :
    g.Stowed s first ((g.summary.perform s job st).1.map (job.onward route, ·) ++ rest)
      (g.summary.perform s job st).2.scope.captures := by
  obtain ⟨⟨routed, eq⟩, stowed⟩ := stowed
  cases routed with
  | @visit _ pc goes =>
    dsimp only [Analysis.perform, Job.onward]
    split
    · exact stowed
    next en enters =>
    have kept := (Exploration.enters_kept enters).1.captures_eq
    replace stowed : g.Stowed s first rest en.scope.captures := by
      rw [kept]
      exact stowed
    rw [← kept] at eq
    cases got : g.summary.extensionsAt? pc with
    | none => exact stowed.performInst goes got eq
    | some all =>
      have listed : g.extensionsAt? pc = some all := got
      refine tries goes listed (suffix_refl _) ?_ stowed
      rw [capturesAlong, foldl_append, foldl_cons, foldl_nil,
        captureAt, if_neg (by simp [listed])]
      exact eq
  | @options _ pc all exts goes listed left =>
    cases exts with
    | nil => exact stowed
    | cons ext exts =>
      have others := (suffix_cons ext exts).trans left
      have target : g.Stays pc (g.exit ext.out) := by
        refine ⟨?_, by simp [isByteRange, listed]⟩
        rw [successors_of_extensions listed]
        exact mem_map.mpr ⟨ext, left.subset (.head _), rfl⟩
      dsimp only [Analysis.perform, Job.onward]
      split
      · exact tries goes listed others eq stowed
      · exact ⟨⟨.visit (.step goes target), eq⟩, tries goes listed others eq stowed⟩
      · exact tries goes listed others eq stowed
  | restoreCapture | restoreVisited => exact stowed

theorem stored {js : List Job} (start : Nat)
    (stowed : g.Stowed s first (js.map (route, ·) ++ rest) c) :
    g.Stowed s first (js.map (route, ·.stored start) ++ rest) c := by
  induction js generalizing c with
  | nil => exact stowed
  | cons job js ih =>
    obtain ⟨⟨routed, eq⟩, stowed⟩ := stowed
    refine ⟨⟨?_, eq⟩, ?_⟩
    · cases routed with
      | visit goes => exact .visit goes
      | options goes listed left => exact .options goes listed left
      | restoreCapture goes op => exact .restoreCapture goes op
      | restoreVisited goes op => exact .restoreVisited goes op
    · have same : (job.stored start).undo c = job.undo c := by cases job <;> rfl
      rw [same]
      exact ih stowed

end Stowed

theorem Route.reachable (ok : g.Valid) (reach : g.Reachable first)
    (goes : g.Route first route pc) : g.Reachable pc := by
  induction goes with
  | start => exact reach
  | step _ stays ih => exact ih.successor ok stays.1

/-- What holds of a closure that keeps its marks in a buffer, beside one whose jobs carry them. -/
structure Refines (graph : Graph) (sched : Scheduler) (first : Nat) (now : Unwinding)
    (jobs : List Job) : Prop where
  mirrors : Mirrors sched.words now.saved now.jobs jobs
  within : Within sched.words now.state.scope.visited
  stowed : graph.Stowed sched first now.jobs now.state.scope.captures

namespace Refines

variable {now next : Unwinding} {js : List Job}

theorem unwind?_eq_none_iff {saved : List Nat} (refines : g.Refines s first ⟨rest, saved, st⟩ js) :
    g.summary.unwind? s ⟨rest, saved, st⟩ = none ↔ g.summary.work? s (js, st) = none := by
  rw [unwind?_eq_none, work?_eq_none, refines.mirrors.nil_iff]

section

variable (ok : g.Valid) (reach : g.Reachable first) (fits : g.size ≤ 64 * s.words)

include ok reach fits

theorem step (refines : g.Refines s first now js) (step : g.summary.unwind? s now = some next) :
    ∃ js', g.summary.work? s (js, now.state) = some (js', next.state) ∧
      g.Refines s first next js' := by
  obtain ⟨tagged, saved, state⟩ := now
  obtain ⟨mirrors, within, stowed⟩ := refines
  have run : state.accepted = false := by
    by_contra acc
    rw [(unwind?_eq_none _).mpr (.inr (by simpa using acc))] at step
    simp at step
  cases mirrors with
  | nil => simp [unwind?] at step
  | @plain _ tagged js job route plain below =>
    rw [unwind?_of_plain plain run] at step
    cases step
    have within' : Within s.words (g.summary.perform s job state).2.scope.visited := by
      intro bit got
      rcases perform_visited plain got with rfl | old
      · obtain ⟨⟨⟨goes⟩, -⟩, -⟩ := stowed
        exact Nat.lt_of_lt_of_le ((goes.reachable ok reach).lt ok) fits
      · exact within bit old
    exact ⟨_, work?_cons _ _ run job js, below.store (perform_savesOnce plain) within', within',
      stowed.perform.stored _⟩
  | @marks saved tagged js visited route visitId kept below =>
    cases (unwind?_of_marks kept run route saved visitId tagged).symm.trans step
    exact ⟨_, work?_cons _ _ run _ js, below, kept, stowed.2⟩

theorem of_unwinds (within : Within s.words s.scope.visited)
    (unwinds : g.summary.Unwinds s { jobs := [([], .visit first)], state := { scope := s.scope } }
      now) :
    ∃ js, g.summary.Works s ([.visit first], { scope := s.scope }) (js, now.state) ∧
      g.Refines s first now js := by
  induction unwinds with
  | refl => exact ⟨_, .refl, .plain _ rfl .nil, within, ⟨.visit .start, rfl⟩, trivial⟩
  | tail _ step ih =>
    obtain ⟨js, works, refines⟩ := ih
    obtain ⟨js', step', refines'⟩ := refines.step ok reach fits step
    exact ⟨js', works.tail step', refines'⟩

theorem of_works (within : Within s.words s.scope.visited) {after : Exploration}
    (works : g.summary.Works s ([.visit first], { scope := s.scope }) (js, after)) :
    ∃ tagged saved, g.summary.Unwinds s
        { jobs := [([], .visit first)], state := { scope := s.scope } } ⟨tagged, saved, after⟩ ∧
      g.Refines s first ⟨tagged, saved, after⟩ js := by
  generalize reached : (js, after) = last at works
  induction works generalizing js after with
  | refl =>
    cases reached
    exact ⟨_, _, .refl, .plain _ rfl .nil, within, ⟨.visit .start, rfl⟩, trivial⟩
  | @tail mid _ _ step ih =>
    subst reached
    obtain ⟨js, st⟩ := mid
    obtain ⟨tagged, saved, unwinds, refines⟩ := ih rfl
    cases eq : g.summary.unwind? s ⟨tagged, saved, st⟩ with
    | none =>
      rw [refines.unwind?_eq_none_iff.mp eq] at step
      simp at step
    | some next =>
      obtain ⟨js', step', refines'⟩ := refines.step ok reach fits eq
      cases step'.symm.trans step
      exact ⟨_, _, unwinds.tail eq, refines'⟩

end

end Refines

/-- From any block of an automaton and in any state of a scheduler with a bit for every instruction,
the jobs of a closure come to an end, with the marks of their scopes in one buffer. Without a match,
stack and buffer are empty then, captures and visit id are what they were, and no mark is lost. The
buffer stands for marks that the jobs carry themselves at every moment. Every job finds what the
captures on its own way have set. -/
theorem closure_unwinds {graph : Graph} {pc : Nat} {analysis : Analysis}
    (accepted : graph.analyze = .ok analysis) (sched : Scheduler) (block : pc ∈ analysis.blocks)
    (fits : analysis.size ≤ 64 * sched.words) (within : Within sched.words sched.scope.visited) :
    (∃ left saved, analysis.Unwinds sched
        { jobs := [([], .visit pc)], state := { scope := sched.scope } }
        ⟨left, saved, analysis.closure sched pc⟩ ∧
      analysis.unwind? sched ⟨left, saved, analysis.closure sched pc⟩ = none ∧
      ((analysis.closure sched pc).accepted = false → left = [] ∧ saved = [])) ∧
    ((analysis.closure sched pc).accepted = false →
      (analysis.closure sched pc).scope.captures = sched.scope.captures ∧
      (analysis.closure sched pc).scope.visitId = sched.scope.visitId ∧
      ∀ bit, sched.scope.visited.testBit bit = true →
        (analysis.closure sched pc).scope.visited.testBit bit = true) ∧
    ∀ now, analysis.Unwinds sched
        { jobs := [([], .visit pc)], state := { scope := sched.scope } } now →
      (∃ jobs, analysis.Works sched ([.visit pc], { scope := sched.scope }) (jobs, now.state) ∧
        Mirrors sched.words now.saved now.jobs jobs) ∧
      ∀ route job rest, now.jobs = (route, job) :: rest → graph.Routed pc route job ∧
        now.state.scope.captures = analysis.capturesAlong sched route := by
  obtain ⟨valid, rfl⟩ := analyze_eq_ok accepted
  have reachable := ((mem_blocks valid).mp block).reachable
  refine ⟨?_, fun unmatched => ?_, fun now unwinds => ?_⟩
  · obtain ⟨left, works, stops⟩ := works_closure valid reachable sched
    obtain ⟨left, saved, unwinds, refines⟩ := Refines.of_works valid reachable fits within works
    have stops := refines.unwind?_eq_none_iff.mpr stops
    refine ⟨left, saved, unwinds, stops, fun unmatched => ?_⟩
    obtain rfl : left = [] :=
      ((unwind?_eq_none _).mp stops).resolve_right (by simp [unmatched])
    have mirrors := refines.mirrors
    cases mirrors
    exact ⟨rfl, rfl⟩
  · obtain ⟨same, visit, mono, -⟩ := (does_closure valid reachable sched).kept unmatched
    exact ⟨same, visit, mono⟩
  · obtain ⟨jobs, works, mirrors, -, stowed⟩ :=
      Refines.of_unwinds valid reachable fits within unwinds
    refine ⟨⟨jobs, works, mirrors⟩, fun route job rest eq => ?_⟩
    rw [eq] at stowed
    exact stowed.1

/-- Where no match may end yet, the loop is gone through in two scopes, and nothing is left of
them. -/
theorem closure_unwinds_hollow : ∃ sched : Scheduler,
    sched = (Scheduler.new 5 0).init #[7] hollow.summary.start 2 4 ∧
    0 ∈ hollow.summary.blocks ∧ (hollow.summary.closure sched 0).accepted = false ∧
    (hollow.summary.closure sched 0).scope.lastVisitId = 2 ∧
    (hollow.summary.closure sched 0).scope.captures = sched.scope.captures ∧
    (hollow.summary.closure sched 0).scope.visitId = sched.scope.visitId ∧
    hollow.summary.Unwinds sched { jobs := [([], .visit 0)], state := { scope := sched.scope } }
      { jobs := [], state := hollow.summary.closure sched 0 } := by
  have block : 0 ∈ hollow.summary.blocks := by decide +kernel
  obtain ⟨sched, starts⟩ : ∃ sched : Scheduler,
      sched = (Scheduler.new 5 0).init #[7] hollow.summary.start 2 4 := ⟨_, rfl⟩
  have unmatched : (hollow.summary.closure sched 0).accepted = false := by
    rw [starts]
    decide +kernel
  have fits : hollow.size ≤ 64 * sched.words := by
    rw [starts]
    decide +kernel
  have blank : sched.scope.visited = 0 := by
    rw [starts]
    decide +kernel
  obtain ⟨⟨left, saved, unwinds, -, empty⟩, undone, -⟩ :=
    closure_unwinds (analyze_of_validate (by decide +kernel)) sched block fits
      (by simp [Within, blank])
  obtain ⟨rfl, rfl⟩ := empty unmatched
  obtain ⟨captures, visit, -⟩ := undone unmatched
  refine ⟨sched, starts, block, unmatched, ?_, captures, visit, unwinds⟩
  rw [starts]
  decide +kernel

end Graph

end Rematch
