import Rematch.Proofs.Automaton.Blocks
import Rematch.Proofs.Matching.Exploration

/-!
Closures with a stack of jobs in place of recursion. Where a scope is opened, what takes it back is
left on the stack below what is explored inside, so that marks come and go. The stack still runs
empty, or a match is found: from the first shared instruction on, no instruction is entered again
while it is on the way, and before it the way has no loop, since nothing would lead into one. What
is left at the end is the closure, and what has been entered is what `closureEntries` lists.
-/

namespace Rematch

open List Analysis

/-- What is left to do of a closure. -/
inductive Job where
  | visit (pc : Nat)
  /-- Try extensions in priority order. -/
  | options (exts : List Extension)
  | restoreCapture (slot : Nat) (value : Int)
  | restoreVisited (visited visitId : Nat)

def Job.tries (exts : List Extension) : List Job := if exts.isEmpty then [] else [.options exts]

namespace Exploration

/-- The jobs that take back what `openScope` does. -/
def restores (before : Exploration) (slot : Nat) (isReferenced : Bool) : List Job :=
  (if isReferenced then [.restoreVisited before.scope.visited before.scope.visitId] else []) ++
    [.restoreCapture slot (before.scope.captures.getD slot 0)]

end Exploration

namespace Analysis

section

variable (analysis : Analysis) (sched : Scheduler)

/-- Does an instruction for itself; the answer has the jobs that come first from then on. -/
def performInst (pc : Nat) (state : Exploration) : List Job × Exploration :=
  let inst := analysis.inst pc
  let out := analysis.exit inst.out
  match inst.op with
  | .alt | .altMatch => ([.visit out, .visit (analysis.exit inst.out1)], state)
  | .byteRange => ([], analysis.exploreBytes sched pc state)
  | .capture =>
    if inst.arg < sched.slots then
      let isReferenced := analysis.backrefGroups.contains (inst.arg / 2)
      (.visit out :: state.restores inst.arg isReferenced,
        state.openScope inst.arg sched.offset isReferenced)
    else ([.visit out], state)
  | .emptyWidth => (if Condition.satisfied inst.arg sched.holding then [.visit out] else [], state)
  | .nop => ([.visit out], state)
  | .accept => ([], if sched.mayMatch then state.accept.record 1 else state)
  | .fail | .unknown _ => ([], state)

def perform (job : Job) (state : Exploration) : List Job × Exploration :=
  match job with
  | .visit pc =>
    match if analysis.isShared pc then state.enter? pc else some state with
    | none => ([], state)
    | some state =>
      match analysis.extensionsAt? pc with
      | some exts => (Job.tries exts, state)
      | none => analysis.performInst sched pc state
  | .options [] => ([], state)
  | .options (ext :: rest) =>
    let captures := state.scope.captures
    let out := analysis.exit ext.out
    let state := state.record (ext.records captures)
    match ext.evaluate? sched.text sched.offset captures with
    | none => (Job.tries rest, state)
    | some 0 => (.visit out :: Job.tries rest, state)
    | some (count + 1) => (Job.tries rest, state.wait out (count + 1))
  | .restoreCapture slot value =>
    let captures := state.scope.captures.setIfInBounds slot value
    ([], { state with scope := { state.scope with captures } })
  | .restoreVisited visited visitId =>
    ([], { state with scope := { state.scope with visited, visitId } })

/-- Does the first job; `none` if there is none or a match was found. -/
def work? : List Job × Exploration → Option (List Job × Exploration)
  | ([], _) => none
  | (job :: rest, state) =>
    if state.accepted then none
    else
      let (jobs, state) := analysis.perform sched job state
      some (jobs ++ rest, state)

theorem work?_cons {st : Exploration} (run : st.accepted = false) (job : Job) (r : List Job) :
    analysis.work? sched (job :: r, st) =
      some ((analysis.perform sched job st).1 ++ r, (analysis.perform sched job st).2) := by
  rw [work?, if_neg (by simp [run])]

def Works : List Job × Exploration → List Job × Exploration → Prop :=
  Relation.ReflTransGen fun before after => analysis.work? sched before = some after

/-- The instruction that a job enters: one whose visited test, if it has one, is passed. -/
def entered (job : Job) (state : Exploration) : List Nat :=
  match job with
  | .visit pc =>
    if (if analysis.isShared pc then state.enter? pc else some state).isSome then [pc] else []
  | _ => []

/-- Jobs are done, and enter the listed instructions in that order. -/
inductive Traces : List Job × Exploration → List Nat → List Job × Exploration → Prop where
  | refl {now} : Traces now [] now
  | head {job rest state next entries last}
      (step : analysis.work? sched (job :: rest, state) = some next)
      (traces : Traces next entries last) :
      Traces (job :: rest, state) (analysis.entered job state ++ entries) last

section

variable (visit : Nat → Exploration → Exploration) (enters : Nat → Exploration → List Nat)

/-- What is entered while extensions are explored in priority order, where `visit` explores an
instruction and `enters` lists what that enters. -/
def extensionEntries : List Extension → Exploration → List Nat
  | [], _ => []
  | ext :: rest, state =>
    if state.accepted then []
    else
      let captures := state.scope.captures
      let out := analysis.exit ext.out
      let state := state.record (ext.records captures)
      match ext.evaluate? sched.text sched.offset captures with
      | none => extensionEntries rest state
      | some 0 => enters out state ++ extensionEntries rest (visit out state)
      | some (count + 1) => extensionEntries rest (state.wait out (count + 1))

/-- What is entered while an instruction is explored for itself. -/
def instEntries (pc : Nat) (state : Exploration) : List Nat :=
  let inst := analysis.inst pc
  let out := analysis.exit inst.out
  match inst.op with
  | .alt | .altMatch => enters out state ++ enters (analysis.exit inst.out1) (visit out state)
  | .capture =>
    if inst.arg < sched.slots then
      enters out
        (state.openScope inst.arg sched.offset (analysis.backrefGroups.contains (inst.arg / 2)))
    else enters out state
  | .emptyWidth => if Condition.satisfied inst.arg sched.holding then enters out state else []
  | .nop => enters out state
  | .byteRange | .accept | .fail | .unknown _ => []

end

/-- The instructions that are entered by exploring one, in order: those whose visited test, if they
have one, is passed. -/
def entries : Nat → Nat → Exploration → List Nat
  | 0, _, _ => []
  | depth + 1, pc, state =>
    if state.accepted then []
    else
      match if analysis.isShared pc then state.enter? pc else some state with
      | none => []
      | some state =>
        pc :: match analysis.extensionsAt? pc with
          | some exts =>
            extensionEntries analysis sched (explore analysis sched depth) (entries depth) exts
              state
          | none =>
            instEntries analysis sched (explore analysis sched depth) (entries depth) pc state

/-- The instructions that the closure of an instruction enters. -/
def closureEntries (pc : Nat) : List Nat :=
  if pc < analysis.size then
    analysis.entries sched (2 * analysis.size + 1) pc { scope := sched.scope }
  else []

end

namespace Traces

variable {an : Analysis} {s : Scheduler} {now next last : List Job × Exploration}
  {new new' : List Nat}

theorem trans (traces : an.Traces s now new next) (traces' : an.Traces s next new' last) :
    an.Traces s now (new ++ new') last := by
  induction traces with
  | refl => exact traces'
  | head step _ ih =>
    rw [append_assoc]
    exact .head step (ih traces')

theorem works (traces : an.Traces s now new last) : an.Works s now last := by
  induction traces with
  | refl => exact .refl
  | head step _ ih => exact .head step ih

end Traces

end Analysis

/-- Some jobs on top of the stack are done, and the rest of it is untouched, or a match is found. -/
inductive Does (analysis : Analysis) (sched : Scheduler) (jobs rest : List Job)
    (state : Exploration) (entries : List Nat) (after : Exploration) : Prop where
  | ends (running : after.accepted = false) (kept : state.Kept after)
      (traces : analysis.Traces sched (jobs ++ rest, state) entries (rest, after))
  | stops {left} (accepted : after.accepted = true)
      (traces : analysis.Traces sched (jobs ++ rest, state) entries (left, after))

namespace Does

variable {an : Analysis} {s : Scheduler} {job : Job} {js n r : List Job} {st m st' : Exploration}
  {new new' : List Nat}

theorem nil (run : st.accepted = false) : Does an s [] r st [] st := .ends run (.refl st) .refl

theorem of_accepted (acc : st.accepted = true) : Does an s js r st [] st := .stops acc .refl

theorem head (step : an.work? s (job :: r, st) = some (n ++ r, m)) (kept : st.Kept m)
    (does : Does an s n r m new st') : Does an s [job] r st (an.entered job st ++ new) st' := by
  cases does with
  | ends run kept' traces => exact .ends run (kept.trans kept') (.head step traces)
  | stops acc traces => exact .stops acc (.head step traces)

theorem append (fst : Does an s js (n ++ r) st new m) (snd : Does an s n r m new' st')
    (halts : m.accepted = true → new' = [] ∧ st' = m) :
    Does an s (js ++ n) r st (new ++ new') st' := by
  cases fst with
  | ends _ kept traces =>
    rw [← append_assoc] at traces
    cases snd with
    | ends run kept' traces' => exact .ends run (kept.trans kept') (traces.trans traces')
    | stops acc traces' => exact .stops acc (traces.trans traces')
  | stops acc traces =>
    rw [← append_assoc] at traces
    obtain ⟨rfl, rfl⟩ := halts acc
    rw [append_nil]
    exact .stops acc traces

theorem kept (does : Does an s js r st new st') (run : st'.accepted = false) : st.Kept st' := by
  cases does with
  | ends _ kept => exact kept
  | stops acc => simp [run] at acc

end Does

namespace Exploration

variable {an : Analysis} {s : Scheduler} {r : List Job} {st st' : Exploration}
  {sl pc : Nat} {ref : Bool}

theorem traces_restores (run : st'.accepted = false) :
    an.Traces s (st.restores sl ref ++ r, st') [] (r, st'.closeScope st sl ref) := by
  have last : ∀ v : Exploration, v.accepted = false → an.work? s
      (.restoreCapture sl (st.scope.captures.getD sl 0) :: r, v) =
        some (r, { v with scope := { v.scope with
          captures := v.scope.captures.setIfInBounds sl (st.scope.captures.getD sl 0) } }) :=
    fun _ run => an.work?_cons s run _ r
  cases ref with
  | false =>
    refine .head ((last st' run).trans ?_) .refl
    simp [closeScope, run]
  | true =>
    let marked : Exploration := { st' with scope := { st'.scope with
      visited := st.scope.visited, visitId := st.scope.visitId } }
    have fst : an.work? s (st.restores sl true ++ r, st') =
        some (.restoreCapture sl (st.scope.captures.getD sl 0) :: r, marked) :=
      an.work?_cons s run _ _
    refine .head fst (.head ((last marked run).trans ?_) .refl)
    simp [closeScope, run, marked]

theorem does_scope {job : Job} {before inside : Exploration} {v : Int} {new : List Nat}
    (step : an.work? s (job :: r, before) = some (.visit pc :: (st.restores sl ref ++ r),
        st.openScope sl v ref)) (kept : before.Kept st)
    (does : Does an s [.visit pc] (st.restores sl ref ++ r) (st.openScope sl v ref) new inside) :
    Does an s [job] r before (an.entered job before ++ new) (inside.closeScope st sl ref) := by
  cases does with
  | ends run inner traces =>
    have closes := traces.trans (traces_restores run)
    rw [append_nil] at closes
    exact .ends (by rw [closeScope_accepted]; exact run) (kept.trans (kept_closeScope inner run))
      (.head step closes)
  | stops acc traces =>
    have eq : inside.closeScope st sl ref = inside := by rw [closeScope, if_pos acc]
    rw [eq]
    exact .stops acc (.head step traces)

end Exploration

namespace Graph

variable {g : Graph} {s : Scheduler} {p : List Nat} {pc d : Nat}
  {st before : Exploration} {v : Nat → Exploration → Exploration}
  {enters : Nat → Exploration → List Nat}

theorem Guarded.does {js r : List Job} {st' : Exploration} {new : List Nat}
    (guarded : g.Guarded p st) (run : st.accepted = false)
    (does : Does g.summary s js r st new st') :
    g.Guarded p st' := fun still j on shared =>
  (does.kept still).visited_mono j (guarded run j on shared)

theorem does_options {es : List Extension} (r : List Job)
    (visits : ∀ ext ∈ es, ∀ state r, g.Guarded p state →
      Does g.summary s [.visit (g.exit ext.out)] r state (enters (g.exit ext.out) state)
        (v (g.exit ext.out) state)) (run : st.accepted = false) (guarded : g.Guarded p st) :
    Does g.summary s (Job.tries es) r st (g.summary.extensionEntries s v enters es st)
      (g.summary.exploreExtensions s v es st) := by
  induction es generalizing st with
  | nil => exact .nil run
  | cons ext m ih =>
    have halts {state : Exploration} (acc : state.accepted = true) :
        g.summary.extensionEntries s v enters m state = [] ∧
          g.summary.exploreExtensions s v m state = state := by
      cases m <;> simp [extensionEntries, exploreExtensions, acc]
    have others : ∀ {state : Exploration}, g.Guarded p state →
        Does g.summary s (Job.tries m) r state (g.summary.extensionEntries s v enters m state)
          (g.summary.exploreExtensions s v m state) := by
      intro state guarded
      cases acc : state.accepted with
      | false => exact ih (fun ext mem => visits ext (.tail _ mem)) acc guarded
      | true =>
        rw [(halts acc).1, (halts acc).2]
        exact .of_accepted acc
    have counted : g.Guarded p (st.record (ext.records st.scope.captures)) := guarded
    have step := g.summary.work?_cons s run (.options (ext :: m)) r
    rw [extensionEntries, exploreExtensions, if_neg (by simp [run]), if_neg (by simp [run])]
    dsimp only [perform] at step ⊢
    cases ev : ext.evaluate? s.text s.offset st.scope.captures with
    | none =>
      rw [ev] at step
      exact .head step (.of_scope_eq rfl) (others counted)
    | some n =>
      rw [ev] at step
      cases n with
      | zero =>
        have fst := visits ext (.head _) _ (Job.tries m ++ r) counted
        exact .head step (.of_scope_eq rfl) (fst.append (others (counted.does run fst)) halts)
      | succ n => exact .head step (.of_scope_eq rfl) (others counted)

theorem does_inst (r : List Job) (plain : g.extensionsAt? pc = none)
    (visits : ∀ t, g.Stays pc t → ∀ state r, g.Guarded p state →
      Does g.summary s [.visit t] r state (enters t state) (v t state))
    (halts : ∀ t state, state.accepted = true → enters t state = [] ∧ v t state = state)
    (run : st.accepted = false) (guarded : g.Guarded p st) (kept : before.Kept st)
    (step : g.summary.work? s (.visit pc :: r, before) =
      some ((g.summary.performInst s pc st).1 ++ r, (g.summary.performInst s pc st).2)) :
    Does g.summary s [.visit pc] r before
      (g.summary.entered (.visit pc) before ++ g.summary.instEntries s v enters pc st)
      (g.summary.exploreInst s v pc st) := by
  have eq : g.summary.inst pc = g.inst pc := rfl
  unfold performInst at step
  unfold instEntries exploreInst
  simp only [eq] at step ⊢
  cases op : (g.inst pc).op with
  | alt | altMatch =>
    simp only [op] at step
    have fst := visits _ (.out plain (by simp [op])) st
      (.visit (g.exit (g.inst pc).out1) :: r) guarded
    have snd := visits _ (.out1 plain (by simp [op])) _ r (guarded.does run fst)
    exact .head step kept (fst.append snd (halts _ _))
  | byteRange =>
    simp only [op] at step
    obtain ⟨scope, acc⟩ := Explores.exploreBytes_scope g.summary s pc st
    exact .head step (kept.trans (.of_scope_eq scope)) (.nil (acc.trans run))
  | capture =>
    have target : g.Stays pc _ := .out plain (by simp [op])
    simp only [op] at step
    dsimp only
    split
    · next tracked =>
      rw [if_pos tracked, cons_append] at step
      exact Exploration.does_scope step kept (visits _ target _ _ (guarded.openScope _ _ _))
    · next untracked =>
      rw [if_neg untracked] at step
      exact .head step kept (visits _ target st r guarded)
  | emptyWidth =>
    have target : g.Stays pc _ := .out plain (by simp [op])
    simp only [op] at step
    dsimp only
    split
    · next holds =>
      rw [if_pos holds] at step
      exact .head step kept (visits _ target st r guarded)
    · next fails =>
      rw [if_neg fails] at step
      exact .head step kept (.nil run)
  | nop =>
    have target : g.Stays pc _ := .out plain (by simp [op])
    simp only [op] at step
    exact .head step kept (visits _ target st r guarded)
  | accept =>
    simp only [op] at step
    dsimp only
    split
    · next allowed =>
      rw [if_pos allowed] at step
      exact .stops rfl (.head step .refl)
    · next refused =>
      rw [if_neg refused] at step
      exact .head step kept (.nil run)
  | fail | unknown =>
    simp only [op] at step
    exact .head step kept (.nil run)

theorem explore_of_accepted (an : Analysis) (d pc : Nat) (acc : st.accepted = true) :
    an.entries s d pc st = [] ∧ an.explore s d pc st = st := by
  cases d with
  | zero => exact ⟨rfl, rfl⟩
  | succ d => exact ⟨by rw [entries, if_pos acc], by rw [explore, if_pos acc]⟩

theorem does_explore_succ (r : List Job) (guarded : g.Guarded p st)
    (visits : st.accepted = false → ∀ en,
      (if g.summary.isShared pc then st.enter? pc else some st) = some en →
      ∀ t, g.Stays pc t → ∀ state r, g.Guarded (pc :: p) state →
        Does g.summary s [.visit t] r state (g.summary.entries s d t state)
          (g.summary.explore s d t state)) :
    Does g.summary s [.visit pc] r st (g.summary.entries s (d + 1) pc st)
      (g.summary.explore s (d + 1) pc st) := by
  unfold entries explore
  split
  · next acc => exact .of_accepted acc
  next notAccepted =>
  have run : st.accepted = false := by simpa using notAccepted
  have step := g.summary.work?_cons s run (.visit pc) r
  dsimp only [perform] at step
  cases enters : if g.summary.isShared pc then st.enter? pc else some st with
  | none =>
    rw [enters] at step
    have does := Does.head step (.refl _) (.nil run)
    rwa [show g.summary.entered (.visit pc) st = [] by simp [entered, enters]] at does
  | some en =>
  have entered_eq : g.summary.entered (.visit pc) st = [pc] := by simp [entered, enters]
  rw [enters] at step
  obtain ⟨kept, acc, -⟩ := Exploration.enters_kept enters
  have next := visits run en enters
  have guarded' := guarded.enter run enters
  cases listed : g.summary.extensionsAt? pc with
  | some es =>
    simp only [listed] at step
    have listed : g.extensionsAt? pc = some es := listed
    have does := Does.head step kept (does_options r (fun ext mem => next _ ⟨?_, ?_⟩)
      (acc.trans run) guarded')
    · rwa [entered_eq] at does
    · rw [successors_of_extensions listed]
      exact mem_map.mpr ⟨ext, mem, rfl⟩
    · simp [isByteRange, listed]
  | none =>
    simp only [listed] at step
    have plain : g.extensionsAt? pc = none := listed
    have does := does_inst r plain next (fun t state => explore_of_accepted _ d t)
      (acc.trans run) guarded' kept step
    rwa [entered_eq] at does

theorem does_trail (ok : g.Valid) (r : List Job) (trail : g.Trail p pc)
    (deep : g.size < d + p.length) (guarded : g.Guarded p st) :
    Does g.summary s [.visit pc] r st (g.summary.entries s d pc st)
      (g.summary.explore s d pc st) := by
  induction d generalizing p pc st r with
  | zero =>
    have le := trail.length_le ok
    omega
  | succ depth ih =>
    refine does_explore_succ r guarded ?_
    intro run en enters t stays st' r' guarded'
    have new := guarded.not_mem ok trail run enters
    exact ih r' (.step trail new stays) (by rw [length_cons]; omega) guarded'

/-- A way through instructions that are not shared. -/
inductive Lane (graph : Graph) : List Nat → Nat → Prop where
  | start {pc : Nat} (reachable : graph.Reachable pc) : Lane graph [] pc
  | step {path : List Nat} {last pc : Nat} (before : Lane graph path last)
      (unshared : graph.summary.isShared last = false) (stays : graph.Stays last pc) :
      Lane graph (last :: path) pc

namespace Lane

theorem reachable (ok : g.Valid) (lane : g.Lane p pc) :
    g.Reachable pc ∧ ∀ j ∈ p, g.Reachable j ∧ g.summary.isShared j = false := by
  induction lane with
  | start reach => exact ⟨reach, by simp⟩
  | step _ unshared stays ih =>
    refine ⟨ih.1.successor ok stays.listed, fun j mem => ?_⟩
    rcases mem_cons.mp mem with rfl | earlier
    · exact ⟨ih.1, unshared⟩
    · exact ih.2 j earlier

theorem part (lane : g.Lane p pc) {j : Nat} (on : j ∈ p) :
    ∃ part ⊆ p, j ∈ part ∧ (∃ z ∈ part, pc ∈ g.successors z) ∧
      ∀ n ∈ part, n = j ∨ ∃ z ∈ part, n ∈ g.successors z := by
  induction lane with
  | start => simp at on
  | @step path z pc _ _ stays ih =>
    rcases mem_cons.mp on with rfl | earlier
    · exact ⟨[j], by simp, .head _, ⟨j, .head _, stays.listed⟩, fun n mem =>
        .inl (mem_singleton.mp mem)⟩
    · obtain ⟨part, inPath, mb, ⟨u, inPart, edge⟩, comes⟩ := ih earlier
      refine ⟨z :: part, cons_subset_cons _ inPath, .tail _ mb,
        ⟨z, .head _, stays.listed⟩, fun n mem => ?_⟩
      rcases mem_cons.mp mem with rfl | further
      · exact .inr ⟨u, .tail _ inPart, edge⟩
      · exact (comes n further).imp_right fun ⟨u, inPart, edge⟩ => ⟨u, .tail _ inPart, edge⟩

theorem not_mem (ok : g.Valid) (lane : g.Lane p pc)
    (unshared : g.summary.isShared pc = false) : pc ∉ p := by
  intro on
  obtain ⟨loop, inPath, mb, ⟨z, inLoop, edge⟩, comes⟩ := lane.part on
  have mems := fun j mem => (lane.reachable ok).2 j (inPath mem)
  have pre : ∀ n ∈ loop, ∃ z ∈ loop, n ∈ g.successors z := by
    intro n mem
    rcases comes n mem with rfl | got
    · exact ⟨z, inLoop, edge⟩
    · exact got
  have outside : pc ∉ loop := by
    refine (lane.reachable ok).1.induction ok (motive := (· ∉ loop)) (fun mem => ?_)
      fun src reach elsewhere t edge' mem => ?_
    · obtain ⟨previous, inLoop', edge'⟩ := pre _ mem
      exact ne_start_of_unshared ok (mems _ mem).2 (mems _ inLoop').1 edge' rfl
    · obtain ⟨previous, inLoop', edge''⟩ := pre t mem
      obtain rfl := eq_of_unshared ok (mems t mem).2 reach (mems _ inLoop').1 edge' edge''
      exact elsewhere inLoop'
  exact outside mb

theorem length_le (ok : g.Valid) (lane : g.Lane p pc) : p.length ≤ g.size := by
  have nodup : p.Nodup := by
    induction lane with
    | start => exact nodup_nil
    | step pre unshared _ ih => exact nodup_cons.mpr ⟨pre.not_mem ok unshared, ih⟩
  have lt : p ⊆ List.range g.size := fun j mem =>
    mem_range.mpr (((lane.reachable ok).2 j mem).1.lt ok)
  simpa using (subperm_of_subset nodup lt).length_le

end Lane

theorem does_lane (ok : g.Valid) (r : List Job) (lane : g.Lane p pc)
    (deep : 2 * g.size < d + p.length) :
    Does g.summary s [.visit pc] r st (g.summary.entries s d pc st)
      (g.summary.explore s d pc st) := by
  induction d generalizing p pc st r with
  | zero =>
    have le := lane.length_le ok
    omega
  | succ depth ih =>
    cases shared : g.summary.isShared pc with
    | true =>
      have le := lane.length_le ok
      exact does_trail ok r (.shared (lane.reachable ok).1 shared)
        (by rw [length_nil]; omega) fun _ _ on => False.elim (not_mem_nil on)
    | false =>
      have guarded : g.Guarded p st := fun _ j on isShared => by
        simp [((lane.reachable ok).2 j on).2] at isShared
      refine does_explore_succ r guarded fun _ _ _ t stays st' r' _ => ?_
      exact ih r' (.step lane shared stays) (by rw [length_cons]; omega)

theorem does_closure (ok : g.Valid) (reach : g.Reachable pc) (s : Scheduler) :
    Does g.summary s [.visit pc] [] { scope := s.scope } (g.summary.closureEntries s pc)
      (g.summary.closure s pc) := by
  rw [closureEntries, if_pos (show pc < g.summary.size from reach.lt ok)]
  refine does_lane ok [] (.start reach) ?_
  change 2 * g.size < 2 * g.size + 1 + 0
  omega

/-- The jobs of a closure enter what `closureEntries` lists, in that order. -/
theorem traces_closure (ok : g.Valid) (reach : g.Reachable pc) (s : Scheduler) :
    ∃ l, g.summary.Traces s ([.visit pc], { scope := s.scope }) (g.summary.closureEntries s pc)
        (l, g.summary.closure s pc) ∧
      g.summary.work? s (l, g.summary.closure s pc) = none := by
  cases does_closure ok reach s with
  | ends _ _ traces => exact ⟨[], traces, rfl⟩
  | @stops l acc traces =>
    refine ⟨l, traces, ?_⟩
    cases l with
    | nil => rfl
    | cons => simp [work?, acc]

theorem works_closure (ok : g.Valid) (reach : g.Reachable pc) (s : Scheduler) :
    ∃ l, g.summary.Works s ([.visit pc], { scope := s.scope }) (l, g.summary.closure s pc) ∧
      g.summary.work? s (l, g.summary.closure s pc) = none := by
  obtain ⟨l, traces, stops⟩ := traces_closure ok reach s
  exact ⟨l, traces.works, stops⟩

/-- From any block of an automaton and in any state of a scheduler, a closure ends after finitely
many jobs. -/
theorem jobs_terminate {graph : Graph} {pc : Nat} {analysis : Analysis}
    (accepted : graph.analyze = .ok analysis)
    (sched : Scheduler) (block : pc ∈ analysis.blocks) :
    ∃ left, analysis.Works sched ([.visit pc], { scope := sched.scope })
        (left, analysis.closure sched pc) ∧
      analysis.work? sched (left, analysis.closure sched pc) = none := by
  obtain ⟨valid, rfl⟩ := analyze_eq_ok accepted
  exact works_closure valid ((mem_blocks valid).mp block).reachable sched

/-- The automaton of an empty group and its repetition, any number of times. -/
def hollow : Graph where
  automaton :=
    { insts := #[{ op := .alt, out := 1, out1 := 4 }, { op := .capture, arg := 2, out := 2 },
        { op := .capture, arg := 3, out := 3 }, { op := .byteRange, out := 0 }, { op := .accept }]
      start := 0
      slots := 4 }
  overlay := [(3, [{ kind := .backreference, arg := 1, out := 0 }])]

/-- From the end of the group, the loop is gone through up to there once more. -/
theorem jobs_hollow : ∃ sched : Scheduler, ∃ left,
    sched = (Scheduler.new 5 0).init #[] hollow.summary.start 0 4 ∧
    hollow.summary.Works sched ([.visit 2], { scope := sched.scope })
      (left, hollow.summary.closure sched 2) ∧
    (hollow.summary.closure sched 2).accepted = true ∧
    (hollow.summary.closure sched 2).scope.lastVisitId = 3 := by
  have block : 2 ∈ hollow.summary.blocks := by decide +kernel
  obtain ⟨sched, starts⟩ : ∃ sched : Scheduler,
      sched = (Scheduler.new 5 0).init #[] hollow.summary.start 0 4 := ⟨_, rfl⟩
  obtain ⟨left, works, -⟩ := jobs_terminate (analyze_of_validate (by decide +kernel)) sched block
  refine ⟨sched, left, starts, works, ?_, ?_⟩
  · rw [starts]
    decide +kernel
  · rw [starts]
    decide +kernel

end Graph

end Rematch
