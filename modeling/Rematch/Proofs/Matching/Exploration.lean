import Rematch.Proofs.Automaton.Runs
import Rematch.Proofs.Matching.Path

/-!
Closures without a bound on their depth. `Explores` says what exploring an instruction does in terms
of what the instruction offers, and keeps the instructions on the way from the entry. Such a way
repeats nothing: what is not shared has one way in, and what is shared is not entered twice. So the
number of instructions bounds the depth, and `explores_closure` gives every closure of a thread in
this form.
-/

namespace Rematch

open Analysis Condition Exploration

def Event.visit : Event → Nat
  | .wait _ _ _ visitId | .accept _ visitId => visitId
  | .fail => 0

/-- What is explored: an instruction that is still to be entered, one that has been, or extensions
in priority order. -/
inductive Task where
  | visit (pc : Nat)
  | perform (pc : Nat)
  | options (pc : Nat) (exts : List Extension)

section

variable (analysis : Analysis) (sched : Scheduler)

/-- What exploring does, with the instructions on the way, the last one first. -/
inductive Explores : List Nat → Task → Exploration → Exploration → Prop where
  /-- After a match nothing else is explored. -/
  | halted {path pc state} (accepted : state.accepted = true) :
      Explores path (.visit pc) state state
  | blocked {path pc state} (running : state.accepted = false)
      (shared : analysis.isShared pc = true) (entered : state.scope.visited.testBit pc = true) :
      Explores path (.visit pc) state state
  | enter {path pc state entered after} (running : state.accepted = false) (new : pc ∉ path)
      (enters : (if analysis.isShared pc then state.enter? pc else some state) = some entered)
      (performs : Explores (pc :: path) (.perform pc) entered after) :
      Explores path (.visit pc) state after
  | extensions {path pc exts state after} (found : analysis.extensionsAt? pc = some exts)
      (tries : Explores path (.options pc exts) state after) :
      Explores path (.perform pc) state after
  | fork {path pc state middle after}
      (offers : ∀ captures, analysis.branches sched.query ⟨pc, sched.offset, captures⟩ =
        [.step ⟨analysis.out pc, sched.offset, captures⟩,
          .step ⟨analysis.out1 pc, sched.offset, captures⟩])
      (firstListed : analysis.follow (analysis.out pc) ∈ analysis.successors pc)
      (secondListed : analysis.follow (analysis.out1 pc) ∈ analysis.successors pc)
      (first : Explores path (.visit (analysis.follow (analysis.out pc))) state middle)
      (second : Explores path (.visit (analysis.follow (analysis.out1 pc))) middle after) :
      Explores path (.perform pc) state after
  | bytes {path pc state} (byteRange : analysis.isByteRange pc = true) :
      Explores path (.perform pc) state (analysis.exploreBytes sched pc state)
  | capture {path pc slot state after}
      (offers : ∀ captures, analysis.branches sched.query ⟨pc, sched.offset, captures⟩ =
        [.step ⟨analysis.out pc, sched.offset, captures.setIfInBounds slot sched.offset⟩])
      (listed : analysis.follow (analysis.out pc) ∈ analysis.successors pc)
      (tracked : slot < sched.slots)
      (inside : Explores path (.visit (analysis.follow (analysis.out pc)))
        (state.openScope slot sched.offset (analysis.backrefGroups.contains (slot / 2))) after) :
      Explores path (.perform pc) state
        (after.closeScope state slot (analysis.backrefGroups.contains (slot / 2)))
  | pass {path pc state after}
      (offers : ∀ captures, analysis.branches sched.query ⟨pc, sched.offset, captures⟩ =
        [.step ⟨analysis.out pc, sched.offset, captures⟩])
      (listed : analysis.follow (analysis.out pc) ∈ analysis.successors pc)
      (next : Explores path (.visit (analysis.follow (analysis.out pc))) state after) :
      Explores path (.perform pc) state after
  | stop {path pc state}
      (offers : ∀ captures, analysis.branches sched.query ⟨pc, sched.offset, captures⟩ = []) :
      Explores path (.perform pc) state state
  | accept {path pc state}
      (offers : ∀ captures, analysis.branches sched.query ⟨pc, sched.offset, captures⟩ = [.accept])
      (allowed : sched.mayMatch = true) : Explores path (.perform pc) state (state.accept.record 1)
  /-- The options are used up, or a match was found. -/
  | done {path pc exts state} (finished : exts = [] ∨ state.accepted = true) :
      Explores path (.options pc exts) state state
  | refuse {path pc ext rest state after} (running : state.accepted = false)
      (evaluated : ext.evaluate? sched.text sched.offset state.scope.captures = none)
      (others : Explores path (.options pc rest)
        (state.record (ext.records state.scope.captures)) after) :
      Explores path (.options pc (ext :: rest)) state after
  | stay {path pc ext rest state middle after} (running : state.accepted = false)
      (evaluated : ext.evaluate? sched.text sched.offset state.scope.captures = some 0)
      (first : Explores path (.visit (analysis.follow ext.out.toNat))
        (state.record (ext.records state.scope.captures)) middle)
      (others : Explores path (.options pc rest) middle after) :
      Explores path (.options pc (ext :: rest)) state after
  | wait {path pc ext rest count state after} (running : state.accepted = false)
      (evaluated : ext.evaluate? sched.text sched.offset state.scope.captures = some (count + 1))
      (others : Explores path (.options pc rest)
        ((state.record (ext.records state.scope.captures)).wait
          (analysis.follow ext.out.toNat) (count + 1)) after) :
      Explores path (.options pc (ext :: rest)) state after

end

namespace Explores

variable {an : Analysis} {s : Scheduler} {p : List Nat} {task : Task} {st st' : Exploration}

variable (explores : Explores an s p task st st') (starts : ∀ pc, task ≠ .perform pc)

include explores starts

theorem eq_of_accepted (acc : st.accepted = true) : st' = st := by
  cases explores with
  | halted | blocked | done => rfl
  | enter run | refuse run | stay run | wait run => simp [acc] at run
  | extensions | fork | bytes | capture | pass | stop | accept => exact False.elim (starts _ rfl)

theorem running_of_unmatched (unmatched : st'.accepted = false) :
    st.accepted = false := by
  cases acc : st.accepted with
  | false => rfl
  | true => rw [explores.eq_of_accepted starts acc, acc] at unmatched; exact unmatched

end Explores

theorem Captures.setIfInBounds_back (c : Captures) (sl : Nat) (v : Int) :
    (c.setIfInBounds sl v).setIfInBounds sl (c.getD sl 0) = c := by
  apply Array.ext
  · simp
  · intro i fst snd
    rw [Array.getElem_setIfInBounds (by simpa using snd), Array.getElem_setIfInBounds snd]
    split
    · next eq =>
      subst eq
      simp [Array.getD_eq_getD_getElem?, snd]
    · rfl

namespace Exploration

variable {en st : Exploration} {pc : Nat}

/-- What exploring leaves as it was, if there was no match: captures and visit id. -/
structure Kept (before after : Exploration) : Prop where
  captures_eq : after.scope.captures = before.scope.captures
  visit_eq : after.scope.visitId = before.scope.visitId
  visited_mono : ∀ pc, before.scope.visited.testBit pc = true →
    after.scope.visited.testBit pc = true
  last_le : before.scope.lastVisitId ≤ after.scope.lastVisitId

namespace Kept

variable {a b c : Exploration}

theorem refl (st : Exploration) : st.Kept st := ⟨rfl, rfl, fun _ got => got, Nat.le_refl _⟩

theorem trans (left : a.Kept b) (right : b.Kept c) : a.Kept c :=
  ⟨right.captures_eq.trans left.captures_eq, right.visit_eq.trans left.visit_eq,
    fun pc got => right.visited_mono pc (left.visited_mono pc got),
    Nat.le_trans left.last_le right.last_le⟩

theorem of_scope_eq (eq : b.scope = a.scope) : a.Kept b :=
  ⟨by rw [eq], by rw [eq], by rw [eq]; exact fun _ got => got, by rw [eq]⟩

theorem congr_left (kept : b.Kept c) (eq : b.scope = a.scope) : a.Kept c :=
  (of_scope_eq eq).trans kept

end Kept

theorem testBit_enter (visited pc j : Nat) :
    (visited ||| 1 <<< pc).testBit j = (visited.testBit j || decide (pc = j)) := by
  rw [Nat.testBit_or, Nat.one_shiftLeft, Nat.testBit_two_pow]

theorem enter?_eq_some (enters : st.enter? pc = some en) : st.scope.visited.testBit pc = false ∧
      en = { st with scope := { st.scope with visited := st.scope.visited ||| 1 <<< pc } } := by
  unfold enter? at enters
  split at enters
  · simp at enters
  · next new => exact ⟨by simpa using new, (Option.some.inj enters).symm⟩

theorem enters_kept {an : Analysis}
    (enters : (if an.isShared pc then st.enter? pc else some st) = some en) :
    st.Kept en ∧ en.accepted = st.accepted ∧ en.events = st.events ∧
      en.scope.lastVisitId = st.scope.lastVisitId ∧
      (an.isShared pc = true → en.scope.visited.testBit pc = true) ∧
      ∀ j, en.scope.visited.testBit j = true → j = pc ∨ st.scope.visited.testBit j = true := by
  split at enters
  · obtain ⟨-, rfl⟩ := enter?_eq_some enters
    refine ⟨⟨rfl, rfl, ?_, Nat.le_refl _⟩, rfl, rfl, rfl, ?_, ?_⟩
    · intro j got
      simp [got]
    · simp
    · intro j got
      rw [testBit_enter, Bool.or_eq_true, decide_eq_true_eq] at got
      exact got.symm.imp_left Eq.symm
  · next unshared =>
    cases enters
    exact ⟨.refl _, rfl, rfl, rfl, fun shared => False.elim (unshared shared),
      fun _ got => .inr got⟩

section openScope

variable (st : Exploration) (sl : Nat) (w : Int) (ref : Bool)

theorem openScope_accepted : (st.openScope sl w ref).accepted = st.accepted := rfl

theorem openScope_events : (st.openScope sl w ref).events = st.events := rfl

theorem openScope_captures : (st.openScope sl w ref).scope.captures =
    st.scope.captures.setIfInBounds sl w := by
  cases ref <;> rfl

theorem openScope_visited : (st.openScope sl w ref).scope.visited = st.scope.visited := by
  cases ref <;> rfl

theorem openScope_visitId : (st.openScope sl w ref).scope.visitId =
    if ref then st.scope.lastVisitId + 1 else st.scope.visitId := by
  cases ref <;> rfl

theorem openScope_lastVisitId : (st.openScope sl w ref).scope.lastVisitId =
    if ref then st.scope.lastVisitId + 1 else st.scope.lastVisitId := by
  cases ref <;> rfl

end openScope

theorem kept_closeScope {st' : Exploration} {sl : Nat} {v : Int} {ref : Bool}
    (kept : (st.openScope sl v ref).Kept st') (run : st'.accepted = false) :
    st.Kept (st'.closeScope st sl ref) := by
  have caps : st'.scope.captures = st.scope.captures.setIfInBounds sl v := by
    rw [kept.captures_eq, openScope_captures]
  have restored : st'.scope.captures.setIfInBounds sl (st.scope.captures.getD sl 0) =
      st.scope.captures := by
    rw [caps, Captures.setIfInBounds_back]
  have last := kept.last_le
  cases ref with
  | true =>
    simp only [closeScope, run, Bool.false_eq_true, if_false, if_true]
    refine ⟨restored, rfl, fun _ got => got, ?_⟩
    exact Nat.le_trans (Nat.le_succ _) last
  | false =>
    simp only [closeScope, run, Bool.false_eq_true, if_false]
    exact ⟨restored, kept.visit_eq, kept.visited_mono, last⟩

section CloseScope

variable (st before : Exploration) (sl : Nat) (ref : Bool)

theorem closeScope_accepted : (st.closeScope before sl ref).accepted = st.accepted := by
  unfold closeScope
  split <;> rfl

theorem closeScope_visited : (st.closeScope before sl ref).scope.visited = st.scope.visited ∨
      (st.closeScope before sl ref).scope.visited = before.scope.visited := by
  unfold closeScope
  cases st.accepted <;> cases ref <;> simp

theorem closeScope_lastVisitId :
    (st.closeScope before sl ref).scope.lastVisitId = st.scope.lastVisitId := by
  unfold closeScope
  cases st.accepted <;> cases ref <;> simp

theorem closeScope_events : (st.closeScope before sl ref).events = st.events := by
  unfold closeScope
  split <;> rfl

end CloseScope

end Exploration

namespace Explores

variable {an : Analysis} {s : Scheduler} {p : List Nat} {task : Task} {st st' : Exploration}

variable {pc : Nat}

theorem exploreBytes_events (matching : an.spanMatches s.text s.offset (an.span pc) = true) :
    (an.exploreBytes s pc st).events = .wait (an.exit (an.inst ((an.span pc).getLastD pc)).out)
        (an.span pc).length st.scope.captures st.scope.visitId :: st.events := by
  rw [exploreBytes, if_pos matching]
  rfl

theorem exploreBytes_of_mismatch (mismatch : ¬an.spanMatches s.text s.offset (an.span pc) = true) :
    an.exploreBytes s pc st = st := by
  rw [exploreBytes, if_neg mismatch]

theorem exploreBytes_scope (an : Analysis) (s : Scheduler) (pc : Nat) (st : Exploration) :
    (an.exploreBytes s pc st).scope = st.scope ∧
      (an.exploreBytes s pc st).accepted = st.accepted := by
  simp only [exploreBytes]
  split <;> exact ⟨rfl, rfl⟩

theorem events_eq (explores : Explores an s p task st st') :
    ∃ new, st'.events = new ++ st.events := by
  induction explores with
  | halted | blocked | stop | done => exact ⟨[], rfl⟩
  | enter _ _ enters _ ih =>
    obtain ⟨-, -, eq, -⟩ := enters_kept enters
    rw [← eq]
    exact ih
  | extensions _ _ ih | pass _ _ _ ih => exact ih
  | fork _ _ _ _ _ firstIh secondIh =>
    obtain ⟨a, firstEq⟩ := firstIh
    obtain ⟨b, secondEq⟩ := secondIh
    exact ⟨b ++ a, by rw [secondEq, firstEq, List.append_assoc]⟩
  | stay _ _ _ _ firstIh othersIh =>
    obtain ⟨a, firstEq⟩ := firstIh
    obtain ⟨others, othersEq⟩ := othersIh
    exact ⟨others ++ a, by rw [othersEq, firstEq, List.append_assoc]; rfl⟩
  | @bytes _ pc state =>
    simp only [exploreBytes]
    split
    · exact ⟨[_], rfl⟩
    · exact ⟨[], rfl⟩
  | capture _ _ _ _ ih =>
    rw [openScope_events] at ih
    rw [closeScope_events]
    exact ih
  | accept => exact ⟨[_], rfl⟩
  | refuse _ _ _ ih => exact ih
  | wait _ _ _ ih =>
    obtain ⟨new, eq⟩ := ih
    exact ⟨new ++ [_], by rw [eq, List.append_assoc]; rfl⟩

theorem kept (explores : Explores an s p task st st') (run : st.accepted = false) :
    st'.accepted = true ∨ st'.accepted = false ∧ st.Kept st' := by
  induction explores with
  | halted acc => simp [run] at acc
  | blocked | stop => exact .inr ⟨run, .refl _⟩
  | enter _ _ enters _ ih =>
    obtain ⟨kept, eq, -⟩ := enters_kept enters
    rcases ih (eq.trans run) with acc | ⟨still, rest⟩
    · exact .inl acc
    · exact .inr ⟨still, kept.trans rest⟩
  | extensions _ _ ih | pass _ _ _ ih => exact ih run
  | fork _ _ _ fst snd firstIh secondIh =>
    rcases firstIh run with acc | ⟨still, kept⟩
    · exact .inl (by rw [snd.eq_of_accepted (by simp) acc, acc])
    · rcases secondIh still with acc | ⟨still, rest⟩
      · exact .inl acc
      · exact .inr ⟨still, kept.trans rest⟩
  | @bytes _ pc state _ =>
    obtain ⟨scope, acc⟩ := exploreBytes_scope an s pc state
    exact .inr ⟨acc.trans run, .of_scope_eq scope⟩
  | capture _ _ _ _ ih =>
    rw [openScope_accepted] at ih
    rw [closeScope_accepted]
    rcases ih run with acc | ⟨still, kept⟩
    · exact .inl acc
    · exact .inr ⟨still, kept_closeScope kept still⟩
  | accept => exact .inl rfl
  | done => exact .inr ⟨run, .refl _⟩
  | refuse _ _ _ ih | wait _ _ _ ih =>
    rcases ih run with acc | ⟨still, rest⟩
    · exact .inl acc
    · exact .inr ⟨still, rest.congr_left rfl⟩
  | stay _ _ fst others firstIh othersIh =>
    rcases firstIh run with acc | ⟨still, kept⟩
    · exact .inl (by rw [others.eq_of_accepted (by simp) acc, acc])
    · rcases othersIh still with acc | ⟨still, rest⟩
      · exact .inl acc
      · exact .inr ⟨still, (kept.trans rest).congr_left rfl⟩

end Explores

namespace Graph

variable {g : Graph} {s : Scheduler} {p : List Nat} {pc : Nat}
variable {st : Exploration} {v : Nat → Exploration → Exploration}

/-- All shared instructions on the way are marked, unless a match ends the closure anyway. -/
def Guarded (graph : Graph) (path : List Nat) (state : Exploration) : Prop :=
  state.accepted = false → ∀ other ∈ path, graph.summary.isShared other = true →
    state.scope.visited.testBit other = true

section

variable (guarded : g.Guarded p st)
include guarded

theorem Guarded.after {task : Task} {st' : Exploration}
    (explores : Explores g.summary s p task st st')
    (acc : st.accepted = true → st'.accepted = true) : g.Guarded p st' := by
  intro run j on shared
  have pre : st.accepted = false := by
    cases got : st.accepted with
    | false => rfl
    | true => simp [acc got] at run
  rcases explores.kept pre with ended | ⟨-, kept⟩
  · simp [run] at ended
  · exact kept.visited_mono j (guarded pre j on shared)

theorem Guarded.openScope (sl : Nat) (v : Int) (ref : Bool) :
    g.Guarded p (st.openScope sl v ref) := by
  intro run j on shared
  have marked := guarded run j on shared
  unfold Exploration.openScope
  cases ref <;> exact marked

variable {en : Exploration}

theorem Guarded.enter (run : st.accepted = false)
    (enters : (if g.summary.isShared pc then st.enter? pc else some st) = some en) :
    g.Guarded (pc :: p) en := by
  obtain ⟨kept, -, -, -, marks, -⟩ := enters_kept enters
  intro _ j on shared
  rcases List.mem_cons.mp on with rfl | earlier
  · exact marks shared
  · exact kept.visited_mono j (guarded run j earlier shared)

theorem Guarded.not_mem (ok : g.Valid) (trail : g.Trail p pc) (run : st.accepted = false)
    (enters : (if g.summary.isShared pc then st.enter? pc else some st) = some en) :
    pc ∉ p := by
  intro on
  have shared := trail.isShared ok on
  have marked := guarded run pc on shared
  rw [if_pos shared] at enters
  have unmarked := (enter?_eq_some enters).1
  simp [marked] at unmarked

end

theorem explores_options {es : List Extension} (visits : ∀ ext ∈ es, ∀ state, g.Guarded p state →
      Explores g.summary s p (.visit (g.follow ext.out.toNat)) state
        (v (g.follow ext.out.toNat) state)) (guarded : g.Guarded p st) :
    Explores g.summary s p (.options pc es) st (g.summary.exploreExtensions s v es st) := by
  induction es generalizing st with
  | nil => exact .done (.inl rfl)
  | cons ext r ih =>
    have others := fun {state : Exploration} (guarded : g.Guarded p state) =>
      @ih state (fun ext mem => visits ext (.tail _ mem)) guarded
    unfold exploreExtensions
    split
    · next acc => exact .done (.inr acc)
    · next notAccepted =>
      have run : st.accepted = false := by simpa using notAccepted
      dsimp only
      cases ev : ext.evaluate? s.text s.offset st.scope.captures with
      | none => exact .refuse run ev (others guarded)
      | some n =>
        cases n with
        | zero =>
          have counted : g.Guarded p (st.record (ext.records st.scope.captures)) := guarded
          have fst := visits ext (.head _) _ counted
          exact .stay run ev fst
            (others (counted.after fst fun acc => by simp [record, run] at acc))
        | succ n => exact .wait run ev (others guarded)

theorem explores_inst (positioned : s.holding = holdingAt s.text s.offset)
    (plain : g.extensionsAt? pc = none) (visits : ∀ t, g.Stays pc t → ∀ state, g.Guarded p state →
      Explores g.summary s p (.visit t) state (v t state)) (guarded : g.Guarded p st) :
    Explores g.summary s p (.perform pc) st (g.summary.exploreInst s v pc st) := by
  have eq : g.summary.inst pc = g.inst pc := rfl
  unfold exploreInst
  simp only [eq]
  cases op : (g.inst pc).op with
  | alt | altMatch =>
    have fst := visits _ (.out plain (by simp [op])) st guarded
    have snd := visits _ (.out1 plain (by simp [op])) _
      (guarded.after fst fun acc => by rw [fst.eq_of_accepted (by simp) acc, acc])
    exact .fork (fun c => by simp [branches, plain, op, out, out1])
      (by simp [successors, plain, op, Graph.exit, out])
      (by simp [successors, plain, op, Graph.exit, out1]) fst snd
  | byteRange => exact .bytes (by simp [isByteRange, plain, op])
  | capture =>
    have target : g.Stays pc _ := .out plain (by simp [op])
    dsimp only
    split
    · next tracked =>
      refine .capture (fun c => ?_) target.listed tracked
        (visits _ target _ (guarded.openScope _ _ _))
      have tracked : (g.inst pc).arg < s.query.slots := tracked
      simp [branches, plain, op, out, tracked]
    · next untracked =>
      refine .pass (fun c => ?_) target.listed (visits _ target st guarded)
      have untracked : ¬(g.inst pc).arg < s.query.slots := untracked
      simp [branches, plain, op, out, untracked]
  | emptyWidth =>
    have target : g.Stays pc _ := .out plain (by simp [op])
    dsimp only
    rw [positioned]
    split
    · next holds =>
      refine .pass (fun c => ?_) target.listed (visits _ target st guarded)
      have holds : satisfied (g.inst pc).arg
        (holdingAt s.query.text s.offset) = true := holds
      simp [branches, plain, op, out, holds]
    · next fails =>
      refine .stop fun c => ?_
      have fails : ¬satisfied (g.inst pc).arg
        (holdingAt s.query.text s.offset) = true := fails
      simp [branches, plain, op, fails]
  | nop =>
    have target : g.Stays pc _ := .out plain (by simp [op])
    exact .pass (fun c => by simp [branches, plain, op, out]) target.listed
      (visits _ target st guarded)
  | accept =>
    dsimp only
    split
    · next allowed =>
      refine .accept (fun c => ?_) allowed
      have allowed : s.query.mayMatchAt s.offset = true := allowed
      simp [branches, plain, op, allowed]
    · next refused =>
      refine .stop fun c => ?_
      have refused : ¬s.query.mayMatchAt s.offset = true := refused
      simp [branches, plain, op, refused]
  | fail | unknown => exact .stop fun c => by simp [branches, plain, op]

variable (ok : g.Valid) (positioned : s.holding = holdingAt s.text s.offset)

include ok positioned

theorem explores_explore (d : Nat) (trail : g.Trail p pc) (deep : g.size < d + p.length)
    (guarded : g.Guarded p st) :
    Explores g.summary s p (.visit pc) st (g.summary.explore s d pc st) := by
  induction d generalizing p pc st with
  | zero =>
    have le := trail.length_le ok
    omega
  | succ d ih =>
    unfold explore
    split
    · next acc => exact .halted acc
    next notAccepted =>
    have run : st.accepted = false := by simpa using notAccepted
    split
    · next blocked =>
      split at blocked
      · next shared =>
        refine .blocked run shared ?_
        unfold enter? at blocked
        split at blocked
        · assumption
        · simp at blocked
      · simp at blocked
    next en enters =>
    have new := guarded.not_mem ok trail run enters
    have guarded' := guarded.enter run enters
    refine .enter run new enters ?_
    have next : ∀ t, g.Stays pc t → ∀ state, g.Guarded (pc :: p) state →
        Explores g.summary s (pc :: p) (.visit t) state (g.summary.explore s d t state) := by
      intro t stays state guarded
      exact ih (.step trail new stays) (by rw [List.length_cons]; omega) guarded
    split
    · next es got =>
      have got : g.extensionsAt? pc = some es := got
      refine .extensions got (explores_options ?_ guarded')
      intro ext mem state guarded
      refine next _ ⟨?_, ?_⟩ state guarded
      · rw [successors_of_extensions got]
        exact List.mem_map.mpr ⟨ext, mem, rfl⟩
      · simp [isByteRange, got]
    · next plain => exact explores_inst positioned plain next guarded'

theorem explores_closure (entry : g.Entry pc) :
    Explores g.summary s [] (.visit pc) { scope := s.scope } (g.summary.closure s pc) :=
  explores_explore ok positioned _ (.entry entry) (by simp; omega)
    (fun _ _ on => False.elim (List.not_mem_nil on))

end Graph

/-- The captures of an exploration have all slots, its events are waits, and a match comes last. -/
structure Exploration.Tidy (sched : Scheduler) (state : Exploration) : Prop where
  size : state.scope.captures.size = sched.slots
  orderly : ∀ rest, (state.accepted = true → rest = []) →
    Event.Orderly sched.slots sched.mayMatch rest →
    Event.Orderly sched.slots sched.mayMatch (state.events.reverse ++ rest)

namespace Exploration.Tidy

variable {s : Scheduler} {st : Exploration}
variable {an : Analysis} {v : Nat → Exploration → Exploration}

theorem wait (tidy : st.Tidy s) (run : st.accepted = false) (e n : Nat) : (st.wait e n).Tidy s := by
  refine ⟨tidy.size, fun r _ ord => ?_⟩
  have longer := tidy.orderly (.wait e n st.scope.captures st.scope.visitId :: r)
    (by simp [run]) ⟨tidy.size, ord⟩
  simpa [Exploration.wait] using longer

theorem accept (tidy : st.Tidy s) (run : st.accepted = false) (n : Nat) :
    (st.accept.record n).Tidy s := by
  refine ⟨tidy.size, fun r none ord => ?_⟩
  obtain rfl := none rfl
  have longer := tidy.orderly [.accept st.scope.captures st.scope.visitId] (by simp [run])
    ⟨tidy.size, fun _ => rfl, trivial⟩
  simpa [Exploration.accept, record] using longer

theorem openScope (tidy : st.Tidy s) (sl : Nat) (v : Int) (ref : Bool) :
    (st.openScope sl v ref).Tidy s := by
  refine ⟨?_, tidy.orderly⟩
  rw [← tidy.size]
  cases ref <;> simp [Exploration.openScope]

theorem closeScope (tidy : st.Tidy s) (before : Exploration) (sl : Nat) (ref : Bool) :
    (st.closeScope before sl ref).Tidy s := by
  unfold Exploration.closeScope
  split
  · exact tidy
  · refine ⟨?_, tidy.orderly⟩
    rw [← tidy.size]
    cases ref <;> simp

section

variable (visits : ∀ pc state, state.Tidy s → (v pc state).Tidy s) (tidy : st.Tidy s)

include visits tidy

theorem exploreInst (run : st.accepted = false) (pc : Nat) : (an.exploreInst s v pc st).Tidy s := by
  unfold Analysis.exploreInst
  dsimp only
  cases (an.inst pc).op with
  | alt | altMatch => exact visits _ _ (visits _ _ tidy)
  | byteRange =>
    simp only [exploreBytes]
    split
    · have waited := tidy.wait run
        (an.exit (an.inst ((an.span pc).getLastD pc)).out) (an.span pc).length
      exact ⟨waited.size, waited.orderly⟩
    · exact tidy
  | capture =>
    dsimp only
    split
    · exact (visits _ _ (tidy.openScope _ _ _)).closeScope _ _ _
    · exact visits _ _ tidy
  | emptyWidth =>
    dsimp only
    split
    · exact visits _ _ tidy
    · exact tidy
  | nop => exact visits _ _ tidy
  | accept =>
    dsimp only
    split
    · exact tidy.accept run 1
    · exact tidy
  | fail | unknown => exact tidy

theorem exploreExtensions (es : List Extension) : (an.exploreExtensions s v es st).Tidy s := by
  induction es generalizing st with
  | nil => exact tidy
  | cons ext r ih =>
    unfold Analysis.exploreExtensions
    split
    · exact tidy
    · next notAccepted =>
      have run : st.accepted = false := by simpa using notAccepted
      have counted : (st.record (ext.records st.scope.captures)).Tidy s := ⟨tidy.size, tidy.orderly⟩
      apply ih
      split
      · exact counted
      · exact visits _ _ counted
      · exact counted.wait run _ _

end

theorem explore (an : Analysis) (d : Nat) {pc : Nat} (tidy : st.Tidy s) :
    (an.explore s d pc st).Tidy s := by
  induction d generalizing pc st with
  | zero => exact tidy
  | succ d ih =>
    unfold Analysis.explore
    split
    · exact tidy
    next notAccepted =>
    have run : st.accepted = false := by simpa using notAccepted
    split
    · exact tidy
    next en enters =>
    obtain ⟨kept, acc, events, -⟩ := enters_kept enters
    have tidy' : en.Tidy s :=
      ⟨by rw [kept.captures_eq, tidy.size], by rw [acc, events]; exact tidy.orderly⟩
    split
    · exact tidy'.exploreExtensions (fun pc state => ih) _
    · exact tidy'.exploreInst (fun pc state => ih) (acc.trans run) pc

end Exploration.Tidy

theorem Analysis.interpreter_orderly (an : Analysis) : an.interpreter.Orderly := by
  intro s e size
  unfold interpreter
  split
  · have tidy : (an.closure s e).Tidy s := Exploration.Tidy.explore an _ ⟨size, fun r _ ord => ord⟩
    refine ⟨?_, tidy.size⟩
    simpa using tidy.orderly [] (fun _ => rfl) trivial
  · exact ⟨trivial, size⟩

end Rematch
