import Mathlib.Data.Nat.Bitwise
import Rematch.Proofs.Matching.Entered
import Rematch.Proofs.Threads.Reuse

/-!
Automata whose matches begin at the begin of the text. A search that may begin anywhere starts a
thread at every offset, but all of these except the first come to nothing before they wait or match.
All that they leave behind is a visit id that was given out, and what closures do does not depend on
visit ids. So the search keeps to one that begins at the begin of the text only.
-/

namespace Rematch

open List Analysis Condition Front

def Event.rename (σ : Nat → Nat) : Event → Event
  | .wait entry count captures visit => .wait entry count captures (σ visit)
  | .accept captures visit => .accept captures (σ visit)
  | .fail => .fail

/-- The visit ids after `base` are those after `next`. -/
def Shifts (σ : Nat → Nat) (base next : Nat) : Prop :=
  ∀ visit, base < visit → σ visit = next + (visit - base)

def Scope.rename (σ : Nat → Nat) (scope : Scope) : Scope :=
  { scope with visitId := σ scope.visitId, lastVisitId := σ (scope.lastVisitId + 1) - 1 }

namespace Exploration

/-- An exploration with other visit ids. -/
def rename (σ : Nat → Nat) (state : Exploration) : Exploration :=
  { state with
    scope := state.scope.rename σ
    events := state.events.map (Event.rename σ) }

/-- All visit ids of an exploration were given out. -/
structure Known (state : Exploration) : Prop where
  current : state.scope.visitId ≤ state.scope.lastVisitId
  events : ∀ event ∈ state.events, event.visit ≤ state.scope.lastVisitId

/-- What is done to an exploration does not depend on its visit ids. -/
def Commutes (σ : Nat → Nat) (base : Nat) (change : Exploration → Exploration) : Prop :=
  ∀ state : Exploration, state.Known → base ≤ state.scope.lastVisitId →
    change (state.rename σ) = (change state).rename σ ∧ (change state).Known ∧
      state.scope.lastVisitId ≤ (change state).scope.lastVisitId

variable {σ : Nat → Nat} {b n : Nat} {f : Exploration → Exploration}

theorem commutes_id : Commutes σ b id := fun _ known _ => ⟨rfl, known, Nat.le_refl _⟩

theorem Commutes.comp {o : Exploration → Exploration} (snd : Commutes σ b o)
    (fst : Commutes σ b f) : Commutes σ b (o ∘ f) := by
  intro st known le
  obtain ⟨eq, known', further⟩ := fst st known le
  obtain ⟨eq', known'', further'⟩ := snd _ known' (Nat.le_trans le further)
  exact ⟨by rw [Function.comp, eq, eq']; rfl, known'', Nat.le_trans further further'⟩

theorem commutes_record (n : Nat) : Commutes σ b (·.record n) :=
  fun _ known _ => ⟨rfl, ⟨known.current, known.events⟩, Nat.le_refl _⟩

theorem commutes_wait (e n : Nat) : Commutes σ b (·.wait e n) :=
  fun _ known _ => ⟨rfl, ⟨known.current, forall_mem_cons.mpr ⟨known.current, known.events⟩⟩,
    Nat.le_refl _⟩

theorem commutes_accept : Commutes σ b accept :=
  fun _ known _ => ⟨rfl, ⟨known.current, forall_mem_cons.mpr ⟨known.current, known.events⟩⟩,
    Nat.le_refl _⟩

theorem closeScope_rename (st before : Exploration) (sl : Nat) (ref : Bool) :
    (st.rename σ).closeScope (before.rename σ) sl ref = (st.closeScope before sl ref).rename σ := by
  have eq : (st.rename σ).accepted = st.accepted := rfl
  unfold closeScope
  rw [eq]
  cases st.accepted <;> cases ref <;> rfl

theorem closeScope_visitId (st before : Exploration) (sl : Nat) (ref : Bool) :
    (st.closeScope before sl ref).scope.visitId = st.scope.visitId ∨
      (st.closeScope before sl ref).scope.visitId = before.scope.visitId := by
  unfold closeScope
  cases st.accepted <;> cases ref <;> simp

theorem Commutes.scoped (lt : Commutes σ b f) (shifts : Shifts σ b n) (sl : Nat)
    (v : Int) (ref : Bool) : Commutes σ b fun st =>
      (f (st.openScope sl v ref)).closeScope st sl ref := by
  intro st known le
  have opened : (st.rename σ).openScope sl v ref = (st.openScope sl v ref).rename σ := by
    cases ref with
    | false => rfl
    | true =>
      have here := shifts (st.scope.lastVisitId + 1) (by omega)
      have there := shifts (st.scope.lastVisitId + 1 + 1) (by omega)
      have new : σ (st.scope.lastVisitId + 1) - 1 + 1 = σ (st.scope.lastVisitId + 1) := by omega
      have last : σ (st.scope.lastVisitId + 1 + 1) - 1 = σ (st.scope.lastVisitId + 1) := by omega
      simp [openScope, rename, Scope.rename, new, last]
  have further : st.scope.lastVisitId ≤ (st.openScope sl v ref).scope.lastVisitId := by
    rw [openScope_lastVisitId]
    split <;> omega
  have known' : (st.openScope sl v ref).Known := by
    refine ⟨?_, fun ev mem => Nat.le_trans (known.events ev mem) further⟩
    have := known.current
    rw [openScope_lastVisitId, openScope_visitId]
    split <;> omega
  obtain ⟨eq, known'', further'⟩ := lt _ known' (Nat.le_trans le further)
  dsimp only
  refine ⟨?_, ⟨?_, ?_⟩, ?_⟩
  · rw [opened, eq, closeScope_rename]
  · rw [closeScope_lastVisitId]
    have := known''.current
    have := known.current
    rcases closeScope_visitId (f (st.openScope sl v ref)) st sl ref with eq | eq <;> omega
  · rw [closeScope_lastVisitId, closeScope_events]
    exact known''.events
  · rw [closeScope_lastVisitId]
    exact Nat.le_trans further further'

end Exploration

namespace Analysis

open Exploration

variable {an : Analysis} {s : Scheduler} {σ : Nat → Nat} {b n : Nat}
  {v : Nat → Exploration → Exploration}

theorem commutes_bytes (pc : Nat) : Commutes σ b (an.exploreBytes s pc) := by
  intro st known le
  unfold exploreBytes
  dsimp only
  split
  · exact (commutes_record 1).comp (commutes_wait _ _) st known le
  · exact commutes_id st known le

section

variable (visits : ∀ pc, Commutes σ b (v pc))

include visits

theorem commutes_extensions (es : List Extension) :
    Commutes σ b (an.exploreExtensions s v es) := by
  induction es with
  | nil => exact commutes_id
  | cons ext r ih =>
    intro st known le
    have recorded := @commutes_record σ b (ext.records st.scope.captures)
    have sameAccepted : (st.rename σ).accepted = st.accepted := rfl
    have sameCaptures : (st.rename σ).scope.captures = st.scope.captures := rfl
    simp only [exploreExtensions, sameAccepted, sameCaptures]
    split
    · exact commutes_id st known le
    · split
      · exact ih.comp recorded st known le
      · exact ih.comp ((visits _).comp recorded) st known le
      · exact ih.comp ((commutes_wait _ _).comp recorded) st known le

theorem commutes_inst (shifts : Shifts σ b n) (pc : Nat) :
    Commutes σ b (an.exploreInst s v pc) := by
  intro st known le
  unfold exploreInst
  dsimp only
  split
  · exact (visits _).comp (visits _) st known le
  · exact (visits _).comp (visits _) st known le
  · exact commutes_bytes pc st known le
  · split
    · exact (visits _).scoped shifts _ _ _ st known le
    · exact visits _ st known le
  · split
    · exact visits _ st known le
    · exact commutes_id st known le
  · exact visits _ st known le
  · split
    · exact (commutes_record 1).comp commutes_accept st known le
    · exact commutes_id st known le
  · exact commutes_id st known le
  · exact commutes_id st known le

theorem commutes_perform (shifts : Shifts σ b n) (pc : Nat) :
    Commutes σ b fun st =>
      match an.extensionsAt? pc with
      | some es => an.exploreExtensions s v es st
      | none => an.exploreInst s v pc st := by
  split
  · exact commutes_extensions visits _
  · exact commutes_inst visits shifts pc

end

theorem commutes_explore (shifts : Shifts σ b n) (d pc : Nat) :
    Commutes σ b (an.explore s d pc) := by
  induction d generalizing pc with
  | zero => exact commutes_id
  | succ d ih =>
    have performs := @commutes_perform an s _ _ _ _ ih shifts pc
    intro st known le
    have sameAccepted : (st.rename σ).accepted = st.accepted := rfl
    have sameVisited : (st.rename σ).scope.visited = st.scope.visited := rfl
    simp only [explore, sameAccepted]
    split
    · exact commutes_id st known le
    by_cases shared : an.isShared pc = true
    · simp only [shared, if_true, enter?, sameVisited]
      by_cases ent : st.scope.visited.testBit pc = true
      · simp only [ent, if_true]
        exact ⟨trivial, known, Nat.le_refl _⟩
      · simp only [ent]
        exact performs { st with
          scope := { st.scope with visited := st.scope.visited ||| 1 <<< pc } }
          ⟨known.current, known.events⟩ le
    · simp only [shared]
      exact performs st known le

variable {t fx fr : Scheduler}

theorem exploreExtensions_congr (text_eq : s.text = t.text)
    (offset_eq : s.offset = t.offset) (v : Nat → Exploration → Exploration)
    (es : List Extension) (st : Exploration) :
    an.exploreExtensions s v es st = an.exploreExtensions t v es st := by
  induction es generalizing st with
  | nil => rfl
  | cons ext r ih => simp [exploreExtensions, text_eq, offset_eq, ih]

/-- A closure depends on what a scheduler stands at, and not on its threads. -/
theorem explore_congr (text_eq : s.text = t.text) (offset_eq : s.offset = t.offset)
    (slots_eq : s.slots = t.slots) (holding_eq : s.holding = t.holding)
    (mayMatch_eq : s.mayMatch = t.mayMatch) (d : Nat) : an.explore s d = an.explore t d := by
  induction d with
  | zero => rfl
  | succ d ih =>
    funext pc st
    simp [explore, exploreExtensions_congr text_eq offset_eq, exploreInst, exploreBytes, text_eq,
      offset_eq, slots_eq, holding_eq, mayMatch_eq, ih]

variable (eq : ∀ d, an.explore fr d = an.explore fx d) (scope_eq : fr.scope = fx.scope.rename σ)
  (known : fx.scope.visitId ≤ fx.scope.lastVisitId) (shifts : Shifts σ fx.scope.lastVisitId n)
  (e : Nat)

include eq scope_eq known shifts e

theorem closure_rename :
    an.closure fr e = (an.closure fx e).rename σ ∧ (an.closure fx e).Known ∧
      fx.scope.lastVisitId ≤ (an.closure fx e).scope.lastVisitId := by
  unfold closure
  rw [eq, scope_eq]
  exact commutes_explore shifts _ e { scope := fx.scope } ⟨known, by simp⟩ (Nat.le_refl _)

theorem interpreter_rename :
    (an.interpreter fr e).events = (an.interpreter fx e).events.map (Event.rename σ) ∧
      (an.interpreter fr e).scope = (an.interpreter fx e).scope.rename σ ∧
      (∀ ev ∈ (an.interpreter fx e).events, ev.visit ≤ (an.interpreter fx e).scope.lastVisitId) ∧
      fx.scope.lastVisitId ≤ (an.interpreter fx e).scope.lastVisitId := by
  unfold interpreter
  split
  · obtain ⟨renamed, known', further⟩ := closure_rename eq scope_eq known shifts e
    rw [renamed]
    exact ⟨map_reverse.symm, rfl,
      fun ev mem => known'.events ev (mem_reverse.mp mem), further⟩
  · exact ⟨rfl, scope_eq, by simp, Nat.le_refl _⟩

end Analysis

namespace Graph

variable {g : Graph} {s : Scheduler} {pc : Nat}

/-- A way over captures and nops leads to a test for the begin of the text. -/
inductive TestsBegin (graph : Graph) : Nat → Prop where
  | here {pc : Nat} (op_eq : (graph.inst pc).op = .emptyWidth)
      (tested : (graph.inst pc).arg.testBit 2 = true) : TestsBegin graph pc
  | after {pc : Nat} (op_eq : (graph.inst pc).op = .capture ∨ (graph.inst pc).op = .nop)
      (rest : TestsBegin graph (graph.inst pc).out.toNat) : TestsBegin graph pc

theorem testsBegin_of_anchoredFrom? {n : Nat} {i : Int}
    (anc : g.automaton.anchoredFrom? n i = some true) : g.TestsBegin i.toNat := by
  induction n generalizing i with
  | zero => simp [Automaton.anchoredFrom?] at anc
  | succ n ih =>
    unfold Automaton.anchoredFrom? at anc
    split at anc
    · simp at anc
    · next x got =>
      have here : g.inst i.toNat = x := by
        unfold Automaton.inst? at got
        split at got
        · rw [Graph.inst, Array.getD_eq_getD_getElem?, got, Option.getD_some]
        · simp at got
      split at anc
      · next op => exact .after (.inl (by rw [here, op])) (by rw [here]; exact ih anc)
      · next op => exact .after (.inr (by rw [here, op])) (by rw [here]; exact ih anc)
      · next op =>
        refine .here (by rw [here, op]) ?_
        have tested : x.arg &&& 2 ^ 2 ≠ 0 := by simpa [beginText] using anc
        rw [here]
        cases bit : x.arg.testBit 2 with
        | true => rfl
        | false =>
          rw [Nat.and_two_pow, bit] at tested
          exact absurd rfl tested
      · simp at anc

theorem TestsBegin.follow (tests : g.TestsBegin pc) : g.TestsBegin (g.follow pc) := by
  unfold Graph.follow
  generalize g.size = n
  fun_induction followFrom g n pc with
  | case1 | case3 => exact tests
  | case2 n pc x isNop ih =>
    cases tests with
    | here op_eq => simp [isNop.1, x] at op_eq
    | after _ rest => exact ih rest

theorem testBit_holdingAt {t : Text} {k : Nat} (late : 0 < k) (lt : k ≤ t.size) :
    (holdingAt t k).testBit 2 = false := by
  have pre : t[k - 1]? = some _ := Array.getElem?_eq_getElem (by omega)
  have opens : opening t[k - 1]? = 0 ∨ opening t[k - 1]? = 1 := by
    rw [pre, opening]
    split <;> simp [beginLine]
  have closes : closing t[k]? ∈ [0, 2, 10] := by
    unfold closing
    split
    · simp [endText, endLine]
    · split <;> simp [endLine]
  rw [holdingAt, if_neg (by omega), between]
  simp only [mem_cons, not_mem_nil, or_false] at closes
  rcases opens with opens | opens <;> rcases closes with closes | closes | closes <;>
    rw [opens, closes] <;> split <;> decide

theorem not_satisfied {required holding : Nat} (tested : required.testBit 2 = true)
    (late : holding.testBit 2 = false) : satisfied required holding = false := by
  rw [satisfied, beq_eq_false_iff_ne]
  intro eq
  have bit := congrArg (Nat.testBit · 2) eq
  simp only [Nat.testBit_and, late, Bool.and_false, Nat.testBit_mod_two_pow required 8 2,
    tested] at bit
  simp at bit

variable (ok : g.Valid) (late : s.holding.testBit 2 = false)

include ok late

/-- Away from the begin of the text, such a way comes to nothing. -/
theorem explore_testsBegin (tests : g.TestsBegin pc) (d : Nat) (st : Exploration) :
    (g.summary.explore s d pc st).events = st.events ∧
      (g.summary.explore s d pc st).accepted = st.accepted := by
  induction d generalizing pc st with
  | zero => exact ⟨rfl, rfl⟩
  | succ d ih =>
    have sameGraph : g.summary.toGraph = g := rfl
    have plain : g.extensionsAt? pc = none := by
      refine Option.eq_none_iff_forall_ne_some.mpr fun es got => ?_
      have rng := (ok.extensions pc es got).1
      cases tests with
      | here op_eq => simp [rng] at op_eq
      | after op_eq => simp [rng] at op_eq
    have performs (st : Exploration) :
        (g.summary.exploreInst s (g.summary.explore s d) pc st).events = st.events ∧
          (g.summary.exploreInst s (g.summary.explore s d) pc st).accepted =
            st.accepted := by
      cases tests with
      | here op_eq tested =>
        simp only [exploreInst, sameGraph, op_eq, not_satisfied tested late]
        exact ⟨rfl, rfl⟩
      | after op_eq rest =>
        have below := @ih (g.exit (g.inst pc).out) rest.follow
        rcases op_eq with op | op
        · simp only [exploreInst, sameGraph, op]
          split
          · rw [Exploration.closeScope_events, Exploration.closeScope_accepted]
            exact below (st.openScope _ _ _)
          · exact below st
        · simp only [Analysis.exploreInst, sameGraph, op]
          exact below st
    unfold explore
    split
    · exact ⟨rfl, rfl⟩
    split
    · exact ⟨rfl, rfl⟩
    · next en enters =>
      obtain ⟨-, acc, events, -⟩ := Exploration.enters_kept enters
      rw [sameGraph, plain, ← events, ← acc]
      exact performs en

theorem interpreter_testsBegin (known : s.scope.visitId ≤ s.scope.lastVisitId)
    (tests : g.TestsBegin pc) :
    (g.summary.interpreter s pc).events = [] ∧
      s.scope.lastVisitId ≤ (g.summary.interpreter s pc).scope.lastVisitId := by
  unfold interpreter
  split
  · have none : (g.summary.closure s pc).events = [] := (explore_testsBegin ok late tests _ _).1
    have shifts : Shifts id s.scope.lastVisitId s.scope.lastVisitId := fun v new =>
      (Nat.add_sub_of_le (Nat.le_of_lt new)).symm
    obtain ⟨-, -, grows⟩ :=
      closure_rename (fun _ => rfl) (show s.scope = _ from rfl) known shifts pc
    simp only [none, reverse_nil]
    exact ⟨trivial, grows⟩
  · exact ⟨rfl, Nat.le_refl _⟩

end Graph

def Pending.rename (σ : Nat → Nat) (thread : Pending) : Pending :=
  { thread with visit := σ thread.visit }

namespace Front

/-- What an event makes of a front if the number of threads is not bounded. -/
def absorb (sched : Scheduler) (front : Front) : Event → Front
  | .wait entry count captures visit =>
    if count ≤ 0 ∨ (sched.remaining : Int) < count then front
    else { front with later := front.later ++ [⟨entry, count.toNat - 1, visit, captures⟩] }
  | .accept captures _ =>
    if sched.mayMatch then
      { front with now := [], best := some (captures.setIfInBounds 1 sched.offset) }
    else front
  | .fail => front

variable {f : Front}

theorem AbsorbsAll.eq_foldl {s : Scheduler} {evs : List Event} {f' : Front}
    (abs : AbsorbsAll s evs f f') (unb : s.maxThreads = 0) : f' = evs.foldl (absorb s) f := by
  induction abs with
  | nil => rfl
  | cons head _ ih =>
    rw [ih, foldl_cons]
    congr 1
    cases head with
    | wait fits => rw [absorb, if_neg fits]
    | misfit beyond => rw [absorb, if_pos beyond]
    | accept allowed => rw [absorb, if_pos allowed]
    | refuse early => simp [absorb, early]
    | lose bounded | loseMatch bounded => omega

/-- A front with other visit ids, and with more threads of the lowest priority. -/
def rename (σ : Nat → Nat) (seeds : List Pending) (front : Front) : Front where
  later := front.later.map (Pending.rename σ)
  now := front.now.map (Pending.rename σ) ++ if front.best.isSome then [] else seeds
  best := front.best

theorem rename_congr {σ τ : Nat → Nat} (sd : List Pending)
    (eq : ∀ t ∈ f.later ++ f.now, σ t.visit = τ t.visit) : f.rename σ sd = f.rename τ sd := by
  have renamed : ∀ t ∈ f.later ++ f.now, t.rename σ = t.rename τ :=
    fun t mem => by rw [Pending.rename, Pending.rename, eq t mem]
  unfold rename
  rw [map_congr_left fun t mem => renamed t (mem_append_left _ mem),
    map_congr_left fun t mem => renamed t (mem_append_right _ mem)]

theorem foldl_absorb_rename {fx fr : Scheduler} (offset_eq : fr.offset = fx.offset)
    (remaining_eq : fr.remaining = fx.remaining) (mayMatch_eq : fr.mayMatch = fx.mayMatch)
    (σ : Nat → Nat) (sd : List Pending) (evs : List Event) (f : Front) :
    (evs.map (Event.rename σ)).foldl (absorb fr) (f.rename σ sd) =
      (evs.foldl (absorb fx) f).rename σ sd := by
  induction evs generalizing f with
  | nil => rfl
  | cons ev evs ih =>
    rw [map_cons, foldl_cons, foldl_cons, ← ih]
    congr 1
    cases ev with
    | wait e n c v =>
      simp only [Event.rename, absorb, remaining_eq]
      split
      · rfl
      · simp [rename, Pending.rename]
    | accept c v =>
      simp only [Event.rename, absorb, mayMatch_eq, offset_eq]
      split
      · simp [rename]
      · rfl
    | fail => rfl

end Front

/-- The query that lets matches begin at the begin of the text only. -/
def Query.anchored (query : Query) : Query := { query with flags := query.flags ||| 1 }

theorem Query.anchorsStart_anchored (q : Query) : q.anchored.anchorsStart = true := by
  simp [anchored, anchorsStart]

theorem Scheduler.Begins.alike {q : Query} {fx fr : Scheduler} {k : Nat} {sc sc' : Scope}
    (beg : fr.Begins q k sc) (beg' : fx.Begins q.anchored k sc') (an : Analysis) :
    fr.remaining = fx.remaining ∧ fr.mayMatch = fx.mayMatch ∧
      ∀ d, an.explore fr d = an.explore fx d := by
  have text_eq : fr.text = fx.text :=
    (congrArg Query.text beg.query_eq).trans (congrArg Query.text beg'.query_eq).symm
  have slots_eq : fr.slots = fx.slots :=
    (congrArg Query.slots beg.query_eq).trans (congrArg Query.slots beg'.query_eq).symm
  have flags_eq : fx.flags = fr.flags ||| 1 :=
    (congrArg Query.flags beg'.query_eq).trans (congrArg (·.flags ||| 1) beg.query_eq).symm
  have offset_eq : fr.offset = fx.offset := beg.offset_eq.trans beg'.offset_eq.symm
  have holding_eq : fr.holding = fx.holding := by
    rw [beg.positioned, beg'.positioned, text_eq, offset_eq]
  have mayMatch_eq : fr.mayMatch = fx.mayMatch := by
    simp [Scheduler.mayMatch, Scheduler.anchorsEnd, text_eq, offset_eq, flags_eq, Nat.testBit_or,
      show Nat.testBit 1 1 = false by decide]
  exact ⟨by rw [Scheduler.remaining, Scheduler.remaining, text_eq, offset_eq], mayMatch_eq,
    explore_congr text_eq offset_eq slots_eq holding_eq mayMatch_eq⟩

namespace Search

/-- A search that may begin anywhere keeps to one that begins at the begin of the text: it has the
same threads, up to visit ids, and perhaps a thread that has just begun, or it goes on when the
other has come to an end without a match. -/
structure Twins (query : Query) (σ : Nat → Nat) (seeds : List Pending) (fixed free : Search) :
    Prop where
  offset_eq : free.offset = fixed.offset ∨ fixed.front = ⟨[], [], none⟩
  front_eq : free.front = fixed.front.rename σ seeds
  seeds_eq : seeds = [] ∨ seeds = [query.seed free.offset] ∧ 0 < free.offset
  known : ∀ thread ∈ fixed.front.later ++ fixed.front.now, thread.visit ≤ fixed.lastVisitId
  injective : ∀ first ≤ fixed.lastVisitId, ∀ second ≤ fixed.lastVisitId,
    σ first = σ second → first = second
  below : ∀ visit ≤ fixed.lastVisitId, σ visit ≤ free.lastVisitId
  owner : fixed.front.now ≠ [] → free.owner = fixed.owner.map σ ∧
    ∀ visit ∈ fixed.owner, visit ≤ fixed.lastVisitId ∧ free.visited = fixed.visited

variable {g : Graph} {q : Query} {σ : Nat → Nat} {sd : List Pending} {fx fr fr' z : Search}

variable {rn : Runner} {t : Pending} {l now sd' : List Pending} {best : Option Captures}
  {s : Scheduler} {owner : Option Nat}

theorem stuck (noNow : fx.front.now = []) (done : fx.isDone q = true)
    (reached : fx.Reaches rn q z) : z = fx := by
  rcases reached.cases_head with eq | ⟨m, step, -⟩
  · exact eq.symm
  · cases step with
    | postpone feq => simp [feq] at noNow
    | close feq => simp [feq] at noNow
    | advance _ unfinished => simp [done] at unfinished

/-- The visit ids of one search as those of another, once each has given out more. -/
def extend (σ : Nat → Nat) (last last' visit : Nat) : Nat :=
  if visit ≤ last then σ visit else last' + (visit - last)

theorem extend_of_le {z z' v : Nat} (old : v ≤ z) : extend σ z z' v = σ v := if_pos old

section

variable (twins : Twins q σ sd fx fr)

include twins

theorem Twins.scope_eq (mem : t ∈ fx.front.now) :
    fr.scope (t.rename σ) = (fx.scope t).rename (extend σ fx.lastVisitId fr.lastVisitId) := by
  have old : t.visit ≤ fx.lastVisitId := twins.known t (mem_append_right _ mem)
  obtain ⟨owner_eq, owners⟩ := twins.owner (ne_nil_of_mem mem)
  have visited_eq : (if fr.owner = some (σ t.visit) then fr.visited else 0) =
      if fx.owner = some t.visit then fx.visited else 0 := by
    rw [owner_eq]
    cases owned : fx.owner with
    | none => rfl
    | some v =>
      obtain ⟨known, eq⟩ := owners v owned
      have iff : σ v = σ t.visit ↔ v = t.visit := ⟨twins.injective v known t.visit old, congrArg σ⟩
      simp [iff, eq]
  have last_eq : extend σ fx.lastVisitId fr.lastVisitId (fx.lastVisitId + 1) - 1 =
      fr.lastVisitId := by
    rw [extend, if_neg (Nat.not_succ_le_self _)]
    omega
  unfold scope Scope.rename Pending.rename
  rw [visited_eq, extend_of_le old, last_eq]

theorem Twins.close (unb : q.maxThreads = 0) (feq : fx.front = ⟨l, t :: now, best⟩) {s' : Scheduler}
    {after v' : Front} {owner' : Option Nat} (beg : s.Begins q.anchored fx.offset (fx.scope t))
    (abs : Front.AbsorbsAll s (g.summary.interpreter s t.entry).events ⟨l, now, best⟩ after)
    (owned : after.now = [] ∨ owner = some t.visit)
    (beg' : s'.Begins q fr.offset (fr.scope (t.rename σ)))
    (abs' : Front.AbsorbsAll s' (g.summary.interpreter s' t.entry).events
      (rename σ sd ⟨l, now, best⟩) v')
    (owned' : v'.now = [] ∨ owner' = some (σ t.visit)) :
    Twins q (extend σ fx.lastVisitId fr.lastVisitId) sd
      { fx with
        front := after
        visited := (g.summary.interpreter s t.entry).scope.visited
        owner
        lastVisitId := (g.summary.interpreter s t.entry).scope.lastVisitId }
      { fr with
        front := v'
        visited := (g.summary.interpreter s' t.entry).scope.visited
        owner := owner'
        lastVisitId := (g.summary.interpreter s' t.entry).scope.lastVisitId } := by
  have mem : t ∈ fx.front.now := by rw [feq]; exact .head _
  have offset_eq : fr.offset = fx.offset := twins.offset_eq.resolve_right (by simp [feq])
  rw [offset_eq] at beg'
  obtain ⟨remaining_eq, mayMatch_eq, eq⟩ := beg'.alike beg g.summary
  have unb' : s.maxThreads = 0 := (congrArg Query.maxThreads beg.query_eq).trans unb
  have unb'' : s'.maxThreads = 0 := (congrArg Query.maxThreads beg'.query_eq).trans unb
  have known := twins.known
  rw [feq] at known
  have old : t.visit ≤ fx.lastVisitId := known t (by simp)
  have others : ∀ o ∈ l ++ now, o.visit ≤ fx.lastVisitId := fun o got =>
    known o (by rw [mem_append] at got ⊢; exact got.imp_right (.tail _))
  have shifts : Shifts (extend σ fx.lastVisitId fr.lastVisitId) fx.lastVisitId fr.lastVisitId :=
    fun v new => if_neg (Nat.not_le.mpr new)
  have scope_eq : s'.scope = s.scope.rename (extend σ fx.lastVisitId fr.lastVisitId) := by
    rw [beg'.scope_eq, beg.scope_eq, twins.scope_eq mem]
  have last_eq : s.scope.lastVisitId = fx.lastVisitId := by rw [beg.scope_eq]; rfl
  obtain ⟨events_eq, scope_eq', bounds, further⟩ := interpreter_rename eq scope_eq
    (by rw [last_eq, beg.scope_eq]; exact old) (by rw [last_eq]; exact shifts) t.entry
  rw [last_eq] at further
  have after_eq : v' = after.rename (extend σ fx.lastVisitId fr.lastVisitId) sd := by
    rw [abs'.eq_foldl unb'', abs.eq_foldl unb', events_eq,
      rename_congr sd fun o got => (extend_of_le (others o got)).symm,
      foldl_absorb_rename (beg'.offset_eq.trans beg.offset_eq.symm) remaining_eq mayMatch_eq]
  refine ⟨.inl offset_eq, after_eq, twins.seeds_eq, ?_, ?_, ?_, fun busy => ?_⟩
  · exact abs.forall (fun e n c v got => bounds _ got) fun o got =>
      Nat.le_trans (others o got) further
  · intro a firstKnown b secondKnown equal
    have injective := twins.injective a
    have below := twins.below a
    have below' := twins.below b
    unfold extend at equal
    split at equal <;> split at equal
    · next firstOld secondOld => exact injective firstOld b secondOld equal
    · next firstOld _ => have := below firstOld; omega
    · next _ secondOld => have := below' secondOld; omega
    · omega
  · intro v knownVisit
    have below := twins.below v
    change _ ≤ (g.summary.interpreter s' t.entry).scope.lastVisitId
    rw [scope_eq', Scope.rename, shifts _ (Nat.lt_succ_of_le further)]
    change v ≤ (g.summary.interpreter s t.entry).scope.lastVisitId at knownVisit
    unfold extend
    dsimp only
    split
    · next oldVisit => have := below oldVisit; omega
    · omega
  · obtain rfl := owned.resolve_left busy
    have busy' : v'.now ≠ [] := by
      rw [after_eq]
      simpa [rename] using fun empty => absurd empty busy
    refine ⟨?_, fun v got => ?_⟩
    · rw [owned'.resolve_left busy', Option.map_some, extend_of_le old]
    · cases got
      exact ⟨Nat.le_trans old further, by rw [scope_eq']; rfl⟩

/-- The first thread of the freer search is one of the other, or it has just begun. -/
theorem Twins.head (feq : fr.front = ⟨l, t :: now, best⟩) :
    (∃ l' t' now', fx.front = ⟨l', t' :: now', best⟩ ∧ t = t'.rename σ ∧
      ⟨l, now, best⟩ = rename σ sd ⟨l', now', best⟩) ∨
    (fx.front.now = [] ∧ t = q.seed fr.offset ∧ 0 < fr.offset ∧
      ⟨l, now, best⟩ = fx.front.rename σ []) := by
  have eq := feq.symm.trans twins.front_eq
  generalize fx.front = f at eq
  obtain ⟨l', now', best'⟩ := f
  obtain ⟨rfl, now_eq, rfl⟩ := Front.mk.inj eq
  cases now' with
  | cons t' now' =>
    cases now_eq
    exact .inl ⟨l', t', now', rfl, rfl, rfl⟩
  | nil =>
    right
    split at now_eq
    · simp at now_eq
    · rcases twins.seeds_eq with rfl | ⟨rfl, late⟩
      · simp at now_eq
      · cases now_eq
        exact ⟨rfl, rfl, late, by simp [rename]⟩

theorem Twins.postpone {l' now' : List Pending} (feq : fx.front = ⟨l', t :: now', best⟩)
    (req : ⟨l, now, best⟩ = rename σ sd ⟨l', now', best⟩) :
    Twins q σ sd { fx with front := ⟨l' ++ [{ t with delay := t.delay - 1 }], now', best⟩ }
      { fr with front := ⟨l ++ [{ t.rename σ with delay := t.delay - 1 }], now, best⟩ } := by
  have known := twins.known
  have owner := twins.owner (by simp [feq])
  rw [feq] at known
  cases req
  refine ⟨.inl (twins.offset_eq.resolve_right (by simp [feq])), ?_, twins.seeds_eq, ?_,
    twins.injective, twins.below, fun _ => owner⟩
  · simp [rename, Pending.rename]
  · intro o mem
    simp only [mem_append, mem_singleton] at mem
    rcases mem with (inLater | rfl) | inNow
    · exact known o (by simp [inLater])
    · exact known t (by simp)
    · exact known o (by simp [inNow])

end

/-- A thread that has begun later than the text does nothing. -/
theorem Twins.fade {v : Front} (ok : g.Valid)
    (tests : g.TestsBegin q.start) (twins : Twins q σ sd fx fr)
    (fits : fr.Fits q) (late : 0 < fr.offset) (noNow : fx.front.now = [])
    (beg : s.Begins q fr.offset (fr.scope (q.seed fr.offset)))
    (abs : Front.AbsorbsAll s (g.summary.interpreter s q.start).events (fx.front.rename σ []) v) :
    Twins q σ [] fx
      { fr with
        front := v
        visited := (g.summary.interpreter s q.start).scope.visited
        owner
        lastVisitId := (g.summary.interpreter s q.start).scope.lastVisitId } := by
  have text_eq : s.text = q.text := congrArg Query.text beg.query_eq
  have holding : s.holding.testBit 2 = false := by
    rw [beg.positioned, beg.offset_eq, text_eq]
    exact Graph.testBit_holdingAt late fits.offset
  obtain ⟨none, further⟩ := Graph.interpreter_testsBegin ok holding
    (by rw [beg.scope_eq]; exact Nat.zero_le _) tests
  rw [none] at abs
  rw [beg.scope_eq] at further
  cases abs
  exact ⟨twins.offset_eq, rfl, .inl rfl, twins.known, twins.injective,
    fun vi known => Nat.le_trans (twins.below vi known) further, fun busy => absurd noNow busy⟩

theorem Twins.advance (twins : Twins q σ sd fx fr)
    (feq : fx.front = ⟨l, [], best⟩) (eq : fr.offset = fx.offset)
    (seeded : sd' = [] ∨ sd' = [q.seed (fr.offset + 1)] ∧ best = none) :
    Twins q σ sd' { fx with offset := fx.offset + 1, front := ⟨[], l, best⟩, owner := none }
      { fr with
        offset := fr.offset + 1
        front := ⟨[], l.map (Pending.rename σ) ++ sd', best⟩
        owner := none } := by
  have known := twins.known
  rw [feq] at known
  refine ⟨.inl (by rw [eq]), ?_, seeded.imp_right fun begun => ⟨begun.1, Nat.succ_pos _⟩, ?_,
    twins.injective, twins.below, fun _ => ⟨rfl, by simp⟩⟩
  · rcases seeded with rfl | ⟨rfl, rfl⟩ <;> simp [rename]
  · simpa using known

/-- If nothing is left for one search, the other goes on with threads that come to nothing. -/
theorem Twins.idle (twins : Twins q σ sd fx fr)
    (idle : fx.front = ⟨[], [], none⟩) (seeded : sd' = [] ∨ sd' = [q.seed (fr.offset + 1)]) :
    Twins q σ sd' fx { fr with offset := fr.offset + 1, front := ⟨[], sd', none⟩, owner := none } :=
  ⟨.inr idle, by simp [idle, rename], seeded.imp_right fun begun => ⟨begun, Nat.succ_pos _⟩,
    twins.known, twins.injective, twins.below, fun busy => absurd (by rw [idle]) busy⟩

theorem busy (reached : fx.Reaches rn q z) (ended : z.front.now = [])
    (done : z.isDone q = true) (busy : fx.front.now ≠ [] ∨ fx.isDone q = false) :
    ∃ m, Step rn q fx m ∧ m.Reaches rn q z := by
  rcases reached.cases_head with rfl | got
  · rcases busy with busy | unfinished
    · exact absurd ended busy
    · simp [done] at unfinished
  · exact got

variable (ok : g.Valid) (tests : g.TestsBegin q.start) (unb : q.maxThreads = 0)
  (twins : Twins q σ sd fx fr) (fits : fr.Fits q)

include ok tests unb twins fits

theorem Twins.step (step : Step g.summary.interpreter q fr fr')
    (reached : fx.Reaches g.summary.interpreter q.anchored z) (ended : z.front.now = [])
    (done : z.isDone q.anchored = true) :
    ∃ fx' τ sd', fx'.Reaches g.summary.interpreter q.anchored z ∧ Twins q τ sd' fx' fr' := by
  cases step with
  | @postpone t l now best feq delayed =>
    rcases twins.head feq with ⟨l', t', now', fixed_eq, rfl, req⟩ | ⟨-, rfl, -⟩
    · obtain ⟨m, step, rest⟩ := busy reached ended done (.inl (by simp [fixed_eq]))
      cases step with
      | postpone eq =>
        obtain ⟨rfl, ⟨rfl, rfl⟩, rfl⟩ := by simpa using fixed_eq.symm.trans eq
        exact ⟨_, σ, sd, rest, twins.postpone fixed_eq req⟩
      | close eq due =>
        obtain ⟨-, ⟨rfl, -⟩, -⟩ := by simpa using fixed_eq.symm.trans eq
        exact absurd due (Nat.ne_of_gt delayed)
      | advance eq => simp [fixed_eq] at eq
    · exact absurd delayed (Nat.lt_irrefl 0)
  | @close t l now best v owner s feq due beg abs owned =>
    rcases twins.head feq with ⟨l', t', now', fixed_eq, rfl, req⟩ | ⟨noNow, rfl, late, req⟩
    · obtain ⟨m, step, rest⟩ := busy reached ended done (.inl (by simp [fixed_eq]))
      cases step with
      | postpone eq delayed =>
        obtain ⟨-, ⟨rfl, -⟩, -⟩ := by simpa using fixed_eq.symm.trans eq
        exact absurd due (Nat.ne_of_gt delayed)
      | close eq due' beg' abs' owned' =>
        obtain ⟨rfl, ⟨rfl, rfl⟩, rfl⟩ := by simpa using fixed_eq.symm.trans eq
        rw [req] at abs
        exact ⟨_, _, sd, rest, twins.close unb fixed_eq beg' abs' owned' beg abs owned⟩
      | advance eq => simp [fixed_eq] at eq
    · rw [req] at abs
      exact ⟨fx, σ, [], reached, twins.fade ok tests fits late noNow beg abs⟩
  | @advance l sd' best feq unfinished seeded =>
    have seeded' : sd' = [] ∨ sd' = [q.seed (fr.offset + 1)] ∧ best = none := by
      unfold Query.Seeds at seeded
      split at seeded
      · exact .inl seeded
      · next goesOn => exact .inr ⟨seeded.resolve_right (by omega), by simp_all⟩
    have eq := feq.symm.trans twins.front_eq
    cases fixed_eq : fx.front with
    | mk l' now' best' =>
      rw [fixed_eq] at eq
      obtain ⟨rfl, now_eq, rfl⟩ := Front.mk.inj eq
      obtain rfl : now' = [] := by simpa using (append_eq_nil_iff.mp now_eq.symm).1
      have finished_iff : fx.isDone q.anchored =
          (decide (q.text.size ≤ fx.offset) || l'.isEmpty) := by
        simp [isDone, fixed_eq, q.anchorsStart_anchored]
        rfl
      have unfinished_iff : fr.isDone q = (decide (q.text.size ≤ fr.offset) ||
          ((best.isSome || q.anchorsStart) && l'.isEmpty)) := by
        simp [isDone, feq]
      cases fin : fx.isDone q.anchored with
      | true =>
        have idle : fx.front = ⟨[], [], none⟩ := by
          rcases twins.offset_eq with eq | idle
          · rw [unfinished_iff, eq] at unfinished
            rw [Bool.or_eq_false_iff] at unfinished
            rw [finished_iff, unfinished.1, Bool.false_or, List.isEmpty_iff] at fin
            subst fin
            obtain ⟨rfl, -⟩ : best = none ∧ q.anchorsStart = false := by simpa using unfinished.2
            exact fixed_eq
          · exact idle
        cases fixed_eq.symm.trans idle
        exact ⟨fx, σ, sd', reached, twins.idle idle (seeded'.imp_right And.left)⟩
      | false =>
        have eq : fr.offset = fx.offset := by
          refine twins.offset_eq.resolve_right fun idle => ?_
          cases fixed_eq.symm.trans idle
          simp [finished_iff] at fin
        obtain ⟨m, step, rest⟩ := busy reached ended done (.inr fin)
        cases step with
        | postpone eq => simp [fixed_eq] at eq
        | close eq => simp [fixed_eq] at eq
        | advance feq' _ seeded'' =>
          cases fixed_eq.symm.trans feq'
          obtain rfl : _ = [] := by simpa [Query.Seeds, q.anchorsStart_anchored] using seeded''
          rw [append_nil] at rest
          exact ⟨_, σ, sd', rest, twins.advance fixed_eq eq seeded'⟩

theorem Twins.best_eq {z' : Search} (reached' : fr.Reaches g.summary.interpreter q z')
    (ended' : z'.front.now = []) (noLater : z'.front.later = [])
    (reached : fx.Reaches g.summary.interpreter q.anchored z) (ended : z.front.now = [])
    (done : z.isDone q.anchored = true) :
    z'.front.best = z.front.best := by
  induction reached' using Relation.ReflTransGen.head_induction_on generalizing fx σ sd with
  | refl =>
    have feq := twins.front_eq
    have now_eq : fx.front.now = [] := by
      rw [feq] at ended'
      simpa using (append_eq_nil_iff.mp ended').1
    have later_eq : fx.front.later = [] := by
      rw [feq] at noLater
      simpa [rename] using noLater
    have fin : fx.isDone q.anchored = true := by
      simp [isDone, now_eq, later_eq, q.anchorsStart_anchored]
    rw [stuck now_eq fin reached, feq]
    rfl
  | head step _ ih =>
    obtain ⟨fx', τ, sd', reached', twins'⟩ := twins.step ok tests unb fits step reached ended done
    exact ih twins' (step.fits fits) reached'

end Search

namespace Graph

open Scheduler (Finishes Used)

/-- If the automaton says that matches begin at the begin of the text, a search finds the same
whether or not it may begin elsewhere. -/
theorem result?_eq_of_isAnchored? {graph : Graph} {analysis : Analysis}
    (accepted : graph.analyze = .ok analysis) (anchored : graph.automaton.isAnchored? = some true)
    {sched sched' : Scheduler} (used : Used 0 sched) (used' : Used 0 sched')
    (text : Text) (flags slots : Nat) :
    (∃ free fixed,
      (sched.init text analysis.start flags slots).dispatch analysis.interpreter 0 = (false, free) ∧
      (sched'.init text analysis.start (flags ||| 1) slots).dispatch analysis.interpreter 0 =
        (false, fixed)) ∧
    ∀ free fixed, Finishes analysis.interpreter (sched.init text analysis.start flags slots) free →
      Finishes analysis.interpreter (sched'.init text analysis.start (flags ||| 1) slots) fixed →
      free.result? = fixed.result? := by
  obtain ⟨valid, rfl⟩ := analyze_eq_ok accepted
  have orderly := graph.summary.interpreter_orderly
  have shown := used.shows_init text graph.summary.start flags slots
  have shown' := used'.shows_init text graph.summary.start (flags ||| 1) slots
  refine ⟨?_, fun free fixed finishes finishes' => ?_⟩
  · obtain ⟨free, finished⟩ := Scheduler.dispatch_zero graph.summary.interpreter
      (sched.init text graph.summary.start flags slots)
    obtain ⟨fixed, finished'⟩ := Scheduler.dispatch_zero graph.summary.interpreter
      (sched'.init text graph.summary.start (flags ||| 1) slots)
    exact ⟨free, fixed, finished, finished'⟩
  · obtain ⟨last, reached, shownLast, noNow, done⟩ := finishes.reaches orderly shown
    obtain ⟨last', reached', shownLast', noNow', done'⟩ := finishes'.reaches orderly shown'
    have fits := Search.fits_initial_with ⟨text, flags, max slots 2, graph.summary.start, 0⟩
      sched.scope.visited
    have fits' := Search.fits_initial_with ⟨text, flags ||| 1, max slots 2, graph.summary.start, 0⟩
      sched'.scope.visited
    have noLater := (fits.reaches reached).later_eq_nil done
    have noLater' := (fits'.reaches reached').later_eq_nil done'
    have tests : graph.TestsBegin graph.start := (testsBegin_of_anchoredFrom? anchored).follow
    have twins : Search.Twins ⟨text, flags, max slots 2, graph.summary.start, 0⟩ id []
        { Search.initial ⟨text, flags ||| 1, max slots 2, graph.summary.start, 0⟩ with
          visited := sched'.scope.visited }
        { Search.initial ⟨text, flags, max slots 2, graph.summary.start, 0⟩ with
          visited := sched.scope.visited } :=
      ⟨.inl rfl, rfl, .inl rfl, by simp [Search.initial, Query.seed], fun _ _ _ _ same => same,
        fun _ known => known, fun _ => ⟨rfl, by simp [Search.initial]⟩⟩
    rw [shownLast.result?_eq noLater noNow, shownLast'.result?_eq noLater' noNow',
      twins.best_eq valid tests rfl fits reached noNow noLater reached' noNow' done']

/-- The automaton of a letter at the begin of the text, and the same letter once more. -/
def twiceFirst : Graph where
  automaton :=
    { insts := #[{ op := .capture, arg := 2, out := 1 },
        { op := .emptyWidth, arg := Condition.beginText, out := 2 },
        { op := .byteRange, lo := 0x61, hi := 0x7A, out := 3 },
          { op := .capture, arg := 3, out := 4 },
        { op := .byteRange, out := 5 }, { op := .accept }]
      start := 0
      slots := 4 }
  overlay := [(4, [{ kind := .backreference, arg := 1, out := 5 }])]

theorem result?_twiceFirst :
    ∃ free fixed, Finishes twiceFirst.summary.interpreter
        ((Scheduler.new twiceFirst.size 0).init #[0x62, 0x62] twiceFirst.summary.start 0 4) free ∧
      Finishes twiceFirst.summary.interpreter
        ((Scheduler.new twiceFirst.size 0).init #[0x62, 0x62] twiceFirst.summary.start 1 4) fixed ∧
      free.result? = some #[0, 2, 0, 1] ∧ fixed.result? = some #[0, 2, 0, 1] := by
  obtain ⟨⟨free, fixed, finished, finished'⟩, same⟩ := result?_eq_of_isAnchored?
    (show twiceFirst.analyze = .ok twiceFirst.summary from rfl) (by decide +kernel)
    (.new twiceFirst.size) (.new twiceFirst.size) #[0x62, 0x62] 0 4
  have found : free.result? = some #[0, 2, 0, 1] := by
    have final : free = (((Scheduler.new twiceFirst.size 0).init #[0x62, 0x62]
        twiceFirst.summary.start 0 4).dispatch twiceFirst.summary.interpreter 0).2 := by
          rw [finished]
    rw [final]
    decide +kernel
  exact ⟨free, fixed, .done finished, .done finished', found,
    (same free fixed (.done finished) (.done finished')).symm.trans found⟩

end Graph

end Rematch
