import Rematch.Proofs.Matching.Backtracking
import Rematch.Proofs.Matching.Soundness
import Rematch.Proofs.Threads.Outlook

/-!
Preference: where instruction and offset decide what backreferences read, and so without
backreferences, a search reports what backtracking finds first. An instruction that was entered need
not be entered again: backtracking would cut it off, being on the path, or it is known that no match
comes from it.
-/

namespace Rematch

open List Exploration Rematch.Task

def Event.found (graph : Graph) (query : Query) (offset : Nat) : Event → Option Captures
  | .wait entry count captures _ => graph.attempt query [] ⟨entry, offset + count.toNat, captures⟩
  | .accept captures _ => some (captures.setIfInBounds 1 offset)
  | .fail => none

def Graph.found (graph : Graph) (query : Query) (entry offset : Nat) (captures : Captures) :
    Option Captures :=
  graph.attempt query [] ⟨entry, offset, captures⟩

/-- What backtracking finds where an exploration begins. -/
def Task.found (graph : Graph) (query : Query) (offset : Nat) (path : List Nat)
    (captures : Captures) : Task → Option Captures
  | .visit pc => graph.attempt query path ⟨pc, offset, captures⟩
  | .perform pc =>
    (graph.branches query ⟨pc, offset, captures⟩).findSome?
      (graph.tryBranch query path.tail ⟨pc, offset, captures⟩)
  | .options pc exts =>
    (exts.filterMap fun ext => ext.branch? query.text ⟨pc, offset, captures⟩).findSome?
      (graph.tryBranch query path.tail ⟨pc, offset, captures⟩)

def Task.IsTop (path : List Nat) : Task → Prop
  | .visit _ => True
  | .perform pc | .options pc _ => path = pc :: path.tail

namespace Graph

variable {g : Graph} {q : Query} {s : Scheduler} {p : List Nat} {task : Task}
  {st st' : Exploration} {k visited : Nat}
variable {pc : Nat} {pt : Point}

/-- What was entered is on the path, or no match comes from it. -/
def Spent (graph : Graph) (query : Query) (offset : Nat) (path : List Nat) (visited : Nat) : Prop :=
  ∀ pc, visited.testBit pc = true → pc ∈ path ∨ graph.Barren query offset path pc

def Settled (graph : Graph) (pc : Nat) : Prop := graph.IsNop pc → graph.Endless pc

theorem Valid.settled_follow (ok : g.Valid) (pc : Nat) : g.Settled (g.follow pc) :=
  fun nop => ok.endless_follow nop.1

theorem attempt_follow (ok : g.Valid) (settled : ∀ pc ∈ p, g.Settled pc)
    (pc k : Nat) (c : Captures) : g.attempt q p ⟨g.follow pc, k, c⟩ = g.attempt q p ⟨pc, k, c⟩ :=
  attempt_followFrom (fun _ => ok.isNop) settled g.size pc k c

theorem attempt_start (ok : g.Valid) (start : q.start = g.start) (k : Nat) :
    g.attempt q [] ⟨q.start, k, q.blank k⟩ = g.attempt q [] (g.origin q k) := by
  rw [start]
  exact attempt_follow ok (by simp) _ _ _

theorem tryBranches_bytes (ok : g.Valid) (rng : g.isByteRange pc = true) (k : Nat) (c : Captures) :
    (g.branches q ⟨pc, k, c⟩).findSome? (g.tryBranch q p ⟨pc, k, c⟩) =
      if (q.text[k]?).any (g.inst pc).accepts then
        g.attempt q [] ⟨g.exit (g.inst pc).out, k + 1, c⟩
      else none := by
  rw [branches_of_isByteRange rng]
  split
  · have skipped : g.attempt q [] ⟨g.exit (g.inst pc).out, k + 1, c⟩ =
        g.attempt q [] ⟨g.out pc, k + 1, c⟩ :=
      attempt_follow ok (by simp) _ _ _
    rw [skipped]
    simp [tryBranch]
  · rfl

theorem lt_of_isByteRange (rng : g.isByteRange pc = true) : pc < g.size := by
  apply lt_of_op_ne_fail
  simp only [isByteRange, Bool.and_eq_true, decide_eq_true_eq] at rng
  simp [rng.1]

theorem tryBranches_stretch (ok : g.Valid) {r : List Nat}
    (stretch : g.Stretch (pc :: r)) (k : Nat) (c : Captures) :
    (g.branches q ⟨pc, k, c⟩).findSome? (g.tryBranch q p ⟨pc, k, c⟩) =
      if g.summary.spanMatches q.text k (pc :: r) then
        g.attempt q [] ⟨g.exit (g.inst ((pc :: r).getLastD pc)).out, k + (pc :: r).length, c⟩
      else none := by
  induction r generalizing pc k p with
  | nil =>
    rw [tryBranches_bytes ok (stretch.bytes pc (.head _))]
    simp only [Analysis.spanMatches, Bool.and_true, summary_toGraph]
    rfl
  | cons n r ih =>
    obtain ⟨next_eq, linked⟩ := isChain_cons_cons.mp stretch.linked
    have tail : g.Stretch (n :: r) := ⟨linked, fun m mem => stretch.bytes m (.tail _ mem)⟩
    rw [tryBranches_bytes ok (stretch.bytes pc (.head _)), ← next_eq,
      attempt_of_fresh (lt_of_isByteRange (tail.bytes n (.head _))) (by simp),
      ih tail]
    have whole : g.summary.spanMatches q.text k (pc :: n :: r) =
        ((q.text[k]?).any (g.inst pc).accepts &&
          g.summary.spanMatches q.text (k + 1) (n :: r)) := rfl
    have offsets : k + 1 + (n :: r).length = k + (pc :: n :: r).length := by
      simp only [length_cons]
      omega
    rw [whole, offsets]
    simp only [getLastD_cons]
    cases (q.text[k]?).any (g.inst pc).accepts <;> simp

/-- The events that were added lead to what backtracking finds, and without a match, what was
entered is spent. -/
structure Answers (graph : Graph) (sched : Scheduler) (path : List Nat) (found : Option Captures)
    (state after : Exploration) : Prop where
  found_eq : ∃ new, after.events = new ++ state.events ∧
    new.reverse.findSome? (Event.found graph sched.query sched.offset) = found
  spent : found = none → after.accepted = false ∧
    graph.Spent sched.query sched.offset path after.scope.visited

theorem Answers.append {a b : Option Captures} {m : Exploration} (answers : g.Answers s p a st m)
    (events : ∃ new, st'.events = new ++ m.events) (continues : a = none → g.Answers s p b m st') :
    g.Answers s p (a.or b) st st' := by
  obtain ⟨firstNew, firstEq, firstFound⟩ := answers.found_eq
  cases a with
  | some c =>
    obtain ⟨new, eventsEq⟩ := events
    refine ⟨⟨new ++ firstNew, by rw [eventsEq, firstEq, append_assoc], ?_⟩, by simp⟩
    rw [reverse_append, findSome?_append, firstFound]
    rfl
  | none =>
    obtain ⟨⟨secondNew, secondEq, secondFound⟩, spent⟩ := continues rfl
    refine ⟨⟨secondNew ++ firstNew, by rw [secondEq, firstEq, append_assoc], ?_⟩, spent⟩
    rw [reverse_append, findSome?_append, firstFound, secondFound]

theorem Spent.cons (spent : g.Spent q k p visited) (pc : Nat) : g.Spent q k (pc :: p) visited := by
  intro j ent
  rcases spent j ent with on | barren
  · exact .inl (.tail _ on)
  · exact .inr (barren.mono (subset_cons_self _ _))

theorem Spent.leave (spent : g.Spent q k (pc :: p) visited) (barren : g.Barren q k p pc) :
    g.Spent q k p visited := by
  intro j ent
  rcases spent j ent with on | got
  · rcases mem_cons.mp on with rfl | earlier
    · exact .inr barren
    · exact .inl earlier
  · exact .inr fun c leads => @attempt_of_cons _ _ _ ⟨j, k, c⟩ _ barren leads (got c leads)

theorem Valid.branches_of_size_le (ok : g.Valid) (outside : g.size ≤ pt.pc) :
    g.branches q pt = [] := by
  have op : (g.inst pt.pc).op = .fail := by rw [inst_of_size_le outside]
  cases plain : g.extensionsAt? pt.pc with
  | some es =>
    have rng := (ok.extensions _ es plain).1
    rw [op] at rng
    exact Opcode.noConfusion rng
  | none => simp [branches, plain, op]

theorem Valid.attempt_of_not_mem (ok : g.Valid) (new : pt.pc ∉ p) :
    g.attempt q p pt = (g.branches q pt).findSome? (g.tryBranch q p pt) := by
  rcases Nat.lt_or_ge pt.pc g.size with lt | outside
  · exact attempt_of_fresh lt new
  · rw [attempt_of_size_le outside, ok.branches_of_size_le outside]
    rfl

theorem tryBranch_stay (ok : g.Valid) (top : p = pc :: p.tail)
    (settled : ∀ pc ∈ p, g.Settled pc) (t : Nat) (c c' : Captures) :
    g.tryBranch q p.tail ⟨pc, k, c⟩ (.step ⟨t, k, c'⟩) = g.attempt q p ⟨g.follow t, k, c'⟩ := by
  rw [attempt_follow ok settled]
  simp only [tryBranch, if_true]
  rw [← top]

theorem tryBranch_move (ok : g.Valid) {t n : Nat} (c : Captures) :
    g.tryBranch q p ⟨pc, k, c⟩ (.step ⟨t, k + (n + 1), c⟩) =
      g.attempt q [] ⟨g.follow t, k + (n + 1), c⟩ := by
  rw [attempt_follow ok (by simp)]
  simp [tryBranch]

theorem Answers.congr {found : Option Captures} {state' st'' : Exploration}
    (answers : g.Answers s p found st st') (sameEvents : state'.events = st.events)
    (sameAfter : st''.events = st'.events) (sameAccepted : st''.accepted = st'.accepted)
    (spent : g.Spent s.query s.offset p st'.scope.visited →
      g.Spent s.query s.offset p st''.scope.visited) : g.Answers s p found state' st'' := by
  obtain ⟨⟨new, eventsEq, foundEq⟩, spentBefore⟩ := answers
  refine ⟨⟨new, by rw [sameAfter, eventsEq, sameEvents], foundEq⟩, fun none => ?_⟩
  obtain ⟨run, spentAfter⟩ := spentBefore none
  exact ⟨sameAccepted.trans run, spent spentAfter⟩

theorem answers_of_explores (ok : g.Valid) (steady : g.Steady s.query) {o : Point}
    (leads : g.Leads s.query o) (explores : Explores g.summary s p task st st')
    (run : st.accepted = false) (top : task.IsTop p) (settled : ∀ pc ∈ p, g.Settled pc)
    (arrives : ∀ pc, task = .visit pc → g.Settled pc)
    (follows : task.Follows g s.query s.offset o st.scope.captures)
    (spent : g.Spent s.query s.offset p st.scope.visited) :
    g.Answers s p (task.found g s.query s.offset p st.scope.captures) st st' := by
  have landing {t : Nat} : ∀ pc, visit (g.follow t) = .visit pc → g.Settled pc := by
    rintro _ ⟨⟩
    exact ok.settled_follow t
  have branch {ext : Extension} (pc : Nat) {c : Captures} {n : Option Nat}
      (ev : ext.evaluate? s.text s.offset c = n) :
      ext.branch? s.query.text ⟨pc, s.offset, c⟩ =
        n.map fun m => .step ⟨ext.out.toNat, s.offset + m, c⟩ := by
    rw [← ev]
    rfl
  induction explores with
  | halted acc => simp [run] at acc
  | @blocked path pc state _ _ ent =>
    have no : g.attempt s.query path ⟨pc, s.offset, state.scope.captures⟩ = none := by
      rcases spent pc ent with on | barren
      · exact attempt_of_mem on
      · exact barren _ (leads.trans follows)
    exact ⟨⟨[], rfl, no.symm⟩, fun _ => ⟨run, spent⟩⟩
  | @enter path pc state en after _ new enters performs ih =>
    obtain ⟨kept, acc, events, -, -, marks⟩ := enters_kept enters
    have arrived : g.Settled pc := arrives pc rfl
    have settled' : ∀ j ∈ pc :: path, g.Settled j := by
      intro j on
      rcases mem_cons.mp on with rfl | earlier
      · exact arrived
      · exact settled j earlier
    have spent' : g.Spent s.query s.offset (pc :: path) en.scope.visited := by
      intro j marked
      rcases marks j marked with rfl | pre
      · exact .inl (.head _)
      · exact spent.cons pc j pre
    have answers := ih (acc.trans run) rfl settled' (by simp)
      (by rw [kept.captures_eq]; exact follows) spent'
    have whole : Task.found g s.query s.offset (pc :: path) en.scope.captures
        (.perform pc) = g.attempt s.query path ⟨pc, s.offset, state.scope.captures⟩ := by
      rw [kept.captures_eq, ok.attempt_of_not_mem new]
      rfl
    rw [whole] at answers
    obtain ⟨⟨added, eventsEq, foundEq⟩, spentAfter⟩ := answers
    refine ⟨⟨added, by rw [eventsEq, events], foundEq⟩, fun no => ?_⟩
    obtain ⟨stillRunning, left⟩ := spentAfter no
    exact ⟨stillRunning, left.leave (steady.barren (leads.trans follows) no)⟩
  | @extensions path pc es state after got _ ih =>
    have got : g.extensionsAt? pc = some es := got
    have answers := ih run top settled (by simp) (follows_options got follows) spent
    simpa [Task.found, branches, got] using answers
  | @fork path pc state mid after offers _ _ fst snd firstIh secondIh =>
    have offers : g.branches s.query ⟨pc, s.offset, state.scope.captures⟩ = _ := offers _
    rw [Task.found, offers, findSome?_cons_or, findSome?_singleton,
      tryBranch_stay ok top settled, tryBranch_stay ok top settled]
    have answers := firstIh run trivial settled landing
      (follows_visit ok follows offers (.head _)) spent
    refine answers.append snd.events_eq fun no => ?_
    obtain ⟨stillRunning, left⟩ := answers.spent no
    have kept := ((fst.kept run).resolve_left (by simp [stillRunning])).2
    have toSecond := follows_visit ok follows offers (.tail _ (.head _))
    rw [← kept.captures_eq] at toSecond
    have rest := secondIh stillRunning trivial settled landing toSecond left
    rw [kept.captures_eq] at rest
    exact rest
  | @bytes path pc state rng =>
    obtain ⟨stretch, rest, parts⟩ := span_stretch g rng
    obtain ⟨sameScope, sameAccepted⟩ := Explores.exploreBytes_scope g.summary s pc state
    have left : (g.summary.exploreBytes s pc state).accepted = false ∧
        g.Spent s.query s.offset path (g.summary.exploreBytes s pc state).scope.visited := by
      rw [sameAccepted, sameScope]
      exact ⟨run, spent⟩
    rw [Task.found, tryBranches_stretch ok (parts ▸ stretch), ← parts]
    split
    · next matching =>
      refine ⟨⟨[_], Explores.exploreBytes_events matching, ?_⟩, fun _ => left⟩
      rw [reverse_singleton, findSome?_singleton, Event.found, Int.toNat_natCast]
      rfl
    · next mismatch =>
      exact ⟨⟨[], by rw [Explores.exploreBytes_of_mismatch mismatch]; rfl, rfl⟩, fun _ => left⟩
  | @capture path pc sl state after offers _ tracked lt ih =>
    have offers : g.branches s.query ⟨pc, s.offset, state.scope.captures⟩ = _ := offers _
    rw [Task.found, offers, findSome?_singleton, tryBranch_stay ok top settled]
    rw [Exploration.openScope_accepted, Exploration.openScope_captures,
      Exploration.openScope_visited] at ih
    have answers := ih run trivial settled landing (follows_visit ok follows offers (.head _)) spent
    refine answers.congr (openScope_events ..).symm (closeScope_events ..)
      (closeScope_accepted ..) fun left => ?_
    rcases closeScope_visited after state sl _ with eq | eq
    · exact eq ▸ left
    · exact eq ▸ spent
  | @pass path pc state after offers _ _ ih =>
    have offers : g.branches s.query ⟨pc, s.offset, state.scope.captures⟩ = _ := offers _
    rw [Task.found, offers, findSome?_singleton, tryBranch_stay ok top settled]
    exact ih run trivial settled landing (follows_visit ok follows offers (.head _)) spent
  | @stop path pc state offers =>
    have offers : g.branches s.query ⟨pc, s.offset, state.scope.captures⟩ = [] := offers _
    exact ⟨⟨[], rfl, by simp [Task.found, offers]⟩, fun _ => ⟨run, spent⟩⟩
  | @accept path pc state offers =>
    have offers : g.branches s.query ⟨pc, s.offset, state.scope.captures⟩ = [.accept] := offers _
    refine ⟨⟨[_], rfl, ?_⟩, ?_⟩ <;> simp [Task.found, offers, tryBranch, Event.found]
  | @done path pc es state fin =>
    have empty : es = [] := fin.resolve_right (by simp [run])
    exact ⟨⟨[], rfl, by simp [Task.found, empty]⟩, fun _ => ⟨run, spent⟩⟩
  | @refuse path pc ext rest state after _ ev _ ih =>
    have answers := ih run top settled (by simp)
      (fun ext inRest => follows ext (.tail _ inRest)) spent
    rw [Task.found, filterMap_cons_none (f := fun ext : Extension => ext.branch? _ _)
      (branch pc ev)]
    exact answers.congr rfl rfl rfl id
  | @stay path pc ext rest state mid after _ ev fst others firstIh othersIh =>
    have answers := firstIh run trivial settled landing
      ((follows _ (.head _) 0 ev).trans (path_follow ok _ _ _)) spent
    rw [Task.found, filterMap_cons_some (f := fun ext : Extension => ext.branch? _ _)
      (branch pc ev), findSome?_cons_or]
    simp only [Nat.add_zero, tryBranch_stay ok top settled]
    have fst' : g.Answers s path _ state mid := answers.congr rfl rfl rfl id
    refine fst'.append others.events_eq fun no => ?_
    obtain ⟨stillRunning, left⟩ := answers.spent no
    have kept := ((fst.kept run).resolve_left (by simp [stillRunning])).2
    have tries := othersIh stillRunning top settled (by simp) (by
      rw [kept.captures_eq]
      exact fun ext inRest => follows ext (.tail _ inRest)) left
    rw [kept.captures_eq] at tries
    exact tries
  | @wait path pc ext rest m state after _ ev others ih =>
    have answers := ih run top settled (by simp)
      (fun ext inRest => follows ext (.tail _ inRest)) spent
    rw [Task.found, filterMap_cons_some (f := fun ext : Extension => ext.branch? _ _)
      (branch pc ev),
      findSome?_cons_or, tryBranch_move ok]
    have waits : g.Answers s path
        (g.attempt s.query []
          ⟨g.follow ext.out.toNat, s.offset + (m + 1), state.scope.captures⟩) state
        ((state.record (ext.records state.scope.captures)).wait (g.follow ext.out.toNat) (m + 1)) :=
      ⟨⟨[_], rfl, by simp only [reverse_singleton, findSome?_singleton, Event.found,
        Int.toNat_natCast]; rfl⟩, fun _ => ⟨run, spent⟩⟩
    exact waits.append others.events_eq fun _ => answers

theorem Entry.settled (ok : g.Valid) (entry : g.Entry pc) : g.Settled pc := by
  cases entry with
  | start | bytes | extension => exact ok.settled_follow _

end Graph

namespace Search

variable {g : Graph} {q : Query} {first z : Search} {s : Scheduler} {f f' : Front}
  {evs : List Event}

theorem leadsTo_eq {ev : Event} (fits : ev.Fits s) :
    s.leadsTo (g.found s.query) ev = ev.found g s.query s.offset := by
  cases ev with
  | wait => rw [Scheduler.leadsTo, if_neg fits]; rfl
  | accept => exact if_pos fits
  | fail => rfl

theorem findSome?_leadsTo (fits : ∀ ev ∈ evs, ev.Fits s) :
    evs.findSome? (s.leadsTo (g.found s.query)) =
      evs.findSome? (Event.found g s.query s.offset) := by
  induction evs with
  | nil => rfl
  | cons ev r ih =>
    rw [findSome?_cons_or, findSome?_cons_or, leadsTo_eq (fits ev (.head _)),
      ih fun o mem => fits o (.tail _ mem)]

/-- Once a closure leads to a match, no thread that runs later at the offset matters. -/
theorem decided_absorb (g : Graph) (abs : Front.AbsorbsAll s evs f f')
    (unb : s.maxThreads = 0) (fits : ∀ ev ∈ evs, ev.Fits s)
    (got : (foundBy (g.found s.query) (s.offset + 1) f.later).isSome ∨ f.now = [] ∨
      (evs.findSome? (Event.found g s.query s.offset)).isSome) :
    (foundBy (g.found s.query) (s.offset + 1) f'.later).isSome ∨ f'.now = [] := by
  induction abs with
  | nil => simpa using got
  | cons head tail ih =>
    have fitting := fits _ (.head _)
    apply ih fun ev mem => fits ev (.tail _ mem)
    cases head with
    | @wait e v n c fr within =>
      rw [findSome?_cons_or, Option.isSome_or, Bool.or_eq_true] at got
      rw [foundBy_append, foundBy_wait (by omega), Option.isSome_or, Bool.or_eq_true]
      rcases got with pre | empty | new | rest
      · exact .inl (.inl pre)
      · exact .inr (.inl empty)
      · exact .inl (.inr new)
      · exact .inr (.inr rest)
    | misfit beyond => exact False.elim (fitting beyond)
    | lose bounded | loseMatch bounded => omega
    | refuse early => simp [Event.Fits, early] at fitting
    | accept => exact .inr (.inl rfl)

/-- What was entered at an offset matters no more, or no match comes from it. -/
def Decided (graph : Graph) (query : Query) (search : Search) : Prop :=
  (foundBy (graph.found query) (search.offset + 1) search.front.later).isSome ∨
    search.front.now = [] ∨ search.owner = none ∨ graph.Spent query search.offset [] search.visited

theorem Sound.size_captures {t : Pending} {k : Nat} (sound : Sound g q k f) (mem : t ∈ f.now) :
    t.captures.size = q.slots := by
  obtain ⟨begun, -, -, path⟩ := sound.now t mem
  rw [path.size_captures]
  simp [Graph.origin, Query.blank]

theorem Step.preserves_outlook (ok : g.Valid) (steady : g.Steady q) (unb : q.maxThreads = 0)
    (step : first.Step g.summary.interpreter q z) (ent : first.Entered g) (fits : first.Fits q)
    (sound : Sound g q first.offset first.front) (decided : first.Decided g q) :
    z.Decided g q ∧ z.outlook (g.found q) q = first.outlook (g.found q) q := by
  unfold Decided outlook at *
  cases step with
  | @postpone t l now best feq delayed =>
    rw [feq] at decided ⊢
    refine ⟨?_, prospect_postpone delayed⟩
    rcases decided with got | empty | rest
    · exact .inl (by rw [foundBy_append, Option.isSome_or, got]; rfl)
    · simp at empty
    · exact .inr (.inr rest)
  | @close t l now best v owner s feq due beg abs owned =>
    unfold Entered at ent
    rw [feq] at decided ent sound ⊢
    have entry := ent t (by simp)
    have caps : s.scope.captures = t.captures := by rw [beg.scope_eq]; rfl
    have slots : q.slots = s.slots := by rw [← beg.query_eq]; rfl
    have unlimited : s.maxThreads = 0 := by rw [← beg.query_eq] at unb; exact unb
    have within : s.offset ≤ s.text.size := by
      have lt := fits.offset
      rw [← beg.query_eq, ← beg.offset_eq] at lt
      exact lt
    obtain ⟨st, explores, turn, arises⟩ := Graph.interpreter_explores ok beg.positioned entry
    have ord := (g.summary.interpreter_orderly s t.entry
      (by rw [caps, sound.size_captures (.head _), slots])).1
    rw [turn] at abs ord ⊢
    have fitting := fun ev mem => (arises ev mem).fits within
    have kept : prospect (g.found s.query) s.query s.offset none v = _ :=
      prospect_absorb abs unlimited ord
    rw [findSome?_leadsTo fitting] at kept
    have settled := decided_absorb g abs unlimited fitting
    rw [beg.query_eq, beg.offset_eq] at kept settled
    rw [kept]
    cases got : foundBy (g.found q) (first.offset + 1) l with
    | some c =>
      refine ⟨?_, by simp [prospect, got]⟩
      rcases settled (.inl (by rw [got]; rfl)) with later | none
      · exact .inl later
      · exact .inr (.inl none)
    | none =>
      have spent : g.Spent s.query s.offset [] s.scope.visited := by
        rw [beg.query_eq, beg.offset_eq, beg.scope_eq]
        rw [got] at decided
        simp only [scope]
        split
        · next owned =>
          rcases decided with got | empty | unowned | spent
          · simp at got
          · simp at empty
          · simp [unowned] at owned
          · exact spent
        · exact fun pc ent => by simp at ent
      have led := sound.now t (.head _)
      rw [due, Nat.add_zero, ← beg.query_eq, ← beg.offset_eq, ← caps] at led
      obtain ⟨⟨new, events, leads⟩, barren⟩ :=
        Graph.answers_of_explores ok (beg.query_eq ▸ steady) led explores rfl trivial (by simp)
          (by rintro _ ⟨⟩; exact entry.settled ok) .refl spent
      rw [append_nil] at events
      rw [← events] at leads
      simp only [found, beg.query_eq, beg.offset_eq, caps] at leads barren
      rw [leads] at settled ⊢
      refine ⟨?_, by simp only [prospect, foundBy_cons, Graph.found, due, Nat.add_zero,
        Option.none_or, Option.or_assoc]⟩
      cases res : g.attempt q [] ⟨t.entry, first.offset, t.captures⟩ with
      | some c =>
        rcases settled (.inr (.inr (by rw [res]; rfl))) with later | none
        · exact .inl later
        · exact .inr (.inl none)
      | none => exact .inr (.inr (.inr (barren res).2))
  | @advance l sd best feq unfinished seeded =>
    rw [feq]
    exact ⟨.inr (.inr (.inl rfl)), prospect_advance unb unfinished seeded⟩

theorem Reaches.preserves_steady_outlook (ok : g.Valid) (steady : g.Steady q)
    (start : q.start = g.start) (unb : q.maxThreads = 0)
    (reached : (initial q).Reaches g.summary.interpreter q z) :
    z.Decided g q ∧ z.outlook (g.found q) q = g.backtrack q := by
  induction reached with
  | refl =>
    refine ⟨.inr (.inr (.inl rfl)), (outlook_initial 0).trans ?_⟩
    simp only [Graph.found, Graph.attempt_start ok start, Graph.backtrack]
  | tail pre step ih =>
    obtain ⟨decided, eq⟩ := step.preserves_outlook ok steady unb
      (Reaches.entered ok start pre) (Reaches.fits pre) (Reaches.sound ok start pre)
      ih.1
    exact ⟨decided, eq.trans ih.2⟩

theorem Reaches.preserves_outlook (ok : g.Valid) (noBackrefs : g.NoBackreferences)
    (start : q.start = g.start) (unb : q.maxThreads = 0)
    (reached : (initial q).Reaches g.summary.interpreter q z) :
    z.Decided g q ∧ z.outlook (g.found q) q = g.backtrack q :=
  reached.preserves_steady_outlook ok (noBackrefs.steady q) start unb

end Search

namespace Graph

theorem backtrack_of_finishes {g : Graph} (ok : g.Valid)
    (noBackrefs : g.NoBackreferences) {t : Text} {fl sl : Nat} {f : Scheduler}
    (finishes : Scheduler.Finishes g.summary.interpreter
      ((Scheduler.new g.size 0).init t g.start fl sl) f) :
    f.result? = g.backtrack ⟨t, fl, max sl 2, g.start, 0⟩ := by
  obtain ⟨z, reached, done, noLater, noNow, res⟩ :=
    finishes.result?_eq g.summary.interpreter_orderly
  obtain ⟨-, outlook⟩ := reached.preserves_outlook ok noBackrefs rfl rfl
  rw [res, ← outlook, Search.outlook_of_done done noLater noNow]

/-- Without backreferences and without a bound on the number of threads, a search always comes to an
end, and then its answer is what backtracking finds first. -/
theorem result?_eq_backtrack {graph : Graph} {analysis : Analysis}
    (accepted : graph.analyze = .ok analysis) (noBackrefs : graph.NoBackreferences)
    (text : Text) (flags slots : Nat) :
    (∃ final, ((Scheduler.new graph.size 0).init text analysis.start flags slots).dispatch
        analysis.interpreter 0 = (false, final)) ∧
      ∀ final, Scheduler.Finishes analysis.interpreter
          ((Scheduler.new graph.size 0).init text analysis.start flags slots) final →
        final.result? = graph.backtrack ⟨text, flags, max slots 2, analysis.start, 0⟩ := by
  obtain ⟨valid, rfl⟩ := analyze_eq_ok accepted
  exact ⟨Scheduler.dispatch_zero ..,
    fun _ => backtrack_of_finishes valid noBackrefs⟩

/-- The automaton of letters repeated in a group that is repeated itself, with a letter after them,
or of a single character outside a category. -/
def nested : Graph where
  automaton :=
    { insts := #[{ op := .alt, out := 1, out1 := 6 }, { op := .capture, arg := 2, out := 2 },
        { op := .alt, out := 3, out1 := 4 }, { op := .byteRange, lo := 0x61, hi := 0x61, out := 2 },
        { op := .capture, arg := 3, out := 5 }, { op := .alt, out := 1, out1 := 7 },
        { op := .byteRange, out := 8 }, { op := .byteRange, lo := 0x62, hi := 0x62, out := 8 },
        { op := .accept }]
      start := 0
      slots := 4 }
  overlay := [(6, [{ kind := .notCategory, arg := 1, out := 8 }])]

/-- Searching and backtracking agree where a group can repeat without consuming anything. -/
theorem backtrack_nested :
    ∃ final, Scheduler.Finishes nested.summary.interpreter
        ((Scheduler.new nested.size 0).init #[0x61, 0x61, 0x62] nested.summary.start 0 4) final ∧
      final.result? = some #[0, 3, 0, 2] ∧
      nested.backtrack ⟨#[0x61, 0x61, 0x62], 0, 4, nested.summary.start, 0⟩ =
        some #[0, 3, 0, 2] := by
  have noBackrefs : nested.NoBackreferences := fun _ _ => forall_extensions (by decide)
  have accepted : nested.analyze = .ok nested.summary := rfl
  obtain ⟨⟨final, finished⟩, agrees⟩ :=
    result?_eq_backtrack accepted noBackrefs #[0x61, 0x61, 0x62] 0 4
  have found : final.result? = some #[0, 3, 0, 2] := by
    have same : final = (((Scheduler.new nested.size 0).init #[0x61, 0x61, 0x62]
        nested.summary.start 0 4).dispatch nested.summary.interpreter 0).2 := by rw [finished]
    rw [same]
    decide +kernel
  exact ⟨final, .done finished, found, (agrees final (.done finished)).symm.trans found⟩

end Graph

end Rematch
