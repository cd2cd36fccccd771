import Rematch.Proofs.Matching.Soundness

/-!
Completeness: where a path leads to a match, a search reports one, unless an exploration is cut off.
Within the scope of a referenced capture, the instructions that were entered before the scope was
opened count as entered, although the captures were others then. At any other instruction that is
not entered again, everything that comes after it was explored or waits to be.
-/

namespace Rematch

open List Exploration

/-- The instructions that were entered with other captures of referenced groups, once a slot is
written: those that already were, or all so far if the slot changes. -/
def Analysis.hidden (analysis : Analysis) (state : Exploration) (slot : Nat) (value : Int)
    (earlier : Nat) : Nat :=
  if analysis.backrefGroups.contains (slot / 2) ∧
      state.scope.captures.setIfInBounds slot value ≠ state.scope.captures then
    state.scope.visited
  else earlier

section

variable (analysis : Analysis) (sched : Scheduler)

/-- Exploring is cut off at an instruction from which a path leads to a match, because it was
entered with other captures of referenced groups. -/
inductive CutsOff : Nat → Task → Exploration → Prop where
  | here {earlier pc state last} (running : state.accepted = false)
      (shared : analysis.isShared pc = true) (entered : state.scope.visited.testBit pc = true)
      (hidden : earlier.testBit pc = true)
      (path : analysis.Path sched.query ⟨pc, sched.offset, state.scope.captures⟩ last)
      (accepts : analysis.Accepts sched.query last) : CutsOff earlier (.visit pc) state
  | enter {earlier pc state entered} (running : state.accepted = false)
      (enters : (if analysis.isShared pc then state.enter? pc else some state) = some entered)
      (inside : CutsOff earlier (.perform pc) entered) : CutsOff earlier (.visit pc) state
  | extensions {earlier pc exts state} (found : analysis.extensionsAt? pc = some exts)
      (inside : CutsOff earlier (.options pc exts) state) : CutsOff earlier (.perform pc) state
  | first {earlier pc state}
      (offers : ∀ captures, analysis.branches sched.query ⟨pc, sched.offset, captures⟩ =
        [.step ⟨analysis.out pc, sched.offset, captures⟩,
          .step ⟨analysis.out1 pc, sched.offset, captures⟩])
      (inside : CutsOff earlier (.visit (analysis.follow (analysis.out pc))) state) :
      CutsOff earlier (.perform pc) state
  | second {earlier pc path state middle}
      (offers : ∀ captures, analysis.branches sched.query ⟨pc, sched.offset, captures⟩ =
        [.step ⟨analysis.out pc, sched.offset, captures⟩,
          .step ⟨analysis.out1 pc, sched.offset, captures⟩])
      (first : Explores analysis sched path (.visit (analysis.follow (analysis.out pc)))
        state middle)
      (inside : CutsOff earlier (.visit (analysis.follow (analysis.out1 pc))) middle) :
      CutsOff earlier (.perform pc) state
  | capture {earlier pc slot state}
      (offers : ∀ captures, analysis.branches sched.query ⟨pc, sched.offset, captures⟩ =
        [.step ⟨analysis.out pc, sched.offset, captures.setIfInBounds slot sched.offset⟩])
      (tracked : slot < sched.slots)
      (inside : CutsOff (analysis.hidden state slot sched.offset earlier)
        (.visit (analysis.follow (analysis.out pc)))
        (state.openScope slot sched.offset (analysis.backrefGroups.contains (slot / 2)))) :
      CutsOff earlier (.perform pc) state
  | pass {earlier pc state}
      (offers : ∀ captures, analysis.branches sched.query ⟨pc, sched.offset, captures⟩ =
        [.step ⟨analysis.out pc, sched.offset, captures⟩])
      (inside : CutsOff earlier (.visit (analysis.follow (analysis.out pc))) state) :
      CutsOff earlier (.perform pc) state
  | refuse {earlier pc ext rest state} (running : state.accepted = false)
      (evaluated : ext.evaluate? sched.text sched.offset state.scope.captures = none)
      (inside : CutsOff earlier (.options pc rest)
        (state.record (ext.records state.scope.captures))) :
      CutsOff earlier (.options pc (ext :: rest)) state
  | stay {earlier pc ext rest state} (running : state.accepted = false)
      (evaluated : ext.evaluate? sched.text sched.offset state.scope.captures = some 0)
      (inside : CutsOff earlier (.visit (analysis.follow ext.out.toNat))
        (state.record (ext.records state.scope.captures))) :
      CutsOff earlier (.options pc (ext :: rest)) state
  | others {earlier pc path ext rest state middle} (running : state.accepted = false)
      (evaluated : ext.evaluate? sched.text sched.offset state.scope.captures = some 0)
      (first : Explores analysis sched path (.visit (analysis.follow ext.out.toNat))
        (state.record (ext.records state.scope.captures)) middle)
      (inside : CutsOff earlier (.options pc rest) middle) :
      CutsOff earlier (.options pc (ext :: rest)) state
  | wait {earlier pc ext rest count state} (running : state.accepted = false)
      (evaluated : ext.evaluate? sched.text sched.offset state.scope.captures = some (count + 1))
      (inside : CutsOff earlier (.options pc rest)
        ((state.record (ext.records state.scope.captures)).wait
          (analysis.follow ext.out.toNat) (count + 1))) :
      CutsOff earlier (.options pc (ext :: rest)) state

end

theorem CutsOff.running {an : Analysis} {s : Scheduler} {e : Nat} {task : Task} {st : Exploration}
    (cut : CutsOff an s e task st) (starts : ∀ pc, task ≠ .perform pc) : st.accepted = false := by
  cases cut with
  | here run | enter run | refuse run | stay run | others run | wait run => exact run
  | extensions | first | second | capture | pass => exact False.elim (starts _ rfl)

/-- An event leads to a point, up to captures of other groups. -/
def Event.Leads (groups : List Nat) (offset : Nat) (point : Point) : Event → Prop
  | .wait entry count captures _ => point.Alike groups ⟨entry, offset + count.toNat, captures⟩
  | _ => False

theorem Event.Leads.alike {ev : Event} {gs : List Nat} {k : Nat} {p p' : Point}
    (leads : ev.Leads gs k p) (alike : p'.Alike gs p) : ev.Leads gs k p' := by
  cases ev with
  | wait => exact alike.trans leads
  | accept | fail => exact leads

namespace Graph

variable {g : Graph}

/-- The groups for which captures are told apart. -/
abbrev referenced (graph : Graph) : List Nat := graph.summary.backrefGroups

/-- The groups that are told apart are those that backreferences name at reachable instructions. -/
theorem mem_referenced {gr : Nat} : gr ∈ g.referenced ↔ gr < 256 ∧
    ∃ pc es ext, g.Reachable pc ∧ g.extensionsAt? pc = some es ∧ ext ∈ es ∧
      ext.kind = .backreference ∧ ext.arg = gr := by
  simp only [referenced, summary, referencedGroups, mem_filter, mem_range, contains_eq_mem,
    decide_eq_true_eq, mem_flatMap, mem_filterMap, mem_marked]
  refine and_congr_right fun _ => ⟨?_, ?_⟩
  · rintro ⟨pc, reach, ext, mem, named⟩
    cases got : g.extensionsAt? pc with
    | none => simp [got] at mem
    | some es =>
      rw [got] at mem
      split at named
      · next kind => exact ⟨pc, es, ext, reach, got, mem, kind, Option.some.inj named⟩
      · simp at named
  · rintro ⟨pc, es, ext, reachable, got, mem, kind, named⟩
    exact ⟨pc, reachable, ext, by rw [got]; exact mem, by rw [if_pos kind, named]⟩

/-- A point need not be explored again: captures of other groups make no difference, and no match is
missed where there is none. -/
structure Knows (graph : Graph) (query : Query) (known : Point → Prop) : Prop where
  respects : ∀ {first second : Point}, first.Alike graph.referenced second → known first →
    known second
  hopeless : ∀ point, graph.Reachable point.pc → ¬graph.Succeeds query point → known point

/-- All that comes after a point is known, or events lead to it. -/
structure Explored (graph : Graph) (sched : Scheduler) (known : Point → Prop) (events : List Event)
    (point : Point) : Prop where
  fails : ¬graph.Accepts sched.query point
  leads : ∀ next, graph.Hops sched.query point next →
    known next ∨ ∃ event ∈ events, event.Leads graph.referenced sched.offset next

structure Learns (graph : Graph) (sched : Scheduler) (before known : Point → Prop)
    (events : List Event) : Prop extends graph.Knows sched.query known where
  grows : ∀ point, before point → known point
  explored : ∀ point, known point → before point ∨ graph.Explored sched known events point

/-- What was entered is known, or was entered with other captures. -/
def Noted (known : Point → Prop) (sched : Scheduler) (earlier : Nat) (scope : Scope) : Prop :=
  ∀ pc, scope.visited.testBit pc = true →
    earlier.testBit pc = true ∨ known ⟨pc, sched.offset, scope.captures⟩

end Graph

def Task.Learned (graph : Graph) (sched : Scheduler) (known : Point → Prop) (events : List Event)
    (captures : Captures) : Task → Prop
  | .visit pc => known ⟨pc, sched.offset, captures⟩
  | .perform pc => graph.Explored sched known events ⟨pc, sched.offset, captures⟩
  | .options _ exts => ∀ ext ∈ exts, ∀ count,
      ext.evaluate? sched.text sched.offset captures = some count →
      known ⟨graph.follow ext.out.toNat, sched.offset + count, captures⟩ ∨
        ∃ event ∈ events, event.Leads graph.referenced sched.offset
          ⟨graph.follow ext.out.toNat, sched.offset + count, captures⟩

namespace Graph

variable {g : Graph} {q : Query} {s : Scheduler} {path : List Nat} {task : Task}
  {st st' : Exploration} {e : Nat} {u known la : Point → Prop}
  {evs evs' : List Event} {p p' : Point}
variable {c : Captures} {k pc sl : Nat}

theorem Explored.mono (explored : g.Explored s known evs p)
    (grows : ∀ pt, known pt → la pt) (more : evs ⊆ evs') : g.Explored s la evs' p := by
  refine ⟨explored.fails, fun n hops => ?_⟩
  rcases explored.leads n hops with got | ⟨ev, mem, leads⟩
  · exact .inl (grows n got)
  · exact .inr ⟨ev, more mem, leads⟩

theorem Explored.alike (explored : g.Explored s known evs p) (knows : g.Knows s.query known)
    (refs : g.References g.referenced p.pc) (alike : p.Alike g.referenced p') :
    g.Explored s known evs p' := by
  have refs' : g.References g.referenced p'.pc := alike.pc_eq ▸ refs
  refine ⟨fun accepts => explored.fails (accepts.alike refs' alike.symm), ?_⟩
  intro n hops
  obtain ⟨o, hops', eq⟩ := hops.alike refs' alike.symm
  rcases explored.leads o hops' with got | ⟨ev, mem, leads⟩
  · exact .inl (knows.respects eq.symm got)
  · exact .inr ⟨ev, mem, leads.alike eq⟩

theorem Learns.refl (knows : g.Knows s.query u) (evs : List Event) : g.Learns s u u evs :=
  ⟨knows, fun _ got => got, fun _ got => .inl got⟩

theorem Learns.trans (fst : g.Learns s u known evs)
    (snd : g.Learns s known la evs') (more : evs ⊆ evs') : g.Learns s u la evs' := by
  refine ⟨snd.toKnows, fun p got => snd.grows p (fst.grows p got), ?_⟩
  intro p got
  rcases snd.explored p got with earlier | explored
  · rcases fst.explored p earlier with earliest | explored
    · exact .inl earliest
    · exact .inr (explored.mono snd.grows more)
  · exact .inr explored

theorem Knows.insert (knows : g.Knows q u) (p : Point) :
    g.Knows q fun o => u o ∨ p.Alike g.referenced o := by
  refine ⟨fun alike got => ?_, fun o reach fails => .inl (knows.hopeless o reach fails)⟩
  rcases got with earlier | eq
  · exact .inl (knows.respects alike earlier)
  · exact .inr (eq.trans alike)

theorem events_subset (explores : Explores g.summary s path task st st') :
    st.events ⊆ st'.events := by
  obtain ⟨new, eq⟩ := explores.events_eq
  rw [eq]
  exact subset_append_right _ _

theorem not_isByteRange_of_offers {t : Nat} {c' : Captures}
    {r : List Branch} (offers : g.branches q ⟨pc, k, c⟩ =
      .step ⟨t, k, c'⟩ :: r) : g.isByteRange pc = false := by
  cases rng : g.isByteRange pc with
  | false => rfl
  | true =>
    rw [branches_of_isByteRange rng] at offers
    split at offers <;> simp at offers

theorem alike_of_not_contains (unlisted : g.referenced.contains (sl / 2) = false)
    (pc k : Nat) (c : Captures) (v : Int) :
    Point.Alike g.referenced ⟨pc, k, c.setIfInBounds sl v⟩ ⟨pc, k, c⟩ :=
  ⟨rfl, rfl, .setIfInBounds_of_not_mem (by simpa using unlisted) _ _⟩

theorem Noted.openScope (noted : Noted u s e st.scope) (knows : g.Knows q u) (sl : Nat) (v : Int) :
    Noted u s (g.summary.hidden st sl v e)
      (st.openScope sl v (g.referenced.contains (sl / 2))).scope := by
  intro pc marked
  rw [openScope_visited] at marked
  rw [openScope_captures]
  unfold Analysis.hidden
  split
  · exact .inl marked
  · next kept =>
    refine (noted pc marked).imp_right fun got => ?_
    cases mem : g.referenced.contains (sl / 2) with
    | false => exact knows.respects (alike_of_not_contains mem _ _ _ _).symm got
    | true =>
      have eq : st.scope.captures.setIfInBounds sl v = st.scope.captures := by
        by_contra changed
        exact kept ⟨mem, changed⟩
      rw [eq]
      exact got

theorem Noted.closeScope {v : Int} (noted : Noted u s e st.scope) (learns : g.Learns s u known evs)
    (kept : (st.openScope sl v (g.referenced.contains (sl / 2))).Kept st')
    (unmatched : st'.accepted = false)
    (notedAfter : Noted known s (g.summary.hidden st sl v e) st'.scope) :
    Noted known s e (st'.closeScope st sl (g.referenced.contains (sl / 2))).scope := by
  intro pc marked
  rw [(kept_closeScope kept unmatched).captures_eq]
  cases mem : g.referenced.contains (sl / 2) with
  | true =>
    simp only [mem, Exploration.closeScope, unmatched, Bool.false_eq_true, if_false, if_true]
      at marked
    exact (noted pc marked).imp_right (learns.grows _)
  | false =>
    simp only [mem, Exploration.closeScope, unmatched, Bool.false_eq_true, if_false] at marked
    have got := notedAfter pc marked
    rw [kept.captures_eq, openScope_captures] at got
    simp only [Analysis.hidden, mem, Bool.false_eq_true, false_and, if_false] at got
    exact got.imp_right (learns.respects (alike_of_not_contains mem _ _ _ _))

theorem Explored.of_branches (plain : g.isByteRange pc = false)
    (fails : .accept ∉ g.branches s.query ⟨pc, k, c⟩)
    (leads : ∀ n, .step n ∈ g.branches s.query ⟨pc, k, c⟩ →
      known ⟨g.follow n.pc, n.offset, n.captures⟩ ∨
        ∃ ev ∈ evs, ev.Leads g.referenced s.offset ⟨g.follow n.pc, n.offset, n.captures⟩) :
    g.Explored s known evs ⟨pc, k, c⟩ := by
  refine ⟨fails, fun n hops => ?_⟩
  cases hops with
  | step _ move => exact leads _ move
  | bytes rng => simp [plain] at rng

theorem Explored.of_options {es : List Extension} (got : g.extensionsAt? pc = some es)
    (learned : (Task.options pc es).Learned g s known evs c) :
    g.Explored s known evs ⟨pc, s.offset, c⟩ := by
  have branches : g.branches s.query ⟨pc, s.offset, c⟩ =
      es.filterMap fun ext => ext.branch? s.query.text ⟨pc, s.offset, c⟩ := by
    simp [Graph.branches, got]
  refine .of_branches (by simp [isByteRange, got]) ?_ ?_
  · rw [branches]
    simp [mem_filterMap, Extension.branch?]
  · intro nx offered
    rw [branches, mem_filterMap] at offered
    obtain ⟨ext, mem, offered⟩ := offered
    simp only [Extension.branch?, Option.map_eq_some_iff] at offered
    obtain ⟨n, ev, eq⟩ := offered
    cases eq
    exact learned ext mem n ev

theorem Explored.of_bytes (rng : g.isByteRange pc = true) :
    g.Explored s known (g.summary.exploreBytes s pc st).events
      ⟨pc, s.offset, st.scope.captures⟩ := by
  refine ⟨fun accepts => ?_, fun n hops => ?_⟩
  · unfold Accepts at accepts
    rw [branches_of_isByteRange rng] at accepts
    split at accepts <;> simp at accepts
  · cases hops with
    | step plain => simp [rng] at plain
    | bytes _ matching =>
      right
      rw [Explores.exploreBytes_events matching]
      exact ⟨_, .head _, rfl, congrArg (s.offset + ·) (Int.toNat_natCast _).symm, .refl _ _⟩

theorem Explored.of_stop (offers : g.branches s.query ⟨pc, s.offset, c⟩ = []) :
    g.Explored s known evs ⟨pc, s.offset, c⟩ := by
  refine ⟨by simp [Accepts, offers], fun n hops => ?_⟩
  cases hops with
  | step _ move => simp [Moves, offers] at move
  | bytes rng matching =>
    obtain ⟨-, r, parts⟩ := span_stretch g rng
    rw [branches_of_isByteRange rng] at offers
    rw [parts, Analysis.spanMatches, Bool.and_eq_true] at matching
    have acc : (s.query.text[s.offset]?).any (g.inst pc).accepts = true := matching.1
    simp [acc] at offers

theorem learns_of_explores (ok : g.Valid)
    (refs : ∀ pc, g.Reachable pc → g.References g.referenced pc)
    (explores : Explores g.summary s path task st st')
    (run : st.accepted = false) (unmatched : st'.accepted = false)
    (reach : task.Reachable g) (whole : ¬CutsOff g.summary s e task st)
    (knows : g.Knows s.query u) (noted : Noted u s e st.scope) :
    ∃ known, g.Learns s u known st'.events ∧ Noted known s e st'.scope ∧
      task.Learned g s known st'.events st.scope.captures := by
  induction explores generalizing e u with
  | halted acc => simp [run] at acc
  | @blocked p pc state _ shared ent =>
    refine ⟨u, .refl knows _, noted, ?_⟩
    rcases noted pc ent with hidden | got
    · by_cases succeeds : g.Succeeds s.query ⟨pc, s.offset, state.scope.captures⟩
      · obtain ⟨z, path, accepts⟩ := succeeds.path ok
        exact False.elim (whole (.here run shared ent hidden path accepts))
      · exact knows.hopeless _ reach succeeds
    · exact got
  | @enter p pc state en after _ _ enters performs ih =>
    obtain ⟨kept, acc, -, -, -, marks⟩ := enters_kept enters
    have noted' : Noted (fun o => u o ∨
        Point.Alike g.referenced ⟨pc, s.offset, state.scope.captures⟩ o) s e
        en.scope := by
      intro j marked
      rw [kept.captures_eq]
      rcases marks j marked with rfl | markedBefore
      · exact .inr (.inr (.refl _ _))
      · exact (noted j markedBefore).imp_right .inl
    obtain ⟨known, learns, notedAfter, explored⟩ :=
      ih (acc.trans run) unmatched reach
        (fun cut => whole (.enter run enters cut)) (knows.insert _) noted'
    rw [kept.captures_eq] at explored
    refine ⟨known, ⟨learns.toKnows, fun pt got => learns.grows pt (.inl got),
      fun pt got => ?_⟩, notedAfter, learns.grows _ (.inr (.refl _ _))⟩
    rcases learns.explored pt got with (earlier | alike) | explored'
    · exact .inl earlier
    · exact .inr (explored.alike learns.toKnows (refs pc reach) alike)
    · exact .inr explored'
  | extensions found _ ih =>
    obtain ⟨known, learns, notedAfter, learned⟩ := ih run unmatched
      ⟨reach, _, found, Subset.refl _⟩ (fun cut => whole (.extensions found cut)) knows noted
    exact ⟨known, learns, notedAfter, .of_options found learned⟩
  | @fork p pc state m after offers firstListed secondListed fst snd firstIh secondIh =>
    have between := snd.running_of_unmatched (by simp) unmatched
    have kept := ((fst.kept run).resolve_left (by simp [between])).2
    obtain ⟨known, learns, notedMiddle, learned⟩ := firstIh run between
      (reach.successor ok firstListed) (fun cut => whole (.first offers cut)) knows noted
    obtain ⟨l, learns', notedAfter, learned'⟩ := secondIh between unmatched
      (reach.successor ok secondListed) (fun cut => whole (.second offers fst cut))
      learns.toKnows notedMiddle
    rw [kept.captures_eq] at learned'
    have offers : g.branches s.query ⟨pc, s.offset, state.scope.captures⟩ = _ := offers _
    refine ⟨l, learns.trans learns' (events_subset snd), notedAfter,
      .of_branches (not_isByteRange_of_offers offers) (by simp [offers]) fun nx offered => ?_⟩
    simp only [offers, mem_cons, Branch.step.injEq, not_mem_nil, or_false] at offered
    rcases offered with rfl | rfl
    · exact .inl (learns'.grows _ learned)
    · exact .inl learned'
  | @bytes p pc state rng =>
    obtain ⟨sameScope, -⟩ := Explores.exploreBytes_scope g.summary s pc state
    refine ⟨u, .refl knows _, ?_, .of_bytes rng⟩
    rw [sameScope]
    exact noted
  | @capture p pc sl state after offers mem tracked lt ih =>
    rw [closeScope_accepted] at unmatched
    rw [closeScope_events]
    have opened := noted.openScope knows sl s.offset
    rw [openScope_accepted, openScope_captures] at ih
    obtain ⟨known, learns, notedAfter, learned⟩ := ih run unmatched
      (reach.successor ok mem) (fun cut => whole (.capture offers tracked cut)) knows opened
    have offers : g.branches s.query ⟨pc, s.offset, state.scope.captures⟩ = _ := offers _
    refine ⟨known, learns, ?_,
      .of_branches (not_isByteRange_of_offers offers) (by simp [offers]) fun nx offered => ?_⟩
    · have kept := lt.kept (by rw [openScope_accepted]; exact run)
      have kept := (kept.resolve_left (by simp [unmatched])).2
      exact noted.closeScope learns kept unmatched notedAfter
    · simp only [offers, mem_singleton, Branch.step.injEq] at offered
      rw [offered]
      exact .inl learned
  | @pass p pc state after offers mem _ ih =>
    obtain ⟨known, learns, notedAfter, learned⟩ := ih run unmatched
      (reach.successor ok mem) (fun cut => whole (.pass offers cut)) knows noted
    have offers : g.branches s.query ⟨pc, s.offset, state.scope.captures⟩ = _ := offers _
    refine ⟨known, learns, notedAfter,
      .of_branches (not_isByteRange_of_offers offers) (by simp [offers]) fun nx offered => ?_⟩
    simp only [offers, mem_singleton, Branch.step.injEq] at offered
    rw [offered]
    exact .inl learned
  | @stop p pc state offers => exact ⟨u, .refl knows _, noted, .of_stop (offers _)⟩
  | accept => simp [Exploration.accept, record] at unmatched
  | @done p pc es state fin =>
    obtain rfl := fin.resolve_right (by simp [run])
    exact ⟨u, .refl knows _, noted, fun ext mem => by simp at mem⟩
  | @refuse p pc ext r state after _ ev _ ih =>
    obtain ⟨reach, all, found, hm⟩ := reach
    obtain ⟨known, learns, notedAfter, learned⟩ := ih run unmatched
      ⟨reach, all, found, fun ext inRest => hm (.tail _ inRest)⟩
      (fun cut => whole (.refuse run ev cut)) knows noted
    refine ⟨known, learns, notedAfter, fun other inOptions n matched => ?_⟩
    rcases mem_cons.mp inOptions with rfl | inRest
    · simp [ev] at matched
    · exact learned other inRest n matched
  | @stay p pc ext r state m after _ ev fst others firstIh othersIh =>
    obtain ⟨reach, all, found, hm⟩ := reach
    have between := others.running_of_unmatched (by simp) unmatched
    have kept := ((fst.kept run).resolve_left (by simp [between])).2
    have target : g.Reachable (g.follow ext.out.toNat) := by
      apply reach.successor ok
      rw [successors_of_extensions found]
      exact mem_map.mpr ⟨_, hm (.head _), rfl⟩
    obtain ⟨known, learns, notedMiddle, learned⟩ := firstIh run between target
      (fun cut => whole (.stay run ev cut)) knows noted
    obtain ⟨l, learns', notedAfter, learned'⟩ := othersIh between unmatched
      ⟨reach, all, found, fun ext inRest => hm (.tail _ inRest)⟩
      (fun cut => whole (.others run ev fst cut)) learns.toKnows notedMiddle
    rw [kept.captures_eq] at learned'
    refine ⟨l, learns.trans learns' (events_subset others), notedAfter,
      fun other inOptions n matched => ?_⟩
    rcases mem_cons.mp inOptions with rfl | inRest
    · obtain rfl : 0 = n := Option.some.inj (ev.symm.trans matched)
      exact .inl (learns'.grows _ learned)
    · exact learned' other inRest n matched
  | @wait p pc ext r n state after _ ev others ih =>
    obtain ⟨reach, all, found, hm⟩ := reach
    obtain ⟨known, learns, notedAfter, learned⟩ := ih run unmatched
      ⟨reach, all, found, fun ext inRest => hm (.tail _ inRest)⟩
      (fun cut => whole (.wait run ev cut)) knows noted
    refine ⟨known, learns, notedAfter, fun other inOptions n' matched => ?_⟩
    rcases mem_cons.mp inOptions with rfl | inRest
    · obtain rfl : n + 1 = n' := Option.some.inj (ev.symm.trans matched)
      refine .inr ⟨_, events_subset others (.head _), rfl, ?_, .refl _ _⟩
      simp
    · exact learned other inRest n' matched

theorem path_of_cutsOff (ok : g.Valid) {o : Point} (cut : CutsOff g.summary s e task st)
    (run : st.accepted = false) (follows : task.Follows g s.query s.offset o st.scope.captures) :
    ∃ z, g.Path s.query o z ∧ g.Accepts s.query z := by
  induction cut with
  | @here _ _ _ z _ _ _ _ path accepts =>
    exact ⟨z, Relation.ReflTransGen.trans follows path, accepts⟩
  | enter _ enters _ ih =>
    obtain ⟨kept, acc, -⟩ := enters_kept enters
    exact ih (acc.trans run) (by rw [kept.captures_eq]; exact follows)
  | extensions got _ ih => exact ih run (follows_options got follows)
  | first offers _ ih | pass offers _ ih =>
    exact ih run
      ((follows.tail (by rw [Moves]; exact offers _ ▸ .head _)).trans (path_follow ok _ _ _))
  | second offers fst lt ih =>
    have still := lt.running (by simp)
    have kept := ((fst.kept run).resolve_left (by simp [still])).2
    apply ih still
    rw [kept.captures_eq]
    exact (follows.tail (by rw [Moves]; exact offers _ ▸ .tail _ (.head _))).trans
      (path_follow ok _ _ _)
  | capture offers _ _ ih =>
    rw [openScope_accepted, openScope_captures] at ih
    apply ih run
    exact (follows.tail (by rw [Moves]; exact offers _ ▸ .head _)).trans (path_follow ok _ _ _)
  | refuse _ _ _ ih | wait _ _ _ ih => exact ih run fun ext inRest => follows ext (.tail _ inRest)
  | stay _ ev _ ih => exact ih run ((follows _ (.head _) 0 ev).trans (path_follow ok _ _ _))
  | others _ _ fst lt ih =>
    have still := lt.running (by simp)
    have kept := ((fst.kept run).resolve_left (by simp [still])).2
    apply ih still
    rw [kept.captures_eq]
    exact fun ext inRest => follows ext (.tail _ inRest)

/-- A visit id stands for the captures of referenced groups. -/
structure Labelled (graph : Graph) (label : Nat → Captures) (last visit : Nat)
    (captures : Captures) : Prop where
  known : visit ≤ last
  same : Captures.SameOn graph.referenced captures (label visit)

end Graph

def Event.Labelled (graph : Graph) (label : Nat → Captures) (last : Nat) : Event → Prop
  | .wait _ _ captures visit | .accept captures visit => graph.Labelled label last visit captures
  | .fail => True

namespace Graph

variable {g : Graph} {s : Scheduler} {path : List Nat} {task : Task}
  {st st' : Exploration} {l l' : Nat → Captures} {z z' : Nat}

theorem Labelled.mono {v : Nat} {c : Captures} (labelled : g.Labelled l z v c) (further : z ≤ z')
    (eq : ∀ v ≤ z, l' v = l v) : g.Labelled l' z' v c :=
  ⟨Nat.le_trans labelled.known further, (eq v labelled.known).symm ▸ labelled.same⟩

/-- New visit ids get labels, and the events of an exploration have theirs. -/
structure Relabels (graph : Graph) (label label' : Nat → Captures) (state after : Exploration) :
    Prop where
  further : state.scope.lastVisitId ≤ after.scope.lastVisitId
  same : ∀ visit ≤ state.scope.lastVisitId, label' visit = label visit
  events : ∀ event ∈ after.events,
    event ∈ state.events ∨ event.Labelled graph label' after.scope.lastVisitId

theorem Relabels.refl (g : Graph) (l : Nat → Captures)
    (sameLast : st'.scope.lastVisitId = st.scope.lastVisitId)
    (sameEvents : st'.events = st.events) : g.Relabels l l st st' :=
  ⟨Nat.le_of_eq sameLast.symm, fun _ _ => rfl, fun _ mem => .inl (sameEvents ▸ mem)⟩

theorem Relabels.trans {l'' : Nat → Captures} {m : Exploration} (fst : g.Relabels l l' st m)
    (snd : g.Relabels l' l'' m st') : g.Relabels l l'' st st' := by
  refine ⟨Nat.le_trans fst.further snd.further, fun v le => ?_, fun ev mem => ?_⟩
  · rw [snd.same v (Nat.le_trans le fst.further), fst.same v le]
  · rcases snd.events ev mem with earlier | labelled
    · refine (fst.events ev earlier).imp_right fun labelled => ?_
      cases ev with
      | wait | accept => exact Labelled.mono labelled snd.further snd.same
      | fail => trivial
    · exact .inr labelled

theorem Relabels.wait {e : Nat} {n : Int}
    (labelled : g.Labelled l st.scope.lastVisitId st.scope.visitId
      st.scope.captures) (scope : st'.scope = st.scope)
    (events : st'.events = .wait e n st.scope.captures st.scope.visitId :: st.events) :
    g.Relabels l l st st' := by
  refine ⟨by rw [scope], fun _ _ => rfl, fun ev mem => ?_⟩
  rw [events] at mem
  rcases mem_cons.mp mem with rfl | earlier
  · exact .inr (scope ▸ labelled)
  · exact .inl earlier

/-- After an exploration without a match, the visit id stands for the captures as before. -/
theorem Relabels.kept (relabels : g.Relabels l l' st st') (kept : st.Kept st')
    (labelled : g.Labelled l st.scope.lastVisitId st.scope.visitId st.scope.captures) :
    g.Labelled l' st'.scope.lastVisitId st'.scope.visitId st'.scope.captures := by
  rw [kept.visit_eq, kept.captures_eq]
  exact labelled.mono relabels.further relabels.same

/-- Where a scope is opened, its new visit id gets the captures of the scope as its label. -/
theorem Labelled.openScope (labelled : g.Labelled l st.scope.lastVisitId
      st.scope.visitId st.scope.captures) (sl : Nat) (v : Int) :
    ∃ l', g.Relabels l l' st (st.openScope sl v (g.referenced.contains (sl / 2))) ∧
      g.Labelled l' (st.openScope sl v (g.referenced.contains (sl / 2))).scope.lastVisitId
        (st.openScope sl v (g.referenced.contains (sl / 2))).scope.visitId
        (st.openScope sl v (g.referenced.contains (sl / 2))).scope.captures := by
  rw [openScope_lastVisitId, openScope_visitId,
    openScope_captures]
  cases mem : g.referenced.contains (sl / 2) with
  | false =>
    have kept : Captures.SameOn g.referenced (st.scope.captures.setIfInBounds sl v)
        st.scope.captures := .setIfInBounds_of_not_mem (by simpa using mem) _ _
    exact ⟨l, .refl _ _ (openScope_lastVisitId ..) (openScope_events ..),
      labelled.known, kept.trans labelled.same⟩
  | true =>
    let fr := st.scope.lastVisitId + 1
    let c := st.scope.captures.setIfInBounds sl v
    refine ⟨fun vi => if vi = fr then c else l vi, ⟨?_, ?_, ?_⟩,
      Nat.le_refl _, ?_⟩
    · rw [openScope_lastVisitId]
      exact Nat.le_succ _
    · intro vi le
      exact if_neg (by omega)
    · rw [openScope_events]
      exact fun _ earlier => .inl earlier
    · rw [if_pos rfl, if_pos rfl]
      exact .refl _ _

variable (explores : Explores g.summary s path task st st') (run : st.accepted = false)

include explores run

theorem relabels_of_explores
    (labelled : g.Labelled l st.scope.lastVisitId st.scope.visitId st.scope.captures) :
    ∃ l', g.Relabels l l' st st' := by
  induction explores generalizing l with
  | halted | blocked | stop | done => exact ⟨l, .refl _ _ rfl rfl⟩
  | @enter _ _ state en after _ _ enters _ ih =>
    obtain ⟨kept, acc, events, sameLast, -⟩ := enters_kept enters
    obtain ⟨l', relabels⟩ := ih (acc.trans run)
      (by rw [sameLast, kept.visit_eq, kept.captures_eq]; exact labelled)
    exact ⟨l', (Relabels.refl g l sameLast events).trans relabels⟩
  | extensions _ _ ih | pass _ _ _ ih => exact ih run labelled
  | fork _ _ _ fst snd firstIh secondIh =>
    obtain ⟨l', relabels⟩ := firstIh run labelled
    rcases fst.kept run with acc | ⟨still, kept⟩
    · exact ⟨l', snd.eq_of_accepted (by simp) acc ▸ relabels⟩
    · obtain ⟨l'', relabels'⟩ := secondIh still (relabels.kept kept labelled)
      exact ⟨l'', relabels.trans relabels'⟩
  | @bytes _ pc state =>
    refine ⟨l, ?_⟩
    simp only [Analysis.exploreBytes]
    split
    · exact .wait labelled rfl rfl
    · exact .refl _ _ rfl rfl
  | @capture _ _ sl state after _ _ _ _ ih =>
    obtain ⟨opened, relabels, labelled'⟩ := labelled.openScope sl s.offset
    obtain ⟨l', relabels'⟩ := ih (by rw [openScope_accepted]; exact run) labelled'
    exact ⟨l', (relabels.trans relabels').trans
      (.refl _ _ (closeScope_lastVisitId ..) (closeScope_events ..))⟩
  | accept => exact ⟨l, Nat.le_refl _, fun _ _ => rfl, fun ev mem => by
      rcases mem_cons.mp mem with rfl | earlier
      · exact .inr labelled
      · exact .inl earlier⟩
  | refuse _ _ _ ih =>
    obtain ⟨l', relabels⟩ := ih run labelled
    exact ⟨l', relabels.further, relabels.same, relabels.events⟩
  | stay _ _ fst others firstIh othersIh =>
    obtain ⟨l', relabels⟩ := firstIh run labelled
    rcases fst.kept run with acc | ⟨still, kept⟩
    · rw [others.eq_of_accepted (by simp) acc]
      exact ⟨l', relabels.further, relabels.same, relabels.events⟩
    · obtain ⟨l'', relabels'⟩ := othersIh still (relabels.kept kept labelled)
      have both := relabels.trans relabels'
      exact ⟨l'', both.further, both.same, both.events⟩
  | @wait _ _ ext _ n state _ _ _ _ ih =>
    obtain ⟨l', relabels⟩ := ih run labelled
    have waits : g.Relabels l l state
        ((state.record (ext.records state.scope.captures)).wait (g.follow ext.out.toNat)
          (n + 1)) := .wait labelled rfl rfl
    exact ⟨l', waits.trans relabels⟩

theorem exists_accept_of_explores (acc : st'.accepted = true) :
    ∃ c v, .accept c v ∈ st'.events := by
  induction explores with
  | halted | blocked | stop | done => simp [run] at acc
  | enter _ _ enters _ ih =>
    obtain ⟨-, eq, -⟩ := enters_kept enters
    exact ih (eq.trans run) acc
  | extensions _ _ ih | pass _ _ _ ih
  | refuse _ _ _ ih | wait _ _ _ ih => exact ih run acc
  | fork _ _ _ fst snd firstIh secondIh
  | stay _ _ fst snd firstIh secondIh =>
    rcases fst.kept run with got | ⟨still, -⟩
    · obtain ⟨c, v, mem⟩ := firstIh run got
      exact ⟨c, v, events_subset snd mem⟩
    · exact secondIh still acc
  | @bytes _ pc state =>
    obtain ⟨-, eq⟩ := Explores.exploreBytes_scope g.summary s pc state
    simp [eq, run] at acc
  | capture _ _ _ _ ih =>
    rw [openScope_accepted] at ih
    rw [closeScope_accepted] at acc
    rw [closeScope_events]
    exact ih run acc
  | accept => exact ⟨_, _, .head _⟩

end Graph

def Event.pending? : Event → Option Pending
  | .wait entry count captures visit => some ⟨entry, count.toNat - 1, visit, captures⟩
  | _ => none

namespace Front.AbsorbsAll

variable {s : Scheduler} {evs : List Event} {f f' : Front}

variable (abs : AbsorbsAll s evs f f') (unb : s.maxThreads = 0) (fits : ∀ ev ∈ evs, ev.Fits s)

include abs unb fits

theorem eq_of_waits (unmatched : ∀ c v, .accept c v ∉ evs) :
    f' = { f with later := f.later ++ evs.filterMap Event.pending? } := by
  induction abs with
  | nil => simp
  | @cons ev r _ _ _ head tail ih =>
    rw [ih (fun o mem => fits o (.tail _ mem)) fun c v mem => unmatched c v (.tail _ mem)]
    have fitting := fits ev (.head _)
    cases head with
    | wait => simp [Event.pending?]
    | misfit beyond => exact False.elim (fitting beyond)
    | lose bounded => omega
    | accept | refuse | loseMatch => exact False.elim (unmatched _ _ (.head _))

theorem isSome_best (matched : f.best.isSome = true ∨ ∃ c v, .accept c v ∈ evs) :
    f'.best.isSome = true := by
  induction abs with
  | nil => simpa using matched
  | @cons ev r _ _ _ head tail ih =>
    apply ih fun o mem => fits o (.tail _ mem)
    have fitting := fits ev (.head _)
    cases head with
    | wait | misfit | lose =>
      refine matched.imp_right ?_
      rintro ⟨c, v, mem⟩
      exact ⟨c, v, by simpa using mem⟩
    | accept => exact .inl rfl
    | refuse early => simp [Event.Fits, early] at fitting
    | loseMatch bounded => omega

end Front.AbsorbsAll

namespace Search

variable {g : Graph} {q : Query} {first z : Search} {known : Point → Prop} {l : Nat → Captures}
variable {la now : List Pending} {best : Option Captures} {t : Pending}

/-- A thread is at a point, or will be, up to captures of other groups. -/
def Pends (groups : List Nat) (search : Search) (point : Point) : Prop :=
  (∃ thread ∈ search.front.later,
    point.Alike groups ⟨thread.entry, search.offset + 1 + thread.delay, thread.captures⟩) ∨
  ∃ thread ∈ search.front.now,
    point.Alike groups ⟨thread.entry, search.offset + thread.delay, thread.captures⟩

def CutsOff (graph : Graph) (query : Query) (search : Search) : Prop :=
  ∃ thread later now best sched, search.front = ⟨later, thread :: now, best⟩ ∧ thread.delay = 0 ∧
    sched.Begins query search.offset (search.scope thread) ∧
    Rematch.CutsOff graph.summary sched 0 (.visit thread.entry) { scope := sched.scope }

/-- All that comes after the starts so far is known, or threads lead to it. -/
structure Covers (graph : Graph) (query : Query) (known : Point → Prop) (label : Nat → Captures)
    (search : Search) : Prop extends graph.Knows query known where
  fails : ∀ point, known point → graph.Reachable point.pc → ¬graph.Accepts query point
  leads : ∀ point next, known point → graph.Reachable point.pc → graph.Hops query point next →
    known next ∨ search.Pends graph.referenced next
  begun : ∀ offset ≤ search.offset, (query.anchorsStart = true → offset = 0) →
    known ⟨graph.start, offset, query.blank offset⟩ ∨
      search.Pends graph.referenced ⟨graph.start, offset, query.blank offset⟩
  noted : ∀ visit, search.front.now ≠ [] → search.owner = some visit →
    ∀ pc, search.visited.testBit pc = true → known ⟨pc, search.offset, label visit⟩
  labelled : ∀ thread ∈ search.front.later ++ search.front.now,
    graph.Labelled label search.lastVisitId thread.visit thread.captures
  unset : ∀ offset, Captures.SameOn graph.referenced (query.blank offset) (label 0)

def Complete (graph : Graph) (query : Query) (search : Search) : Prop :=
  search.front.best.isSome = true ∨ ∃ known label, Covers graph query known label search

section

variable (covers : Covers g q known l first)

include covers

theorem Covers.transfer {known' : Point → Prop} {l' : Nat → Captures} (knows : g.Knows q known')
    (grows : ∀ p, known p → known' p)
    (pends : ∀ p, first.Pends g.referenced p → known' p ∨ z.Pends g.referenced p)
    (learned : ∀ p, known' p → g.Reachable p.pc → known p ∨ ¬g.Accepts q p ∧ ∀ n, g.Hops q p n →
      known' n ∨ z.Pends g.referenced n)
    (begun : ∀ k ≤ z.offset, (q.anchorsStart = true → k = 0) → k ≤ first.offset ∨
      z.Pends g.referenced ⟨g.start, k, q.blank k⟩)
    (noted : ∀ v, z.front.now ≠ [] → z.owner = some v → ∀ pc, z.visited.testBit pc = true →
      known' ⟨pc, z.offset, l' v⟩)
    (labelled : ∀ t ∈ z.front.later ++ z.front.now, g.Labelled l' z.lastVisitId t.visit t.captures)
    (unset : l' 0 = l 0) :
    Covers g q known' l' z := by
  refine ⟨knows, fun p got reach => ?_, fun p n got reach hops => ?_,
    fun k le anc => ?_, noted, labelled, by rw [unset]; exact covers.unset⟩
  · rcases learned p got reach with pre | ⟨fails, -⟩
    · exact covers.fails p pre reach
    · exact fails
  · rcases learned p got reach with pre | ⟨-, leads⟩
    · rcases covers.leads p n pre reach hops with foundNext | pend
      · exact .inl (grows n foundNext)
      · exact pends n pend
    · exact leads n hops
  · rcases begun k le anc with before | pend
    · rcases covers.begun k before anc with foundStart | pend
      · exact .inl (grows _ foundStart)
      · exact pends _ pend
    · exact .inr pend

theorem Covers.postpone (feq : first.front = ⟨la, t :: now, best⟩) (delayed : 0 < t.delay) :
    Covers g q known l { first with
      front := ⟨la ++ [{ t with delay := t.delay - 1 }], now, best⟩ } := by
  have labelled := covers.labelled
  have noted := covers.noted
  rw [feq] at labelled noted
  refine covers.transfer covers.toKnows (fun _ got => got) ?_ (fun _ got _ => .inl got)
    (fun _ le _ => .inl le) (fun v _ => noted v (by simp)) ?_ rfl
  · intro p pend
    unfold Pends at pend
    rw [feq] at pend
    right
    rcases pend with ⟨o, inLater, alike⟩ | ⟨o, inNow, alike⟩
    · exact .inl ⟨o, mem_append_left _ inLater, alike⟩
    · rcases mem_cons.mp inNow with rfl | inNow
      · refine .inl ⟨_, mem_append_right _ (.head _), ?_⟩
        rw [show first.offset + 1 + (o.delay - 1) = first.offset + o.delay by omega]
        exact alike
      · exact .inr ⟨o, inNow, alike⟩
  · intro o mem
    simp only [append_assoc, mem_append, mem_cons, not_mem_nil, or_false]
      at mem labelled
    rcases mem with inLater | rfl | inNow
    · exact labelled o (.inl inLater)
    · exact labelled t (.inr (.inl rfl))
    · exact labelled o (.inr (.inr inNow))

theorem Covers.advance {sd : List Pending} (feq : first.front = ⟨la, [], best⟩)
    (unmatched : best = none) (start : q.start = g.start) (unb : q.maxThreads = 0)
    (seeded : q.Seeds (first.offset + 1) best sd) :
    Covers g q known l { first with
      offset := first.offset + 1
      front := ⟨[], la ++ sd, best⟩
      owner := none } := by
  have labelled := covers.labelled
  rw [feq] at labelled
  refine covers.transfer covers.toKnows (fun _ got => got) ?_ (fun _ got _ => .inl got)
    ?_ (fun _ _ owned => by simp at owned) ?_ rfl
  · intro p pend
    unfold Pends at pend
    rw [feq] at pend
    rcases pend with ⟨t, inLater, alike⟩ | ⟨t, inNow, -⟩
    · exact .inr (.inr ⟨t, mem_append_left _ inLater, alike⟩)
    · simp at inNow
  · intro k le anc
    rcases Nat.lt_or_ge first.offset k with new | old
    · obtain rfl : k = first.offset + 1 := Nat.le_antisymm le new
      have unanchored : q.anchorsStart = false := by
        cases flag : q.anchorsStart with
        | false => rfl
        | true => simpa using anc flag
      simp only [Query.Seeds, unanchored, unmatched, Option.isSome_none, Bool.or_self,
        Bool.false_eq_true, if_false, unb, Nat.lt_irrefl, false_and, or_false] at seeded
      refine .inr (.inr ⟨q.seed (first.offset + 1), ?_, by rw [← start]; exact .refl _ _⟩)
      exact mem_append_right _ (by simp [seeded])
    · exact .inl old
  · intro t mem
    rcases mem_append.mp (show t ∈ la ++ sd by simpa using mem) with
      inLater | inSeeds
    · exact labelled t (mem_append_left _ inLater)
    · obtain rfl : t = q.seed (first.offset + 1) := by
        unfold Query.Seeds at seeded
        split at seeded
        · simp [seeded] at inSeeds
        · rcases seeded with rfl | ⟨-, rfl⟩
          · simpa using inSeeds
          · simp at inSeeds
      exact ⟨Nat.zero_le _, covers.unset _⟩

end

section

variable (ok : g.Valid) (refs : ∀ pc, g.Reachable pc → g.References g.referenced pc)
include ok refs

theorem Covers.close {s : Scheduler} {st : Exploration} {owner : Option Nat}
    (covers : Covers g q known l first) (feq : first.front = ⟨la, t :: now, best⟩)
    (due : t.delay = 0) (beg : s.Begins q first.offset (first.scope t)) (entry : g.Entry t.entry)
    (explores : Explores g.summary s [] (.visit t.entry) { scope := s.scope } st)
    (fits : ∀ ev ∈ st.events.reverse, ev.Fits s) (unmatched : st.accepted = false)
    (whole : ¬first.CutsOff g q) (owned : now = [] ∨ owner = some t.visit) :
    ∃ known' l', Covers g q known' l' { first with
      front := ⟨la ++ st.events.reverse.filterMap Event.pending?, now, best⟩
      visited := st.scope.visited
      owner
      lastVisitId := st.scope.lastVisitId } := by
  have labelled := covers.labelled
  have noted := covers.noted
  rw [feq] at labelled noted
  have ownLabel := labelled t (by simp)
  have sameQuery := beg.query_eq
  have eqOff := beg.offset_eq
  have c : s.scope.captures = t.captures := by rw [beg.scope_eq]; rfl
  have notedBefore : Graph.Noted known s 0 s.scope := by
    intro pc marked
    right
    rw [eqOff, c]
    rw [beg.scope_eq] at marked
    simp only [scope] at marked
    split at marked
    · next sameOwner =>
      have alike : Point.Alike g.referenced ⟨pc, first.offset, l t.visit⟩
          ⟨pc, first.offset, t.captures⟩ := ⟨rfl, rfl, ownLabel.same.symm⟩
      exact covers.respects alike (noted t.visit (by simp) sameOwner pc marked)
    · simp at marked
  have uncut : ¬Rematch.CutsOff g.summary s 0 (.visit t.entry) { scope := s.scope } :=
    fun cut => whole ⟨t, la, now, best, s, feq, due, beg, cut⟩
  obtain ⟨known', learns, notedAfter, learned⟩ :=
    Graph.learns_of_explores ok refs explores rfl unmatched (entry.reachable ok) uncut
      (sameQuery ▸ covers.toKnows) notedBefore
  have startLabel : g.Labelled l s.scope.lastVisitId s.scope.visitId
      s.scope.captures := by
    rw [c, beg.scope_eq]
    exact ownLabel
  obtain ⟨l', relabels⟩ := Graph.relabels_of_explores explores rfl startLabel
  have further : ∀ v ≤ first.lastVisitId, l' v = l v := by
    intro v le
    apply relabels.same
    rw [beg.scope_eq]
    exact le
  have lastBound : first.lastVisitId ≤ st.scope.lastVisitId := by
    have le := relabels.further
    rw [beg.scope_eq] at le
    exact le
  refine ⟨known', l', covers.transfer (sameQuery ▸ learns.toKnows) learns.grows ?_ ?_
    (fun _ le _ => .inl le) ?_ ?_ (further 0 (Nat.zero_le _))⟩
  · intro p pend
    unfold Pends at pend
    rw [feq] at pend
    rcases pend with ⟨o, inLater, alike⟩ | ⟨o, inNow, alike⟩
    · exact .inr (.inl ⟨o, mem_append_left _ inLater, alike⟩)
    · rcases mem_cons.mp inNow with rfl | inNow
      · rw [due, Nat.add_zero, ← eqOff, ← c] at alike
        exact .inl (learns.respects alike.symm learned)
      · exact .inr (.inr ⟨o, inNow, alike⟩)
  · intro p got reach
    refine (learns.explored p got).imp_right fun explored => ⟨?_, fun nx hops => ?_⟩
    · exact sameQuery ▸ explored.fails
    · refine (explored.leads nx (sameQuery ▸ hops)).imp_right ?_
      rintro ⟨ev, mem, leads⟩
      cases ev with
      | accept | fail => exact False.elim leads
      | wait e n c v =>
        have fitting := fits _ (mem_reverse.mpr mem)
        refine .inl ⟨⟨e, n.toNat - 1, v, c⟩, mem_append_right _ ?_, ?_⟩
        · exact mem_filterMap.mpr ⟨_, mem_reverse.mpr mem, rfl⟩
        · have eq : first.offset + 1 + (n.toNat - 1) = s.offset + n.toNat := by
            simp only [Event.Fits] at fitting
            omega
          rw [eq]
          exact leads
  · intro v ne sameOwner pc marked
    obtain rfl : v = t.visit := Option.some.inj (sameOwner.symm.trans (owned.resolve_left ne))
    have kept := ((explores.kept rfl).resolve_left (by simp [unmatched])).2
    have got := (notedAfter pc marked).resolve_left (by simp)
    rw [kept.captures_eq, eqOff, c] at got
    rw [further t.visit ownLabel.known]
    have alike : Point.Alike g.referenced ⟨pc, first.offset, t.captures⟩
        ⟨pc, first.offset, l t.visit⟩ := ⟨rfl, rfl, ownLabel.same⟩
    exact learns.respects alike got
  · intro o mem
    simp only [append_assoc, mem_append, mem_filterMap] at mem
    rcases mem with inLater | ⟨ev, inEvents, started⟩ | inNow
    · exact (labelled o (mem_append_left _ inLater)).mono lastBound further
    · have ofEvent := (relabels.events ev (mem_reverse.mp inEvents)).resolve_left (by simp)
      cases ev with
      | accept | fail => simp [Event.pending?] at started
      | wait =>
        cases started
        exact ofEvent
    · exact (labelled o (by simp [inNow])).mono lastBound further

theorem Step.complete (start : q.start = g.start) (unb : q.maxThreads = 0)
    (step : first.Step g.summary.interpreter q z) (ent : first.Entered g) (fits : first.Fits q)
    (whole : ¬first.CutsOff g q) (complete : first.Complete g q) : z.Complete g q := by
  cases step with
  | postpone feq delayed =>
    rcases complete with matched | ⟨known, l, covers⟩
    · rw [feq] at matched
      exact .inl matched
    · exact .inr ⟨known, l, covers.postpone feq delayed⟩
  | @advance la sd best feq unfinished seeded =>
    rcases complete with matched | ⟨known, l, covers⟩
    · rw [feq] at matched
      exact .inl matched
    · cases best with
      | some c => exact .inl rfl
      | none => exact .inr ⟨known, l, covers.advance feq rfl start unb seeded⟩
  | @close t la now best after owner s feq due beg abs owned =>
    unfold Entered at ent
    rw [feq] at ent
    have entry := ent t (by simp)
    have unlimited : s.maxThreads = 0 := by rw [← beg.query_eq] at unb; exact unb
    have within : s.offset ≤ s.text.size := by
      have lt := fits.offset
      rw [← beg.query_eq, ← beg.offset_eq] at lt
      exact lt
    obtain ⟨st, explores, turn, arises⟩ := Graph.interpreter_explores ok beg.positioned entry
    rw [turn] at abs
    simp only [turn]
    have fitting := fun ev mem => (arises ev mem).fits within
    by_cases matched : ∃ c v, .accept c v ∈ st.events.reverse
    · exact .inl (abs.isSome_best unlimited fitting (.inr matched))
    rcases complete with pre | ⟨known, l, covers⟩
    · rw [feq] at pre
      exact .inl (abs.isSome_best unlimited fitting (.inl pre))
    · have unmatched : st.accepted = false := by
        cases acc : st.accepted with
        | false => rfl
        | true =>
          obtain ⟨c, v, mem⟩ := Graph.exists_accept_of_explores explores rfl acc
          exact False.elim (matched ⟨c, v, mem_reverse.mpr mem⟩)
      obtain rfl := abs.eq_of_waits unlimited fitting fun c v mem => matched ⟨c, v, mem⟩
      exact .inr (covers.close ok refs feq due beg entry explores fitting unmatched whole owned)

variable (pos : ∀ gr ∈ g.referenced, 1 ≤ gr) (start : q.start = g.start)

include pos start

theorem covers_initial :
    ∃ known l, Covers g q known l (initial q) := by
  refine ⟨fun p => g.Reachable p.pc → ¬g.Succeeds q p,
    fun _ => q.blank 0, ⟨?_, fun _ _ hopeless _ => hopeless⟩, ?_, ?_, ?_, ?_, ?_, ?_⟩
  · intro p p' alike hopeless reach succeeds
    rw [← alike.pc_eq] at reach
    exact hopeless reach (succeeds.alike ok refs (alike.pc_eq ▸ reach) alike.symm)
  · exact fun p hopeless reach accepts => hopeless reach ⟨p, .refl, accepts⟩
  · intro p n hopeless reach hops
    refine .inl fun _ succeeds => hopeless reach ?_
    obtain ⟨z, rest, accepts⟩ := succeeds
    exact ⟨z, .head hops rest, accepts⟩
  · intro k le _
    obtain rfl := Nat.le_zero.mp le
    exact .inr (.inr ⟨q.seed 0, .head _, by rw [← start]; exact .refl _ _⟩)
  · exact fun _ _ owned => by simp [initial] at owned
  · intro t mem
    obtain rfl : t = q.seed 0 := by simpa [initial] using mem
    exact ⟨Nat.le_refl _, .refl _ _⟩
  · exact Query.blank_sameOn pos q

theorem Reaches.complete (unb : q.maxThreads = 0)
    (reached : (initial q).Reaches g.summary.interpreter q z)
    (whole : ∀ s, (initial q).Reaches g.summary.interpreter q s → ¬s.CutsOff g q) :
    z.Complete g q := by
  induction reached with
  | refl => exact .inr (covers_initial ok refs pos start)
  | tail pre step ih =>
    exact step.complete ok refs start unb (Reaches.entered ok start pre)
      (Reaches.fits pre) (whole _ pre) ih

end

theorem Covers.not_succeeds (ok : g.Valid) (covers : Covers g q known l z)
    (done : z.isDone q = true) (unmatched : z.front.best = none)
    (noLater : z.front.later = []) (noNow : z.front.now = []) {k : Nat}
    (lt : k ≤ q.text.size) (anc : q.anchorsStart = true → k = 0) :
    ¬g.Succeeds q ⟨g.start, k, q.blank k⟩ := by
  have no : ∀ p, ¬z.Pends g.referenced p := by
    rintro p (⟨t, mem, -⟩ | ⟨t, mem, -⟩)
    · simp [noLater] at mem
    · simp [noNow] at mem
  have begun : k ≤ z.offset := by
    simp only [isDone, unmatched, Option.isSome_none, Bool.false_or, Bool.or_eq_true,
      Bool.and_eq_true, decide_eq_true_eq] at done
    rcases done with fin | ⟨flag, -⟩
    · exact Nat.le_trans lt fin
    · rw [anc flag]
      exact Nat.zero_le _
  rintro ⟨f, hops, accepts⟩
  have reached : known f ∧ g.Reachable f.pc := by
    clear accepts
    induction hops with
    | refl => exact ⟨(covers.begun k begun anc).resolve_right (no _), ok.reachable_closed.2.2⟩
    | @tail p n _ hop ih =>
      obtain ⟨got, reach⟩ := ih
      exact ⟨(covers.leads p n got reach hop).resolve_right (no _), hop.reachable ok reach⟩
  exact covers.fails f reached.1 reached.2 accepts

theorem CutsOff.leads {s : Search} (cutsOff : s.CutsOff g q)
    (ok : g.Valid) (sound : Sound g q s.offset s.front) : ∃ z, g.Leads q z ∧ g.Accepts q z := by
  obtain ⟨t, l, now, best, sched, feq, due, beg, cut⟩ := cutsOff
  rw [feq] at sound
  have leads := sound.now t (.head _)
  have caps : sched.scope.captures = t.captures := by rw [beg.scope_eq]; rfl
  rw [due, Nat.add_zero, ← beg.query_eq, ← beg.offset_eq, ← caps] at leads
  obtain ⟨z, path, accepts⟩ := Graph.path_of_cutsOff ok cut rfl .refl
  rw [← beg.query_eq]
  exact ⟨z, leads.trans path, accepts⟩

end Search

namespace Graph

/-- There is a path to a match if and only if a search without a bound on the number of threads
reports a match, or one of its closures is cut off. -/
theorem exists_accepting_path_iff {graph : Graph} {analysis : Analysis}
    (accepted : graph.analyze = .ok analysis)
    (groups : ∀ pc exts, graph.extensionsAt? pc = some exts → ∀ ext ∈ exts,
      ext.kind = .backreference → 1 ≤ ext.arg ∧ ext.arg < 256)
    {text : Text} {flags slots : Nat} {final : Scheduler}
    (finishes : Scheduler.Finishes analysis.interpreter
      ((Scheduler.new graph.size 0).init text analysis.start flags slots) final) :
    let query : Query := ⟨text, flags, max slots 2, analysis.start, 0⟩
    (∃ first last, first ≤ text.size ∧ (flags.testBit 0 = true → first = 0) ∧
        graph.Path query (graph.origin query first) last ∧ graph.Accepts query last) ↔
      final.result?.isSome = true ∨
        ∃ search, (Search.initial query).Reaches analysis.interpreter query search ∧
          search.CutsOff graph query := by
  intro query
  obtain ⟨valid, rfl⟩ := analyze_eq_ok accepted
  obtain ⟨search, reached, done, noLater, noNow, result⟩ :=
    finishes.result?_eq graph.summary.interpreter_orderly
  constructor
  · rintro ⟨first, last, inside, anchored, path, accepts⟩
    by_cases cut : ∃ search, (Search.initial query).Reaches graph.summary.interpreter query search ∧
      search.CutsOff graph query
    · exact .inr cut
    have references : ∀ pc, graph.Reachable pc → graph.References graph.referenced pc :=
      fun pc reachable exts found ext listed kind => mem_referenced.mpr
        ⟨(groups pc exts found ext listed kind).2, pc, exts, ext, reachable, found, listed, kind,
          rfl⟩
    have positive : ∀ group ∈ graph.referenced, 1 ≤ group := by
      intro group listed
      obtain ⟨-, pc, exts, ext, -, found, inExts, kind, rfl⟩ := mem_referenced.mp listed
      exact (groups pc exts found ext inExts kind).1
    have complete := reached.complete valid references positive rfl rfl
      fun search reached cutsOff => cut ⟨search, reached, cutsOff⟩
    rw [result]
    rcases complete with matched | ⟨known, label, covers⟩
    · exact .inl matched
    · cases unmatched : search.front.best with
      | some captures => exact .inl rfl
      | none =>
        have succeeds := succeeds_of_path valid path accepts
        exact False.elim (covers.not_succeeds valid done unmatched noLater noNow inside anchored
          succeeds)
  · rintro (matched | ⟨search, reached, cutsOff⟩)
    · obtain ⟨captures, found⟩ := Option.isSome_iff_exists.mp matched
      rw [found] at result
      obtain ⟨last, ⟨first, inside, anchored, path⟩, accepts, -⟩ :=
        (Search.Reaches.sound valid rfl reached).best captures result.symm
      exact ⟨first, last, inside, anchored, path, accepts⟩
    · obtain ⟨last, ⟨first, inside, anchored, path⟩, accepts⟩ :=
        cutsOff.leads valid (Search.Reaches.sound valid rfl reached)
      exact ⟨first, last, inside, anchored, path, accepts⟩

/-- The automaton of a group that may be empty or skipped and is then repeated. -/
def skipped : Graph where
  automaton :=
    { insts := #[{ op := .alt, out := 3, out1 := 1 }, { op := .capture, arg := 2, out := 2 },
        { op := .capture, arg := 3, out := 3 }, { op := .byteRange, out := 4 }, { op := .accept }]
      start := 0
      slots := 4 }
  overlay := [(3, [{ kind := .backreference, arg := 1, out := 4 }])]

theorem path_skipped : skipped.Path ⟨#[], 0, 4, skipped.summary.start, 0⟩
        (skipped.origin ⟨#[], 0, 4, skipped.summary.start, 0⟩ 0) ⟨4, 0, #[0, -1, 0, 0]⟩ ∧
      skipped.Accepts ⟨#[], 0, 4, skipped.summary.start, 0⟩ ⟨4, 0, #[0, -1, 0, 0]⟩ := by
  have enters : skipped.Moves ⟨#[], 0, 4, skipped.summary.start, 0⟩
      ⟨0, 0, #[0, -1, -1, -1]⟩ ⟨1, 0, #[0, -1, -1, -1]⟩ := by decide +kernel
  have opens : skipped.Moves ⟨#[], 0, 4, skipped.summary.start, 0⟩
      ⟨1, 0, #[0, -1, -1, -1]⟩ ⟨2, 0, #[0, -1, 0, -1]⟩ := by decide +kernel
  have closes : skipped.Moves ⟨#[], 0, 4, skipped.summary.start, 0⟩
      ⟨2, 0, #[0, -1, 0, -1]⟩ ⟨3, 0, #[0, -1, 0, 0]⟩ := by decide +kernel
  have repeats : skipped.Moves ⟨#[], 0, 4, skipped.summary.start, 0⟩
      ⟨3, 0, #[0, -1, 0, 0]⟩ ⟨4, 0, #[0, -1, 0, 0]⟩ := by decide +kernel
  exact ⟨.head enters (.head opens (.head closes (.single repeats))), by decide +kernel⟩

/-- The search finds nothing: the repetition is entered without the group first. -/
theorem finishes_skipped : ∃ f, Scheduler.Finishes skipped.summary.interpreter
        ((Scheduler.new skipped.size 0).init #[] skipped.summary.start 0 4) f ∧ f.result? = none :=
  ⟨(((Scheduler.new skipped.size 0).init #[] skipped.summary.start 0 4).dispatch
    skipped.summary.interpreter 0).2, .done (Prod.ext (by decide +kernel) rfl), by decide +kernel⟩

/-- So a search can miss a match that a path leads to. -/
theorem result?_eq_none_of_path : ¬∀ (graph : Graph) (analysis : Analysis) (text : Text)
    (flags slots : Nat) (final : Scheduler) (first : Nat) (last : Point),
    graph.analyze = .ok analysis →
    (∀ pc exts, graph.extensionsAt? pc = some exts → ∀ ext ∈ exts, ext.kind = .backreference →
      1 ≤ ext.arg ∧ ext.arg < 256 ∧ 2 * ext.arg + 1 < slots) →
    Scheduler.Finishes analysis.interpreter
      ((Scheduler.new graph.size 0).init text analysis.start flags slots) final →
    first ≤ text.size → (flags.testBit 0 = true → first = 0) →
    graph.Path ⟨text, flags, max slots 2, analysis.start, 0⟩
      (graph.origin ⟨text, flags, max slots 2, analysis.start, 0⟩ first) last →
    graph.Accepts ⟨text, flags, max slots 2, analysis.start, 0⟩ last →
    final.result?.isSome = true := by
  intro complete
  obtain ⟨final, finishes, nothing⟩ := finishes_skipped
  obtain ⟨path, accepts⟩ := path_skipped
  have found := complete skipped skipped.summary #[] 0 4 final 0 _ rfl
    (fun _ _ => forall_extensions (by decide))
    finishes (Nat.zero_le _) (fun _ => rfl) path accepts
  simp [nothing] at found

/-- There, a closure is cut off. -/
theorem cutsOff_skipped :
    ∃ search, (Search.initial ⟨#[], 0, 4, skipped.summary.start, 0⟩).Reaches
        skipped.summary.interpreter ⟨#[], 0, 4, skipped.summary.start, 0⟩ search ∧
      search.CutsOff skipped ⟨#[], 0, 4, skipped.summary.start, 0⟩ := by
  obtain ⟨final, finishes, nothing⟩ := finishes_skipped
  obtain ⟨path, accepts⟩ := path_skipped
  have accepted : skipped.analyze = .ok skipped.summary := rfl
  have groups : ∀ pc exts, skipped.extensionsAt? pc = some exts → ∀ ext ∈ exts,
      ext.kind = .backreference → 1 ≤ ext.arg ∧ ext.arg < 256 :=
    fun _ _ => forall_extensions (by decide)
  have either := (exists_accepting_path_iff accepted groups finishes).mp
    ⟨0, _, Nat.zero_le _, fun _ => rfl, path, accepts⟩
  exact either.resolve_left (by simp [nothing])

end Graph

end Rematch
