import Rematch.Proofs.Matching.Completeness
import Rematch.Proofs.Threads.Arena
import Rematch.Proofs.Threads.Laden

/-!
Visit ids between closures. A label stands behind every visit id: the captures of referenced groups
that all live threads with this id have. A closure extends the labels by those of the scopes it
opens, and every thread it starts has the label of the scope it was started in, whatever becomes of
the scope afterwards. So live threads with the same visit id agree on all referenced groups.
-/

namespace Rematch

namespace Scheduler

variable {sched t m : Scheduler} {holds : Nat → Captures → Prop} {s : Search} {id : Nat}

/-- The threads alive in `after` were alive before, with the same visit ids and captures. -/
def Culls (after sched : Scheduler) : Prop :=
  ∀ id, (after.thread id).state ≠ .dead → (sched.thread id).state ≠ .dead ∧
    (after.thread id).visit = (sched.thread id).visit ∧
    (after.thread id).captures = (sched.thread id).captures

/-- What holds of the visit id and the captures of every live thread. -/
def Every (holds : Nat → Captures → Prop) (sched : Scheduler) : Prop :=
  ∀ id, (sched.thread id).state ≠ .dead →
    holds (sched.thread id).visit (sched.thread id).captures

namespace Culls

theorem of_eq (eq : t.thread = sched.thread) : t.Culls sched := by
  intro id alive
  rw [eq] at alive ⊢
  exact ⟨alive, rfl, rfl⟩

theorem trans (left : t.Culls m) (right : m.Culls sched) : t.Culls sched := by
  intro id alive
  obtain ⟨alive, visit, caps⟩ := left id alive
  obtain ⟨alive, visit', caps'⟩ := right id alive
  exact ⟨alive, visit.trans visit', caps.trans caps'⟩

section

variable (sched : Scheduler)

theorem modify (id : Nat) (f : Thread → Thread)
    (keeps : ∀ t, (f t).state ≠ .dead → t.state ≠ .dead ∧
      (f t).visit = t.visit ∧ (f t).captures = t.captures) : (sched.modify id f).Culls sched := by
  intro j alive
  rw [thread_modify] at alive ⊢
  split at alive
  · next here =>
    rw [if_pos here]
    exact keeps _ alive
  · next elsewhere =>
    rw [if_neg elsewhere]
    exact ⟨alive, rfl, rfl⟩

theorem setQueue (l : Lane) (queue : Queue) : (sched.setQueue l queue).Culls sched :=
  of_eq (funext fun id => thread_setQueue sched l queue id)

theorem enqueue (l : Lane) (id : Nat) : (sched.enqueue l id).Culls sched :=
  (modify _ id ({ · with lane := some l }) fun _ alive => ⟨alive, rfl, rfl⟩).trans
    (setQueue sched l _)

theorem take (id : Nat) (r : Queue) : (sched.take id r).Culls sched :=
  (modify _ id ({ · with lane := none }) fun _ alive => ⟨alive, rfl, rfl⟩).trans
    (setQueue sched _ r)

theorem postpone (id : Nat) : (sched.postpone id).Culls sched :=
  (enqueue _ _ id).trans
    (modify sched id (fun t => { t with delay := t.delay - 1 }) fun _ alive => ⟨alive, rfl, rfl⟩)

theorem dequeue (id : Nat) : (sched.dequeue id).Culls sched := by
  unfold Scheduler.dequeue
  split
  · exact of_eq rfl
  · exact (modify _ id ({ · with lane := none }) fun _ alive => ⟨alive, rfl, rfl⟩).trans
      (setQueue sched _ _)

theorem retire (id : Nat) : (sched.retire id).Culls sched :=
  (modify _ id ({ · with state := .dead }) fun _ alive => absurd rfl alive).trans
    ((of_eq rfl).trans (dequeue sched id))

theorem kill (id : Nat) : (sched.kill id).Culls sched := by
  unfold Scheduler.kill
  split
  · exact of_eq rfl
  · exact (of_eq rfl).trans (retire sched id)

end

theorem foldl_retire (ids : List Nat) (s : Scheduler) : (ids.foldl Scheduler.retire s).Culls s := by
  induction ids generalizing s with
  | nil => exact of_eq rfl
  | cons id r ih => exact (ih (s.retire id)).trans (retire s id)

theorem killBelow (s : Scheduler) (id : Nat) : (s.killBelow id).Culls s :=
  (foldl_retire _ _).trans (of_eq rfl)

theorem killBelowCursor (s : Scheduler) : s.killBelowCursor.Culls s := by
  unfold Scheduler.killBelowCursor
  split
  · exact of_eq rfl
  · exact killBelow s _

theorem allocate (s : Scheduler) : s.allocate.2.Culls s := by
  unfold Scheduler.allocate
  split
  · exact of_eq rfl
  · dsimp only
    split
    · exact of_eq rfl
    · intro id alive
      simp only [thread, Array.getD_eq_getD_getElem?, Array.getElem?_push] at alive ⊢
      split at alive
      · exact absurd rfl alive
      · next elsewhere =>
        rw [if_neg elsewhere]
        exact ⟨alive, rfl, rfl⟩

theorem finish (s : Scheduler) (id : Nat) : (s.finish id).Culls s := by
  unfold Scheduler.finish
  split
  · exact (of_eq rfl).trans (kill s id)
  · exact of_eq rfl

theorem every (culls : t.Culls sched) (every : sched.Every holds) : t.Every holds := by
  intro id alive
  obtain ⟨alive, visit, caps⟩ := culls id alive
  rw [visit, caps]
  exact every id alive

end Culls

namespace Every

theorem assign (every : sched.Every holds) (id : Nat) {f : Thread → Thread}
    (new : id < sched.arena.size → holds (f (sched.thread id)).visit
      (f (sched.thread id)).captures) : (sched.modify id f).Every holds := by
  intro j alive
  rw [thread_modify] at alive ⊢
  split at alive
  · next here =>
    obtain ⟨rfl, lt⟩ := here
    rw [if_pos ⟨rfl, lt⟩]
    exact new lt
  · next elsewhere =>
    rw [if_neg elsewhere]
    exact every j alive

section Forking

variable {c : Captures} (every : sched.Every holds)
  (tracked : ∀ id < sched.arena.size, (sched.thread id).captures.size = sched.slots)
  (size : c.size = sched.slots) (new : holds sched.scope.visitId c)

include every tracked size new

theorem fork (e : Nat) : (sched.fork e c).2.Every holds ∧ ∀ id, (sched.fork e c).1 = some id →
        id < (sched.fork e c).2.arena.size →
          ((sched.fork e c).2.thread id).visit = sched.scope.visitId ∧
          ((sched.fork e c).2.thread id).captures = c := by
  have culls := Culls.allocate sched
  have fr := (Frames.refl sched).allocate.1
  have sameScope := (Agrees.allocate sched).scope_eq
  unfold Scheduler.fork
  split
  · next al res =>
    rw [res] at culls
    exact ⟨culls.every every, fun _ started => by simp at started⟩
  · next id al res =>
    rw [res] at culls fr sameScope
    have copied : id < al.arena.size → c.copyInto (al.thread id).captures = c := fun lt =>
      Captures.copyInto_eq _ _ (size.trans (fr.tracked tracked id lt).symm)
    refine ⟨?_, ?_⟩
    · refine (Culls.of_eq rfl).every ((culls.every every).assign id fun lt => ?_)
      rw [copied lt, sameScope]
      exact new
    · rintro _ ⟨⟩ lt
      have held : id < al.arena.size := by simpa using lt
      have record := thread_modify_self al (fun t =>
        { t with
          entry := e, visit := al.scope.visitId, delay := 0, state := .queued
          captures := c.copyInto t.captures }) held
      refine ⟨(congrArg Thread.visit record).trans (by rw [sameScope]),
        (congrArg Thread.captures record).trans (copied held)⟩

theorem wait (e : Nat) (n : Int) : (sched.wait e n c).Every holds := by
  obtain ⟨forked, record⟩ := every.fork tracked size new e
  unfold Scheduler.wait
  split
  · exact every
  · split
    · next res =>
      rw [res] at forked
      exact forked
    · next id st res =>
      rw [res] at forked record
      refine (Culls.enqueue _ _ id).every (forked.assign id fun lt => ?_)
      obtain ⟨visit, held⟩ := record id rfl lt
      rw [visit, held]
      exact new

theorem recordMatch (stable : ∀ v cs (w : Int), holds v cs → holds v (cs.setIfInBounds 1 w)) :
    (sched.recordMatch c).2.Every holds := by
  have fr := (Frames.refl sched).killBelowCursor
  have sameScope : sched.killBelowCursor.scope = sched.scope := by
    unfold killBelowCursor
    split
    · rfl
    · exact (Agrees.foldl_retire _ _).scope_eq
  obtain ⟨forked, record⟩ := ((Culls.killBelowCursor sched).every every).fork
    (fr.slots_eq.symm ▸ fr.tracked tracked) (size.trans fr.slots_eq.symm)
    (sameScope.symm ▸ new) 0
  unfold Scheduler.recordMatch
  split
  · exact every
  · split
    · next res =>
      rw [res] at forked
      exact forked
    · next id st res =>
      rw [res] at forked record
      refine (Culls.of_eq rfl).every ((Culls.killBelow _ id).every (forked.assign id fun lt => ?_))
      obtain ⟨visit, held⟩ := record id rfl lt
      rw [visit, held, sameScope]
      exact stable _ _ _ new

end Forking

theorem seed (every : sched.Every holds)
    (tracked : ∀ id < sched.arena.size, (sched.thread id).captures.size = sched.slots)
    (new : holds 0 ((Array.replicate sched.slots (-1)).setIfInBounds 0 sched.offset)) :
    sched.seed.Every holds := by
  have culls := Culls.allocate sched
  have fr := (Frames.refl sched).allocate.1
  unfold Scheduler.seed
  split
  · next al res =>
    rw [res] at culls
    exact culls.every every
  · next id al res =>
    rw [res] at culls fr
    refine (Culls.enqueue _ _ id).every ((Culls.of_eq rfl).every
      ((culls.every every).assign id fun lt => ?_))
    have eqOff : al.offset = sched.offset := congrArg Setting.offset fr.setting_eq
    rw [fr.tracked tracked id lt, eqOff]
    exact new

end Every

theorem every_cleared (s : Scheduler) (t : Text) (i fl sl : Nat) :
    (s.cleared t i fl sl).Every holds := by
  intro id alive
  refine absurd ?_ alive
  simp only [cleared, reset, position, thread, Array.getD_eq_getD_getElem?, Array.getElem?_map]
  cases (s.resize (max sl 2)).arena[id]? <;> rfl

end Scheduler

namespace Graph

open Scheduler Culls

variable {g : Graph} {l : Nat → Captures} {z : Nat} {sched t : Scheduler}
  {q : Query} {s : Search}

theorem Labelled.setMatchEnd (pos : ∀ gr ∈ g.referenced, 1 ≤ gr) (v : Nat)
    (c : Captures) (w : Int) (labelled : g.Labelled l z v c) :
    g.Labelled l z v (c.setIfInBounds 1 w) := by
  have unlisted : 1 / 2 ∉ g.referenced := fun mem => absurd (pos _ mem) (by simp)
  exact ⟨labelled.known,
    (Captures.SameOn.setIfInBounds_of_not_mem unlisted _ _).trans labelled.same⟩

theorem every_foldl_apply (pos : ∀ gr ∈ g.referenced, 1 ≤ gr) {evs : List Event}
    {mayMatch : Bool} (every : sched.Every (g.Labelled l z))
    (tracked : ∀ id < sched.arena.size, (sched.thread id).captures.size = sched.slots)
    (ord : Event.Orderly sched.slots mayMatch evs) (labelled : ∀ ev ∈ evs, ev.Labelled g l z) :
    (evs.foldl apply sched).Every (g.Labelled l z) := by
  induction evs generalizing sched with
  | nil => exact every
  | cons ev evs ih =>
    have fr := (Frames.refl sched).apply ev
    have tracked' := fr.slots_eq.symm ▸ fr.tracked tracked
    have here := labelled ev (.head _)
    have later := fun o mem => labelled o (.tail _ mem)
    have named : ∀ v, (sched.setVisitId v).Every (g.Labelled l z) :=
      fun v => (of_eq rfl).every every
    cases ev with
    | fail => exact False.elim ord
    | wait e n c v =>
      obtain ⟨size, ord⟩ := ord
      exact ih ((named v).wait tracked size here e n) tracked' (fr.slots_eq.symm ▸ ord) later
    | accept c v =>
      obtain ⟨size, -, ord⟩ := ord
      exact ih ((named v).recordMatch tracked size here (Labelled.setMatchEnd pos)) tracked'
        (fr.slots_eq.symm ▸ ord) later

/-- The visit ids of all live threads stand for their captures, and that of a thread at the start
for no captures. -/
structure Tagged (graph : Graph) (query : Query) (label : Nat → Captures) (sched : Scheduler) :
    Prop where
  every : sched.Every (graph.Labelled label sched.scope.lastVisitId)
  blank : label 0 = query.blank 0

theorem Tagged.seed (tagged : g.Tagged q l sched)
    (pos : ∀ gr ∈ g.referenced, 1 ≤ gr) (slots : sched.slots = q.slots)
    (tracked : ∀ id < sched.arena.size, (sched.thread id).captures.size = sched.slots) :
    g.Tagged q l sched.seed := by
  have labelled : g.Labelled l sched.scope.lastVisitId 0
      ((Array.replicate sched.slots (-1)).setIfInBounds 0 sched.offset) := by
    refine ⟨Nat.zero_le _, ?_⟩
    rw [tagged.blank, slots]
    exact Query.blank_sameOn pos q sched.offset
  refine ⟨?_, tagged.blank⟩
  rw [(seed_frame sched).1]
  exact tagged.every.seed tracked labelled

section

variable (ok : g.Valid) (pos : ∀ gr ∈ g.referenced, 1 ≤ gr)

include ok pos

theorem Tagged.run {id : Nat} {n now won : List Nat} (tagged : g.Tagged q l sched)
    (rk : sched.Ranked n [id] now won)
    (positioned : sched.holding = Condition.holdingAt sched.text sched.offset)
    (entry : g.Entry ((sched.begin id).thread id).entry) :
    ∃ l', g.Tagged q l' (sched.run g.summary.interpreter id) := by
  have during := rk.begin
  obtain ⟨-, home, unqueued⟩ := rk.of_mem_loose id (by simp)
  have alive : (sched.thread id).state ≠ .dead := by
    intro dead
    simp [Thread.place, unqueued, dead] at home
  have scope := rk.begin_scope
  have begun : (sched.begin id).Every (g.Labelled l sched.scope.lastVisitId) :=
    (of_eq rfl).every (tagged.every.assign id fun _ => tagged.every id alive)
  have begunPositioned : (sched.begin id).holding =
      Condition.holdingAt (sched.begin id).text (sched.begin id).offset := positioned
  obtain ⟨st, explores, turn, -⟩ := interpreter_explores ok begunPositioned entry
  obtain ⟨l', relabels⟩ := relabels_of_explores explores rfl
    (by rw [scope]; exact tagged.every id alive)
  have eq : ∀ v ≤ sched.scope.lastVisitId, l' v = l v := by
    have kept := relabels.same
    rw [scope] at kept
    exact kept
  have further : sched.scope.lastVisitId ≤ st.scope.lastVisitId := by
    have kept := relabels.further
    rw [scope] at kept
    exact kept
  have ord := (g.summary.interpreter_orderly _ ((sched.begin id).thread id).entry
    rk.begin_work).1
  rw [turn] at ord
  have ended := every_foldl_apply pos
    (fun j held => (begun j held).mono further eq) during.tracked ord
    fun ev mem => (relabels.events ev (List.mem_reverse.mp mem)).resolve_left (by simp)
  refine ⟨l', ?_, (eq 0 (Nat.zero_le _)).trans tagged.blank⟩
  dsimp only [Scheduler.run]
  rw [turn, (finish_frame _ id).2.1]
  exact (Culls.finish _ id).every ((Culls.of_eq rfl).every ended)

theorem Tagged.turn (shown : sched.Shows q s) (ent : s.Entered g) (tagged : g.Tagged q l sched)
    (turned : sched.turn? g.summary.interpreter = some t) : ∃ l', g.Tagged q l' t := by
  have slots : sched.slots = q.slots := congrArg Query.slots shown.query_eq
  cases fst : sched.next? with
  | none =>
    simp only [turn?, fst] at turned
    split at turned
    · simp at turned
    · cases turned
      have moved : g.Tagged q l sched.moveOn := ⟨(of_eq rfl).every tagged.every, tagged.blank⟩
      rw [advance_eq]
      split
      · exact ⟨l, moved⟩
      · exact ⟨l, moved.seed pos slots shown.tidy.tracked⟩
  | some popped =>
    obtain ⟨id, r⟩ := popped
    simp only [turn?, fst, Option.some.injEq] at turned
    obtain ⟨n, now, won, taken⟩ := shown.exists_taken fst
    have agrees := Agrees.take sched id r
    have held : g.Tagged q l (sched.take id r) :=
      ⟨by rw [agrees.scope_eq]; exact (Culls.take sched id r).every tagged.every, tagged.blank⟩
    split at turned
    · subst turned
      refine ⟨l, ?_, tagged.blank⟩
      have postponed := Agrees.postpone (sched.take id r) id
      rw [postponed.scope_eq]
      exact (Culls.postpone _ id).every held.every
    · subst turned
      obtain ⟨th, mem, eq⟩ := shown.exists_entry fst
      refine held.run ok pos taken (shown.congr_setting agrees.setting_eq).2 ?_
      rw [eq]
      exact ent th (List.mem_append_right _ mem)

theorem tagged_turns (start : q.start = g.start) (shown : sched.Shows q s) (ent : s.Entered g)
    (tagged : g.Tagged q l sched) (turned : Turns g.summary.interpreter sched t) :
    ∃ l', g.Tagged q l' t := by
  induction turned using Relation.ReflTransGen.head_induction_on generalizing s l with
  | refl => exact ⟨l, tagged⟩
  | head turn _ ih =>
    obtain ⟨s', step, shown'⟩ := shown.turn_orderly g.summary.interpreter_orderly turn
    obtain ⟨l', tagged'⟩ := tagged.turn ok pos shown ent turn
    exact ih shown' (step.entered ok start ent) tagged'

end

/-- Between the closures of a search by an interpreter, live threads with the same visit id have the
same captures of all referenced groups, and no visit id is beyond the last one given out. -/
theorem visits_agree {graph : Graph} {sched : Scheduler} {analysis : Analysis}
    (accepted : graph.analyze = .ok analysis)
    (groups : ∀ pc exts, graph.extensionsAt? pc = some exts → ∀ ext ∈ exts,
      ext.kind = .backreference → 1 ≤ ext.arg)
    {states maxThreads : Nat} {used : Scheduler}
    (past : History Runner.Lawful states maxThreads used) {text : Text} {flags slots : Nat}
    (turned : Turns analysis.interpreter (used.init text analysis.start flags slots) sched) :
    (∀ first second, (sched.thread first).state ≠ .dead → (sched.thread second).state ≠ .dead →
        (sched.thread first).visit = (sched.thread second).visit →
        ∀ group ∈ analysis.backrefGroups,
          (sched.thread first).captures[2 * group]? = (sched.thread second).captures[2 * group]? ∧
          (sched.thread first).captures[2 * group + 1]? =
            (sched.thread second).captures[2 * group + 1]?) ∧
      ∀ id, (sched.thread id).state ≠ .dead → (sched.thread id).visit ≤
        sched.scope.lastVisitId := by
  obtain ⟨valid, rfl⟩ := analyze_eq_ok accepted
  have positive : ∀ group ∈ graph.referenced, 1 ≤ group := by
    intro group listed
    obtain ⟨-, pc, exts, ext, -, found, inExts, kind, rfl⟩ := mem_referenced.mp listed
    exact groups pc exts found ext inExts kind
  have tidy := past.tidy
  have shown := tidy.shows_init text graph.summary.start flags slots
  have initial : graph.Tagged ⟨text, flags, max slots 2, graph.summary.start, maxThreads⟩
      (fun _ => Query.blank ⟨text, flags, max slots 2, graph.summary.start, maxThreads⟩ 0)
      (used.init text graph.summary.start flags slots) := by
    rw [init_eq]
    refine Tagged.seed ⟨every_cleared _ _ _ _ _, rfl⟩ positive ?_ ?_
    · exact (tidy.resize (max slots 2)).2
    · exact (tidy.cleared text graph.summary.start flags slots).tracked
  have entered : (Search.initial
      ⟨text, flags, max slots 2, graph.summary.start, maxThreads⟩).Entered graph :=
    Search.entered_initial rfl
  obtain ⟨label, tagged⟩ := tagged_turns valid positive rfl shown entered initial turned
  refine ⟨fun first second alive alive' same group listed => ?_, fun id alive =>
    (tagged.every id alive).known⟩
  have left := (tagged.every first alive).same
  have right := (tagged.every second alive').same
  rw [same] at left
  exact left.trans right.symm group listed

/-- The automaton of `(a|a)`, of which the first choice opens a group that is repeated later. -/
def overlapping : Graph where
  automaton :=
    { insts := #[{ op := .alt, out := 1, out1 := 2 }, { op := .capture, arg := 2, out := 2 },
        { op := .byteRange, lo := 0x61, hi := 0x61, out := 3 },
        { op := .capture, arg := 3, out := 4 }, { op := .byteRange, out := 5 }, { op := .accept }]
      start := 0
      slots := 4 }
  overlay := [(4, [{ kind := .backreference, arg := 1, out := 5 }])]

/-- After the first byte, the second choice and the next start have the same visit id. -/
theorem visits_overlapping : ∃ sched : Scheduler,
    Turns overlapping.summary.interpreter
      ((new 6 0).init #[0x61, 0x61] overlapping.summary.start 0 4) sched ∧
    overlapping.summary.backrefGroups = [1] ∧
    sched.order.map (fun id => ((sched.thread id).visit, (sched.thread id).captures)) =
      [(1, #[0, -1, 0, -1]), (0, #[0, -1, -1, -1]), (0, #[1, -1, -1, -1])] ∧
    sched.order = [1, 2, 0] ∧ sched.scope.lastVisitId = 1 ∧
    (sched.thread 2).captures[2]? = (sched.thread 0).captures[2]? ∧
    (sched.thread 1).visit ≤ sched.scope.lastVisitId := by
  let begun := (new 6 0).init #[0x61, 0x61] overlapping.summary.start 0 4
  let ran := (begun.turn? overlapping.summary.interpreter).get (by decide +kernel)
  let moved := (ran.turn? overlapping.summary.interpreter).get (by decide +kernel)
  have turned : Turns overlapping.summary.interpreter begun moved :=
    .tail (.single (Option.some_get _).symm) (Option.some_get _).symm
  have accepted : overlapping.analyze = .ok overlapping.summary := rfl
  have groups : ∀ pc exts, overlapping.extensionsAt? pc = some exts → ∀ ext ∈ exts,
      ext.kind = .backreference → 1 ≤ ext.arg := fun _ _ => forall_extensions (by decide)
  have agree := visits_agree accepted groups .new turned
  exact ⟨moved, turned, by decide +kernel, by decide +kernel, by decide +kernel, by decide +kernel,
    (agree.1 2 0 (by decide +kernel) (by decide +kernel) (by decide +kernel) 1
      (by decide +kernel)).1, agree.2 1 (by decide +kernel)⟩

end Graph

end Rematch
