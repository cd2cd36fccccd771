import Rematch.Proofs.Matching.Capacity
import Rematch.Proofs.Threads.Laden

/-!
Searches on a scheduler that has been used before. After `init`, a used scheduler is a new one with
further free records, and with a scope that the first closure overwrites; it stays so from turn to
turn. So all that a search shows is the same as on a new scheduler: `History.leaves_no_trace`.
-/

namespace Rematch

open List Scheduler

/-- A closure: where it begins, what it begins with, and what it answers. -/
structure Closure where
  entry : Nat
  offset : Nat
  scope : Scope
  turn : Turn

structure Status where
  /-- The live threads in priority order, with their records. -/
  live : List (Nat × Thread)
  dropped : Nat
  matched : Bool
  result : Option Captures

namespace Scheduler

variable {m n : Nat} {us : Scheduler}

def closure (sched : Scheduler) (runner : Runner) (id : Nat) : Closure :=
  let begun := sched.begin id
  let entry := (begun.thread id).entry
  ⟨entry, begun.offset, begun.scope, runner begun entry⟩

/-- The closures that `drain` runs. -/
def drained (runner : Runner) : Nat → Option Nat → Scheduler → List Closure
  | 0, _, _ => []
  | _ + 1, some 0, _ => []
  | count + 1, limit, sched =>
    match sched.next? with
    | none => []
    | some (id, rest) =>
      let sched := sched.take id rest
      if 0 < (sched.thread id).delay then drained runner count limit (sched.postpone id)
      else
        sched.closure runner id ::
          drained runner count (limit.map (· - 1)) (sched.run runner id)

/-- The closures that `dispatchFrom` runs. -/
def dispatchedFrom (runner : Runner) : Nat → Option Nat → Scheduler → List Closure
  | 0, _, _ => []
  | offsets + 1, limit, sched =>
    let count := (sched.queue sched.active).toList.length
    drained runner count limit sched ++
      match drain runner count limit sched with
      | (some 0, _) => []
      | (limit, sched) =>
        if sched.isDone then [] else dispatchedFrom runner offsets limit sched.advance

/-- The closures that `dispatch` runs. -/
def dispatched (sched : Scheduler) (runner : Runner) (maxSteps : Int) : List Closure :=
  let limit := if maxSteps ≤ 0 then none else some maxSteps.toNat
  dispatchedFrom runner (sched.remaining + 1) limit sched

def status (sched : Scheduler) : Status :=
  ⟨sched.order.map fun id => (id, sched.thread id), sched.dropped, sched.matched, sched.result?⟩

/-- All that a scheduler shows over some calls of `dispatch`: the closures that each of them runs,
its answer, and what it leaves. -/
def transcript : List (Runner × Int) → Scheduler → List (List Closure × Bool × Status)
  | [], _ => []
  | (runner, maxSteps) :: rest, sched =>
    let (more, after) := sched.dispatch runner maxSteps
    (sched.dispatched runner maxSteps, more, after.status) :: transcript rest after

structure Twins (used fresh : Scheduler) : Prop where
  ready : fresh.Ready
  laden : ∃ stale scope notices, fresh.Burden stale ∧ fresh.Alike scope ∧
    used = fresh.laden stale scope notices

namespace Twins

variable {us fr : Scheduler} {rn : Runner} {id : Nat} {r : Queue}

section

variable (twins : us.Twins fr)
include twins

theorem next?_eq : us.next? = fr.next? := by
  obtain ⟨stale, sc, ns, -, -, rfl⟩ := twins.laden
  exact congrArg Queue.pop? (queue_laden fr.active)

theorem thread_eq (lt : id < fr.arena.size) : us.thread id = fr.thread id := by
  obtain ⟨stale, sc, ns, -, -, rfl⟩ := twins.laden
  exact thread_laden lt

theorem take (fst : fr.next? = some (id, r)) :
    (us.take id r).Twins (fr.take id r) ∧ id < (fr.take id r).arena.size := by
  have lt := (twins.ready.toRecorded.of_next? fst).1
  have frames := (Frames.refl fr).take fst
  have agrees := Agrees.take fr id r
  have size : (fr.take id r).arena.size = fr.arena.size := by simp [Scheduler.take]
  obtain ⟨stale, sc, ns, burden, alike, rfl⟩ := twins.laden
  refine ⟨⟨twins.ready.of_frames frames ?_, stale, sc, ns,
    burden.congr frames.setting_eq size, ?_, take_laden lt⟩, size.symm ▸ lt⟩
  · rw [agrees.scope_eq, frames.slots_eq, twins.ready.work]
  · exact alike.congr frames.setting_eq agrees.scope_eq (.inl agrees.owner_eq)

theorem postpone (lt : id < fr.arena.size) : (us.postpone id).Twins (fr.postpone id) := by
  have frames := (Frames.refl fr).postpone fun _ => lt
  have agrees := Agrees.postpone fr id
  have size : (fr.postpone id).arena.size = fr.arena.size := by simp [Scheduler.postpone, enqueue]
  obtain ⟨stale, sc, ns, burden, alike, rfl⟩ := twins.laden
  refine ⟨twins.ready.of_frames frames ?_, stale, sc, ns,
    burden.congr frames.setting_eq size, ?_, postpone_laden lt⟩
  · rw [agrees.scope_eq, frames.slots_eq, twins.ready.work]
  · exact alike.congr frames.setting_eq agrees.scope_eq (.inl agrees.owner_eq)

theorem run (lt : id < fr.arena.size)
    (discreet : rn.Discreet) (keeps : rn.KeepsWork) (full : rn.Full) :
    (us.run rn id).Twins (fr.run rn id) ∧ us.closure rn id = fr.closure rn id := by
  obtain ⟨stale, sc, ns, burden, alike, rfl⟩ := twins.laden
  obtain ⟨ready, stale', ns', burden', transported⟩ :=
    @run_laden fr stale sc ns id rn twins.ready burden alike lt discreet keeps full
  refine ⟨⟨ready, stale', _, ns', burden', ⟨rfl, ready.work, fun _ => rfl⟩, transported⟩, ?_⟩
  have within : id < (fr.begin id).arena.size := (arena_size_modify fr id _).symm ▸ lt
  have eq := discreet _ _ ((fr.begin id).thread id).entry
    (@visible_laden (fr.begin id) stale ns ((Frames.begin fr id).recorded
      ⟨twins.ready.ranked, twins.ready.queued, twins.ready.free⟩))
  unfold closure
  rw [begin_laden twins.ready alike lt]
  dsimp only
  rw [thread_laden within, eq]
  rfl

theorem advance : us.advance.Twins fr.advance := by
  obtain ⟨stale, sc, ns, burden, alike, rfl⟩ := twins.laden
  obtain ⟨ready, alike', stale', burden', transported⟩ :=
    @advance_laden fr stale sc ns twins.ready burden alike
  exact ⟨ready, stale', sc, ns, burden', alike', transported⟩

theorem isDone_eq : us.isDone = fr.isDone := by
  obtain ⟨stale, sc, ns, -, -, rfl⟩ := twins.laden
  rfl

theorem noteDropped : us.noteDropped.Twins fr.noteDropped := by
  obtain ⟨stale, sc, ns, burden, alike, rfl⟩ := twins.laden
  have ready := twins.ready
  have sameDropped : (fr.laden stale sc ns).dropped = fr.dropped := rfl
  unfold Scheduler.noteDropped
  rw [sameDropped]
  split
  · exact ⟨⟨⟨ready.ranked, ready.queued, ready.free⟩, ready.tracked, ready.work⟩, stale, sc, _,
      burden.congr rfl rfl, alike.congr rfl rfl (.inl rfl), rfl⟩
  · exact ⟨ready, stale, sc, ns, burden, alike, rfl⟩

theorem status_eq : us.status = fr.status := by
  have eq : ∀ id ∈ fr.order, us.thread id = fr.thread id :=
    fun id rk => twins.thread_eq (twins.ready.ranked id rk)
  obtain ⟨stale, sc, ns, -, -, rfl⟩ := twins.laden
  have live : (fr.order.map fun id => (id, (fr.laden stale sc ns).thread id)) =
      fr.order.map fun id => (id, fr.thread id) :=
    map_congr_left fun id rk => by rw [eq id rk]
  have res : (fr.laden stale sc ns).result? = fr.result? := by
    have sameHead : (fr.laden stale sc ns).ranking.head? = fr.order.head? := rfl
    have sameHead' : fr.ranking.head? = fr.order.head? := rfl
    unfold result?
    rw [sameHead, sameHead']
    cases head : fr.order.head? with
    | none => rfl
    | some id => simp [eq id (mem_of_mem_head? head)]
  unfold status
  rw [res, ← live]
  rfl

variable (discreet : rn.Discreet) (keeps : rn.KeepsWork) (full : rn.Full)

include discreet keeps full

theorem drain (n : Nat) (lim : Option Nat) :
    (Scheduler.drain rn n lim us).1 = (Scheduler.drain rn n lim fr).1 ∧
      (Scheduler.drain rn n lim us).2.Twins (Scheduler.drain rn n lim fr).2 ∧
      drained rn n lim us = drained rn n lim fr := by
  induction n generalizing lim us fr with
  | zero => exact ⟨rfl, twins, rfl⟩
  | succ n ih =>
    by_cases stopped : lim = some 0
    · subst stopped
      exact ⟨rfl, twins, rfl⟩
    have sameNext := twins.next?_eq
    rw [drain.eq_3 _ _ _ _ stopped, drain.eq_3 _ _ _ _ stopped, drained.eq_3 _ _ _ _ stopped,
      drained.eq_3 _ _ _ _ stopped, sameNext]
    cases fst : fr.next? with
    | none => exact ⟨rfl, twins, rfl⟩
    | some popped =>
      obtain ⟨id, r⟩ := popped
      obtain ⟨taken, lt⟩ := twins.take fst
      dsimp only
      rw [taken.thread_eq lt]
      split
      · exact ih (taken.postpone lt) lim
      · obtain ⟨ran, eq⟩ := taken.run lt discreet keeps full
        obtain ⟨sameLimit, drained, sameRest⟩ := ih ran (lim.map (· - 1))
        exact ⟨sameLimit, drained, by rw [eq, sameRest]⟩

theorem dispatchFrom (offs : Nat) (lim : Option Nat) :
    (Scheduler.dispatchFrom rn offs lim us).1 = (Scheduler.dispatchFrom rn offs lim fr).1 ∧
      (Scheduler.dispatchFrom rn offs lim us).2.Twins (Scheduler.dispatchFrom rn offs lim fr).2 ∧
      dispatchedFrom rn offs lim us = dispatchedFrom rn offs lim fr := by
  induction offs generalizing lim us fr with
  | zero => exact ⟨rfl, twins, rfl⟩
  | succ offs ih =>
    have sameQueue : (us.queue us.active).toList = (fr.queue fr.active).toList := by
      obtain ⟨stale, sc, ns, -, -, rfl⟩ := twins.laden
      exact congrArg Queue.toList (queue_laden fr.active)
    obtain ⟨sameLimit, drained, sameLog⟩ :=
      twins.drain discreet keeps full (fr.queue fr.active).toList.length lim
    rw [Scheduler.dispatchFrom, Scheduler.dispatchFrom, dispatchedFrom, dispatchedFrom, sameQueue,
      sameLog]
    cases res : Scheduler.drain rn (fr.queue fr.active).toList.length lim fr with
    | mk l t =>
    cases res' : Scheduler.drain rn (fr.queue fr.active).toList.length lim us with
    | mk l' t' =>
    rw [res, res'] at sameLimit drained
    subst sameLimit
    by_cases interrupted : l' = some 0
    · subst interrupted
      exact ⟨rfl, drained, rfl⟩
    · simp only
      rw [drained.isDone_eq]
      split
      · exact ⟨rfl, drained.noteDropped, rfl⟩
      · obtain ⟨sameAnswer, moved, sameRest⟩ := ih drained.advance l'
        exact ⟨sameAnswer, moved, by rw [sameRest]⟩

end

theorem transcript_eq (calls : List (Runner × Int)) (twins : us.Twins fr)
    (discreet : ∀ call ∈ calls, call.1.Discreet) (keeps : ∀ call ∈ calls, call.1.KeepsWork)
    (full : ∀ call ∈ calls, call.1.Full) : us.transcript calls = fr.transcript calls := by
  induction calls generalizing us fr with
  | nil => rfl
  | cons call r ih =>
    obtain ⟨rn, m⟩ := call
    have sameRemaining : us.remaining = fr.remaining := by
      obtain ⟨stale, sc, ns, -, -, rfl⟩ := twins.laden
      rfl
    obtain ⟨sameAnswer, moved, sameLog⟩ := twins.dispatchFrom (discreet _ (mem_cons_self ..))
      (keeps _ (mem_cons_self ..)) (full _ (mem_cons_self ..)) (fr.remaining + 1)
      (if m ≤ 0 then none else some m.toNat)
    have others := ih moved (fun call mb => discreet call (by simp [mb]))
      (fun call mb => keeps call (by simp [mb]))
      (fun call mb => full call (by simp [mb]))
    simp only [transcript, dispatched, dispatch, sameRemaining]
    rw [sameAnswer, sameLog, moved.status_eq, others]

end Twins

theorem resize_frame (s : Scheduler) (sl : Nat) :
    (s.resize sl).words = s.words ∧ (s.resize sl).maxThreads = s.maxThreads ∧
      (s.resize sl).notices = s.notices := by
  unfold resize
  split <;> exact ⟨rfl, rfl, rfl⟩

theorem Tidy.cleared_eq (tidy : us.Tidy m)
    (words : us.words = (new n m).words) (t : Text) (i fl sl : Nat) : us.cleared t i fl sl =
      ((new n m).cleared t i fl sl).laden (us.cleared t i fl sl).arena.toList
        (us.cleared t i fl sl).scope us.notices := by
  have slots_eq := (tidy.resize (max sl 2)).2
  have slots_eq' := ((tidy_new n m).resize (max sl 2)).2
  obtain ⟨words_eq, bound_eq, notices_eq⟩ := resize_frame us (max sl 2)
  obtain ⟨words_eq', bound_eq', -⟩ := resize_frame (new n m) (max sl 2)
  have arena_eq' : ((new n m).resize (max sl 2)).arena = #[] := by
    unfold Scheduler.resize
    split
    · rfl
    · simp [Scheduler.new]
  have le : (new n m).maxThreads = m := rfl
  simp only [Scheduler.cleared, reset, position, laden, slots_eq, slots_eq', words_eq, words_eq',
    bound_eq,
    bound_eq', notices_eq, arena_eq', words, tidy.maxThreads_eq, le, range_eq_range']
  congr 1
  · apply Array.ext'
    simp
  · simp

theorem ready_cleared_new (n m : Nat) (t : Text) (i fl sl : Nat) :
    ((new n m).cleared t i fl sl).Ready := by
  have rk := (tidy_new n m).cleared t i fl sl
  refine ⟨⟨?_, ?_, ?_⟩, rk.tracked, rk.work⟩
  · exact fun id mentioned => absurd mentioned not_mem_nil
  · intro l id queued
    cases l <;> exact absurd queued not_mem_nil
  · exact fun id isFree => ((rk.mem_iff .free id).mp isFree).1

/-- After `init`, a used scheduler and a new one are twins. -/
theorem Tidy.twins_init (tidy : us.Tidy m)
    (words : us.words = (new n m).words) (t : Text) (i fl sl : Nat) :
    (us.init t i fl sl).Twins ((new n m).init t i fl sl) := by
  have rk := tidy.cleared t i fl sl
  have eq := tidy.cleared_eq words t i fl sl
  have sameSlots : (us.cleared t i fl sl).slots = ((new n m).cleared t i fl sl).slots :=
    (tidy.resize (max sl 2)).2.trans ((tidy_new n m).resize (max sl 2)).2.symm
  have eqBd : (us.cleared t i fl sl).maxThreads = ((new n m).cleared t i fl sl).maxThreads := by
    rw [eq]
    rfl
  have empty : ((new n m).cleared t i fl sl).arena.size = 0 := by
    simp [Scheduler.cleared, Scheduler.reset, position, Scheduler.resize, Scheduler.new]
  have burden : ((new n m).cleared t i fl sl).Burden (us.cleared t i fl sl).arena.toList := by
    have reset : ∀ th ∈ (us.cleared t i fl sl).arena.toList, th.state = .dead ∧ th.lane = none := by
      intro th mb
      simp only [Scheduler.cleared, Scheduler.reset, position, Array.toList_map, mem_map] at mb
      obtain ⟨record, -, rfl⟩ := mb
      exact ⟨rfl, rfl⟩
    refine ⟨fun th mb => (reset th mb).1, fun th mb => (reset th mb).2, ?_, ?_⟩
    · intro th mb
      obtain ⟨id, lt, rfl⟩ := mem_iff_getElem.mp mb
      have held : id < (us.cleared t i fl sl).arena.size := by simpa using lt
      have sized := rk.tracked id held
      rw [← sameSlots]
      simpa [thread, Array.getD, held] using sized
    · rw [empty, ← eqBd]
      simpa using rk.bounded
  have alike : ((new n m).cleared t i fl sl).Alike (us.cleared t i fl sl).scope :=
    ⟨rfl, rk.work.trans sameSlots, fun owned => absurd rfl owned⟩
  have ready := ready_cleared_new n m t i fl sl
  obtain ⟨stale, burden', transported⟩ := @seed_laden _ _
    (us.cleared t i fl sl).scope us.notices ready burden
  rw [init_eq, init_eq, eq]
  exact ⟨ready.seed, stale, _, _, burden', alike.seed, transported⟩

variable {n m : Nat} {s t : Scheduler} {rn : Runner}

theorem Tidy.of_frames {mo : Nat} (tidy : s.Tidy m) (fr : t.Frames s mo)
    (work : t.scope.captures.size = t.slots) : t.Tidy m ∧ t.words = s.words := by
  refine ⟨⟨fr.maxThreads_eq.trans tidy.maxThreads_eq, ?_, ?_, work⟩,
    congrArg Setting.words fr.setting_eq⟩
  · rw [fr.maxThreads_eq]
    exact fr.bounded tidy.bounded
  · rw [fr.slots_eq]
    exact fr.tracked tidy.tracked

theorem scope_run (s : Scheduler) (rn : Runner) (id : Nat) :
    (s.run rn id).scope = (rn (s.begin id) ((s.begin id).thread id).entry).scope :=
  (finish_frame _ id).2.1

theorem Tidy.turn (tidy : s.Tidy m) (keeps : rn.KeepsWork) (turned : s.turn? rn = some t) :
    t.Tidy m ∧ t.words = s.words := by
  cases fst : s.next? with
  | none =>
    simp only [turn?, fst] at turned
    split at turned
    · simp at turned
    · cases turned
      have moved : s.moveOn.Tidy m := ⟨tidy.maxThreads_eq, tidy.bounded, tidy.tracked, tidy.work⟩
      rw [advance_eq]
      split
      · exact ⟨moved, rfl⟩
      · have fr := (Frames.refl s.moveOn).seed
        exact moved.of_frames fr (by rw [fr.slots_eq, (seed_frame _).1, moved.work])
  | some popped =>
    obtain ⟨id, r⟩ := popped
    have fr := (Frames.refl s).take fst
    have agrees := Agrees.take s id r
    obtain ⟨taken, words⟩ := tidy.of_frames fr (by
      rw [agrees.scope_eq, agrees.slots_eq, tidy.work])
    simp only [turn?, fst, Option.some.injEq] at turned
    subst turned
    split
    · have postponed := (Agrees.postpone (s.take id r) id).trans agrees
      refine tidy.of_frames (fr.postpone fun recorded => ?_) ?_
      · simpa [take] using (recorded.of_next? fst).1
      · rw [postponed.scope_eq, postponed.slots_eq, tidy.work]
    · have stopped : ({ s.take id r with running := none } : Scheduler).Tidy m :=
        ⟨taken.maxThreads_eq, taken.bounded, taken.tracked, taken.work⟩
      have ran := Frames.run (s.take id r) rn id
      rw [← words]
      refine stopped.of_frames ran ?_
      rw [scope_run, ran.slots_eq]
      exact keeps _ _ ((Captures.size_copyInto _ _).trans taken.work)

theorem History.tidy_words (past : History Runner.KeepsWork n m s) :
    s.Tidy m ∧ s.words = (Scheduler.new n m).words := by
  induction past with
  | new => exact ⟨tidy_new n m, rfl⟩
  | init _ t i fl sl ih =>
    obtain ⟨tidy, words⟩ := ih
    refine ⟨(tidy.shows_init t i fl sl).tidy, ?_⟩
    rw [init_eq]
    exact (congrArg Setting.words (setting_seed _)).trans ((resize_frame _ _).1.trans words)
  | turn _ keeps turned ih =>
    obtain ⟨tidy, words⟩ := ih
    obtain ⟨turnedTidy, turnedWords⟩ := tidy.turn keeps turned
    exact ⟨turnedTidy, turnedWords.trans words⟩
  | note _ ih =>
    obtain ⟨tidy, words⟩ := ih
    unfold noteDropped
    split
    · exact ⟨⟨tidy.maxThreads_eq, tidy.bounded, tidy.tracked, tidy.work⟩, words⟩
    · exact ⟨tidy, words⟩

end Scheduler

theorem Event.full_of_orderly {sl : Nat} {mayMatch : Bool} (evs : List Event)
    (ord : Event.Orderly sl mayMatch evs) : ∀ ev ∈ evs, ev.Full sl := by
  induction evs with
  | nil => simp
  | cons ev r ih =>
    rw [forall_mem_cons]
    cases ev with
    | wait e n c v => exact ⟨ord.1, ih ord.2⟩
    | accept c v => exact ⟨ord.1, ih ord.2.2⟩
    | fail => exact False.elim ord

namespace Analysis

variable (an : Analysis)

theorem interpreter_keepsWork : an.interpreter.KeepsWork :=
  fun s e work => (an.interpreter_orderly s e work).2

theorem interpreter_full : an.interpreter.Full :=
  fun s e work => Event.full_of_orderly _ (an.interpreter_orderly s e work).1

theorem exploreExtensions_bare (s : Scheduler) (v : Nat → Exploration → Exploration)
    (es : List Extension) (st : Exploration) :
    an.exploreExtensions s.visible.1 v es st = an.exploreExtensions s v es st := by
  induction es generalizing st with
  | nil => rfl
  | cons ext r ih =>
    unfold exploreExtensions
    simp only [ih]
    rfl

theorem explore_bare (s : Scheduler) (d pc : Nat) (st : Exploration) :
    an.explore s.visible.1 d pc st = an.explore s d pc st := by
  induction d generalizing pc st with
  | zero => rfl
  | succ d ih =>
    have eq : an.explore s.visible.1 d = an.explore s d :=
      funext fun pc => funext fun st => ih pc st
    unfold explore
    simp only [eq, exploreExtensions_bare]
    rfl

theorem interpreter_discreet : an.interpreter.Discreet := by
  intro s t e eq
  have sameScope : s.scope = t.scope := congrArg (·.1.scope) eq
  have sameClosure : an.closure s e = an.closure t e := by
    unfold closure
    rw [← explore_bare, ← explore_bare an t, congrArg Prod.fst eq, sameScope]
  unfold interpreter
  rw [sameClosure, sameScope]

end Analysis

namespace Scheduler

/-- Whatever a scheduler has been used for, a search on it shows what it shows on a new one. -/
theorem History.leaves_no_trace {states maxThreads : Nat} {used : Scheduler}
    (past : History Runner.KeepsWork states maxThreads used) (text : Text)
    (start flags slots : Nat) (calls : List (Runner × Int))
    (discreet : ∀ call ∈ calls, call.1.Discreet) (keeps : ∀ call ∈ calls, call.1.KeepsWork)
    (full : ∀ call ∈ calls, call.1.Full) :
    (used.init text start flags slots).status =
        ((Scheduler.new states maxThreads).init text start flags slots).status ∧
      (used.init text start flags slots).transcript calls =
        ((Scheduler.new states maxThreads).init text start flags slots).transcript calls := by
  obtain ⟨tidy, words⟩ := past.tidy_words
  have twins := tidy.twins_init words text start flags slots
  exact ⟨twins.status_eq, twins.transcript_eq calls discreet keeps full⟩

/-- A search with other slots that is given up leaves three records and a dirty bitmap. The next one
cannot tell. -/
theorem leaves_no_trace_optional :
    ∃ used, History Runner.KeepsWork optional.size 4 used ∧ used.arena.size = 3 ∧
      used.scope.visited ≠ 0 ∧ used.scope.captures.size = 6 ∧
      (used.init #[0x61, 0x62] optional.summary.start 1 2).transcript
          [(optional.summary.interpreter, 1), (optional.summary.interpreter, 0)] =
        ((new optional.size 4).init #[0x61, 0x62] optional.summary.start 1 2).transcript
          [(optional.summary.interpreter, 1), (optional.summary.interpreter, 0)] := by
  let runner := optional.summary.interpreter
  let used := (((new optional.size 4).init #[0x61, 0x61] optional.summary.start 1 6).dispatch
    runner 2).2
  have keeps : runner.KeepsWork := optional.summary.interpreter_keepsWork
  have past : History Runner.KeepsWork optional.size 4 used :=
    (History.new.init #[0x61, 0x61] optional.summary.start 1 6).dispatch keeps 2
  refine ⟨used, past, by decide +kernel, by decide +kernel, by decide +kernel, ?_⟩
  apply (past.leaves_no_trace #[0x61, 0x62] optional.summary.start 1 2 _ ?_ ?_ ?_).2
  · simp [optional.summary.interpreter_discreet]
  · simp [optional.summary.interpreter_keepsWork]
  · simp [optional.summary.interpreter_full]

end Scheduler

end Rematch
