import Rematch.Proofs.Threads.Reuse

/-!
The histories of a scheduler. A lawful closure stops after its first match and ends its own thread
as the last thing it does, if at all; its captures may have any length. Such a closure has the
effect of one with captures of full length that leaves the end of its thread to the scheduler:
`run_tamed`. So at any time of its history, a scheduler is new or shows a search: `History.shows`.
-/

namespace Rematch

open Scheduler

/-- The events of a closure that stops after a match and after ending its thread. -/
def Event.Lawful (mayMatch : Bool) : List Event → Prop
  | [] => True
  | .wait _ _ _ _ :: rest => Lawful mayMatch rest
  | .accept _ _ :: rest => (mayMatch = true → rest = []) ∧ Lawful mayMatch rest
  | .fail :: rest => rest = []

/-- A runner is lawful if all its closures are, and if they keep the number of slots of the captures
that they work on. -/
def Runner.Lawful (runner : Runner) : Prop :=
  ∀ (sched : Scheduler) (entry : Nat), sched.scope.captures.size = sched.slots →
    Event.Lawful sched.mayMatch (runner sched entry).events ∧
      (runner sched entry).scope.captures.size = sched.slots

namespace Scheduler

variable {s : Scheduler} {v u now won : List Nat} {id : Nat}

variable {n lo : List Nat}

theorem Roster.state_of_won (roster : s.Roster n lo now won) (pl : id ∈ won) :
    (s.thread id).state = .matched := by
  have home := ((roster.mem_iff .won id).mp pl).2
  have unqueued := Thread.lane_eq_none _ _ home (by simp) (by simp)
  rw [Thread.place_unqueued _ _ unqueued] at home
  cases state : (s.thread id).state <;> simp_all

/-- The captures of the record that the next thread gets. -/
def spare (sched : Scheduler) : Captures :=
  match sched.free with
  | id :: _ => (sched.thread id).captures
  | [] => Array.replicate sched.slots 0

/-- Captures of full length with which the next thread starts as with `captures`. -/
def fitted (sched : Scheduler) (captures : Captures) : Captures :=
  if sched.spare.size = sched.slots then captures.copyInto sched.spare
  else Array.replicate sched.slots 0

theorem size_fitted (s : Scheduler) (c : Captures) : (s.fitted c).size = s.slots := by
  unfold fitted
  split
  · next full => rw [Captures.size_copyInto, full]
  · simp

theorem modify_congr (s : Scheduler) (id : Nat) {f o : Thread → Thread}
    (eq : id < s.arena.size → f (s.thread id) = o (s.thread id)) :
    s.modify id f = s.modify id o := by
  unfold modify
  congr 1
  apply Array.ext
  · simp
  · intro i fst snd
    rw [Array.getElem_modify, Array.getElem_modify]
    split
    · next here =>
      subst here
      have lt : id < s.arena.size := by simpa using fst
      simpa [thread, lt] using eq lt
    · rfl

theorem captures_of_allocate {st : Scheduler}
    (alloc : s.allocate = (some id, st)) (lt : id < st.arena.size) :
    (st.thread id).captures = s.spare := by
  unfold allocate at alloc
  split at alloc
  · next a fr available =>
    simp only [Prod.mk.injEq, Option.some.injEq] at alloc
    obtain ⟨rfl, rfl⟩ := alloc
    simp only [spare, available]
    rfl
  · next empty =>
    dsimp only at alloc
    split at alloc
    · simp at alloc
    · simp only [Prod.mk.injEq, Option.some.injEq] at alloc
      obtain ⟨rfl, rfl⟩ := alloc
      simp [spare, empty, thread]

theorem fork_fitted (s : Scheduler) (e : Nat) (c : Captures) (full : s.spare.size = s.slots) :
    s.fork e (s.fitted c) = s.fork e c := by
  unfold fork
  split
  · rfl
  · next id st alloc =>
    have eq : st.modify id (fun t => { t with
          entry := e, visit := st.scope.visitId, delay := 0, state := .queued
          captures := (s.fitted c).copyInto t.captures }) =
        st.modify id (fun t => { t with
          entry := e, visit := st.scope.visitId, delay := 0, state := .queued
          captures := c.copyInto t.captures }) := by
      apply modify_congr
      intro lt
      rw [captures_of_allocate alloc lt]
      simp only [fitted, full, if_true]
      rw [Captures.copyInto_eq (c.copyInto s.spare) _ (Captures.size_copyInto _ _)]
    simp [eq]

theorem Roster.size_spare (roster : s.Roster n lo now won) : s.spare.size = s.slots := by
  unfold spare
  split
  · next id fr available =>
    have pl : id ∈ Place.pick n lo now won s.free .free := by simp [Place.pick, available]
    exact roster.tracked id ((roster.mem_iff .free id).mp pl).1
  · simp

/-- The events of a closure with captures of full length, up to the end of its thread. -/
def tame : Scheduler → List Event → List Event
  | _, [] => []
  | sched, .wait entry count captures visit :: rest =>
    .wait entry count (sched.fitted captures) visit ::
      tame (sched.apply (.wait entry count captures visit)) rest
  | sched, .accept captures visit :: rest =>
    .accept ((sched.setVisitId visit).killBelowCursor.fitted captures) visit ::
      tame (sched.apply (.accept captures visit)) rest
  | _, .fail :: _ => []

theorem tame_orderly (s : Scheduler) (evs : List Event) (lawful : Event.Lawful s.mayMatch evs) :
    Event.Orderly s.slots s.mayMatch (s.tame evs) := by
  induction evs generalizing s with
  | nil => trivial
  | cons ev r ih =>
    have fr := (Frames.refl s).apply ev
    have eqMay := mayMatch_congr fr.setting_eq
    have later : Event.Lawful s.mayMatch r →
        Event.Orderly s.slots s.mayMatch ((s.apply ev).tame r) := by
      intro lawful
      have ord := ih (s.apply ev) (by rw [eqMay]; exact lawful)
      rwa [fr.slots_eq, eqMay] at ord
    cases ev with
    | wait e n c v => exact ⟨size_fitted _ _, later lawful⟩
    | accept c v =>
      obtain ⟨last, lawful⟩ := lawful
      refine ⟨?_, ?_, later lawful⟩
      · rw [size_fitted]
        exact (Frames.refl (s.setVisitId v)).killBelowCursor.slots_eq
      · intro allowed
        rw [last allowed]
        rfl
    | fail => trivial

theorem During.wait_fitted (during : s.During id u v now won) (e : Nat) (n : Int) (c : Captures) :
    s.wait e n (s.fitted c) = s.wait e n c := by
  unfold Scheduler.wait
  rw [fork_fitted _ _ _ during.size_spare]

theorem During.exists_wait (during : s.During id u v now won) (e : Nat) (n : Int) (c : Captures) :
    ∃ v', (s.wait e n c).During id u v' now won := by
  rw [← during.wait_fitted]
  by_cases beyond : n ≤ 0 ∨ (s.remaining : Int) < n
  · refine ⟨v, ?_⟩
    rw [Scheduler.wait, if_pos beyond]
    exact during
  · have outcome := @During.wait _ _ _ _ _ _ during _ e _ (size_fitted s c) beyond
    rcases outcome with ⟨-, dropped⟩ | ⟨new, waiting, -⟩
    · refine ⟨v, ?_⟩
      rw [dropped]
      exact during.congr rfl rfl rfl rfl rfl rfl
    · exact ⟨v ++ [new], waiting⟩

theorem recordMatch_refused (c : Captures) (early : s.mayMatch = false) :
    (s.recordMatch c).2 = s := by
  simp [recordMatch, early]

theorem During.recordMatch_fitted (during : s.During id u v now won) (c : Captures) :
    s.recordMatch (s.killBelowCursor.fitted c) = s.recordMatch c := by
  unfold Scheduler.recordMatch
  rw [fork_fitted _ _ _ during.killBelowCursor.size_spare]

theorem During.foldl_tame (evs : List Event) (during : s.During id u v now won)
    (lawful : Event.Lawful s.mayMatch evs) : evs.foldl apply s = (s.tame evs).foldl apply s ∨
      evs.foldl apply s = ((s.tame evs).foldl apply s).fail := by
  induction evs generalizing s v with
  | nil => exact .inl rfl
  | cons ev r ih =>
    have eqMay := mayMatch_congr ((Frames.refl s).apply ev).setting_eq
    cases ev with
    | wait e n c vi =>
      have started := during.setVisitId vi
      obtain ⟨v', waiting⟩ := started.exists_wait e n c
      have eq : s.apply (.wait e n (s.fitted c) vi) =
          s.apply (.wait e n c vi) := started.wait_fitted e n c
      simp only [tame, List.foldl_cons, eq]
      exact ih waiting (by rw [eqMay]; exact lawful)
    | accept c vi =>
      have started := during.setVisitId vi
      have eq : s.apply (.accept ((s.setVisitId vi).killBelowCursor.fitted c)
          vi) = s.apply (.accept c vi) :=
        congrArg Prod.snd (started.recordMatch_fitted c)
      simp only [tame, List.foldl_cons, eq]
      cases allowed : s.mayMatch with
      | true =>
        rw [lawful.1 allowed]
        exact .inl rfl
      | false =>
        have refused : s.apply (.accept c vi) = s.setVisitId vi := recordMatch_refused c allowed
        rw [refused]
        exact ih started lawful.2
    | fail =>
      have last : r = [] := lawful
      subst last
      exact .inr rfl

theorem retire_with (s : Scheduler) (id : Nat) (sc : Scope) (ns : List Notice) :
    ({ s with scope := sc, notices := ns } : Scheduler).retire id =
      { s.retire id with scope := sc, notices := ns } := by
  have eq : ({ s with scope := sc, notices := ns } : Scheduler).thread id = s.thread id := rfl
  unfold retire dequeue
  rw [eq]
  cases lane : (s.thread id).lane with
  | none => rfl
  | some held => cases held <;> rfl

theorem notices_fail (s : Scheduler) : s.fail.notices = s.notices := by
  have retired : ∀ id, (s.retire id).notices = s.notices := by
    intro id
    have eq := congrArg notices (retire_with s id s.scope s.notices)
    exact eq
  unfold fail kill
  split
  · rfl
  · split
    · rfl
    · exact retired _

theorem finish_fail (sc : Scope) (ns : List Notice) (lt : id < s.arena.size)
    (run : s.running = some id) (state : (s.thread id).state = .running) :
    { s.fail with scope := sc, notices := ns }.finish id =
    { s with scope := sc, notices := ns }.finish id := by
  have killed : s.fail = { s.retire id with ranking := s.ranking.erase id } := by
    simp [fail, run, kill, state]
  have dead : (({ s.fail with scope := sc, notices := ns } : Scheduler).thread id).state =
    .dead := by
    rw [killed]
    change ((s.retire id).thread id).state = .dead
    rw [thread_retire_self s lt]
  have state' : (({ s with scope := sc, notices := ns } : Scheduler).thread id).state = .running :=
    state
  have killed' : ({ s with scope := sc, notices := ns } : Scheduler).kill id =
      { s.fail with scope := sc, notices := ns } := by
    rw [kill, if_neg (by simp [state']), retire_with, killed]
  rw [finish, if_neg (by simp [dead]), finish, if_pos state', killed']

end Scheduler

/-- A runner whose closures are those of `runner`, tamed. -/
def Runner.tamed (runner : Runner) : Runner := fun sched entry =>
  { runner sched entry with events := sched.tame (runner sched entry).events }

theorem Runner.Lawful.orderly {rn : Runner} (lawful : rn.Lawful) : rn.tamed.Orderly := by
  intro s e work
  obtain ⟨rules, kept⟩ := lawful s e work
  exact ⟨tame_orderly s _ rules, kept⟩

namespace Scheduler

variable {s : Scheduler} {rn : Runner}
variable {nx now won : List Nat} {id : Nat}

theorem Ranked.run_tamed (rk : s.Ranked nx [id] now won) (lawful : rn.Lawful) :
    s.run rn.tamed id = s.run rn id := by
  have begun := rk.begin
  have rules := (lawful (s.begin id) ((s.begin id).thread id).entry rk.begin_work).1
  unfold Scheduler.run Runner.tamed
  dsimp only
  generalize rn (s.begin id) ((s.begin id).thread id).entry = turn at rules ⊢
  rcases begun.foldl_tame turn.events rules with eq | ended
  · rw [eq]
  · obtain ⟨v, now', won', ending, -, -, -⟩ := begun.absorb rk.single rk.matched_eq
      (tame_orderly _ turn.events rules)
    have lt := (ending.of_mem_loose id (by simp)).1
    rw [ended, notices_fail]
    exact (finish_fail _ _ lt ((Frames.refl _).foldl_apply _).running_eq ending.state_eq).symm

namespace Shows

variable {q : Query} {se : Search} {v : Scheduler}

section

variable (shown : s.Shows q se)
include shown

variable {r : Queue}

theorem exists_taken (fst : s.next? = some (id, r)) :
    ∃ n now won, (s.take id r).Ranked n [id] now won := by
  obtain ⟨n, now, won, rk, -⟩ := shown.ranked
  have parts := toList_of_next? fst
  rw [rk.activeQueue] at parts
  subst parts
  exact ⟨n, r.toList, won, rk.take rfl⟩

theorem exists_entry (fst : s.next? = some (id, r)) : ∃ t ∈ se.front.now,
      (((s.take id r).begin id).thread id).entry = t.entry := by
  obtain ⟨n, now, won, rk, rfl⟩ := shown.ranked
  have parts := toList_of_next? fst
  rw [rk.activeQueue] at parts
  subst parts
  have lt : id < s.arena.size := ((rk.mem_iff .now id).mp (by simp [Place.pick])).1
  refine ⟨(s.thread id).pending, by simp [search, front, pendings], ?_⟩
  refine (congrArg Thread.entry (rk.take rfl).thread_begin).trans ?_
  rw [thread_take_self s r lt]
  rfl

theorem turn (lawful : rn.Lawful) (turned : s.turn? rn = some v) :
    ∃ s', se.Step rn.tamed q s' ∧ v.Shows q s' := by
  refine shown.turn_orderly lawful.orderly ?_
  rw [← turned]
  cases fst : s.next? with
  | none => simp [turn?, fst]
  | some popped =>
    obtain ⟨n, now, won, taken⟩ := shown.exists_taken fst
    simp [turn?, fst, taken.run_tamed lawful]

end

end Shows

section

variable (rule : Runner → Prop) (states maxThreads : Nat)

/-- The schedulers that any calls of `init` and `dispatch` lead to, at the end of a call as well as
between any two turns, where each turn may have a runner of its own that keeps to `rule`. -/
inductive History : Scheduler → Prop where
  | new : History (new states maxThreads)
  | init {sched} (past : History sched) (text : Text) (start flags slots : Nat) :
      History (sched.init text start flags slots)
  | turn {sched after runner} (past : History sched) (kept : rule runner)
      (turned : sched.turn? runner = some after) : History after
  /-- What is noted at the end of a search. -/
  | note {sched} (past : History sched) : History sched.noteDropped

end

variable {rule : Runner → Prop} {n m : Nat}

theorem History.turns {t : Scheduler} (past : History rule n m s)
    (kept : rule rn) (turned : Turns rn s t) : History rule n m t := by
  induction turned with
  | refl => exact past
  | tail _ turn ih => exact ih.turn kept turn

theorem History.dispatch (past : History rule n m s) (kept : rule rn) (ms : Int) :
    History rule n m (s.dispatch rn ms).2 := by
  obtain ⟨z, turned, interrupted | ⟨fin, -⟩⟩ := dispatch_turns rn s ms
  · rw [interrupted]
    exact past.turns kept turned
  · rw [fin]
    exact (past.turns kept turned).note

theorem turn?_new (rn : Runner) : (new n m).turn? rn = none := rfl

/-- A scheduler is new or shows a search, in which no thread waits beyond the end of the text. -/
theorem History.shows (past : History Runner.Lawful n m s) : s = Scheduler.new n m ∨
      ∃ q se, s.Shows q se ∧ se.Fits q ∧ q.maxThreads = m := by
  induction past with
  | new => exact .inl rfl
  | @init sched past t i fl sl ih =>
    have tidy : sched.Tidy m := by
      rcases ih with rfl | ⟨q, se, shown, -, rfl⟩
      · exact tidy_new n m
      · exact shown.tidy
    exact .inr ⟨_, _, tidy.shows_init t i fl sl, Search.fits_initial_with _ _, rfl⟩
  | @turn sched after rn past lawful turned ih =>
    rcases ih with rfl | ⟨q, se, shown, fits, le⟩
    · simp [turn?_new] at turned
    · obtain ⟨s', step, shown'⟩ := shown.turn lawful turned
      exact .inr ⟨q, s', shown', step.fits fits, le⟩
  | @note sched past ih =>
    rcases ih with rfl | ⟨q, se, shown, fits, le⟩
    · exact .inl rfl
    · exact .inr ⟨q, se, shown.noteDropped, fits, le⟩

end Scheduler

end Rematch
