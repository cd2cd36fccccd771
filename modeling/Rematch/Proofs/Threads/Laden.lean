import Rematch.Proofs.Threads.Reuse

/-!
Schedulers with further records. A scheduler that has been used before has more records than a new
one, all of them free and handed out after its own. As long as every thread that is mentioned has a
record, these make no difference: each operation on the laden scheduler has the effect of the same
operation without them, `run_laden`, `advance_laden`. They are used up where the arena would grow.
-/

namespace Rematch

open List

def Event.Full (slots : Nat) : Event → Prop
  | .wait _ _ captures _ => captures.size = slots
  | .accept captures _ => captures.size = slots
  | .fail => True

namespace Scheduler

variable {s : Scheduler} {stale : List Thread} {scope : Scope} {notices : List Notice}
  {id : Nat}

/-- A scheduler with further records behind its own, which are free, and with another scope and
other notices. -/
def laden (sched : Scheduler) (stale : List Thread) (scope : Scope) (notices : List Notice) :
    Scheduler :=
  { sched with
    arena := sched.arena ++ stale.toArray
    free := sched.free ++ List.range' sched.arena.size stale.length
    scope
    notices }

/-- The further records have all slots, and their threads are dead and in no queue. There is room
for them. -/
structure Burden (sched : Scheduler) (stale : List Thread) : Prop where
  dead : ∀ thread ∈ stale, thread.state = .dead
  unqueued : ∀ thread ∈ stale, thread.lane = none
  tracked : ∀ thread ∈ stale, thread.captures.size = sched.slots
  bounded : 0 < sched.maxThreads → sched.arena.size + stale.length ≤ sched.maxThreads

theorem Burden.congr {t : Scheduler} (burden : s.Burden stale)
    (eqSet : t.setting = s.setting) (sameSize : t.arena.size = s.arena.size) : t.Burden stale := by
  have sameSlots : t.slots = s.slots := congrArg Setting.slots eqSet
  have eqBd : t.maxThreads = s.maxThreads := congrArg Setting.maxThreads eqSet
  exact ⟨burden.dead, burden.unqueued, sameSlots ▸ burden.tracked, by
    rw [eqBd, sameSize]
    exact burden.bounded⟩

section Transport

theorem modify_append (arena : Array Thread) (others : List Thread) (f : Thread → Thread)
    (lt : id < arena.size) :
    (arena ++ others.toArray).modify id f = arena.modify id f ++ others.toArray := by
  apply Array.ext
  · simp
  · intro i fst snd
    rw [Array.getElem_modify, Array.getElem_append, Array.getElem_append]
    by_cases own : i < arena.size
    · simp [own, Array.getElem_modify]
    · have ne : id ≠ i := by omega
      simp [own, ne]

theorem modify_push (arena : Array Thread) (record : Thread) (f : Thread → Thread) :
    (arena.push record).modify arena.size f = arena.push (f record) := by
  apply Array.ext
  · simp
  · intro i fst snd
    rw [Array.getElem_modify, Array.getElem_push, Array.getElem_push]
    by_cases own : i < arena.size
    · simp [own, Nat.ne_of_gt own]
    · have last : arena.size = i := by simp at snd; omega
      simp [last]

theorem thread_laden (lt : id < s.arena.size) :
    (s.laden stale scope notices).thread id = s.thread id := by
  simp [thread, laden, Array.getD, lt, Nat.lt_add_right]

theorem modify_laden (lt : id < s.arena.size) (f : Thread → Thread) :
    (s.laden stale scope notices).modify id f = (s.modify id f).laden stale scope notices := by
  unfold modify laden
  rw [modify_append _ _ _ lt, Array.size_modify]

theorem queue_laden (l : Lane) : (s.laden stale scope notices).queue l = s.queue l := by
  cases l <;> rfl

theorem setQueue_laden (l : Lane) (queue : Queue) : (s.laden stale scope notices).setQueue l queue =
      (s.setQueue l queue).laden stale scope notices := by
  cases l <;> rfl

theorem enqueue_laden (lt : id < s.arena.size) (l : Lane) :
    (s.laden stale scope notices).enqueue l id = (s.enqueue l id).laden stale scope notices := by
  unfold enqueue
  rw [queue_laden, setQueue_laden, modify_laden (by simpa using lt)]

theorem dequeue_laden (lt : id < s.arena.size) : (s.laden stale scope notices).dequeue id =
      (s.dequeue id).laden stale scope notices := by
  unfold dequeue
  rw [thread_laden lt]
  cases (s.thread id).lane with
  | none => rfl
  | some l =>
    dsimp only
    rw [queue_laden, setQueue_laden, modify_laden (by simpa using lt)]

theorem retire_laden (lt : id < s.arena.size) :
    (s.laden stale scope notices).retire id = (s.retire id).laden stale scope notices := by
  unfold retire
  rw [dequeue_laden lt]
  let freed : Scheduler := { s.dequeue id with free := id :: (s.dequeue id).free }
  have within : id < freed.arena.size := (arena_size_dequeue s id).symm ▸ lt
  exact modify_laden within _

theorem foldl_retire_laden {ids : List Nat} (within : ∀ id ∈ ids, id < s.arena.size) :
    ids.foldl retire (s.laden stale scope notices) =
      (ids.foldl retire s).laden stale scope notices := by
  induction ids generalizing s with
  | nil => rfl
  | cons id r ih =>
    rw [foldl_cons, foldl_cons, retire_laden (within id (by simp))]
    apply ih
    intro j later
    rw [arena_size_retire]
    exact within j (by simp [later])

theorem state_laden (burden : s.Burden stale) (id : Nat) :
    ((s.laden stale scope notices).thread id).state = (s.thread id).state := by
  by_cases inside : id < s.arena.size
  · rw [thread_laden inside]
  · simp only [thread, laden, Array.getD_eq_getD_getElem?,
      Array.getElem?_append_right (Nat.not_lt.mp inside), getElem?_toArray,
      Array.getElem?_eq_none (Nat.not_lt.mp inside)]
    cases found : stale[id - s.arena.size]? with
    | none => rfl
    | some thread => exact burden.dead thread (mem_of_getElem? found)

theorem kill_laden (burden : s.Burden stale) (id : Nat) :
    (s.laden stale scope notices).kill id = (s.kill id).laden stale scope notices := by
  unfold kill
  rw [state_laden burden]
  split
  · rfl
  · next alive =>
    rw [retire_laden (lt_of_alive alive)]
    rfl

section

variable (recorded : s.Recorded)
include recorded

theorem killBelow_laden (id : Nat) : (s.laden stale scope notices).killBelow id =
      (s.killBelow id).laden stale scope notices := by
  unfold killBelow
  have eq : (s.laden stale scope notices).ranking = s.ranking := rfl
  rw [eq]
  let cut : Scheduler := { s with ranking := (s.ranking.splitAt id).2 }
  have within : ∀ j ∈ (s.ranking.splitAt id).1, j < cut.arena.size :=
    fun j ended => recorded.ranked j (mem_splitAt.2 ended)
  exact foldl_retire_laden within

theorem killBelowCursor_laden : (s.laden stale scope notices).killBelowCursor =
      s.killBelowCursor.laden stale scope notices := by
  unfold killBelowCursor
  have eq : (s.laden stale scope notices).cursor = s.cursor := rfl
  rw [eq]
  cases s.cursor with
  | none => rfl
  | some cur => exact killBelow_laden recorded cur

/-- A thread that starts takes one of the further records where the arena would grow. What it makes
of the record must not depend on what an ended thread has left there. -/
theorem allocate_laden (burden : s.Burden stale) {f : Thread → Thread}
    (overwrites : ∀ a b : Thread, a.lane = none → b.lane = none →
      a.captures.size = s.slots → b.captures.size = s.slots → f a = f b) :
    (s.laden stale scope notices).allocate.1 = s.allocate.1 ∧ (s.allocate.1 = none →
        (s.laden stale scope notices).allocate.2 = s.allocate.2.laden stale scope notices) ∧
      ∀ id, s.allocate.1 = some id → ∃ stale', s.allocate.2.Burden stale' ∧
        (s.laden stale scope notices).allocate.2.modify id f =
          (s.allocate.2.modify id f).laden stale' scope notices := by
  unfold allocate
  cases available : s.free with
  | cons first fr =>
    have lt := recorded.free first (by simp [available])
    have eq : (s.laden stale scope notices).free =
        first :: (fr ++ List.range' s.arena.size stale.length) := by
      simp [laden, available]
    rw [eq]
    refine ⟨rfl, by simp, ?_⟩
    intro id got
    cases got
    refine ⟨stale, burden.congr rfl rfl, ?_⟩
    let l : Scheduler := { s with free := fr }
    have within : first < l.arena.size := lt
    exact modify_laden within f
  | nil =>
    cases stale with
    | nil =>
      have eq : (s.laden [] scope notices).free = [] := by simp [laden, available]
      have sameArena : (s.laden [] scope notices).arena = s.arena := by simp [laden]
      have eqBd : (s.laden [] scope notices).maxThreads = s.maxThreads := rfl
      have sameSlots : (s.laden [] scope notices).slots = s.slots := rfl
      rw [eq, sameArena, eqBd, sameSlots]
      dsimp only
      split
      · exact ⟨rfl, fun _ => rfl, by simp⟩
      · next room =>
        refine ⟨rfl, by simp, ?_⟩
        intro id got
        cases got
        refine ⟨[], ⟨by simp, by simp, by simp, ?_⟩, ?_⟩
        · intro pos
          simp only [Array.size_push, length_nil]
          by_contra beyond
          exact room ⟨pos, by omega⟩
        · simp [modify, laden]
    | cons record r =>
      -- The first of the further records stands where the arena would grow.
      have room : ¬(0 < s.maxThreads ∧ s.maxThreads ≤ s.arena.size) := by
        rintro ⟨pos, full⟩
        have bounded := burden.bounded pos
        rw [length_cons] at bounded
        omega
      have eq : (s.laden (record :: r) scope notices).free =
          s.arena.size :: List.range' (s.arena.size + 1) r.length := by
        simp [laden, available, range'_succ]
      rw [eq]
      simp only [if_neg room]
      refine ⟨trivial, by simp, ?_⟩
      intro id got
      cases got
      refine ⟨r, ⟨?_, ?_, ?_, ?_⟩, ?_⟩
      · exact fun t mb => burden.dead t (by simp [mb])
      · exact fun t mb => burden.unqueued t (by simp [mb])
      · exact fun t mb => burden.tracked t (by simp [mb])
      · intro pos
        have bounded := burden.bounded pos
        rw [length_cons] at bounded
        rw [Array.size_push]
        change s.arena.size + 1 + r.length ≤ s.maxThreads
        omega
      · have shifted : s.arena ++ (record :: r).toArray =
            s.arena.push record ++ r.toArray := by simp
        have equal : f record = f { captures := Array.replicate s.slots 0 } := by
          apply overwrites
          · exact burden.unqueued record (by simp)
          · rfl
          · exact burden.tracked record (by simp)
          · simp
        simp only [modify, laden, shifted]
        rw [modify_append _ _ _ (by simp), modify_push, modify_push, equal]
        simp

variable (burden : s.Burden stale) (sameVisit : scope.visitId = s.scope.visitId) (e : Nat)

include burden sameVisit e

theorem fork_laden {c : Captures} (full : c.size = s.slots) :
    ∃ stale', (s.fork e c).2.Burden stale' ∧
      (s.laden stale scope notices).fork e c = ((s.fork e c).1,
          (s.fork e c).2.laden stale' scope notices) := by
  let f : Thread → Thread := fun t =>
    { t with
      entry := e, visit := s.scope.visitId, delay := 0, state := .queued
      captures := c.copyInto t.captures }
  have agrees := Agrees.allocate s
  obtain ⟨sameId, refused, granted⟩ := @allocate_laden s stale scope notices recorded burden f (by
      intro a b firstLane secondLane firstSize secondSize
      simp [f, firstLane, secondLane, Captures.copyInto_eq c _ (full.trans firstSize.symm),
        Captures.copyInto_eq c _ (full.trans secondSize.symm)])
  unfold fork
  cases alloc : s.allocate with
  | mk found st =>
  cases alloc' : (s.laden stale scope notices).allocate with
  | mk found' st' =>
  have sameScope := (Agrees.allocate (s.laden stale scope notices)).scope_eq
  rw [alloc] at sameId refused granted agrees
  rw [alloc'] at sameId refused granted sameScope
  dsimp only at sameId refused granted agrees sameScope
  subst sameId
  cases found' with
  | none =>
    rw [refused rfl]
    have eq := Roster.allocate_none alloc
    exact ⟨stale, burden.congr agrees.setting_eq (by rw [eq.1]), rfl⟩
  | some id =>
    obtain ⟨stale', burden', modified⟩ := granted id rfl
    have visit : st.scope.visitId = s.scope.visitId := by rw [agrees.scope_eq]
    have visit' : st'.scope.visitId = s.scope.visitId := by
      rw [sameScope]
      exact sameVisit
    refine ⟨stale', ?_, ?_⟩
    · exact ⟨burden'.dead, burden'.unqueued, burden'.tracked, by
        rw [arena_size_modify]
        exact burden'.bounded⟩
    · simp only [visit, visit']
      change (some id, ({ st'.modify id f with ranking := _, cursor := some id } : Scheduler)) = _
      rw [modified]
      rfl

theorem wait_laden (n : Int) {c : Captures} (full : c.size = s.slots) :
    ∃ stale', (s.wait e n c).Burden stale' ∧ (s.laden stale scope notices).wait e n c =
        (s.wait e n c).laden stale' scope notices := by
  have sameRemaining : (s.laden stale scope notices).remaining = s.remaining := rfl
  have lt := ((Frames.refl s).fork e c).2 recorded
  obtain ⟨stale', burden', forked⟩ := @fork_laden s stale scope notices recorded burden
    sameVisit e c full
  unfold wait
  rw [sameRemaining, forked]
  split
  · exact ⟨stale, burden, rfl⟩
  · cases res : s.fork e c with
    | mk found st =>
    rw [res] at lt burden'
    cases found with
    | none => exact ⟨stale', burden', rfl⟩
    | some id =>
      have within := lt id rfl
      dsimp only at within burden' ⊢
      rw [modify_laden within, enqueue_laden (by simpa using within)]
      refine ⟨stale', burden'.congr ?_ ?_, rfl⟩
      · exact (Agrees.enqueue _ _ id).setting_eq
      · simp [enqueue]

end

theorem arena_size_foldl_retire (ids : List Nat) (s : Scheduler) :
    (ids.foldl retire s).arena.size = s.arena.size := by
  induction ids generalizing s with
  | nil => rfl
  | cons id r ih => rw [foldl_cons, ih, arena_size_retire]

theorem killBelow_frame (s : Scheduler) (id : Nat) :
    (s.killBelow id).setting = s.setting ∧ (s.killBelow id).scope = s.scope ∧
      (s.killBelow id).arena.size = s.arena.size := by
  have agrees := Agrees.foldl_retire (s.ranking.splitAt id).1
    { s with ranking := (s.ranking.splitAt id).2 }
  exact ⟨agrees.setting_eq, agrees.scope_eq, arena_size_foldl_retire _ _⟩

theorem killBelowCursor_frame (s : Scheduler) :
    s.killBelowCursor.setting = s.setting ∧ s.killBelowCursor.scope = s.scope ∧
      s.killBelowCursor.arena.size = s.arena.size := by
  unfold killBelowCursor
  split
  · exact ⟨rfl, rfl, rfl⟩
  · exact killBelow_frame s _

theorem recordMatch_laden (recorded : s.Recorded) (burden : s.Burden stale)
    (sameVisit : scope.visitId = s.scope.visitId) {c : Captures} (full : c.size = s.slots) :
    ∃ stale', (s.recordMatch c).2.Burden stale' ∧
      (s.laden stale scope notices).recordMatch c = ((s.recordMatch c).1,
          (s.recordMatch c).2.laden stale' scope notices) := by
  have eqMay : (s.laden stale scope notices).mayMatch = s.mayMatch := rfl
  obtain ⟨eqSet, sameScope, sameSize⟩ := killBelowCursor_frame s
  have sameSlots : s.killBelowCursor.slots = s.slots := congrArg Setting.slots eqSet
  have cut := (Frames.refl s).killBelowCursor
  obtain ⟨fr, lt⟩ := cut.fork 0 c
  obtain ⟨stale', burden', forked⟩ := @fork_laden s.killBelowCursor stale scope notices
    (cut.recorded recorded) (burden.congr eqSet sameSize) (by rw [sameScope, sameVisit]) 0
    c (full.trans sameSlots.symm)
  unfold recordMatch
  rw [eqMay, killBelowCursor_laden recorded, forked]
  split
  · exact ⟨stale, burden, rfl⟩
  · cases res : s.killBelowCursor.fork 0 c with
    | mk found st =>
    rw [res] at lt burden' fr
    cases found with
    | none => exact ⟨stale', burden', rfl⟩
    | some id =>
      have within := lt recorded id rfl
      have eqOff : (st.laden stale' scope notices).offset = st.offset := rfl
      dsimp only at within burden' fr ⊢
      rw [eqOff, modify_laden within, killBelow_laden ((fr.recorded recorded).modify id _)]
      refine ⟨stale', burden'.congr ?_ ?_, rfl⟩
      · exact (killBelow_frame _ id).1
      · exact (killBelow_frame _ id).2.2.trans (arena_size_modify st id _)

theorem apply_laden (recorded : s.Recorded) (burden : s.Burden stale) {ev : Event}
    (full : ev.Full s.slots) : ∃ stale' sc', (s.apply ev).Burden stale' ∧
      (s.laden stale scope notices).apply ev = (s.apply ev).laden stale' sc' notices := by
  have relabelled : ∀ v, (s.setVisitId v).Recorded := fun _ =>
    ⟨recorded.ranked, recorded.queued, recorded.free⟩
  cases ev with
  | wait e n c v =>
    obtain ⟨stale', burden', waited⟩ := @wait_laden (s.setVisitId v) stale
      { scope with visitId := v } notices (relabelled v) (burden.congr rfl rfl) rfl e
      n c full
    exact ⟨stale', _, burden', waited⟩
  | accept c v =>
    obtain ⟨stale', burden', recordedMatch⟩ := @recordMatch_laden (s.setVisitId v) stale
      { scope with visitId := v } notices (relabelled v) (burden.congr rfl rfl) rfl
      c full
    exact ⟨stale', _, burden', congrArg Prod.snd recordedMatch⟩
  | fail =>
    change ∃ stale' sc', s.fail.Burden stale' ∧
      (s.laden stale scope notices).fail = s.fail.laden stale' sc' notices
    have sameRunning : (s.laden stale scope notices).running = s.running := rfl
    unfold fail
    rw [sameRunning]
    cases run : s.running with
    | none => exact ⟨stale, scope, burden, rfl⟩
    | some id =>
      dsimp only
      rw [kill_laden burden]
      refine ⟨stale, scope, burden.congr ((Frames.refl s).kill id).setting_eq ?_, rfl⟩
      unfold kill
      split
      · rfl
      · exact arena_size_retire s id

theorem foldl_apply_laden (evs : List Event) (recorded : s.Recorded)
    (burden : s.Burden stale) (full : ∀ ev ∈ evs, ev.Full s.slots) :
    ∃ stale' sc', (evs.foldl apply s).Burden stale' ∧
      evs.foldl apply (s.laden stale scope notices) =
        (evs.foldl apply s).laden stale' sc' notices := by
  induction evs generalizing s stale scope with
  | nil => exact ⟨stale, scope, burden, rfl⟩
  | cons ev r ih =>
    obtain ⟨stale', sc', burden', applied⟩ := @apply_laden s stale scope notices recorded
      burden ev (full ev (by simp))
    have fr := (Frames.refl s).apply ev
    rw [foldl_cons, foldl_cons, applied]
    apply ih (fr.recorded recorded) burden'
    intro l mb
    rw [fr.slots_eq]
    exact full l (by simp [mb])

end Transport

/-- What a runner may see of a scheduler: everything but the free records and the notices. The
number of records and that of free ones, which a runner could ask for, are left out. -/
def visible (sched : Scheduler) : Scheduler × List Thread :=
  ({ sched with arena := #[], free := [], notices := [] }, sched.order.map sched.thread)

theorem visible_laden (recorded : s.Recorded) :
    (s.laden stale s.scope notices).visible = s.visible := by
  have eq : s.order.map (s.laden stale s.scope notices).thread =
      s.order.map s.thread :=
    map_congr_left fun id rk => thread_laden (recorded.ranked id rk)
  unfold visible
  rw [← eq]
  rfl

end Scheduler

/-- A runner is discreet if its closures do not depend on the free records, nor on how many records
there are or are free, nor on the notices. -/
def Runner.Discreet (runner : Runner) : Prop :=
  ∀ (first second : Scheduler) (entry : Nat), first.visible = second.visible →
    runner first entry = runner second entry

/-- The closures of a runner keep the length of the captures that they work on. -/
def Runner.KeepsWork (runner : Runner) : Prop :=
  ∀ (sched : Scheduler) (entry : Nat), sched.scope.captures.size = sched.slots →
    (runner sched entry).scope.captures.size = sched.slots

/-- The closures of a runner ask for threads with captures of full length only. -/
def Runner.Full (runner : Runner) : Prop :=
  ∀ (sched : Scheduler) (entry : Nat), sched.scope.captures.size = sched.slots →
    ∀ event ∈ (runner sched entry).events, event.Full sched.slots

namespace Scheduler

variable {s : Scheduler} {stale : List Thread} {scope : Scope} {notices : List Notice}
  {id : Nat} {rn : Runner}

/-- Between two closures: every thread has a record, and all captures have full length. -/
structure Ready (sched : Scheduler) : Prop extends sched.Recorded where
  tracked : ∀ id < sched.arena.size, (sched.thread id).captures.size = sched.slots
  work : sched.scope.captures.size = sched.slots

theorem Ready.of_frames {t : Scheduler} {m : Nat} (ready : s.Ready)
    (fr : t.Frames s m) (work : t.scope.captures.size = t.slots) : t.Ready :=
  ⟨fr.recorded ready.toRecorded, fr.slots_eq ▸ fr.tracked ready.tracked, work⟩

/-- A scope that the next closure cannot tell from that of the scheduler: the captures will be
overwritten, and without an owner the visited bitmap will be cleared. -/
structure Alike (sched : Scheduler) (scope : Scope) : Prop where
  lastVisitId_eq : scope.lastVisitId = sched.scope.lastVisitId
  work : scope.captures.size = sched.slots
  visited_eq : sched.bitmapOwner ≠ none → scope.visited = sched.scope.visited

theorem begin_laden (ready : s.Ready) (alike : s.Alike scope) (lt : id < s.arena.size) :
    (s.laden stale scope notices).begin id =
      (s.begin id).laden stale (s.begin id).scope notices := by
  have within : id < (s.modify id ({ · with state := .running })).arena.size := by simpa using lt
  have record : (s.modify id ({ · with state := .running })).thread id =
      { s.thread id with state := .running } := thread_modify_self s _ lt
  have sized := ready.tracked id lt
  have caps : (s.thread id).captures.copyInto scope.captures =
      (s.thread id).captures.copyInto s.scope.captures := by
    rw [Captures.copyInto_eq _ _ (sized.trans alike.work.symm),
      Captures.copyInto_eq _ _ (sized.trans ready.work.symm)]
  unfold Scheduler.begin
  rw [modify_laden lt]
  dsimp only
  rw [thread_laden within, record]
  by_cases owned : s.bitmapOwner = some (s.thread id).visit
  · have visited := alike.visited_eq (by simp [owned])
    simp [laden, modify, caps, owned, visited, alike.lastVisitId_eq]
  · simp [laden, modify, caps, owned, alike.lastVisitId_eq]

theorem arena_size_finish (s : Scheduler) (id : Nat) : (s.finish id).arena.size = s.arena.size := by
  unfold finish kill
  split
  · split
    · rfl
    · exact arena_size_retire s id
  · rfl

theorem finish_laden (burden : s.Burden stale) (id : Nat) :
    (s.laden stale scope notices).finish id = (s.finish id).laden stale scope notices := by
  unfold finish
  rw [state_laden burden, kill_laden burden]
  split <;> rfl

theorem run_laden (ready : s.Ready) (burden : s.Burden stale) (alike : s.Alike scope)
    (lt : id < s.arena.size) (discreet : rn.Discreet) (keeps : rn.KeepsWork) (full : rn.Full) :
    (s.run rn id).Ready ∧ ∃ stale' ns', (s.run rn id).Burden stale' ∧
      (s.laden stale scope notices).run rn id =
        (s.run rn id).laden stale' (s.run rn id).scope ns' := by
  have begunSize : (s.begin id).arena.size = s.arena.size := arena_size_modify s id _
  have within : id < (s.begin id).arena.size := begunSize.symm ▸ lt
  have begun := (Frames.begin s id).recorded ⟨ready.ranked, ready.queued, ready.free⟩
  have work : (s.begin id).scope.captures.size = (s.begin id).slots :=
    (Captures.size_copyInto _ _).trans ready.work
  have eq := discreet _ _ ((s.begin id).thread id).entry
    (@visible_laden (s.begin id) stale notices begun)
  have sized := full (s.begin id) ((s.begin id).thread id).entry work
  have kept := keeps (s.begin id) ((s.begin id).thread id).entry work
  have ran := @Ready.of_frames { s with running := none } _ _
    ⟨⟨ready.ranked, ready.queued, ready.free⟩, ready.tracked, ready.work⟩ (Frames.run s rn id)
  have sameSlots := (Frames.run s rn id).slots_eq
  unfold run at ran sameSlots ⊢
  dsimp only at ran sameSlots ⊢
  rw [begin_laden ready alike lt, thread_laden within, eq]
  generalize rn (s.begin id) ((s.begin id).thread id).entry = turn at *
  obtain ⟨stale', sc', burden', transported⟩ := @foldl_apply_laden (s.begin id) stale
    (s.begin id).scope notices turn.events begun (burden.congr rfl begunSize) sized
  rw [transported]
  generalize turn.events.foldl apply (s.begin id) = moved at *
  let l : Scheduler := { moved with
    scope := turn.scope, notices := turn.notices ++ moved.notices }
  have laden : l.Burden stale' := burden'.congr rfl rfl
  obtain ⟨eqSet, sameScope, -, -⟩ := finish_frame l id
  refine ⟨ran ?_, stale', turn.notices ++ notices, laden.congr eqSet (arena_size_finish l id), ?_⟩
  · change (l.finish id).scope.captures.size = (l.finish id).slots
    rw [sameScope, sameSlots]
    exact kept
  · change (l.laden stale' turn.scope (turn.notices ++ notices)).finish id = _
    rw [finish_laden laden, sameScope]

theorem take_laden {r : Queue} (lt : id < s.arena.size) :
    (s.laden stale scope notices).take id r = (s.take id r).laden stale scope notices := by
  have eqAct : (s.laden stale scope notices).active = s.active := rfl
  unfold take
  rw [eqAct]
  dsimp only
  rw [setQueue_laden, modify_laden (by simpa using lt)]

theorem postpone_laden (lt : id < s.arena.size) : (s.laden stale scope notices).postpone id =
      (s.postpone id).laden stale scope notices := by
  have eqAct : (s.laden stale scope notices).active = s.active := rfl
  unfold postpone
  rw [eqAct]
  rw [modify_laden lt, enqueue_laden (by simpa using lt)]

theorem Alike.congr {t : Scheduler} (alike : s.Alike scope)
    (eqSet : t.setting = s.setting) (sameScope : t.scope = s.scope)
    (sameOwner : t.bitmapOwner = s.bitmapOwner ∨ t.bitmapOwner = none) : t.Alike scope := by
  have sameSlots : t.slots = s.slots := congrArg Setting.slots eqSet
  refine ⟨by rw [sameScope, alike.lastVisitId_eq], by rw [sameSlots, alike.work], ?_⟩
  intro owned
  rcases sameOwner with eq | none
  · rw [sameScope]
    exact alike.visited_eq (eq ▸ owned)
  · exact absurd none owned

theorem seed_frame (s : Scheduler) :
    s.seed.scope = s.scope ∧ s.seed.bitmapOwner = s.bitmapOwner := by
  have agrees := Agrees.allocate s
  unfold seed
  cases alloc : s.allocate with
  | mk found st =>
  rw [alloc] at agrees
  cases found with
  | none => exact ⟨agrees.scope_eq, agrees.owner_eq⟩
  | some id =>
    exact ⟨(Agrees.enqueue _ _ id).scope_eq.trans agrees.scope_eq,
      (Agrees.enqueue _ _ id).owner_eq.trans agrees.owner_eq⟩

theorem Ready.seed (ready : s.Ready) : s.seed.Ready := by
  have fr := (Frames.refl s).seed
  exact ready.of_frames fr (by rw [fr.slots_eq, (seed_frame s).1, ready.work])

theorem seed_laden (ready : s.Ready) (burden : s.Burden stale) : ∃ stale', s.seed.Burden stale' ∧
      (s.laden stale scope notices).seed = s.seed.laden stale' scope notices := by
  let f : Thread → Thread := fun t =>
    { t with
      entry := s.start
      delay := 0
      visit := 0
      state := .queued
      captures := (Array.replicate t.captures.size (-1)).setIfInBounds 0 (s.offset : Int) }
  have agrees := Agrees.allocate s
  have lt := (Frames.refl s).allocate.2 ready.toRecorded
  obtain ⟨sameId, refused, granted⟩ := @allocate_laden s stale scope notices ready.toRecorded
    burden f (by
      intro a b firstLane secondLane firstSize secondSize
      simp [f, firstLane, secondLane, firstSize, secondSize])
  unfold seed
  cases alloc : s.allocate with
  | mk found st =>
  cases alloc' : (s.laden stale scope notices).allocate with
  | mk found' st' =>
  have agrees' := Agrees.allocate (s.laden stale scope notices)
  rw [alloc] at sameId refused granted agrees lt
  rw [alloc'] at sameId refused granted agrees'
  dsimp only at sameId refused granted agrees agrees' lt
  subst sameId
  cases found' with
  | none =>
    rw [refused rfl]
    obtain ⟨rfl, -⟩ := Roster.allocate_none alloc
    exact ⟨stale, burden, rfl⟩
  | some id =>
    obtain ⟨stale', burden', modified⟩ := granted id rfl
    have start : st.start = s.start := congrArg Setting.start agrees.setting_eq
    have offset : st.offset = s.offset := congrArg Setting.offset agrees.setting_eq
    have start' : st'.start = s.start := congrArg Setting.start agrees'.setting_eq
    have offset' : st'.offset = s.offset := congrArg Setting.offset agrees'.setting_eq
    simp only [start, offset, start', offset']
    let ranked : Scheduler := { st.modify id f with ranking := st.ranking.append id }
    have within : id < ranked.arena.size := (arena_size_modify st id f).symm ▸ lt id rfl
    refine ⟨stale', ?_, ?_⟩
    · exact burden'.congr (Agrees.enqueue ranked ranked.active id).setting_eq (by simp [enqueue])
    · change Scheduler.enqueue { st'.modify id f with
        ranking := (st'.modify id f).ranking.append id } (st'.modify id f).active id = _
      rw [modified]
      exact enqueue_laden within ranked.active

theorem Alike.seed (alike : s.Alike scope) : s.seed.Alike scope :=
  alike.congr (setting_seed s) (seed_frame s).1 (.inl (seed_frame s).2)

theorem advance_laden (ready : s.Ready) (burden : s.Burden stale) (alike : s.Alike scope) :
    s.advance.Ready ∧ s.advance.Alike scope ∧ ∃ stale', s.advance.Burden stale' ∧
      (s.laden stale scope notices).advance = s.advance.laden stale' scope notices := by
  have moved : s.moveOn.Ready :=
    ⟨⟨ready.ranked, ready.queued, ready.free⟩, ready.tracked, ready.work⟩
  have movedBurden : s.moveOn.Burden stale :=
    ⟨burden.dead, burden.unqueued, burden.tracked, burden.bounded⟩
  have movedAlike : s.moveOn.Alike scope :=
    ⟨alike.lastVisitId_eq, alike.work, fun owned => absurd rfl owned⟩
  have eq : (s.laden stale scope notices).moveOn = s.moveOn.laden stale scope notices := rfl
  have sameStart : (s.moveOn.laden stale scope notices).anchorsStart =
      s.moveOn.anchorsStart := rfl
  have sameMatched : (s.moveOn.laden stale scope notices).matched = s.moveOn.matched := rfl
  rw [advance_eq, advance_eq, eq, sameStart, sameMatched]
  split
  · exact ⟨moved, movedAlike, stale, movedBurden, rfl⟩
  · obtain ⟨stale', burden', transported⟩ := seed_laden moved movedBurden
    exact ⟨moved.seed, movedAlike.seed, stale', burden', transported⟩

end Scheduler

end Rematch
