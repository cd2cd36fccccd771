import Rematch.Proofs.Threads.Frame

/-!
The progress of a search. `Search` is what matters of a scheduler between two closures, and
`Search.Step` is one closure, one postponement, or the move to the next offset. A scheduler that
shows a search takes such steps only, and it stops at a search that is done: `dispatch_reaches`.
-/

namespace Rematch

open List Place Scheduler Setting

/-- What a search is asked, which does not change on the way. -/
structure Query where
  text : Text
  flags : Nat
  slots : Nat
  start : Nat
  maxThreads : Nat

structure Search where
  offset : Nat
  front : Front
  /-- The instructions that were entered. -/
  visited : Nat
  /-- The visit id that they were entered with, if any thread has run at this offset. -/
  owner : Option Nat
  lastVisitId : Nat

namespace Query

/-- Whether matches must begin at the begin of the text. -/
def anchorsStart (query : Query) : Bool := query.flags.testBit 0

def mayMatchAt (query : Query) (offset : Nat) : Bool :=
  !(query.flags.testBit 1 && offset < query.text.size)

def blank (query : Query) (offset : Nat) : Captures :=
  (Array.replicate query.slots (-1)).setIfInBounds 0 offset

def seed (query : Query) (offset : Nat) : Pending := ⟨query.start, 0, 0, query.blank offset⟩

/-- The threads that start at an offset: none where matches must begin earlier. -/
def Seeds (query : Query) (offset : Nat) (best : Option Captures) (seeds : List Pending) : Prop :=
  if query.anchorsStart || best.isSome then seeds = []
  else seeds = [query.seed offset] ∨ 0 < query.maxThreads ∧ seeds = []

end Query

namespace Search

/-- Whether nothing is left to do after the current offset. -/
def isDone (query : Query) (search : Search) : Bool :=
  query.text.size ≤ search.offset ||
    ((search.front.best.isSome || query.anchorsStart) &&
      (search.front.later.isEmpty && search.front.now.isEmpty))

def scope (search : Search) (thread : Pending) : Scope :=
  { captures := thread.captures
    visited := if search.owner = some thread.visit then search.visited else 0
    visitId := thread.visit
    lastVisitId := search.lastVisitId }

def initial (query : Query) : Search :=
  { offset := 0
    front := ⟨[], [query.seed 0], none⟩
    visited := 0
    owner := none
    lastVisitId := 0 }

end Search

namespace Scheduler

def query (sched : Scheduler) : Query :=
  ⟨sched.text, sched.flags, sched.slots, sched.start, sched.maxThreads⟩

/-- What matters of a scheduler with the given threads. -/
def search (sched : Scheduler) (next now won : List Nat) : Search :=
  { offset := sched.offset
    front := sched.front next now won
    visited := sched.scope.visited
    owner := sched.bitmapOwner
    lastVisitId := sched.scope.lastVisitId }

structure Shows (sched : Scheduler) (query : Query) (search : Search) : Prop where
  query_eq : sched.query = query
  positioned : sched.holding = Condition.holdingAt sched.text sched.offset
  ranked : ∃ next now won, sched.Ranked next [] now won ∧ search = sched.search next now won

structure Begins (sched : Scheduler) (query : Query) (offset : Nat) (scope : Scope) : Prop where
  query_eq : sched.query = query
  offset_eq : sched.offset = offset
  positioned : sched.holding = Condition.holdingAt sched.text sched.offset
  scope_eq : sched.scope = scope

end Scheduler

/-- A runner keeps to the rules if all its closures do. -/
def Runner.Orderly (runner : Runner) : Prop :=
  ∀ (sched : Scheduler) (entry : Nat), sched.scope.captures.size = sched.slots →
    Event.Orderly sched.slots sched.mayMatch (runner sched entry).events ∧
      (runner sched entry).scope.captures.size = sched.slots

namespace Search

/-- One step of a search. -/
inductive Step (runner : Runner) (query : Query) : Search → Search → Prop where
  /-- A thread that is not due goes on waiting. -/
  | postpone {search thread later now best} (front_eq : search.front = ⟨later, thread :: now, best⟩)
      (delayed : 0 < thread.delay) :
      Step runner query search
        { search with front := ⟨later ++ [{ thread with delay := thread.delay - 1 }], now, best⟩ }
  /-- A thread that is due runs. Once no thread is left for the offset, it does not matter for which
  visit id the instructions were entered. -/
  | close {search thread later now best after owner sched}
      (front_eq : search.front = ⟨later, thread :: now, best⟩) (due : thread.delay = 0)
      (begins : sched.Begins query search.offset (search.scope thread))
      (absorbed : Front.AbsorbsAll sched (runner sched thread.entry).events
        ⟨later, now, best⟩ after)
      (owned : after.now = [] ∨ owner = some thread.visit) :
      Step runner query search
        { search with
          front := after
          visited := (runner sched thread.entry).scope.visited
          owner
          lastVisitId := (runner sched thread.entry).scope.lastVisitId }
  /-- Without threads for the offset the search moves on. -/
  | advance {search later seeds best}
      (front_eq : search.front = ⟨later, [], best⟩) (unfinished : search.isDone query = false)
      (seeded : query.Seeds (search.offset + 1) best seeds) :
      Step runner query search
        { search with
          offset := search.offset + 1
          front := ⟨[], later ++ seeds, best⟩
          owner := none }

def Reaches (runner : Runner) (query : Query) : Search → Search → Prop :=
  Relation.ReflTransGen (Step runner query)

end Search

namespace Scheduler

variable {s : Scheduler} {id : Nat} {n now won : List Nat}
variable {q : Query} {rn : Runner} {t : Scheduler} {se : Search}

theorem query_congr (eq : s.setting = t.setting) : s.query = t.query := by
  simp only [setting, Setting.mk.injEq] at eq
  simp [query, eq]

theorem Agrees.search_eq (agrees : t.Agrees s) :
    t.search n now won = { s.search n now won with front := t.front n now won } := by
  have eqOff : t.offset = s.offset := congrArg Setting.offset agrees.setting_eq
  simp [search, eqOff, agrees.scope_eq, agrees.owner_eq]

theorem Shows.congr_setting (shown : s.Shows q se) (eq : t.setting = s.setting) :
    t.query = q ∧ t.holding = Condition.holdingAt t.text t.offset := by
  have sameText : t.text = s.text := congrArg Setting.text eq
  have eqOff : t.offset = s.offset := congrArg Setting.offset eq
  have sameHolding : t.holding = s.holding := congrArg Setting.holding eq
  exact ⟨(query_congr eq).trans shown.query_eq,
    by rw [sameHolding, sameText, eqOff, shown.positioned]⟩

theorem finish_frame (s : Scheduler) (id : Nat) :
    (s.finish id).setting = s.setting ∧ (s.finish id).scope = s.scope ∧
      (s.finish id).bitmapOwner = s.bitmapOwner ∧
      ∀ j, j ≠ id → (s.finish id).thread j = s.thread j := by
  have agrees := Agrees.retire s id
  unfold finish kill
  split
  · split
    · exact ⟨rfl, rfl, rfl, fun _ _ => rfl⟩
    · exact ⟨agrees.setting_eq, agrees.scope_eq, agrees.owner_eq,
        fun j ne => thread_retire_of_ne s ne⟩
  · exact ⟨rfl, rfl, rfl, fun _ _ => rfl⟩

namespace Ranked

theorem of_agrees {lo n' lo' now' : List Nat} (rk : s.Ranked n lo now won) (agrees : t.Agrees s)
    (roster : t.Roster n' lo' now' won) (sameOrder : n' ++ lo' ++ now' = n ++ lo ++ now) :
    t.Ranked n' lo' now' won :=
  { toRoster := roster
    order_eq := by
      rw [order, agrees.ranking_eq, sameOrder]
      exact rk.order_eq
    single := rk.single
    matched_eq := agrees.matched_eq.trans rk.matched_eq
    work := by rw [agrees.scope_eq, agrees.slots_eq, rk.work]
    atLeastTwo := by rw [agrees.slots_eq]; exact rk.atLeastTwo }

theorem take (rk : s.Ranked n [] (id :: now) won) {r : Queue} (left : r.toList = now) :
    (s.take id r).Ranked n [id] now won :=
  rk.of_agrees (Agrees.take s id r) (rk.toRoster.take left) (by simp)

section

variable (rk : s.Ranked n [id] now won)
include rk

theorem postpone (pend : (s.thread id).state = .queued ∨ (s.thread id).state = .waiting) :
    (s.postpone id).Ranked (n ++ [id]) [] now won := by
  obtain ⟨lt, home, unqueued⟩ := rk.of_mem_loose id (by simp)
  have shorter := rk.modify id (by simp) (fun t => { t with delay := t.delay - 1 })
    (by simpa [Thread.place] using home) unqueued rfl
  exact rk.of_agrees (Agrees.postpone s id)
    (Roster.enqueueNext id shorter (by simpa [lt] using pend)) (by simp)

theorem thread_begin : (s.begin id).thread id = { s.thread id with state := .running } :=
  thread_modify_self _ _ (rk.of_mem_loose id (by simp)).1

theorem begin : (s.begin id).During id n [] now won := by
  obtain ⟨lt, -, unqueued⟩ := rk.of_mem_loose id (by simp)
  have run := rk.modify id (by simp)
    (fun t => { t with state := .running })
    (by simp [Thread.place, unqueued]) unqueued rfl
  have pl : id ∈ pick n [id] now won s.free .loose := by simp [pick]
  have parts : s.ranking.toList = n ++ id :: (now ++ won) := by simpa [order] using rk.order_eq
  exact
    { toRoster := by
        rw [append_nil]
        exact run.congr rfl rfl rfl rfl
      ranking_eq := by
        change s.ranking.cutAt id = _
        exact Ranking.cutAt_eq _ parts (rk.not_mem .next pl (by simp))
          (rk.not_mem_ended .loose pl (by simp) (by simp))
      cursor_eq := rfl
      state_eq := by rw [rk.thread_begin]
      atLeastTwo := rk.atLeastTwo }

theorem begin_scope : (s.begin id).scope =
      { captures := (s.thread id).captures
        visited := if s.bitmapOwner = some (s.thread id).visit then s.scope.visited
          else 0
        visitId := (s.thread id).visit
        lastVisitId := s.scope.lastVisitId } := by
  have lt := (rk.of_mem_loose id (by simp)).1
  have size : (s.thread id).captures.size = s.scope.captures.size :=
    (rk.tracked id lt).trans rk.work.symm
  change Scope.mk (((s.modify id _).thread id).captures.copyInto s.scope.captures)
    (if s.bitmapOwner = some ((s.modify id _).thread id).visit then s.scope.visited
      else 0) ((s.modify id _).thread id).visit s.scope.lastVisitId = _
  rw [thread_modify_self _ _ lt, Captures.copyInto_eq _ _ size]

theorem begin_work : (s.begin id).scope.captures.size = (s.begin id).slots := by
  rw [rk.begin_scope]
  exact rk.tracked id (rk.of_mem_loose id (by simp)).1

end

end Ranked

variable {u v : List Nat}

theorem Ending.note (ending : s.Ending id u v now won) (sc : Scope) (ns : List Notice) :
    ({ s with scope := sc, notices := ns } : Scheduler).Ending id u v now won :=
  { toRoster := ending.toRoster.congr rfl rfl rfl rfl
    order_eq := ending.order_eq
    state_eq := ending.state_eq
    atLeastTwo := ending.atLeastTwo
    single := ending.single
    matched_eq := ending.matched_eq }

theorem Ending.finish (ending : s.Ending id u v now won) (work : s.scope.captures.size = s.slots) :
    (s.finish id).Ranked (u ++ v) [] now won := by
  have pl : id ∈ pick (u ++ v) [id] now won s.free .loose := by simp [pick]
  have notNext : id ∉ u ++ v := ending.not_mem .next pl (by simp)
  have notEnded := ending.not_mem_ended .loose pl (by simp) (by simp)
  simp only [mem_append, not_or] at notNext notEnded
  have agrees := Agrees.retire s id
  have fin : s.finish id =
      { s.retire id with
        ranking := s.ranking.erase id
        running := none
        cursor := none } := by
    simp [Scheduler.finish, kill, ending.state_eq]
  have roster : (s.retire id).Roster (u ++ v) [] now won := by
    apply ending.toRoster.retire .loose
    case same => rintro ⟨⟩ <;> simp [pick]
    all_goals simp [pick]
  rw [fin]
  exact
    { toRoster := roster.congr rfl rfl rfl rfl
      order_eq := by
        change (s.ranking.erase id).toList = _
        have parts : s.ranking.toList = u ++ id :: (v ++ now ++ won) := by
          simpa [order] using ending.order_eq
        rw [Ranking.toList_erase _ parts notNext.1 (by simp [notNext, notEnded])]
        simp
      single := ending.single
      matched_eq := agrees.matched_eq.trans ending.matched_eq
      work := by
        change (s.retire id).scope.captures.size = (s.retire id).slots
        rw [agrees.scope_eq, agrees.slots_eq]
        exact work
      atLeastTwo := by
        change 2 ≤ (s.retire id).slots
        rw [agrees.slots_eq]
        exact ending.atLeastTwo }

theorem Ranked.search_postpone (rk : s.Ranked n [id] now won) :
    (s.postpone id).search (n ++ [id]) now won = { s.search n now won with
        front := ⟨s.pendings n ++ [{ (s.thread id).pending with delay := (s.thread id).delay - 1 }],
          s.pendings now, (s.front n now won).best⟩ } := by
  have lt := (rk.of_mem_loose id (by simp)).1
  have agrees := Agrees.postpone s id
  have record : (s.postpone id).thread id = { s.thread id with
      delay := (s.thread id).delay - 1, lane := some (!s.active) } := by
    rw [Scheduler.postpone, thread_enqueue_self _ _ (by simpa using lt), thread_modify_self _ _ lt]
  have eq : (s.postpone id).front n now won = s.front n now won :=
    rk.front_eq fun _ => thread_postpone_of_ne s
  rw [agrees.search_eq, front_concat, eq, record]
  rfl

/-- The turn of a thread: its events change the front, and its scope stays behind. -/
theorem Ranked.run (rk : s.Ranked n [id] now won) (ord : rn.Orderly) :
    ∃ n' now' won', (s.run rn id).Ranked n' [] now' won' ∧ (s.run rn id).setting = s.setting ∧
      (s.run rn id).scope = (rn (s.begin id) (s.thread id).entry).scope ∧
      Front.AbsorbsAll (s.begin id) (rn (s.begin id) (s.thread id).entry).events (s.front n now won)
        ((s.run rn id).front n' now' won') ∧
      (now' = [] ∨ (s.run rn id).bitmapOwner = some (s.thread id).visit) := by
  have begun := rk.begin
  have record := rk.thread_begin
  obtain ⟨rules, left⟩ := ord (s.begin id) (s.thread id).entry rk.begin_work
  obtain ⟨v, now', won', ended, abs, eq, owner⟩ := begun.absorb rk.single rk.matched_eq rules
  have expanded : s.run rn id =
      ({ (rn (s.begin id) (s.thread id).entry).events.foldl apply (s.begin id) with
        scope := (rn (s.begin id) (s.thread id).entry).scope
        notices := (rn (s.begin id) (s.thread id).entry).notices ++
          ((rn (s.begin id) (s.thread id).entry).events.foldl apply
            (s.begin id)).notices } : Scheduler).finish id := by
    simp [Scheduler.run, record]
  generalize (rn (s.begin id) (s.thread id).entry) = turn at *
  have sameSlots : (turn.events.foldl apply (s.begin id)).slots = (s.begin id).slots :=
    congrArg Setting.slots eq
  have rk' := (ended.note turn.scope (turn.notices ++
    (turn.events.foldl apply (s.begin id)).notices)).finish (left.trans sameSlots.symm)
  rw [← expanded] at rk'
  obtain ⟨settingEq, scopeEq, ownerEq, threadEq⟩ := finish_frame
    ({ turn.events.foldl apply (s.begin id) with
      scope := turn.scope
      notices := turn.notices ++ (turn.events.foldl apply (s.begin id)).notices } : Scheduler) id
  rw [← expanded] at settingEq scopeEq ownerEq threadEq
  refine ⟨n ++ v, now', won', rk', settingEq.trans eq, scopeEq, ?_, ?_⟩
  · have firstFront : (s.begin id).front (n ++ []) now won = s.front n now won := by
      rw [append_nil]
      exact rk.front_eq fun _ ne => thread_modify_of_ne s _ ne
    have lastFront : (s.run rn id).front (n ++ v) now' won' =
        (turn.events.foldl apply (s.begin id)).front (n ++ v) now' won' :=
      ended.front_eq threadEq
    rw [lastFront, ← firstFront]
    exact abs
  · exact owner.imp_right fun kept => ownerEq.trans kept |>.trans (by
      change some ((s.begin id).thread id).visit = _
      rw [record])

theorem Ranked.seed (rk : s.Ranked n [] now []) :
    (0 < s.maxThreads ∧ s.maxThreads ≤ s.arena.size ∧ s.seed = s) ∨
      ∃ new, s.seed.Ranked n [] (now ++ [new]) [] ∧
        (s.seed.thread new).pending = s.query.seed s.offset ∧
        (∀ j, j ≠ new → s.seed.thread j = s.thread j) ∧
        new ∉ n ++ now ∧ s.seed.setting = s.setting ∧
        s.seed.scope = s.scope ∧ s.seed.bitmapOwner = s.bitmapOwner := by
  cases alloc : s.allocate with
  | mk st al =>
  cases st with
  | none =>
    obtain ⟨rfl, -, le, full⟩ := Roster.allocate_none alloc
    exact .inl ⟨le, full, by simp [seed, alloc]⟩
  | some new =>
    right
    have alAgr := Agrees.allocate s
    rw [alloc] at alAgr
    change al.Agrees s at alAgr
    let f : Thread → Thread := fun t =>
      { t with
        entry := al.start
        delay := 0
        visit := 0
        state := .queued
        captures := (Array.replicate t.captures.size (-1)).setIfInBounds 0 (al.offset : Int) }
    have seeded : s.seed = ({ al.modify new f with
        ranking := al.ranking.append new } : Scheduler).enqueue al.active new := by
      simp only [Scheduler.seed, alloc]
      rfl
    obtain ⟨roster, others, record, recordSize, started⟩ :=
      rk.allocate_some alloc f (fun _ => rfl) (fun _ => rfl) (fun _ => by simp [f])
    have lt := (roster.of_mem_loose new (by simp)).1
    have ready : ({ al.modify new f with
        ranking := al.ranking.append new } : Scheduler).Roster n ([] ++ [new]) now [] :=
      roster.congr rfl rfl rfl rfl
    have queued := ready.enqueueNow (by
      left
      change ((al.modify new f).thread new).state = _
      rw [started])
    have agrees := Agrees.enqueue ({ al.modify new f with
      ranking := al.ranking.append new } : Scheduler) al.active new
    have eqThread : ∀ j, j ≠ new → s.seed.thread j = s.thread j := by
      intro j ne
      rw [seeded, thread_enqueue_of_ne _ _ ne]
      exact others j ne
    have fresh : new ∉ n ++ now := by
      have pl : new ∈ pick n ([] ++ [new]) now [] (al.modify new f).free
          .loose := by simp [pick]
      have notNext := roster.not_mem .next pl (by simp)
      have notNow := roster.not_mem .now pl (by simp)
      simpa [pick] using And.intro notNext notNow
    refine ⟨new, ?_, ?_, eqThread, fresh, ?_, ?_, ?_⟩
    · rw [seeded]
      exact
        { toRoster := queued
          order_eq := by
            rw [order, agrees.ranking_eq]
            change (al.ranking.append new).toList = _
            rw [alAgr.ranking_eq, Ranking.toList_append, ← order, rk.order_eq]
            simp
          single := by simp
          matched_eq := agrees.matched_eq.trans (alAgr.matched_eq.trans rk.matched_eq)
          work := by
            rw [agrees.scope_eq, agrees.slots_eq]
            change al.scope.captures.size = al.slots
            rw [alAgr.scope_eq, alAgr.slots_eq, rk.work]
          atLeastTwo := by
            rw [agrees.slots_eq]
            change 2 ≤ al.slots
            rw [alAgr.slots_eq]
            exact rk.atLeastTwo }
    · have startEq : al.start = s.start := congrArg Setting.start alAgr.setting_eq
      have offsetEq : al.offset = s.offset := congrArg Setting.offset alAgr.setting_eq
      have stored : s.seed.thread new = { f record with lane := some al.active } := by
        rw [seeded, ← started]
        exact thread_enqueue_self _ _ lt
      rw [stored]
      simp [Thread.pending, f, Query.seed, Query.blank, query, startEq, offsetEq, recordSize]
    · rw [seeded]
      exact agrees.setting_eq.trans alAgr.setting_eq
    · rw [seeded]
      exact agrees.scope_eq.trans alAgr.scope_eq
    · rw [seeded]
      exact agrees.owner_eq.trans alAgr.owner_eq

theorem Ranked.isDone_eq (rk : s.Ranked n [] now won) :
    s.isDone = (s.search n now won).isDone s.query := by
  have nextQueue := rk.nextQueue
  have activeQueue := rk.activeQueue
  have idle : s.idle = (n.isEmpty && now.isEmpty) := by
    cases active : s.active <;> simp_all [Scheduler.idle, queue, Bool.and_comm]
  have matched : s.matched = (s.search n now won).front.best.isSome := by
    rw [rk.matched_eq]
    cases won <;> simp [search, front]
  have pendingIff : ∀ ids, (s.pendings ids).isEmpty = ids.isEmpty := by simp [pendings]
  simp only [isDone, Search.isDone, idle, matched, search, front, pendingIff]
  rfl

theorem Ranked.moveOn (rk : s.Ranked n [] [] won) : s.moveOn.Ranked [] [] n won :=
  { toRoster := rk.toRoster.flip rfl rfl rfl rfl rfl rfl
    order_eq := rk.order_eq.trans (by simp)
    single := rk.single
    matched_eq := rk.matched_eq
    work := rk.work
    atLeastTwo := rk.atLeastTwo }

namespace Shows

variable {q : Query} {se : Search} {rn : Runner} {l : List Pending} {best : Option Captures}

section

variable (shown : s.Shows q se)
include shown

theorem next?_eq_none_iff : s.next? = none ↔ se.front.now = [] := by
  obtain ⟨n, now, won, rk, rfl⟩ := shown.ranked
  rw [Scheduler.next?_eq_none_iff, rk.activeQueue]
  simp [search, front, pendings]

theorem step (ord : rn.Orderly) {t : Pending}
    {due : List Pending} (feq : se.front = ⟨l, t :: due, best⟩) :
    ∃ id r, s.next? = some (id, r) ∧ ((s.take id r).thread id).delay = t.delay ∧
      (0 < t.delay → ∃ s', se.Step rn q s' ∧
        s'.offset = se.offset ∧ s'.front.now.length ≤ due.length ∧
        ((s.take id r).postpone id).Shows q s') ∧
      (((s.take id r).begin id).thread id).entry = t.entry ∧
      ((s.take id r).begin id).Begins q se.offset (se.scope t) ∧
      ∃ v owner, Front.AbsorbsAll ((s.take id r).begin id)
          (rn ((s.take id r).begin id) t.entry).events ⟨l, due, best⟩ v ∧
        (v.now = [] ∨ owner = some t.visit) ∧
        ((s.take id r).run rn id).Shows q
          { se with
            front := v
            visited := (rn ((s.take id r).begin id) t.entry).scope.visited
            owner
            lastVisitId := (rn ((s.take id r).begin id) t.entry).scope.lastVisitId } := by
  obtain ⟨n, now, won, rk, rfl⟩ := shown.ranked
  cases now with
  | nil => simp [search, front, pendings] at feq
  | cons id now =>
    have popped := Queue.map_pop? (s.queue s.active)
    rw [rk.activeQueue, if_neg (by simp)] at popped
    obtain ⟨⟨a, r⟩, res, parts⟩ := Option.map_eq_some_iff.mp popped
    obtain ⟨rfl, left⟩ := cons.inj parts
    obtain ⟨lt, home⟩ := (rk.mem_iff .now a).mp (by simp [pick])
    have pend := rk.pending a lt (by simp [(Thread.place_eq_now_iff _ _).mp home])
    have record := thread_take_self s r lt
    have agrees := Agrees.take s a r
    have taken := rk.take left
    have sameFront : (s.take a r).front n now won = ⟨l, due, best⟩ := by
      have eq : s.front n now won = (s.take a r).front n now won :=
        taken.front_eq fun _ ne => (thread_take_of_ne s r ne).symm
      rw [← eq]
      simp only [search, front, pendings, map_cons, Front.mk.injEq,
        cons.injEq] at feq ⊢
      exact ⟨feq.1, feq.2.1.2, feq.2.2⟩
    have eqThread : (s.thread a).pending = t := by
      simp only [search, front, pendings, map_cons, Front.mk.injEq,
        cons.injEq] at feq
      exact feq.2.1.1
    refine ⟨a, r, res, ?_, ?_, ?_⟩
    · rw [record, ← eqThread]
      rfl
    · intro delayed
      have postponed := taken.postpone (by rw [record]; exact pend)
      have eq : ((s.take a r).postpone a).setting = s.setting :=
        ((Agrees.postpone _ a).trans agrees).setting_eq
      obtain ⟨queryEq, positioned⟩ := shown.congr_setting eq
      refine ⟨_, .postpone feq delayed, rfl, Nat.le_refl _, queryEq, positioned, n ++ [a], now, won,
        postponed, ?_⟩
      rw [taken.search_postpone, agrees.search_eq, record]
      cases sameFront
      rw [← eqThread]
      rfl
    · obtain ⟨n', now', won', rk', eq, scopeEq, abs, owner⟩ := taken.run ord
      have entryEq : ((s.take a r).thread a).entry = t.entry := by
        rw [record, ← eqThread]
        rfl
      have visitEq : ((s.take a r).thread a).visit = t.visit := by
        rw [record, ← eqThread]
        rfl
      have begunEq : (((s.take a r).begin a).thread a).entry = t.entry :=
        (congrArg Thread.entry taken.thread_begin).trans entryEq
      rw [entryEq] at scopeEq abs
      rw [sameFront] at abs
      rw [visitEq] at owner
      have beg : ((s.take a r).begin a).Begins q s.offset
          ((s.search n (a :: now) won).scope t) := by
        have eq : ((s.take a r).begin a).setting = s.setting := agrees.setting_eq
        obtain ⟨queryEq, positioned⟩ := shown.congr_setting eq
        refine ⟨queryEq, congrArg Setting.offset agrees.setting_eq, positioned, ?_⟩
        rw [taken.begin_scope, record, agrees.owner_eq, agrees.scope_eq, ← eqThread]
        rfl
      obtain ⟨queryEq, positioned⟩ := shown.congr_setting (eq.trans agrees.setting_eq)
      have owned : (((s.take a r).run rn a).front n' now' won').now = [] ∨
          ((s.take a r).run rn a).bitmapOwner = some t.visit := by
        rcases owner with empty | kept
        · exact .inl (by simp [front, pendings, empty])
        · exact .inr kept
      refine ⟨begunEq, beg, _, _, abs, owned, queryEq, positioned, n', now', won', rk', ?_⟩
      have offsetEq : ((s.take a r).run rn a).offset = s.offset :=
        congrArg Setting.offset (eq.trans agrees.setting_eq)
      simp [Scheduler.search, offsetEq, scopeEq]

theorem advance (rn : Runner) (feq : se.front = ⟨l, [], best⟩) (unfinished : s.isDone = false) :
    ∃ s', se.Step rn q s' ∧ s.advance.Shows q s' ∧ s.advance.remaining + 1 = s.remaining := by
  obtain ⟨n, now, won, rk, rfl⟩ := shown.ranked
  have notDone : (s.search n now won).isDone q = false := by
    rw [← shown.query_eq, ← rk.isDone_eq]
    exact unfinished
  have empty : now = [] := by
    have no : s.pendings now = [] := congrArg Front.now feq
    simpa [pendings] using no
  subst empty
  obtain ⟨rfl, -, rfl⟩ := Front.mk.inj feq
  have inText : s.offset < s.text.size := by
    by_contra beyond
    simp only [isDone, Bool.or_eq_false_iff, decide_eq_false_iff_not] at unfinished
    omega
  have flipped := rk.moveOn
  have anc : (s.moveOn.anchorsStart || s.moveOn.matched) =
      (q.anchorsStart || (won.head?.map fun id => (s.thread id).captures).isSome) := by
    have sameMatched : s.moveOn.matched = (won.head?.map fun id =>
        (s.thread id).captures).isSome := by
      rw [flipped.matched_eq]
      cases won <;> simp
    rw [sameMatched, ← shown.query_eq]
    rfl
  have remaining : s.moveOn.remaining + 1 = s.remaining := by
    change s.text.size - (s.offset + 1) + 1 = s.text.size - s.offset
    omega
  cases settled : s.moveOn.anchorsStart || s.moveOn.matched with
  | true =>
    rw [advance_eq, settled, if_pos rfl]
    have seeded : q.Seeds (s.offset + 1) (won.head?.map fun id => (s.thread id).captures) [] := by
      rw [Query.Seeds, ← anc, settled]
      rfl
    refine ⟨_, .advance feq notDone seeded, ⟨shown.query_eq, rfl, [], n, won, flipped, ?_⟩,
      remaining⟩
    rw [append_nil]
    rfl
  | false =>
    have noMatch : won = [] := by
      have unmatched := (Bool.or_eq_false_iff.mp settled).2
      rw [flipped.matched_eq] at unmatched
      simpa using unmatched
    subst noMatch
    rw [advance_eq, settled, if_neg (by simp)]
    rcases flipped.seed with ⟨bounded, -, lost⟩ | ⟨new, seeded, record, others, fresh, eq, scopeEq,
      ownerEq⟩
    · rw [lost]
      have seeded : q.Seeds (s.offset + 1) none [] := by
        rw [Query.Seeds, show (q.anchorsStart || (none : Option Captures).isSome) = false from
          anc.symm.trans settled]
        exact .inr ⟨by rw [← shown.query_eq]; exact bounded, rfl⟩
      refine ⟨_, .advance feq notDone seeded, ⟨shown.query_eq, rfl, [], n, [], flipped, ?_⟩,
        remaining⟩
      rw [append_nil]
      rfl
    · have textEq : s.moveOn.seed.text = s.text := congrArg Setting.text eq
      have offsetEq : s.moveOn.seed.offset = s.offset + 1 := congrArg Setting.offset eq
      have started : q.Seeds (s.offset + 1) none [q.seed (s.offset + 1)] := by
        rw [Query.Seeds, show (q.anchorsStart || (none : Option Captures).isSome) = false from
          anc.symm.trans settled]
        exact .inl rfl
      refine ⟨_, .advance feq notDone started,
        ⟨(query_congr eq).trans shown.query_eq, ?_, [], n ++ [new], [], seeded, ?_⟩, ?_⟩
      · rw [show s.moveOn.seed.holding = s.moveOn.holding from
          congrArg Setting.holding eq, textEq, offsetEq]
        rfl
      · have pendingEq : s.moveOn.seed.pendings n = s.pendings n := by
          apply pendings_congr
          intro j mem
          apply others
          rintro rfl
          simp_all
        have recordEq : s.moveOn.seed.pendings [new] = [q.seed (s.offset + 1)] := by
          rw [← shown.query_eq]
          exact congrArg (· :: []) record
        simp only [search, front, offsetEq, scopeEq, ownerEq, pendings_append, pendingEq,
          recordEq]
        rfl
      · rw [Scheduler.remaining, textEq, offsetEq]
        exact remaining

theorem turn_orderly (ord : rn.Orderly) {v : Scheduler} (turned : s.turn? rn = some v) :
    ∃ s', se.Step rn q s' ∧ v.Shows q s' := by
  cases fst : s.next? with
  | none =>
    simp only [turn?, fst] at turned
    split at turned
    · simp at turned
    · next unfinished =>
      cases turned
      have no := shown.next?_eq_none_iff.mp fst
      have feq : se.front = ⟨se.front.later, [], se.front.best⟩ := by rw [← no]
      obtain ⟨s', step, moved, -⟩ := shown.advance rn feq (by simpa using unfinished)
      exact ⟨s', step, moved⟩
  | some popped =>
    obtain ⟨id, r⟩ := popped
    simp only [turn?, fst, Option.some.injEq] at turned
    cases feq : se.front with
    | mk l due best =>
    cases due with
    | nil =>
      have no := shown.next?_eq_none_iff.mpr (by rw [feq])
      rw [fst] at no
      simp at no
    | cons t due =>
      obtain ⟨id', r', fst', delay, waits, -, beg, _, _, abs, owned, ran⟩ := shown.step ord feq
      rw [fst] at fst'
      cases fst'
      by_cases delayed : 0 < t.delay
      · rw [delay, if_pos delayed] at turned
        obtain ⟨s', step, -, -, postponed⟩ := waits delayed
        exact ⟨s', step, turned ▸ postponed⟩
      · rw [delay, if_neg delayed] at turned
        exact ⟨_, .close feq (by omega) beg abs owned, turned ▸ ran⟩

theorem isDone_eq : s.isDone = se.isDone q := by
  obtain ⟨n, now, won, rk, rfl⟩ := shown.ranked
  rw [← shown.query_eq, rk.isDone_eq]

theorem noteDropped : s.noteDropped.Shows q se := by
  unfold Scheduler.noteDropped
  split
  · obtain ⟨n, now, won, rk, rfl⟩ := shown.ranked
    exact ⟨shown.query_eq, shown.positioned, n, now, won,
      { toRoster := rk.toRoster.congr rfl rfl rfl rfl
        order_eq := rk.order_eq
        single := rk.single
        matched_eq := rk.matched_eq
        work := rk.work
        atLeastTwo := rk.atLeastTwo }, rfl⟩
  · exact shown

theorem result?_eq (noNext : se.front.later = []) (noNow : se.front.now = []) :
    s.result? = se.front.best := by
  obtain ⟨n, now, won, rk, rfl⟩ := shown.ranked
  have nextEmpty : n = [] := by simpa [search, front, pendings] using noNext
  have nowEmpty : now = [] := by simpa [search, front, pendings] using noNow
  have order := rk.order_eq
  rw [nextEmpty, nowEmpty, Scheduler.order] at order
  simp only [append_nil, nil_append] at order
  cases won with
  | nil => simp [result?, Ranking.head?, order, search, front]
  | cons id r =>
    have home := ((rk.mem_iff .won id).mp (by simp [pick])).2
    have unqueued := Thread.lane_eq_none _ _ home (by simp) (by simp)
    have state : (s.thread id).state = .matched := by
      rw [Thread.place_unqueued _ _ unqueued] at home
      split at home <;> simp_all
    simp [result?, Ranking.head?, order, state, search, front]

end

theorem turns (ord : rn.Orderly) (shown : s.Shows q se) (turned : Turns rn s t) :
    ∃ s', se.Reaches rn q s' ∧ t.Shows q s' := by
  induction turned with
  | refl => exact ⟨se, .refl, shown⟩
  | tail _ turn ih =>
    obtain ⟨m, reached, shown'⟩ := ih
    obtain ⟨s', step, last⟩ := shown'.turn_orderly ord turn
    exact ⟨s', reached.tail step, last⟩

theorem dispatch (ord : rn.Orderly) (shown : s.Shows q se) (m : Int) :
    ∃ s', se.Reaches rn q s' ∧ (s.dispatch rn m).2.Shows q s' ∧
      ((s.dispatch rn m).1 = false → s'.front.now = [] ∧ s'.isDone q = true) := by
  obtain ⟨z, turned, cut | ⟨cut, stops⟩⟩ := dispatch_turns rn s m <;>
    obtain ⟨s', reached, shown'⟩ := shown.turns ord turned <;> rw [cut]
  · exact ⟨s', reached, shown', by simp⟩
  · obtain ⟨no, fin⟩ := turn?_eq_none_iff.mp stops
    exact ⟨s', reached, shown'.noteDropped, fun _ =>
      ⟨shown'.next?_eq_none_iff.mp no, by rw [← shown'.isDone_eq, fin]⟩⟩

end Shows

/-- A search runs to its end in parts of any length. -/
inductive Finishes (runner : Runner) : Scheduler → Scheduler → Prop where
  | done {sched final maxSteps}
      (finished : sched.dispatch runner maxSteps = (false, final)) : Finishes runner sched final
  | more {sched middle final maxSteps}
      (interrupted : sched.dispatch runner maxSteps = (true, middle))
      (rest : Finishes runner middle final) : Finishes runner sched final

theorem Finishes.reaches {f : Scheduler} (finishes : Finishes rn s f) (ord : rn.Orderly)
    (shown : s.Shows q se) :
    ∃ z, se.Reaches rn q z ∧ f.Shows q z ∧ z.front.now = [] ∧ z.isDone q = true := by
  induction finishes generalizing se with
  | @done sched f m fin =>
    obtain ⟨z, reached, shownLast, done⟩ := shown.dispatch ord m
    rw [fin] at shownLast done
    exact ⟨z, reached, shownLast, done rfl⟩
  | @more sched mid f m interrupted rest ih =>
    obtain ⟨n, reached, shownNext, -⟩ := shown.dispatch ord m
    rw [interrupted] at shownNext
    obtain ⟨z, reachedLast, conclusion⟩ := ih shownNext
    exact ⟨z, reached.trans reachedLast, conclusion⟩

end Scheduler

namespace Search

variable {rn : Runner} {q : Query} {first z : Search}

/-- No thread waits for an offset beyond the end of the text. -/
structure Fits (query : Query) (search : Search) : Prop where
  offset : search.offset ≤ query.text.size
  later : ∀ thread ∈ search.front.later, search.offset + 1 + thread.delay ≤ query.text.size
  now : ∀ thread ∈ search.front.now, search.offset + thread.delay ≤ query.text.size

theorem Fits.absorb {s : Scheduler} {evs : List Event} {f f' : Front}
    (abs : Front.AbsorbsAll s evs f f')
    (later : ∀ t ∈ f.later, s.offset + 1 + t.delay ≤ s.text.size) :
    (∀ t ∈ f'.later, s.offset + 1 + t.delay ≤ s.text.size) ∧ (f'.now = f.now ∨ f'.now = []) := by
  induction abs with
  | nil => exact ⟨later, .inl rfl⟩
  | cons head tail ih =>
    cases head with
    | wait fits =>
      apply ih
      intro t mem
      rcases mem_append.mp mem with pre | new
      · exact later t pre
      · rw [mem_singleton.mp new]
        simp only [remaining] at fits ⊢
        omega
    | misfit | lose | refuse => exact ih later
    | accept | loseMatch =>
      obtain ⟨kept, settled⟩ := ih later
      exact ⟨kept, .inr (by rcases settled with eq | empty <;> assumption)⟩

theorem Step.fits (step : first.Step rn q z) (fits : first.Fits q) : z.Fits q := by
  cases step with
  | @postpone t l now best feq delayed =>
    obtain ⟨offset, laterFits, nowFits⟩ := fits
    rw [feq] at laterFits nowFits
    refine ⟨offset, ?_, fun o mem => nowFits o (.tail _ mem)⟩
    intro o mem
    rcases mem_append.mp mem with pre | new
    · exact laterFits o pre
    · rw [mem_singleton.mp new]
      have le := nowFits t (.head _)
      simp only
      omega
  | @close t l now best v owner s feq due beg abs owned =>
    obtain ⟨offset, laterFits, nowFits⟩ := fits
    rw [feq] at laterFits nowFits
    have textEq : s.text = q.text := congrArg Query.text beg.query_eq
    obtain ⟨kept, settled⟩ := Fits.absorb abs (by
      rw [beg.offset_eq, textEq]
      exact laterFits)
    rw [beg.offset_eq, textEq] at kept
    refine ⟨offset, kept, ?_⟩
    intro o mem
    rcases settled with eq | empty
    · rw [eq] at mem
      exact nowFits o (.tail _ mem)
    · rw [empty] at mem
      exact False.elim (not_mem_nil mem)
  | @advance l sd best feq unfinished seeded =>
    obtain ⟨offset, laterFits, nowFits⟩ := fits
    rw [feq] at laterFits
    have inText : first.offset < q.text.size := by
      simp only [isDone, Bool.or_eq_false_iff, decide_eq_false_iff_not] at unfinished
      omega
    refine ⟨inText, by simp, ?_⟩
    intro o mem
    rcases mem_append.mp mem with pre | new
    · exact laterFits o pre
    · unfold Query.Seeds at seeded
      split at seeded
      · simp [seeded] at new
      · rcases seeded with rfl | ⟨-, rfl⟩
        · rw [mem_singleton.mp new]
          exact inText
        · simp at new

theorem fits_initial (q : Query) : (initial q).Fits q :=
  ⟨Nat.zero_le _, by simp [initial], by simp [initial, Query.seed]⟩

theorem Fits.reaches (fits : first.Fits q) (reached : first.Reaches rn q z) : z.Fits q := by
  induction reached with
  | refl => exact fits
  | tail _ step ih => exact step.fits ih

theorem Reaches.fits (reached : (initial q).Reaches rn q z) : z.Fits q :=
  (fits_initial q).reaches reached

theorem Fits.later_eq_nil (fits : z.Fits q) (done : z.isDone q = true) : z.front.later = [] := by
  simp only [isDone, Bool.or_eq_true, decide_eq_true_eq, Bool.and_eq_true] at done
  rcases done with ended | ⟨-, idle, -⟩
  · rw [eq_nil_iff_forall_not_mem]
    intro t mem
    have le := fits.later t mem
    omega
  · exact List.isEmpty_iff.mp idle

end Search

end Rematch
