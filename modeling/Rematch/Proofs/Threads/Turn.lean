import Rematch.Proofs.Threads.Roster
import Mathlib.Data.List.TakeWhile

/-!
The turn of a thread. All threads of the next offset rank above those of the current one, and the
matched thread is the last of all. A closure adds threads of the next offset directly below those
that it has added before, and a match ends all that is below.

`Ranked` describes a scheduler between two closures, `During` one in the course of a closure and
`Ending` one at its end. `During.absorb` says what a list of events makes of the threads.
-/

namespace Rematch

open List Place Ranking Scheduler Setting

namespace Ranking

variable {id : Nat} {u v : List Nat}

variable (rk : Ranking)

include rk

theorem isCutAt_cutAt (ranked : id ∈ rk.toList) :
    (rk.cutAt id).isCutAt id = true := by
  unfold cutAt
  split
  · assumption
  · split
    · next found far cut =>
      have eq : ¬(found != id) = true := by
        have fst := head?_dropWhile_not (fun j => j != id) rk.below
        rw [cut] at fst
        simpa using fst
      simp at eq
      simp [isCutAt, eq]
    · next absent =>
      split
      · next found far cut =>
        have eq : ¬(found != id) = true := by
          have fst := head?_dropWhile_not (fun j => j != id) rk.above
          rw [cut] at fst
          simpa using fst
        simp at eq
        simp [isCutAt, eq]
      · next missing =>
        rw [dropWhile_eq_nil_iff] at absent missing
        simp only [toList, mem_append, mem_reverse] at ranked
        rcases ranked with inAbove | inBelow
        · simpa using missing id inAbove
        · simpa using absent id inBelow

theorem cutAt_eq (parts : rk.toList = u ++ id :: v) (fresh : id ∉ u) (single : id ∉ v) :
    rk.cutAt id = ⟨(u ++ [id]).reverse, v⟩ := by
  have cut : (rk.cutAt id).isCutAt id = true := isCutAt_cutAt rk (by simp [parts])
  have order := toList_cutAt rk id
  generalize rk.cutAt id = moved at cut order
  obtain ⟨above, below⟩ := moved
  cases above with
  | nil => simp [isCutAt] at cut
  | cons found far =>
    simp only [isCutAt, head?_cons, beq_iff_eq, Option.some.injEq] at cut
    subst cut
    rw [parts] at order
    simp only [toList, reverse_cons, append_assoc, singleton_append] at order
    obtain ⟨front, -, back⟩ := (append_cons_inj_of_notMem fresh single).mp order.symm
    rw [front, back]
    simp

theorem cutAt_of_isCutAt (cut : rk.isCutAt id = true) : rk.cutAt id = rk := by
  simp [cutAt, cut]

theorem toList_erase (parts : rk.toList = u ++ id :: v) (fresh : id ∉ u) (single : id ∉ v) :
    (rk.erase id).toList = u ++ v := by
  obtain ⟨above, below⟩ := rk
  simp only [toList] at parts
  by_cases mem : id ∈ above
  · obtain ⟨near, far, rfl⟩ := mem_iff_append.mp mem
    simp only [reverse_append, reverse_cons, append_assoc,
      singleton_append] at parts
    obtain ⟨rfl, -, rfl⟩ := (append_cons_inj_of_notMem fresh single).mp parts.symm
    have absent : id ∉ near := by
      intro inNear
      exact single (by simp [inNear])
    simp [erase, toList, erase_append_right _ absent]
  · have inBelow : id ∈ below := by
      have ranked : id ∈ above.reverse ++ below := by simp [parts]
      simpa [mem] using ranked
    obtain ⟨near, far, rfl⟩ := mem_iff_append.mp inBelow
    rw [← append_assoc] at parts
    obtain ⟨rfl, -, rfl⟩ := (append_cons_inj_of_notMem fresh single).mp parts.symm
    have absent : id ∉ near := by
      intro inNear
      exact fresh (by simp [inNear])
    simp [erase, toList, mem, erase_append_right _ absent]

end Ranking

structure Pending where
  entry : Nat
  delay : Nat
  visit : Nat
  captures : Captures

def Thread.pending (thread : Thread) : Pending :=
  ⟨thread.entry, thread.delay, thread.visit, thread.captures⟩

/-- The threads of the next and of the current offset in priority order, and the best match. -/
structure Front where
  later : List Pending
  now : List Pending
  best : Option Captures

namespace Front

/-- What an event of a closure may make of a front. A thread is lost only where their number is
bounded. -/
inductive Absorbs (sched : Scheduler) : Event → Front → Front → Prop where
  | wait {entry visit count captures front}
      (fits : ¬(count ≤ 0 ∨ (sched.remaining : Int) < count)) :
      Absorbs sched (.wait entry count captures visit) front
        { front with later := front.later ++ [⟨entry, count.toNat - 1, visit, captures⟩] }
  | misfit {entry visit count captures front}
      (beyond : count ≤ 0 ∨ (sched.remaining : Int) < count) :
      Absorbs sched (.wait entry count captures visit) front front
  | lose {entry visit count captures front}
      (bounded : 0 < sched.maxThreads) :
      Absorbs sched (.wait entry count captures visit) front front
  | accept {visit captures front} (allowed : sched.mayMatch = true) :
      Absorbs sched (.accept captures visit) front
        { front with now := [], best := some (captures.setIfInBounds 1 sched.offset) }
  | refuse {visit captures front} (early : sched.mayMatch = false) :
      Absorbs sched (.accept captures visit) front front
  | loseMatch {visit captures front}
      (bounded : 0 < sched.maxThreads) (allowed : sched.mayMatch = true) :
      Absorbs sched (.accept captures visit) front { front with now := [], best := none }

/-- What the events of a closure may make of a front, one after the other. -/
inductive AbsorbsAll (sched : Scheduler) : List Event → Front → Front → Prop where
  | nil {front} : AbsorbsAll sched [] front front
  | cons {event events first second third}
      (head : Absorbs sched event first second) (tail : AbsorbsAll sched events second third) :
      AbsorbsAll sched (event :: events) first third

end Front

/-- The events of a closure that keeps to the rules: captures have all slots, nothing comes after a
match, and the thread does not end itself. -/
def Event.Orderly (slots : Nat) (mayMatch : Bool) : List Event → Prop
  | [] => True
  | .wait _ _ captures _ :: rest => captures.size = slots ∧ Orderly slots mayMatch rest
  | .accept captures _ :: rest =>
    captures.size = slots ∧ (mayMatch = true → rest = []) ∧ Orderly slots mayMatch rest
  | .fail :: _ => False

theorem Captures.copyInto_eq (src t : Captures) (sameSize : src.size = t.size) :
    src.copyInto t = src := by
  unfold Captures.copyInto
  rw [← sameSize, Array.extract_size]
  simp [sameSize]

theorem Captures.size_copyInto (src t : Captures) : (src.copyInto t).size = t.size := by
  simp only [Captures.copyInto, Array.size_append, Array.size_extract]
  omega

namespace Scheduler

def pendings (sched : Scheduler) (ids : List Nat) : List Pending :=
  ids.map fun id => (sched.thread id).pending

theorem pendings_append (s : Scheduler) (a b : List Nat) :
    s.pendings (a ++ b) = s.pendings a ++ s.pendings b :=
  map_append

variable {s t : Scheduler}

theorem pendings_congr {ids : List Nat} (eq : ∀ id ∈ ids, s.thread id = t.thread id) :
    s.pendings ids = t.pendings ids := by
  apply map_congr_left
  intro id mem
  rw [eq id mem]

def front (sched : Scheduler) (next now won : List Nat) : Front :=
  ⟨sched.pendings next, sched.pendings now, won.head?.map fun id => (sched.thread id).captures⟩

theorem front_concat (s : Scheduler) (n now won : List Nat) (id : Nat) :
    s.front (n ++ [id]) now won = { s.front n now won with
      later := (s.front n now won).later ++ [(s.thread id).pending] } := by
  simp [front, pendings]

theorem front_congr (n now won : List Nat)
    (eq : ∀ id ∈ n ++ now ++ won, s.thread id = t.thread id) :
    s.front n now won = t.front n now won := by
  simp only [mem_append] at eq
  unfold front
  rw [pendings_congr fun id mem => eq id (.inl (.inl mem)),
    pendings_congr fun id mem => eq id (.inl (.inr mem))]
  cases won with
  | nil => rfl
  | cons id r => simp [eq id (.inr (by simp))]

/-- Between two closures: the threads of the next offset, one that was taken out of its queue, those
of the current offset and the matched one make up the ranking. -/
structure Ranked (sched : Scheduler) (next loose now won : List Nat) : Prop
    extends sched.Roster next loose now won where
  order_eq : sched.order = next ++ loose ++ now ++ won
  single : won.length ≤ 1
  matched_eq : sched.matched = !won.isEmpty
  work : sched.scope.captures.size = sched.slots
  atLeastTwo : 2 ≤ sched.slots

/-- While the closure of a thread is carried out: the ranking is cut below the last thread that the
closure has started, or below the thread itself. -/
structure During (sched : Scheduler) (id : Nat) (before after now won : List Nat) : Prop
    extends sched.Roster (before ++ after) [id] now won where
  ranking_eq : sched.ranking = ⟨(before ++ id :: after).reverse, now ++ won⟩
  cursor_eq : sched.cursor = some ((id :: after).getLast (by simp))
  state_eq : (sched.thread id).state = .running
  atLeastTwo : 2 ≤ sched.slots

/-- Once a closure has been carried out: its thread still stands in the ranking. -/
structure Ending (sched : Scheduler) (id : Nat) (before after now won : List Nat) : Prop
    extends sched.Roster (before ++ after) [id] now won where
  order_eq : sched.order = before ++ id :: after ++ now ++ won
  state_eq : (sched.thread id).state = .running
  atLeastTwo : 2 ≤ sched.slots
  single : won.length ≤ 1
  matched_eq : sched.matched = !won.isEmpty

theorem mayMatch_congr (eq : s.setting = t.setting) : s.mayMatch = t.mayMatch := by
  have sameText : s.text = t.text := congrArg Setting.text eq
  have eqOff : s.offset = t.offset := congrArg Setting.offset eq
  have sameFlags : s.flags = t.flags := congrArg Setting.flags eq
  simp [mayMatch, anchorsEnd, sameText, eqOff, sameFlags]

end Scheduler

namespace Front

theorem AbsorbsAll.congr {s t : Scheduler} {evs : List Event} {f f' : Front}
    (abs : AbsorbsAll s evs f f') (eq : s.setting = t.setting) : AbsorbsAll t evs f f' := by
  have eqMay := mayMatch_congr eq
  have eqBd : s.maxThreads = t.maxThreads := congrArg Setting.maxThreads eq
  have sameText : s.text = t.text := congrArg Setting.text eq
  have eqOff : s.offset = t.offset := congrArg Setting.offset eq
  have sameRemaining : s.remaining = t.remaining := by rw [remaining, remaining, sameText, eqOff]
  induction abs with
  | nil => exact .nil
  | cons head tail ih =>
    refine .cons ?_ ih
    cases head with
    | wait fits => exact .wait (sameRemaining ▸ fits)
    | misfit beyond => exact .misfit (sameRemaining ▸ beyond)
    | lose bounded => exact .lose (eqBd ▸ bounded)
    | accept allowed =>
      rw [eqOff]
      exact .accept (eqMay ▸ allowed)
    | refuse early => exact .refuse (eqMay ▸ early)
    | loseMatch bounded allowed => exact .loseMatch (eqBd ▸ bounded) (eqMay ▸ allowed)

end Front

namespace Scheduler

variable {s t : Scheduler} {id : Nat} {n now won : List Nat}

theorem fork_none {e : Nat} {c : Captures} (refused : s.fork e c = (none, t)) :
    t = { s with dropped := s.dropped + 1 } ∧ s.free = [] ∧
      0 < s.maxThreads ∧ s.maxThreads ≤ s.arena.size := by
  unfold fork at refused
  split at refused
  · next al alloc =>
    obtain ⟨rfl, full⟩ := Roster.allocate_none alloc
    exact ⟨(Prod.mk.inj refused).2.symm, full⟩
  · simp at refused

theorem killBelow_last {far : List Nat} {f : Thread → Thread} (last : s.ranking = ⟨id :: far, []⟩) :
    (s.modify id f).killBelow id = s.modify id f := by
  have cut : s.ranking.isCutAt id = true := by simp [last, isCutAt]
  have eq : (s.modify id f).ranking = s.ranking := rfl
  simp only [killBelow, eq, Ranking.splitAt, Ranking.cutAt_of_isCutAt _ cut, cut, if_true]
  rw [last]
  dsimp only [foldl_nil]
  rw [← last]
  rfl

theorem thread_foldl_retire (ids : List Nat) (s : Scheduler) (kept : id ∉ ids) :
    (ids.foldl retire s).thread id = s.thread id := by
  induction ids generalizing s with
  | nil => rfl
  | cons a r ih =>
    simp only [mem_cons, not_or] at kept
    rw [foldl_cons, ih (s.retire a) kept.2, thread_retire_of_ne s kept.1]

theorem free_foldl_retire (ids : List Nat) (s : Scheduler) :
    (ids.foldl retire s).free = ids.reverse ++ s.free := by
  induction ids generalizing s with
  | nil => rfl
  | cons id r ih =>
    rw [foldl_cons, ih, retire_free]
    simp

namespace Roster

variable {s : Scheduler} {n lo now won : List Nat} {id : Nat}

theorem foldl_retire (roster : s.Roster n lo now won) :
    ((now ++ won).foldl Scheduler.retire s).Roster n lo [] [] := by
  induction now generalizing s with
  | cons id r ih =>
    apply @ih (s.retire id)
    apply roster.retire .now
    case same => rintro ⟨⟩ <;> simp [pick]
    all_goals simp [pick]
  | nil =>
    induction won generalizing s with
    | nil => exact roster
    | cons id r ih =>
      apply @ih (s.retire id)
      apply roster.retire .won
      case same => rintro ⟨⟩ <;> simp [pick]
      all_goals simp [pick]

theorem started {new : Nat} (roster : s.Roster n ([id] ++ [new]) now won) :
    new < s.arena.size ∧ id ≠ new := by
  have unique := nodup_concat_iff.mp (roster.nodup .loose)
  exact ⟨(roster.of_mem_loose new (by simp)).1, fun eq => unique.2 (by simp [eq])⟩

theorem not_mem_ended (roster : s.Roster n lo now won) (p : Place)
    (pl : id ∈ p.pick n lo now won s.free) (notNow : .now ≠ p) (notWon : .won ≠ p) :
    id ∉ now ++ won := by
  rw [mem_append, not_or]
  exact ⟨roster.not_mem .now pl notNow, roster.not_mem .won pl notWon⟩

end Roster

/-- The front does not depend on the thread that runs. -/
theorem Roster.front_eq
    (roster : s.Roster n [id] now won) (others : ∀ j, j ≠ id → t.thread j = s.thread j) :
    t.front n now won = s.front n now won := by
  apply front_congr
  intro j mem
  apply others
  rintro rfl
  have pl : j ∈ pick n [j] now won s.free .loose := by simp [pick]
  simp only [mem_append] at mem
  rcases mem with (inNext | inNow) | inWon
  · exact roster.not_mem .next pl (by simp) inNext
  · exact roster.not_mem .now pl (by simp) inNow
  · exact roster.not_mem .won pl (by simp) inWon

/-- A thread that was just started: it is in no queue yet, and no other record has changed. -/
structure Forked (sched after : Scheduler) (new entry : Nat) (captures : Captures) : Prop where
  thread_eq : after.thread new = { entry, visit := sched.scope.visitId, state := .queued, captures }
  others : ∀ other, other ≠ new → after.thread other = sched.thread other
  cursor_eq : after.cursor = some new
  running_eq : after.running = sched.running
  setting_eq : after.setting = sched.setting
  scope_eq : after.scope = sched.scope
  matched_eq : after.matched = sched.matched
  owner_eq : after.bitmapOwner = sched.bitmapOwner

theorem Roster.congr {lo : List Nat} (roster : s.Roster n lo now won)
    (sameArena : t.arena = s.arena) (sameFree : t.free = s.free) (sameQueues : t.queue = s.queue)
    (eqSet : t.setting = s.setting) : t.Roster n lo now won := by
  have eqAct : t.active = s.active := congrArg Setting.active eqSet
  have sameSlots : t.slots = s.slots := congrArg Setting.slots eqSet
  have eqBd : t.maxThreads = s.maxThreads := congrArg Setting.maxThreads eqSet
  have eqThread : t.thread = s.thread := by
    funext id
    rw [thread, thread, sameArena]
  exact
    { nextQueue := by rw [eqAct, sameQueues]; exact roster.nextQueue
      activeQueue := by rw [eqAct, sameQueues]; exact roster.activeQueue
      nodup := by rw [sameFree]; exact roster.nodup
      mem_iff := by rw [sameFree, sameArena, eqThread, eqAct]; exact roster.mem_iff
      pending := by rw [sameArena, eqThread]; exact roster.pending
      bounded := by rw [sameArena, eqBd]; exact roster.bounded
      tracked := by rw [sameArena, eqThread, sameSlots]; exact roster.tracked }

namespace During

variable {s : Scheduler} {id : Nat} {u v now won : List Nat}

variable (during : s.During id u v now won)
include during

theorem congr {same : Scheduler} (sameArena : same.arena = s.arena) (sameFree : same.free = s.free)
    (sameQueues : same.queue = s.queue) (eqSet : same.setting = s.setting)
    (sameRanking : same.ranking = s.ranking) (sameCursor : same.cursor = s.cursor) :
    same.During id u v now won :=
  { toRoster := during.toRoster.congr sameArena sameFree sameQueues eqSet
    ranking_eq := sameRanking.trans during.ranking_eq
    cursor_eq := sameCursor.trans during.cursor_eq
    state_eq := by rw [thread, sameArena]; exact during.state_eq
    atLeastTwo := by
      rw [show same.slots = s.slots from congrArg Setting.slots eqSet]
      exact during.atLeastTwo }

theorem isCutAt_cursor : s.ranking.isCutAt ((id :: v).getLast (by simp)) = true := by
  rw [during.ranking_eq, isCutAt, beq_iff_eq]
  have last := getLast?_eq_some_getLast (l := id :: v) (by simp)
  rw [head?_reverse, getLast?_append, last]
  rfl

variable {c : Captures}

theorem fork {forked : Scheduler} {new e : Nat} (size : c.size = s.slots)
    (res : s.fork e c = (some new, forked)) :
    s.Forked forked new e c ∧ forked.Roster (u ++ v) ([id] ++ [new]) now won ∧
      forked.ranking = ⟨(u ++ id :: (v ++ [new])).reverse, now ++ won⟩ := by
  unfold Scheduler.fork at res
  split at res
  · simp at res
  · next allocatedId al alloc =>
    have agrees := Agrees.allocate s
    rw [alloc] at agrees
    change al.Agrees s at agrees
    simp only [Prod.mk.injEq, Option.some.injEq] at res
    obtain ⟨rfl, rfl⟩ := res
    obtain ⟨roster, others, record, recordSize, started⟩ :=
      during.allocate_some alloc
        (fun t => { t with
          entry := e, visit := al.scope.visitId, delay := 0, state := .queued
          captures := c.copyInto t.captures })
        (fun _ => rfl) (fun _ => rfl) (fun _ => Captures.size_copyInto _ _)
    have unqueued : record.lane = none := by
      have lane := (roster.of_mem_loose allocatedId (by simp)).2.2
      rw [started] at lane
      exact lane
    have cut := during.isCutAt_cursor
    refine ⟨⟨?_, others, rfl, agrees.running_eq, agrees.setting_eq, agrees.scope_eq,
      agrees.matched_eq, agrees.owner_eq⟩, roster.congr rfl rfl rfl rfl, ?_⟩
    · refine started.trans ?_
      rw [Captures.copyInto_eq c _ (size.trans recordSize.symm), unqueued, agrees.scope_eq]
    · dsimp only [modify]
      rw [agrees.cursor_eq, agrees.ranking_eq, during.cursor_eq]
      simp only [insertAfter, cutAt_of_isCutAt _ cut, cut, if_true]
      rw [during.ranking_eq]
      simp

theorem wait {e : Nat} {n : Int} (size : c.size = s.slots)
    (fits : ¬(n ≤ 0 ∨ (s.remaining : Int) < n)) :
    (0 < s.maxThreads ∧ s.wait e n c = { s with dropped := s.dropped + 1 }) ∨
      ∃ new, (s.wait e n c).During id u (v ++ [new]) now won ∧
        ((s.wait e n c).thread new).pending = ⟨e, n.toNat - 1, s.scope.visitId, c⟩ ∧
        (∀ j, j ≠ new → (s.wait e n c).thread j = s.thread j) ∧ (s.wait e n c).setting = s.setting ∧
        (s.wait e n c).matched = s.matched ∧ (s.wait e n c).bitmapOwner = s.bitmapOwner := by
  unfold Scheduler.wait
  rw [if_neg fits]
  cases res : s.fork e c with
  | mk st forked =>
  cases st with
  | none =>
    obtain ⟨rfl, -, le, -⟩ := fork_none res
    exact .inl ⟨le, rfl⟩
  | some new =>
    right
    obtain ⟨facts, roster, ranking⟩ := during.fork size res
    obtain ⟨lt, ne⟩ := roster.started
    have waiting := roster.modify new (by simp)
      ({ · with delay := n.toNat - lookahead, state := .waiting })
      (by simp [Thread.place, facts.thread_eq]) (by simp [facts.thread_eq]) rfl
    have queued := waiting.enqueueNext new (by simp [lt])
    have agrees := (Agrees.enqueue (forked.modify new
      ({ · with delay := n.toNat - lookahead, state := .waiting })) (!forked.active) new).trans
        (Agrees.modify forked new _)
    have others : ∀ j, j ≠ new → ((forked.modify new
        ({ · with delay := n.toNat - lookahead, state := .waiting })).enqueue
          (!forked.active) new).thread j = s.thread j := by
      intro j distinct
      rw [thread_enqueue_of_ne _ _ distinct, thread_modify_of_ne _ _ distinct,
        facts.others j distinct]
    refine ⟨new, ?_, ?_, others, agrees.setting_eq.trans facts.setting_eq,
      agrees.matched_eq.trans facts.matched_eq, agrees.owner_eq.trans facts.owner_eq⟩
    · exact
        { toRoster := by rw [← append_assoc]; exact queued
          ranking_eq := agrees.ranking_eq.trans ranking
          cursor_eq := by rw [agrees.cursor_eq, facts.cursor_eq]; simp
          state_eq := by rw [others id ne]; exact during.state_eq
          atLeastTwo := by
            rw [agrees.slots_eq, show forked.slots = s.slots from
              congrArg Setting.slots facts.setting_eq]
            exact during.atLeastTwo }
    · simp [Scheduler.enqueue, lt, facts.thread_eq, Thread.pending, lookahead]

theorem killBelowCursor_eq : s.killBelowCursor =
      (now ++ won).foldl retire { s with ranking := ⟨(u ++ id :: v).reverse, []⟩ } := by
  have cut := during.isCutAt_cursor
  simp only [killBelowCursor, during.cursor_eq, killBelow, Ranking.splitAt,
    Ranking.cutAt_of_isCutAt _ cut, cut, if_true]
  rw [during.ranking_eq]

theorem killBelowCursor : s.killBelowCursor.During id u v [] [] := by
  have roster : ((now ++ won).foldl retire { s with
      ranking := ⟨(u ++ id :: v).reverse, []⟩ }).Roster (u ++ v) [id] [] [] := by
    apply Roster.foldl_retire
    exact during.toRoster.congr rfl rfl rfl rfl
  have agrees := Agrees.foldl_retire (now ++ won) { s with ranking := ⟨(u ++ id :: v).reverse, []⟩ }
  have eq := thread_foldl_retire (now ++ won) { s with ranking := ⟨(u ++ id :: v).reverse, []⟩ }
    (during.not_mem_ended .loose mem_cons_self (by simp) (by simp))
  rw [during.killBelowCursor_eq]
  exact
    { toRoster := roster
      ranking_eq := by rw [agrees.ranking_eq]; simp
      cursor_eq := agrees.cursor_eq.trans during.cursor_eq
      state_eq := by rw [eq]; exact during.state_eq
      atLeastTwo := by rw [agrees.slots_eq]; exact during.atLeastTwo }

theorem killBelowCursor_agrees :
    ({ s.killBelowCursor with ranking := s.ranking } : Scheduler).Agrees s := by
  have agrees := Agrees.foldl_retire (now ++ won) { s with ranking := ⟨(u ++ id :: v).reverse, []⟩ }
  rw [during.killBelowCursor_eq]
  exact ⟨agrees.1, rfl, agrees.3, agrees.4, agrees.5, agrees.6, agrees.7, agrees.8⟩

theorem thread_killBelowCursor {j : Nat} (kept : j ∈ u ++ v) :
    s.killBelowCursor.thread j = s.thread j := by
  rw [during.killBelowCursor_eq]
  apply thread_foldl_retire
  exact during.not_mem_ended .next kept (by simp) (by simp)

theorem free_killBelowCursor : s.killBelowCursor.free = (now ++ won).reverse ++ s.free := by
  rw [during.killBelowCursor_eq]
  exact free_foldl_retire (now ++ won) _

theorem ending (single : won.length ≤ 1) (matched : s.matched = !won.isEmpty) :
    s.Ending id u v now won :=
  { toRoster := during.toRoster
    order_eq := by
      rw [order, during.ranking_eq]
      simp [toList]
    state_eq := during.state_eq
    atLeastTwo := during.atLeastTwo
    single := single
    matched_eq := matched }

/-- A match takes the place of all threads of lower priority. Without a record for it, it is lost
together with them. -/
theorem recordMatch (size : c.size = s.slots) (matched : s.matched = !won.isEmpty)
    (allowed : s.mayMatch = true) : (s.recordMatch c).2.setting = s.setting ∧ (∀ j ∈ u ++ v,
        (s.recordMatch c).2.thread j = s.thread j) ∧
      ((0 < s.maxThreads ∧ (s.recordMatch c).2.Ending id u v [] []) ∨
        ∃ new, (s.recordMatch c).2.Ending id u v [] [new] ∧
          ((s.recordMatch c).2.thread new).captures = c.setIfInBounds 1 s.offset ∧
          (s.recordMatch c).2.bitmapOwner = none) := by
  have killed := during.killBelowCursor
  have agrees := during.killBelowCursor_agrees
  have sameSlots : s.killBelowCursor.slots = s.slots := agrees.slots_eq
  have eqOff : s.killBelowCursor.offset = s.offset := congrArg Setting.offset agrees.setting_eq
  have eqBd : s.killBelowCursor.maxThreads = s.maxThreads :=
    congrArg Setting.maxThreads agrees.setting_eq
  unfold Scheduler.recordMatch
  rw [if_neg (by simp [allowed])]
  cases res : s.killBelowCursor.fork 0 c with
  | mk st forked =>
  cases st with
  | none =>
    obtain ⟨rfl, exhausted, le, -⟩ := fork_none res
    refine ⟨agrees.setting_eq, fun j kept => during.thread_killBelowCursor kept,
      .inl ⟨eqBd ▸ le, ?_⟩⟩
    -- A matched thread would have left its record behind.
    have noMatch : won = [] := by
      rw [during.free_killBelowCursor] at exhausted
      simp_all
    have lost : ({ s.killBelowCursor with
        dropped := s.killBelowCursor.dropped + 1 } : Scheduler).During id u v [] [] :=
      killed.congr rfl rfl rfl rfl rfl rfl
    exact lost.ending (by simp) (agrees.matched_eq.trans (by rw [matched, noMatch]))
  | some new =>
    dsimp only
    obtain ⟨facts, roster, ranking⟩ := killed.fork (size.trans sameSlots.symm) res
    obtain ⟨lt, ne⟩ := roster.started
    have forkedOffset : forked.offset = s.offset :=
      (congrArg Setting.offset facts.setting_eq).trans eqOff
    have forkedSlots : forked.slots = s.slots :=
      (congrArg Setting.slots facts.setting_eq).trans sameSlots
    let f : Thread → Thread := fun t =>
      { t with captures := t.captures.setIfInBounds 1 forked.offset, state := .matched }
    have won' := roster.win new f (by simp [f, facts.thread_eq]) rfl (by simp [f])
    have last : forked.ranking = ⟨new :: (u ++ id :: v).reverse, []⟩ := by
      rw [ranking]
      simp
    rw [killBelow_last last]
    have others : ∀ j, j ≠ new → (forked.modify new f).thread j = s.killBelowCursor.thread j := by
      intro j distinct
      rw [thread_modify_of_ne _ _ distinct, facts.others j distinct]
    refine ⟨facts.setting_eq.trans agrees.setting_eq, ?_, .inr ⟨new, ?_, ?_, rfl⟩⟩
    · intro j kept
      have distinct : j ≠ new := by
        rintro rfl
        have pl : j ∈ pick (u ++ v) ([id] ++ [j]) [] [] forked.free .next := kept
        exact roster.not_mem .loose pl (by simp) (by simp [pick])
      exact (others j distinct).trans (during.thread_killBelowCursor kept)
    · exact
        { toRoster := won'.congr rfl rfl rfl rfl
          order_eq := by
            change forked.ranking.toList = _
            rw [ranking]
            simp [toList]
          state_eq := by
            change ((forked.modify new f).thread id).state = _
            rw [others id ne]
            exact killed.state_eq
          atLeastTwo := by
            change 2 ≤ forked.slots
            rw [forkedSlots]
            exact during.atLeastTwo
          single := by simp
          matched_eq := rfl }
    · change ((forked.modify new f).thread new).captures = _
      rw [thread_modify_self _ _ lt, facts.thread_eq]
      simp [f, forkedOffset]

theorem setVisitId (vi : Nat) : (s.setVisitId vi).During id u v now won :=
  during.congr rfl rfl rfl rfl rfl rfl

theorem absorb {evs : List Event} (single : won.length ≤ 1) (matched : s.matched = !won.isEmpty)
    (ord : Event.Orderly s.slots s.mayMatch evs) :
    ∃ v' now' won', (evs.foldl apply s).Ending id u v' now' won' ∧
      Front.AbsorbsAll s evs (s.front (u ++ v) now won)
        ((evs.foldl apply s).front (u ++ v') now' won') ∧ (evs.foldl apply s).setting = s.setting ∧
      (now' = [] ∨ (evs.foldl apply s).bitmapOwner = s.bitmapOwner) := by
  induction evs generalizing s v with
  | nil => exact ⟨v, now, won, during.ending single matched, .nil, rfl, .inr rfl⟩
  | cons ev evs ih =>
    cases ev with
    | fail => exact False.elim ord
    | wait e n c vi =>
      obtain ⟨size, ord⟩ := ord
      have started := during.setVisitId vi
      rw [foldl_cons, apply]
      by_cases beyond : n ≤ 0 ∨ ((s.setVisitId vi).remaining : Int) < n
      · have none : (s.setVisitId vi).wait e n c = s.setVisitId vi := if_pos beyond
        rw [none]
        obtain ⟨v', now', won', ended, abs, eq, owner⟩ := ih started matched ord
        exact ⟨v', now', won', ended, .cons (.misfit beyond) (abs.congr rfl), eq, owner⟩
      · rcases started.wait size beyond with ⟨bounded, dropped⟩ | ⟨new, waiting, record, others,
          eqSet, sameMatched, sameOwner⟩
        · have kept : ((s.setVisitId vi).wait e n c).During id u v now won := by
            rw [dropped]
            exact started.congr rfl rfl rfl rfl rfl rfl
          rw [dropped] at kept ⊢
          obtain ⟨v', now', won', ended, abs, eq, owner⟩ := ih kept matched ord
          exact ⟨v', now', won', ended, .cons (.lose bounded) (abs.congr rfl), eq, owner⟩
        · have sameSlots : ((s.setVisitId vi).wait e n c).slots =
              s.slots := congrArg Setting.slots eqSet
          have eqMay : ((s.setVisitId vi).wait e n c).mayMatch =
              s.mayMatch := mayMatch_congr eqSet
          obtain ⟨v', now', won', ended, abs, eq, owner⟩ :=
            ih waiting (sameMatched.trans matched) (by rw [sameSlots, eqMay]; exact ord)
          refine ⟨v', now', won', ended, .cons (.wait beyond) ?_, eq.trans eqSet,
            owner.imp_right fun kept => kept.trans sameOwner⟩
          have fresh : ∀ j ∈ u ++ v ++ now ++ won, j ≠ new := by
            rintro j mem rfl
            have pl : j ∈ pick (u ++ (v ++ [j])) [id] now won
                ((s.setVisitId vi).wait e n c).free .next := by
              simp [pick]
            have unique := nodup_concat_iff.mp
              (by simpa [pick] using waiting.nodup .next :
                ((u ++ v) ++ [j]).Nodup)
            have notNow := waiting.not_mem .now pl (by simp)
            have notWon := waiting.not_mem .won pl (by simp)
            simp only [mem_append] at mem
            rcases mem with (inNext | inNow) | inWon
            · exact unique.2 (by simpa using inNext)
            · exact notNow inNow
            · exact notWon inWon
          have sameFront := front_congr (u ++ v) _ _ fun j mem => others j (fresh j mem)
          rw [← append_assoc, front_concat, sameFront, record] at abs
          exact abs.congr eqSet
    | accept c vi =>
      obtain ⟨size, last, ord⟩ := ord
      have started := during.setVisitId vi
      rw [foldl_cons, apply]
      cases allowed : s.mayMatch with
      | false =>
        have none : ((s.setVisitId vi).recordMatch c).2 = s.setVisitId vi := by
          have early : (s.setVisitId vi).mayMatch = false := allowed
          simp [Scheduler.recordMatch, early]
        rw [none]
        obtain ⟨v', now', won', ended, abs, eq, owner⟩ := ih started matched ord
        exact ⟨v', now', won', ended, .cons (.refuse allowed) (abs.congr rfl), eq, owner⟩
      | true =>
        obtain rfl := last allowed
        obtain ⟨eqSet, kept, outcome⟩ := started.recordMatch size matched allowed
        have sameFront : ∀ won', ((s.setVisitId vi).recordMatch c).2.front
            (u ++ v) [] won' = { s.front (u ++ v) now won with
              now := []
              best := won'.head?.map fun id =>
                (((s.setVisitId vi).recordMatch c).2.thread id).captures } := by
          intro won'
          simp only [front, pendings_congr kept]
          rfl
        rcases outcome with ⟨bounded, ended⟩ | ⟨new, ended, recorded, -⟩
        · refine ⟨v, [], [], ended, ?_, eqSet, .inl rfl⟩
          rw [foldl_nil, sameFront]
          exact .cons (.loseMatch bounded allowed) .nil
        · refine ⟨v, [], [new], ended, ?_, eqSet, .inl rfl⟩
          rw [foldl_nil, sameFront]
          simp only [head?_cons, Option.map_some, recorded]
          exact .cons (.accept allowed) .nil

end During

end Scheduler

end Rematch
