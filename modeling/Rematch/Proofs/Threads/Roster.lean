import Rematch.Threads.Dispatch
import Mathlib.Data.List.Perm.Basic

/-!
Where the records of a scheduler stand. A record is dead and on the free list, or its thread waits
in one of the two queues, or it is in no queue because it runs or has matched. `Roster` says so for
all records at once, and each primitive of the scheduler moves one record to another place.
-/

namespace Rematch

open Thread

variable {α : Type}

theorem nodup_concat_iff {l : List α} {v : α} : (l ++ [v]).Nodup ↔ l.Nodup ∧ v ∉ l := by
  rw [List.nodup_append]
  simp
  grind

theorem findSome?_cons_or {β : Type} (a : α) (r : List α) (fn : α → Option β) :
    (a :: r).findSome? fn = (fn a).or (r.findSome? fn) := by
  rw [List.findSome?_cons]
  cases fn a <;> rfl

/-- The places a record can have: the queue of the next offset and that of the current one, no
queue, the matched threads, and the free list. -/
inductive Place where
  | next
  | now
  | loose
  | won
  | free
  deriving DecidableEq

/-- The place of a record, while the queue of the current offset is `active`. -/
def Thread.place (thread : Thread) (active : Lane) : Place :=
  match thread.lane, thread.state with
  | some lane, _ => if lane = active then .now else .next
  | none, .matched => .won
  | none, .dead => .free
  | none, _ => .loose

namespace Thread

variable (t : Thread) (active : Lane)

include t active

theorem place_eq_next_iff :
    t.place active = .next ↔ t.lane = some (!active) := by
  cases lane : t.lane <;> cases state : t.state <;> simp [place, lane, state] <;>
    cases active <;> simp

theorem place_eq_now_iff :
    t.place active = .now ↔ t.lane = some active := by
  cases lane : t.lane <;> cases state : t.state <;> simp [place, lane, state]

theorem place_unqueued (unqueued : t.lane = none) :
    t.place active = match t.state with
      | .matched => .won
      | .dead => .free
      | _ => .loose := by
  cases state : t.state <;> simp [place, unqueued, state]

theorem lane_eq_none {p : Place} (pl : t.place active = p) (notNext : p ≠ .next)
    (notNow : p ≠ .now) : t.lane = none := by
  cases held : t.lane with
  | none => rfl
  | some l =>
    simp only [place, held] at pl
    split at pl
    · exact False.elim (notNow pl.symm)
    · exact False.elim (notNext pl.symm)

end Thread

def Place.pick {α : Type} (next loose now won free : α) : Place → α
  | .next => next
  | .now => now
  | .loose => loose
  | .won => won
  | .free => free

structure Setting where
  words : Nat
  maxThreads : Nat
  text : Text
  offset : Nat
  flags : Nat
  holding : Nat
  slots : Nat
  start : Nat
  active : Lane

namespace Scheduler

def setting (sched : Scheduler) : Setting :=
  { words := sched.words
    maxThreads := sched.maxThreads
    text := sched.text
    offset := sched.offset
    flags := sched.flags
    holding := sched.holding
    slots := sched.slots
    start := sched.start
    active := sched.active }

/-- Every record has one place: `next` are the threads that wait for the next offset, `now` those
that wait for the current one, `loose` those that run or have just been started, and `won` those
that have matched. All other records are free. -/
structure Roster (sched : Scheduler) (next loose now won : List Nat) : Prop where
  nextQueue : (sched.queue (!sched.active)).toList = next
  activeQueue : (sched.queue sched.active).toList = now
  nodup : ∀ place : Place, (place.pick next loose now won sched.free).Nodup
  mem_iff : ∀ (place : Place) (id : Nat), id ∈ place.pick next loose now won sched.free ↔
    id < sched.arena.size ∧ (sched.thread id).place sched.active = place
  pending : ∀ id < sched.arena.size, (sched.thread id).lane.isSome →
    (sched.thread id).state = .queued ∨ (sched.thread id).state = .waiting
  bounded : 0 < sched.maxThreads → sched.arena.size ≤ sched.maxThreads
  tracked : ∀ id < sched.arena.size, (sched.thread id).captures.size = sched.slots

section Records

variable {id j : Nat}

section Modify

variable (sched : Scheduler) (id : Nat) (f : Thread → Thread)

@[simp]
theorem arena_size_modify : (sched.modify id f).arena.size = sched.arena.size := by
  simp [modify]

@[simp]
theorem modify_active : (sched.modify id f).active = sched.active := rfl

@[simp]
theorem modify_free : (sched.modify id f).free = sched.free := rfl

end Modify

section

variable (sched : Scheduler)

theorem thread_modify (id j : Nat) (f : Thread → Thread) :
    (sched.modify id f).thread j = if id = j ∧ j < sched.arena.size then f (sched.thread j)
      else sched.thread j := by
  unfold thread modify
  by_cases lt : j < sched.arena.size
  · by_cases same : id = j
    · simp [Array.getD, Array.getElem_modify, lt, same]
    · simp [Array.getD, Array.getElem_modify, lt, same]
  · simp [Array.getD, lt]

@[simp]
theorem thread_modify_self (f : Thread → Thread) (lt : id < sched.arena.size) :
    (sched.modify id f).thread id = f (sched.thread id) := by
  simp [thread_modify, lt]

@[simp]
theorem thread_modify_of_ne (f : Thread → Thread) (ne : j ≠ id) :
    (sched.modify id f).thread j = sched.thread j := by
  simp [thread_modify, Ne.symm ne]

@[simp]
theorem queue_modify (id : Nat) (f : Thread → Thread) (l : Lane) :
    (sched.modify id f).queue l = sched.queue l := by
  cases l <;> rfl

section

variable (l : Lane) (queue : Queue)

include l queue

@[simp]
theorem queue_setQueue_self :
    (sched.setQueue l queue).queue l = queue := by
  cases l <;> rfl

@[simp]
theorem queue_setQueue_not :
    (sched.setQueue l queue).queue (!l) = sched.queue (!l) := by
  cases l <;> rfl

@[simp]
theorem queue_not_setQueue :
    (sched.setQueue (!l) queue).queue l = sched.queue l := by
  cases l <;> rfl

@[simp]
theorem thread_setQueue (id : Nat) :
    (sched.setQueue l queue).thread id = sched.thread id := by
  cases l <;> rfl

@[simp]
theorem setQueue_arena :
    (sched.setQueue l queue).arena = sched.arena := by
  cases l <;> rfl

@[simp]
theorem setQueue_free : (sched.setQueue l queue).free = sched.free := by
  cases l <;> rfl

end

@[simp]
theorem thread_enqueue_of_ne (l : Lane) (ne : j ≠ id) :
    (sched.enqueue l id).thread j = sched.thread j := by
  simp [enqueue, ne]

@[simp]
theorem thread_enqueue_self (l : Lane) (lt : id < sched.arena.size) :
    (sched.enqueue l id).thread id = { sched.thread id with lane := some l } := by
  simp [enqueue, lt]

@[simp]
theorem thread_dequeue_of_ne (ne : j ≠ id) : (sched.dequeue id).thread j = sched.thread j := by
  unfold dequeue
  split <;> simp [ne]

@[simp]
theorem thread_dequeue_self (lt : id < sched.arena.size) :
    (sched.dequeue id).thread id = { sched.thread id with lane := none } := by
  unfold dequeue
  split
  · next unqueued => rw [← unqueued]
  · rw [thread_modify_self _ _ (by simpa using lt), thread_setQueue]

@[simp]
theorem arena_size_dequeue (id : Nat) : (sched.dequeue id).arena.size = sched.arena.size := by
  unfold dequeue
  split <;> simp

@[simp]
theorem dequeue_free (id : Nat) : (sched.dequeue id).free = sched.free := by
  unfold dequeue
  split <;> simp

theorem queue_dequeue (id : Nat) (l : Lane) : ((sched.dequeue id).queue l).toList =
      if (sched.thread id).lane = some l then (sched.queue l).toList.erase id
      else (sched.queue l).toList := by
  unfold dequeue
  split
  · next unqueued => simp [unqueued]
  · next held queued =>
    by_cases same : held = l
    · simp [queued, same]
    · obtain rfl := Bool.eq_not.mpr same
      simp [queued]

@[simp]
theorem arena_size_retire (id : Nat) : (sched.retire id).arena.size = sched.arena.size := by
  rw [retire, arena_size_modify]
  exact arena_size_dequeue sched id

@[simp]
theorem retire_free (id : Nat) : (sched.retire id).free = id :: sched.free := by
  simp [retire]

theorem queue_retire (id : Nat) (l : Lane) : ((sched.retire id).queue l).toList =
      if (sched.thread id).lane = some l then (sched.queue l).toList.erase id
      else (sched.queue l).toList := by
  rw [retire, queue_modify]
  exact queue_dequeue sched id l

theorem thread_retire_self (lt : id < sched.arena.size) :
    (sched.retire id).thread id = { sched.thread id with state := .dead, lane := none } := by
  rw [retire, thread_modify_self _ _ (by simpa using lt)]
  change { (sched.dequeue id).thread id with state := .dead } = _
  rw [thread_dequeue_self sched lt]

@[simp]
theorem thread_retire_of_ne (ne : j ≠ id) : (sched.retire id).thread j = sched.thread j := by
  rw [retire, thread_modify_of_ne _ _ ne]
  exact thread_dequeue_of_ne sched ne

@[simp]
theorem thread_take_of_ne (r : Queue) (ne : j ≠ id) :
    (sched.take id r).thread j = sched.thread j := by
  simp [take, ne]

@[simp]
theorem thread_take_self (r : Queue) (lt : id < sched.arena.size) :
    (sched.take id r).thread id = { sched.thread id with lane := none } := by
  simp [take, lt]

theorem thread_postpone_of_ne (ne : j ≠ id) : (sched.postpone id).thread j = sched.thread j := by
  simp [postpone, ne]

end

end Records

/-- Two schedulers that differ in their records, queues and free list only. -/
structure Agrees (after sched : Scheduler) : Prop where
  setting_eq : after.setting = sched.setting
  ranking_eq : after.ranking = sched.ranking
  cursor_eq : after.cursor = sched.cursor
  running_eq : after.running = sched.running
  matched_eq : after.matched = sched.matched
  scope_eq : after.scope = sched.scope
  owner_eq : after.bitmapOwner = sched.bitmapOwner
  dropped_eq : after.dropped = sched.dropped

namespace Agrees

theorem refl (s : Scheduler) : s.Agrees s := ⟨rfl, rfl, rfl, rfl, rfl, rfl, rfl, rfl⟩

theorem trans {s t c : Scheduler} (left : s.Agrees t) (right : t.Agrees c) : s.Agrees c :=
  ⟨left.1.trans right.1, left.2.trans right.2, left.3.trans right.3, left.4.trans right.4,
    left.5.trans right.5, left.6.trans right.6, left.7.trans right.7, left.8.trans right.8⟩

section

variable (s : Scheduler)

include s

theorem modify (id : Nat) (f : Thread → Thread) : (s.modify id f).Agrees s :=
  ⟨rfl, rfl, rfl, rfl, rfl, rfl, rfl, rfl⟩

theorem setQueue (l : Lane) (queue : Queue) : (s.setQueue l queue).Agrees s := by
  cases l <;> exact ⟨rfl, rfl, rfl, rfl, rfl, rfl, rfl, rfl⟩

theorem enqueue (l : Lane) (id : Nat) : (s.enqueue l id).Agrees s :=
  (modify _ id _).trans (setQueue s l _)

theorem take (id : Nat) (r : Queue) : (s.take id r).Agrees s :=
  (modify _ id _).trans (setQueue s _ r)

theorem postpone (id : Nat) : (s.postpone id).Agrees s :=
  (enqueue _ _ id).trans (modify s id _)

theorem retire (id : Nat) : (s.retire id).Agrees s := by
  have dequeued : (s.dequeue id).Agrees s := by
    unfold dequeue
    split
    · exact refl s
    · exact (modify _ id _).trans (setQueue s _ _)
  exact (modify _ id _).trans
    ⟨dequeued.1, dequeued.2, dequeued.3, dequeued.4, dequeued.5, dequeued.6, dequeued.7, dequeued.8⟩

end

theorem foldl_retire (ids : List Nat) (s : Scheduler) :
    (ids.foldl Scheduler.retire s).Agrees s := by
  induction ids generalizing s with
  | nil => exact refl s
  | cons id r ih => exact (ih (s.retire id)).trans (retire s id)

theorem allocate (s : Scheduler) : s.allocate.2.Agrees s := by
  unfold Scheduler.allocate
  split
  · exact ⟨rfl, rfl, rfl, rfl, rfl, rfl, rfl, rfl⟩
  · dsimp only
    split <;> exact ⟨rfl, rfl, rfl, rfl, rfl, rfl, rfl, rfl⟩

theorem slots_eq {t s : Scheduler} (agrees : t.Agrees s) :
    t.slots = s.slots := congrArg Setting.slots agrees.setting_eq

theorem active_eq {t s : Scheduler} (agrees : t.Agrees s) :
    t.active = s.active := congrArg Setting.active agrees.setting_eq

end Agrees

namespace Roster

variable {sched : Scheduler} {next loose now won : List Nat} {id : Nat}
variable {lo' n' now' won' : List Nat} {p : Place} {z : Scheduler}

section

variable (roster : sched.Roster next loose now won)
include roster

/-- One record may change and move to another place while all others stay as they are. -/
theorem relocate (id : Nat) (lt : id < z.arena.size) (sameSetting : z.setting = sched.setting)
    (sameInside : ∀ j, j ≠ id → (j < z.arena.size ↔ j < sched.arena.size))
    (bounded : 0 < sched.maxThreads → z.arena.size ≤ sched.maxThreads)
    (nextQueue : (z.queue (!sched.active)).toList = n')
    (activeQueue : (z.queue sched.active).toList = now')
    (others : ∀ j, j ≠ id → z.thread j = sched.thread j) (stay : ∀ (p : Place) (j : Nat), j ≠ id →
      (j ∈ p.pick n' lo' now' won' z.free ↔ j ∈ p.pick next loose now won sched.free))
    (home : ∀ p : Place, id ∈ p.pick n' lo' now' won' z.free ↔ (z.thread id).place sched.active = p)
    (nodup : ∀ p : Place, (p.pick n' lo' now' won' z.free).Nodup)
    (pending : (z.thread id).lane.isSome →
      (z.thread id).state = .queued ∨ (z.thread id).state = .waiting)
    (size : (z.thread id).captures.size = sched.slots) : z.Roster n' lo' now' won' := by
  have eqAct : z.active = sched.active := congrArg Setting.active sameSetting
  have sameSlots : z.slots = sched.slots := congrArg Setting.slots sameSetting
  have eqBd : z.maxThreads = sched.maxThreads := congrArg Setting.maxThreads sameSetting
  refine
    { nextQueue := by rw [eqAct, nextQueue]
      activeQueue := by rw [eqAct, activeQueue]
      nodup := nodup
      mem_iff := ?_
      pending := ?_
      bounded := eqBd ▸ bounded
      tracked := ?_ }
  · intro p m
    rw [eqAct]
    by_cases same : m = id
    · subst m
      rw [home p]
      exact ⟨fun got => ⟨lt, got⟩, fun found => found.2⟩
    · rw [stay p m same, others m same, sameInside m same]
      exact roster.mem_iff p m
  · intro m le queued
    by_cases same : m = id
    · subst m
      exact pending queued
    · rw [others m same] at queued ⊢
      exact roster.pending m ((sameInside m same).mp le) queued
  · intro m le
    rw [sameSlots]
    by_cases same : m = id
    · subst m
      exact size
    · rw [others m same]
      exact roster.tracked m ((sameInside m same).mp le)

theorem not_mem (o : Place) (pl : id ∈ p.pick next loose now won sched.free) (ne : o ≠ p) :
    id ∉ o.pick next loose now won sched.free := by
  intro elsewhere
  have fst := ((roster.mem_iff p id).mp pl).2
  have snd := ((roster.mem_iff o id).mp elsewhere).2
  exact ne (snd.symm.trans fst)

/-- A record of the arena leaves one place for another. -/
theorem move (id : Nat) (src t : Place) (away : t ≠ src)
    (sameSetting : z.setting = sched.setting) (sameSize : z.arena.size = sched.arena.size)
    (nextQueue : (z.queue (!sched.active)).toList = n')
    (activeQueue : (z.queue sched.active).toList = now')
    (others : ∀ j, j ≠ id → z.thread j = sched.thread j)
    (left : (src.pick next loose now won sched.free).Perm (id :: src.pick n' lo' now' won' z.free))
    (gained : (t.pick n' lo' now' won' z.free).Perm (id :: t.pick next loose now won sched.free))
    (same : ∀ p : Place, p ≠ src → p ≠ t →
      p.pick n' lo' now' won' z.free = p.pick next loose now won sched.free)
    (home : (z.thread id).place sched.active = t) (pending : (z.thread id).lane.isSome →
      (z.thread id).state = .queued ∨ (z.thread id).state = .waiting)
    (size : (z.thread id).captures.size = (sched.thread id).captures.size) :
    z.Roster n' lo' now' won' := by
  have pl : id ∈ src.pick next loose now won sched.free := left.mem_iff.mpr List.mem_cons_self
  have lt := ((roster.mem_iff src id).mp pl).1
  have unique := List.nodup_cons.mp (left.nodup_iff.mp (roster.nodup src))
  have elsewhere := fun o => roster.not_mem o pl
  apply roster.relocate id (sameSize ▸ lt) sameSetting (by simp [sameSize])
    (sameSize ▸ roster.bounded) nextQueue activeQueue others
  case stay =>
    intro p j ne
    by_cases isSource : p = src
    · simp [isSource, left.mem_iff, ne]
    · by_cases isTarget : p = t
      · simp [isTarget, gained.mem_iff, ne]
      · rw [same p isSource isTarget]
  case home =>
    intro p
    rw [home]
    by_cases isTarget : p = t
    · simp [isTarget, gained.mem_iff]
    · refine iff_of_false ?_ (Ne.symm isTarget)
      by_cases isSource : p = src
      · exact isSource ▸ unique.1
      · rw [same p isSource isTarget]
        exact elsewhere p isSource
  case nodup =>
    intro p
    by_cases isTarget : p = t
    · rw [isTarget, gained.nodup_iff, List.nodup_cons]
      exact ⟨elsewhere t away, roster.nodup t⟩
    · by_cases isSource : p = src
      · exact isSource ▸ unique.2
      · rw [same p isSource isTarget]
        exact roster.nodup p
  case pending => exact pending
  case size => exact size.trans (roster.tracked id lt)

theorem of_mem_loose (id : Nat) (pl : id ∈ loose) :
    id < sched.arena.size ∧ (sched.thread id).place sched.active = .loose ∧
      (sched.thread id).lane = none := by
  obtain ⟨lt, home⟩ := (roster.mem_iff .loose id).mp pl
  exact ⟨lt, home, lane_eq_none _ _ home (by simp) (by simp)⟩

theorem modify (id : Nat) (pl : id ∈ loose) (f : Thread → Thread)
    (keepsPlace : (f (sched.thread id)).place sched.active = .loose)
    (keepsLane : (f (sched.thread id)).lane = none)
    (keepsSize : (f (sched.thread id)).captures.size = (sched.thread id).captures.size) :
    (sched.modify id f).Roster next loose now won := by
  obtain ⟨lt, home, -⟩ := roster.of_mem_loose id pl
  apply roster.relocate id (by simpa using lt)
  case sameSetting => rfl
  case bounded => simpa using roster.bounded
  case nextQueue => simpa using roster.nextQueue
  case activeQueue => simpa using roster.activeQueue
  case others => exact fun j ne => thread_modify_of_ne sched f ne
  case home =>
    intro p
    rw [thread_modify_self _ _ lt, keepsPlace, modify_free, roster.mem_iff p id, home]
    simp [lt]
  case nodup => exact roster.nodup
  case pending => simp [lt, keepsLane]
  case size => simp [lt, keepsSize, roster.tracked id lt]
  all_goals simp

end

theorem enqueue (roster : sched.Roster next (loose ++ [id]) now won) (l : Lane)
    (pending : (sched.thread id).state = .queued ∨ (sched.thread id).state = .waiting) :
    (sched.enqueue l id).Roster (if l = sched.active then next else next ++ [id]) loose
      (if l = sched.active then now ++ [id] else now) won := by
  have lt := (roster.of_mem_loose id (by simp)).1
  have lanes : l = sched.active ∨ l = !sched.active := by cases l <;> cases sched.active <;> simp
  have queued := thread_enqueue_self sched l lt
  apply roster.move id .loose (if l = sched.active then .now else .next)
  case sameSetting => exact (Agrees.enqueue sched l id).setting_eq
  case nextQueue => rcases lanes with rfl | rfl <;> simp [Scheduler.enqueue, roster.nextQueue]
  case activeQueue => rcases lanes with rfl | rfl <;> simp [Scheduler.enqueue, roster.activeQueue]
  case others => exact fun j ne => thread_enqueue_of_ne sched _ ne
  case gained => split <;> simp [Place.pick]
  case same => split <;> rintro ⟨⟩ <;> simp [Place.pick, Scheduler.enqueue]
  case home => simp [queued, place]
  case pending => simp [queued, pending]
  case size => simp [queued]
  case away => split <;> simp
  all_goals simp [Scheduler.enqueue, Place.pick]

theorem enqueueNext (id : Nat) (roster : sched.Roster next (loose ++ [id]) now won)
    (pending : (sched.thread id).state = .queued ∨ (sched.thread id).state = .waiting) :
    (sched.enqueue (!sched.active) id).Roster (next ++ [id]) loose now won := by
  have moved := roster.enqueue (!sched.active) pending
  simpa using moved

theorem enqueueNow (roster : sched.Roster next (loose ++ [id]) now won)
    (pending : (sched.thread id).state = .queued ∨ (sched.thread id).state = .waiting) :
    (sched.enqueue sched.active id).Roster next loose (now ++ [id]) won := by
  have moved := roster.enqueue sched.active pending
  simpa using moved

theorem retire (roster : sched.Roster next loose now won) (p : Place) (live : p ≠ .free)
    (pl : id ∈ p.pick next loose now won sched.free)
    (left : p.pick n' lo' now' won' sched.free = (p.pick next loose now won sched.free).erase id)
    (same : ∀ o : Place, o ≠ p → o.pick n' lo' now' won' sched.free =
      o.pick next loose now won sched.free) : (sched.retire id).Roster n' lo' now' won' := by
  obtain ⟨lt, home⟩ := (roster.mem_iff p id).mp pl
  have retired := thread_retire_self sched lt
  apply roster.move id p .free (Ne.symm live)
  case sameSetting => exact (Agrees.retire sched id).setting_eq
  case nextQueue =>
    simp only [queue_retire, roster.nextQueue, ← place_eq_next_iff, home]
    split
    · next isNext =>
      subst isNext
      exact left.symm
    · next absent => exact (same .next (Ne.symm absent)).symm
  case activeQueue =>
    simp only [queue_retire, roster.activeQueue, ← place_eq_now_iff, home]
    split
    · next isNow =>
      subst isNow
      exact left.symm
    · next absent => exact (same .now (Ne.symm absent)).symm
  case others => exact fun j ne => thread_retire_of_ne sched ne
  case left =>
    have parts := left ▸ List.perm_cons_erase pl
    cases p <;> first | exact parts | exact False.elim (live rfl)
  case same =>
    intro o isSource isTarget
    have kept := same o isSource
    cases o <;> first | exact kept | exact False.elim (isTarget rfl)
  all_goals simp [retired, place, Place.pick]

theorem win (id : Nat) (roster : sched.Roster next (loose ++ [id]) now won) (f : Thread → Thread)
    (keepsLane : (f (sched.thread id)).lane = none) (wins : (f (sched.thread id)).state = .matched)
    (keepsSize : (f (sched.thread id)).captures.size = (sched.thread id).captures.size) :
    (sched.modify id f).Roster next loose now (won ++ [id]) := by
  have lt := (roster.of_mem_loose id (by simp)).1
  apply roster.move id .loose .won (by simp)
  case sameSetting => rfl
  case nextQueue => simpa using roster.nextQueue
  case activeQueue => simpa using roster.activeQueue
  case others => exact fun j ne => thread_modify_of_ne sched f ne
  case same => rintro ⟨⟩ <;> simp [Place.pick]
  case home => simp [lt, place_unqueued _ _ keepsLane, wins]
  all_goals simp [lt, keepsLane, keepsSize, Place.pick]

theorem take (roster : sched.Roster next loose (id :: now) won) {r : Queue}
    (left : r.toList = now) : (sched.take id r).Roster next (loose ++ [id]) now won := by
  have pl := (roster.mem_iff .now id).mp (by simp [Place.pick])
  have queued := (place_eq_now_iff _ _).mp pl.2
  have state := roster.pending id pl.1 (by simp [queued])
  have taken := thread_take_self sched r pl.1
  apply roster.move id .now .loose (by simp)
  case sameSetting => exact (Agrees.take sched id r).setting_eq
  case nextQueue => simp [Scheduler.take, roster.nextQueue]
  case activeQueue => simp [Scheduler.take, left]
  case others => exact fun j ne => thread_take_of_ne sched r ne
  case same => rintro ⟨⟩ <;> simp [Place.pick, Scheduler.take]
  case home =>
    rw [taken, place_unqueued _ _ rfl]
    rcases state with state | state <;> simp [state]
  case pending => simp [taken]
  case size => simp [taken]
  all_goals simp [Scheduler.take, Place.pick]

theorem flip (roster : sched.Roster next loose [] won)
    (flipped : z.active = !sched.active) (sameQueues : z.queue = sched.queue)
    (sameArena : z.arena = sched.arena) (sameFree : z.free = sched.free)
    (sameSlots : z.slots = sched.slots) (eqBd : z.maxThreads = sched.maxThreads) :
    z.Roster [] loose next won := by
  have eqThread : z.thread = sched.thread := by
    funext id
    rw [thread, thread, sameArena]
  refine
    { nextQueue := by simp [flipped, sameQueues, roster.activeQueue]
      activeQueue := by simp [flipped, sameQueues, roster.nextQueue]
      nodup := ?_
      mem_iff := ?_
      pending := by rw [sameArena, eqThread]; exact roster.pending
      bounded := by rw [sameArena, eqBd]; exact roster.bounded
      tracked := by rw [sameArena, eqThread, sameSlots]; exact roster.tracked }
  · intro p
    rw [sameFree]
    cases p with
    | next => exact List.nodup_nil
    | now => exact roster.nodup .next
    | loose => exact roster.nodup .loose
    | won => exact roster.nodup .won
    | free => exact roster.nodup .free
  · intro p id
    rw [sameFree, sameArena, eqThread, flipped]
    have nextIff := roster.mem_iff .next id
    have nowIff := roster.mem_iff .now id
    have samePlace := roster.mem_iff p id
    rw [place_eq_next_iff] at nextIff
    rw [place_eq_now_iff] at nowIff
    cases held : (sched.thread id).lane with
    | some l => cases p <;> cases l <;> cases active : sched.active <;> simp_all [Place.pick, place]
    | none =>
      rw [place_unqueued _ _ held] at samePlace ⊢
      cases p <;> simp_all [Place.pick]

theorem reuse (roster : sched.Roster next loose now won) {fr : List Nat}
    (available : sched.free = id :: fr) (f : Thread → Thread) (keepsLane : ∀ t, (f t).lane = t.lane)
    (starts : ∀ t, (f t).state = .queued) (keepsSize : ∀ t, (f t).captures.size = t.captures.size) :
    (({ sched with free := fr } : Scheduler).modify id f).Roster next (loose ++ [id]) now won := by
  have pl := (roster.mem_iff .free id).mp (by simp [Place.pick, available])
  have started : (({ sched with free := fr } : Scheduler).modify id f).thread id =
      f (sched.thread id) := thread_modify_self _ _ pl.1
  have unqueued : (f (sched.thread id)).lane = none :=
    (keepsLane _).trans (lane_eq_none _ _ pl.2 (by simp) (by simp))
  apply roster.move id .free .loose (by simp)
  case sameSetting => rfl
  case nextQueue => rw [queue_modify]; exact roster.nextQueue
  case activeQueue => rw [queue_modify]; exact roster.activeQueue
  case others => exact fun j ne => thread_modify_of_ne _ f ne
  case same => rintro ⟨⟩ <;> simp [Place.pick]
  case home => rw [started, place_unqueued _ _ unqueued, starts]
  all_goals simp [started, unqueued, keepsSize, Place.pick, available]

theorem grow (roster : sched.Roster next loose now won)
    (room : ¬(0 < sched.maxThreads ∧ sched.maxThreads ≤ sched.arena.size)) (record : Thread)
    (unqueued : record.lane = none) (starts : record.state = .queued)
    (size : record.captures.size = sched.slots) :
    ({ sched with arena := sched.arena.push record } : Scheduler).Roster next
      (loose ++ [sched.arena.size]) now won := by
  have fresh : ∀ p : Place, sched.arena.size ∉ p.pick next loose now won sched.free := by
    intro p mem
    exact Nat.lt_irrefl _ ((roster.mem_iff p _).mp mem).1
  have started : ({ sched with arena := sched.arena.push record } : Scheduler).thread
      sched.arena.size = record := by
    simp [thread]
  have settled : record.place sched.active = .loose := by rw [place_unqueued _ _ unqueued, starts]
  apply roster.relocate sched.arena.size (by simp)
  case sameSetting => rfl
  case bounded =>
    simp only [Array.size_push]
    intro pos
    by_contra beyond
    exact room ⟨pos, by omega⟩
  case nextQueue => exact roster.nextQueue
  case activeQueue => exact roster.activeQueue
  case sameInside =>
    intro j ne
    simp only [Array.size_push]
    omega
  case others =>
    intro j ne
    simp only [thread, Array.getD_eq_getD_getElem?, Array.getElem?_push, ne, if_false]
  case stay =>
    intro p j ne
    cases p <;> simp [Place.pick, ne]
  case home =>
    intro p
    have absent := fresh p
    rw [started, settled]
    cases p <;> simp_all [Place.pick]
  case nodup =>
    intro p
    have absent := fresh p
    have pre := roster.nodup p
    cases p <;> simp_all [Place.pick, nodup_concat_iff]
  case pending => simp [started, unqueued]
  case size => rw [started, size]

theorem allocate_none (refused : sched.allocate = (none, z)) :
    z = sched ∧ sched.free = [] ∧ 0 < sched.maxThreads ∧ sched.maxThreads ≤ sched.arena.size := by
  unfold Scheduler.allocate at refused
  split at refused
  · simp at refused
  · next empty =>
    dsimp only at refused
    split at refused
    · next full =>
      simp only [Prod.mk.injEq, true_and] at refused
      exact ⟨refused.symm, empty, full⟩
    · simp at refused

theorem allocate_some (roster : sched.Roster next loose now won)
    (allocated : sched.allocate = (some id, z)) (change : Thread → Thread)
    (keepsLane : ∀ thread, (change thread).lane = thread.lane)
    (starts : ∀ thread, (change thread).state = .queued)
    (keepsSize : ∀ thread, (change thread).captures.size = thread.captures.size) :
    (z.modify id change).Roster next (loose ++ [id]) now won ∧
      (∀ other, other ≠ id → (z.modify id change).thread other = sched.thread other) ∧
      ∃ record : Thread, record.captures.size = sched.slots ∧
        (z.modify id change).thread id = change record := by
  unfold Scheduler.allocate at allocated
  split at allocated
  · next first free available =>
    simp only [Prod.mk.injEq, Option.some.injEq] at allocated
    obtain ⟨rfl, rfl⟩ := allocated
    have inside : first < sched.arena.size :=
      ((roster.mem_iff .free first).mp (by simp [Place.pick, available])).1
    refine ⟨roster.reuse available change keepsLane starts keepsSize, ?_,
      sched.thread first, roster.tracked first inside, thread_modify_self _ _ inside⟩
    exact fun other different => thread_modify_of_ne _ change different
  · dsimp only at allocated
    split at allocated
    · simp at allocated
    · next room =>
      simp only [Prod.mk.injEq, Option.some.injEq] at allocated
      obtain ⟨rfl, rfl⟩ := allocated
      let record : Thread := { captures := Array.replicate sched.slots 0 }
      have grown : ({ sched with arena := sched.arena.push record } : Scheduler).modify
          sched.arena.size change = { sched with arena := sched.arena.push (change record) } := by
        simp only [Scheduler.modify]
        congr 1
        apply Array.ext
        · simp
        · intro index first second
          rw [Array.getElem_modify, Array.getElem_push, Array.getElem_push]
          by_cases last : index < sched.arena.size
          · simp [last, Nat.ne_of_gt last]
          · have : sched.arena.size = index := by simp at second; omega
            simp [this]
      have size : record.captures.size = sched.slots := by simp [record]
      rw [grown]
      refine ⟨roster.grow room (change record) (keepsLane record) (starts record)
        ((keepsSize record).trans size), ?_, record, size, ?_⟩
      · intro other different
        simp only [thread, Array.getD_eq_getD_getElem?, Array.getElem?_push, different, if_false]
      · simp [thread]

end Roster

end Scheduler

end Rematch
