import Rematch.Proofs.Threads.Turn
import Mathlib.Logic.Relation

/-!
What every closure leaves as it is. Whatever a runner asks for, in whatever state, an event keeps
the setting of the search, adds no thread to the queue of the current offset, and keeps to the
bound on the number of records: `Frames.apply`. So an interrupted search has done some turns and a
finished one has done all of them: `dispatch_turns`.
-/

namespace Rematch.Scheduler

open List Ranking

/-- Every thread that is ranked, queued or free has a record. -/
structure Recorded (sched : Scheduler) : Prop where
  ranked : ∀ id ∈ sched.order, id < sched.arena.size
  queued : ∀ lane, ∀ id ∈ (sched.queue lane).toList, id < sched.arena.size
  free : ∀ id ∈ sched.free, id < sched.arena.size

/-- What `after` has kept of `sched`, with some more threads in the queue of the current offset. -/
structure Frames (after sched : Scheduler) (more : Nat := 0) : Prop where
  setting_eq : after.setting = sched.setting
  running_eq : after.running = sched.running
  bounded : (0 < sched.maxThreads → sched.arena.size ≤ sched.maxThreads) →
    0 < sched.maxThreads → after.arena.size ≤ sched.maxThreads
  tracked : (∀ id < sched.arena.size, (sched.thread id).captures.size = sched.slots) →
    ∀ id < after.arena.size, (after.thread id).captures.size = sched.slots
  shorter : (after.queue sched.active).toList.length ≤
    (sched.queue sched.active).toList.length + more
  recorded : sched.Recorded → after.Recorded

section Records

variable {s : Scheduler} {id j : Nat} {rk : Ranking}

theorem lt_of_alive (alive : (s.thread id).state ≠ .dead) : id < s.arena.size := by
  by_contra outside
  exact alive (by simp [thread, Array.getD, outside])

theorem Recorded.modify (recorded : s.Recorded) (id : Nat) (f : Thread → Thread) :
    (s.modify id f).Recorded := by
  refine ⟨?_, ?_, ?_⟩ <;> rw [arena_size_modify]
  · exact recorded.ranked
  · intro l
    rw [queue_modify]
    exact recorded.queued l
  · exact recorded.free

theorem Recorded.setQueue (recorded : s.Recorded) (l : Lane) (queue : Queue)
    (within : ∀ id ∈ queue.toList, id < s.arena.size) : (s.setQueue l queue).Recorded := by
  refine ⟨?_, ?_, ?_⟩ <;> rw [setQueue_arena]
  · rw [order, (Agrees.setQueue s l queue).ranking_eq]
    exact recorded.ranked
  · intro p
    by_cases here : p = l
    · rw [here, queue_setQueue_self]
      exact within
    · obtain rfl := Bool.eq_not.mpr here
      rw [queue_setQueue_not]
      exact recorded.queued _
  · rw [setQueue_free]
    exact recorded.free

theorem Recorded.push (recorded : s.Recorded) (l : Lane) (lt : id < s.arena.size) :
    ∀ j ∈ ((s.queue l).push id).toList, j < s.arena.size := by
  intro j queued
  rw [Queue.toList_push, mem_append, mem_singleton] at queued
  rcases queued with queued | rfl
  · exact recorded.queued l j queued
  · exact lt

theorem mem_erase (ranked : j ∈ (rk.erase id).toList) : j ∈ rk.toList := by
  simp only [erase, toList] at ranked ⊢
  split at ranked <;> simp only [mem_append, mem_reverse] at ranked ⊢
  · exact ranked.imp_left mem_of_mem_erase
  · exact ranked.imp_right mem_of_mem_erase

theorem mem_splitAt :
    (j ∈ (rk.splitAt id).2.toList → j ∈ rk.toList) ∧ (j ∈ (rk.splitAt id).1 → j ∈ rk.toList) := by
  rw [← toList_splitAt rk id]
  exact ⟨mem_append_left _, mem_append_right _⟩

theorem mem_insertAfter {v : Nat} (ranked : j ∈ (rk.insertAfter v id).toList) :
    j ∈ rk.toList ∨ j = id := by
  rw [← toList_cutAt rk v]
  unfold insertAfter at ranked
  dsimp only at ranked
  split at ranked
  · simp only [toList, reverse_cons, mem_append, mem_singleton] at ranked ⊢
    tauto
  · exact .inl ranked

theorem toList_of_next? {r : Queue} (fst : s.next? = some (id, r)) :
    (s.queue s.active).toList = id :: r.toList := by
  have popped := Queue.map_pop? (s.queue s.active)
  rw [← next?, fst] at popped
  split at popped
  · simp at popped
  · exact (Option.some.inj popped).symm

theorem Recorded.of_next? (recorded : s.Recorded) {r : Queue} (fst : s.next? = some (id, r)) :
    id < s.arena.size ∧ ∀ j ∈ r.toList, j < s.arena.size := by
  have queued := recorded.queued s.active
  rw [toList_of_next? fst] at queued
  exact forall_mem_cons.mp queued

end Records

namespace Frames

variable {first t s z o : Scheduler} {id m : Nat}

theorem slots_eq (fr : first.Frames t m) : first.slots = t.slots :=
  congrArg Setting.slots fr.setting_eq

theorem maxThreads_eq (fr : first.Frames t m) : first.maxThreads = t.maxThreads :=
  congrArg Setting.maxThreads fr.setting_eq

theorem active_eq (fr : first.Frames t m) : first.active = t.active :=
  congrArg Setting.active fr.setting_eq

theorem refl (s : Scheduler) : s.Frames s :=
  ⟨rfl, rfl, fun bounded => bounded, fun tracked => tracked, Nat.le_refl _,
    fun recorded => recorded⟩

section Operations

variable (fr : s.Frames o m)

include fr

theorem congr (eqSet : z.setting = s.setting) (sameRunning : z.running = s.running)
    (sameArena : z.arena = s.arena) (sameQueues : z.queue = s.queue)
    (recorded : o.Recorded → s.Recorded → z.Recorded) : z.Frames o m := by
  have eqThread : z.thread = s.thread := by
    funext id
    rw [thread, thread, sameArena]
  refine ⟨eqSet.trans fr.setting_eq, sameRunning.trans fr.running_eq, ?_, ?_, ?_,
    fun pre => recorded pre (fr.recorded pre)⟩
  · rw [sameArena]
    exact fr.bounded
  · rw [sameArena, eqThread]
    exact fr.tracked
  · rw [sameQueues]
    exact fr.shorter

theorem modify (id : Nat) (f : Thread → Thread)
    (keepsSize : ∀ t, (f t).captures.size = t.captures.size) : (s.modify id f).Frames o m := by
  refine ⟨fr.setting_eq, fr.running_eq, ?_, ?_, ?_, fun pre => (fr.recorded pre).modify id f⟩
  · rw [arena_size_modify]
    exact fr.bounded
  · intro tracked j lt
    rw [arena_size_modify] at lt
    rw [thread_modify]
    split
    · rw [keepsSize, fr.tracked tracked j lt]
    · exact fr.tracked tracked j lt
  · rw [queue_modify]
    exact fr.shorter

theorem setQueue (l : Lane) (queue : Queue) {total : Nat} (least : m ≤ total)
    (shorter : l = s.active → queue.toList.length + m ≤ (s.queue s.active).toList.length + total)
    (within : o.Recorded → s.Recorded → ∀ id ∈ queue.toList, id < s.arena.size) :
    (s.setQueue l queue).Frames o total := by
  have agrees := Agrees.setQueue s l queue
  refine ⟨agrees.setting_eq.trans fr.setting_eq, agrees.running_eq.trans fr.running_eq, ?_, ?_,
    ?_, fun pre => ?_⟩
  · rw [setQueue_arena]
    exact fr.bounded
  · intro tracked id lt
    rw [setQueue_arena] at lt
    rw [thread_setQueue]
    exact fr.tracked tracked id lt
  · have kept := fr.shorter
    rw [← fr.active_eq] at kept ⊢
    by_cases here : l = s.active
    · have := shorter here
      rw [← here, queue_setQueue_self]
      rw [← here] at this kept
      omega
    · rw [Bool.eq_not.mpr here, queue_not_setQueue]
      omega
  · have recorded := fr.recorded pre
    exact recorded.setQueue l queue (within pre recorded)

theorem enqueue (lt : o.Recorded → id < s.arena.size) : (s.enqueue (!s.active) id).Frames o m := by
  refine (fr.setQueue _ _ (Nat.le_refl _) ?_ fun pre recorded =>
    recorded.push _ (lt pre)).modify id ({ · with lane := some (!s.active) }) fun _ => rfl
  intro here
  cases active : s.active <;> simp [active] at here

theorem dequeue (id : Nat) : (s.dequeue id).Frames o m := by
  unfold Scheduler.dequeue
  split
  · exact fr
  · next l _ =>
    refine (fr.setQueue l _ (Nat.le_refl _) ?_ ?_).modify id ({ · with lane := none }) fun _ => rfl
    · rintro rfl
      rw [Queue.toList_erase]
      exact Nat.add_le_add_right length_erase_le _
    · intro _ recorded j queued
      rw [Queue.toList_erase] at queued
      exact recorded.queued l j (mem_of_mem_erase queued)

theorem retire (lt : o.Recorded → id < s.arena.size) : (s.retire id).Frames o m := by
  have freed : { s.dequeue id with free := id :: (s.dequeue id).free }.Frames o m := by
    refine (fr.dequeue id).congr rfl rfl rfl rfl fun pre recorded =>
      ⟨recorded.ranked, recorded.queued, fun j isFree => ?_⟩
    rcases mem_cons.mp isFree with rfl | isFree
    · exact (arena_size_dequeue s j).symm ▸ lt pre
    · exact recorded.free j isFree
  exact freed.modify id ({ · with state := .dead }) fun _ => rfl

theorem foldl_retire {ids : List Nat} (within : o.Recorded → ∀ id ∈ ids, id < s.arena.size) :
    (ids.foldl Scheduler.retire s).Frames o m := by
  induction ids generalizing s with
  | nil => exact fr
  | cons id r ih =>
    refine ih (fr.retire fun pre => within pre id (.head _)) fun pre j later => ?_
    rw [arena_size_retire]
    exact within pre j (.tail _ later)

theorem kill (id : Nat) : (s.kill id).Frames o m := by
  unfold Scheduler.kill
  split
  · exact fr
  · next alive =>
    refine (fr.retire fun _ => lt_of_alive alive).congr rfl rfl rfl rfl fun _ recorded => ?_
    refine ⟨fun j rk => recorded.ranked j ?_, recorded.queued, recorded.free⟩
    rw [order, (Agrees.retire s id).ranking_eq]
    exact mem_erase rk

theorem killBelow (id : Nat) : (s.killBelow id).Frames o m := by
  have cut : { s with ranking := (s.ranking.splitAt id).2 }.Frames o m :=
    fr.congr rfl rfl rfl rfl fun _ recorded =>
      ⟨fun j rk => recorded.ranked j (mem_splitAt.1 rk), recorded.queued, recorded.free⟩
  exact cut.foldl_retire fun pre j ended => (fr.recorded pre).ranked j (mem_splitAt.2 ended)

theorem killBelowCursor : s.killBelowCursor.Frames o m := by
  unfold Scheduler.killBelowCursor
  split
  · exact fr
  · exact fr.killBelow _

theorem allocate : s.allocate.2.Frames o m ∧
    (o.Recorded → ∀ id, s.allocate.1 = some id → id < s.allocate.2.arena.size) := by
  unfold Scheduler.allocate
  split
  · next a free available =>
    have within (pre : o.Recorded) := (fr.recorded pre).free
    rw [available] at within
    refine ⟨fr.congr rfl rfl rfl rfl fun pre recorded => ?_, fun pre id eq => ?_⟩
    · exact ⟨recorded.ranked, recorded.queued, fun id isFree => within pre id (.tail _ isFree)⟩
    · cases eq
      exact within pre a (.head _)
  · dsimp only
    split
    · exact ⟨fr, by simp⟩
    · next room =>
      refine ⟨⟨fr.setting_eq, fr.running_eq, ?_, ?_, fr.shorter, fun pre => ?_⟩,
        fun _ id eq => by obtain rfl := Option.some.inj eq; simp⟩
      · intro _ pos
        rw [← fr.maxThreads_eq] at pos ⊢
        rw [Array.size_push]
        by_contra beyond
        exact room ⟨pos, by omega⟩
      · intro tracked id lt
        rw [Array.size_push] at lt
        simp only [thread, Array.getD_eq_getD_getElem?, Array.getElem?_push]
        split
        · simpa using fr.slots_eq
        · have held : id < s.arena.size := by omega
          simpa [thread] using fr.tracked tracked id held
      · have recorded := fr.recorded pre
        have grown {id : Nat} (lt : id < s.arena.size) :
            id < (s.arena.push { captures := Array.replicate s.slots 0 }).size := by
          rw [Array.size_push]
          omega
        exact ⟨fun id rk => grown (recorded.ranked id rk),
          fun l id queued => grown (recorded.queued l id queued),
          fun id isFree => grown (recorded.free id isFree)⟩

theorem fork (e : Nat) (c : Captures) : (s.fork e c).2.Frames o m ∧
      (o.Recorded → ∀ id, (s.fork e c).1 = some id → id < (s.fork e c).2.arena.size) := by
  obtain ⟨allocated, lt⟩ := fr.allocate
  unfold Scheduler.fork
  cases alloc : s.allocate with
  | mk found st =>
  rw [alloc] at allocated lt
  cases found with
  | none =>
    exact ⟨allocated.congr rfl rfl rfl rfl fun _ recorded =>
      ⟨recorded.ranked, recorded.queued, recorded.free⟩, by simp⟩
  | some id =>
    let f : Thread → Thread := fun t =>
      { t with
        entry := e, visit := st.scope.visitId, delay := 0, state := .queued
        captures := c.copyInto t.captures }
    have size : (st.modify id f).arena.size = st.arena.size := arena_size_modify st id f
    have modified := allocated.modify id f fun _ => Captures.size_copyInto _ _
    refine ⟨modified.congr rfl rfl rfl rfl fun pre recorded =>
      ⟨fun j rk => ?_, recorded.queued, recorded.free⟩, fun pre j eq => ?_⟩
    · have mem : j ∈ st.order ∨ j = id := by
        unfold order at rk
        dsimp only at rk
        split at rk
        · rwa [toList_append, mem_append, mem_singleton] at rk
        · exact mem_insertAfter rk
      rcases mem with hm | rfl
      · exact recorded.ranked j hm
      · exact size.symm ▸ lt pre j rfl
    · cases eq
      exact size.symm ▸ lt pre id rfl

theorem wait (e : Nat) (n : Int) (c : Captures) : (s.wait e n c).Frames o m := by
  obtain ⟨forked, lt⟩ := fr.fork e c
  unfold Scheduler.wait
  split
  · exact fr
  · cases res : s.fork e c with
    | mk found st =>
    rw [res] at forked lt
    cases found with
    | none => exact forked
    | some id =>
      have modified := forked.modify id
        ({ · with delay := n.toNat - lookahead, state := .waiting }) fun _ => rfl
      exact modified.enqueue fun pre => (arena_size_modify ..).symm ▸ lt pre id rfl

theorem recordMatch (c : Captures) : (s.recordMatch c).2.Frames o m := by
  obtain ⟨forked, -⟩ := fr.killBelowCursor.fork 0 c
  unfold Scheduler.recordMatch
  split
  · exact fr
  · cases res : s.killBelowCursor.fork 0 c with
    | mk found st =>
    rw [res] at forked
    cases found with
    | none => exact forked
    | some id =>
      have modified := forked.modify id (fun t =>
        { t with captures := t.captures.setIfInBounds 1 st.offset, state := .matched })
        fun _ => by simp
      exact (modified.killBelow id).congr rfl rfl rfl rfl fun _ recorded =>
        ⟨recorded.ranked, recorded.queued, recorded.free⟩

theorem apply (ev : Event) : (s.apply ev).Frames o m := by
  have relabelled (v : Nat) : (s.setVisitId v).Frames o m :=
    fr.congr rfl rfl rfl rfl fun _ recorded => ⟨recorded.ranked, recorded.queued, recorded.free⟩
  cases ev with
  | wait e n c v => exact (relabelled v).wait e n c
  | accept c v => exact (relabelled v).recordMatch c
  | fail =>
    change s.fail.Frames o m
    unfold Scheduler.fail
    split
    · exact fr
    · exact fr.kill _

theorem foldl_apply (evs : List Event) : (evs.foldl Scheduler.apply s).Frames o m := by
  induction evs generalizing s with
  | nil => exact fr
  | cons ev r ih => exact ih (fr.apply ev)

theorem take {r : Queue} (fst : s.next? = some (id, r)) : (s.take id r).Frames o m :=
  (fr.setQueue _ r (Nat.le_refl _) (fun _ => by simp [toList_of_next? fst])
    fun _ recorded => (recorded.of_next? fst).2).modify id ({ · with lane := none }) fun _ => rfl

theorem postpone (lt : o.Recorded → id < s.arena.size) : (s.postpone id).Frames o m := by
  have modified := fr.modify id (fun t => { t with delay := t.delay - 1 }) fun _ => rfl
  exact modified.enqueue fun pre => (arena_size_modify ..).symm ▸ lt pre

theorem seed : s.seed.Frames o (m + 1) := by
  obtain ⟨allocated, lt⟩ := fr.allocate
  unfold Scheduler.seed
  cases alloc : s.allocate with
  | mk found st =>
  rw [alloc] at allocated lt
  cases found with
  | none => exact { allocated with shorter := Nat.le_succ_of_le allocated.shorter }
  | some id =>
    let f : Thread → Thread := fun t =>
      { t with
        entry := st.start, delay := 0, visit := 0, state := .queued
        captures := (Array.replicate t.captures.size (-1)).setIfInBounds 0 (st.offset : Int) }
    have within (pre : o.Recorded) : id < (st.modify id f).arena.size :=
      (arena_size_modify ..).symm ▸ lt pre id rfl
    have rk : { st.modify id f with ranking := st.ranking.append id }.Frames o m :=
      (allocated.modify id f fun _ => by simp [f]).congr rfl rfl rfl rfl fun pre recorded => by
        refine ⟨fun j rk => ?_, recorded.queued, recorded.free⟩
        rw [order, toList_append, mem_append, mem_singleton] at rk
        rcases rk with rk | rfl
        · exact recorded.ranked j rk
        · exact within pre
    exact (rk.setQueue st.active _ (Nat.le_succ m) (fun _ => by simp; omega)
      fun pre recorded => recorded.push _ (within pre)).modify id
        ({ · with lane := some st.active }) fun _ => rfl

end Operations

theorem unset (fr : first.Frames t) :
    { first with running := none, cursor := none }.Frames { t with running := none } := by
  refine ⟨fr.setting_eq, rfl, fr.bounded, fr.tracked, fr.shorter, fun pre => ?_⟩
  have recorded := fr.recorded ⟨pre.ranked, pre.queued, pre.free⟩
  exact ⟨recorded.ranked, recorded.queued, recorded.free⟩

theorem begin (s : Scheduler) (id : Nat) : (s.begin id).Frames { s with running := some id } := by
  refine ((refl _).modify id ({ · with state := .running }) fun _ => rfl).congr rfl rfl rfl rfl
    fun _ recorded => ⟨fun j rk => recorded.ranked j ?_, recorded.queued, recorded.free⟩
  exact (congrArg (j ∈ ·) (toList_cutAt s.ranking id)).mp rk

theorem run (s : Scheduler) (rn : Runner) (id : Nat) :
    (s.run rn id).Frames { s with running := none } := by
  let turn := rn (s.begin id) ((s.begin id).thread id).entry
  let moved := turn.events.foldl Scheduler.apply (s.begin id)
  have left : { moved with scope := turn.scope, notices := turn.notices ++ moved.notices }.Frames
      { s with running := some id } :=
    ((begin s id).foldl_apply turn.events).congr rfl rfl rfl rfl fun _ recorded =>
      ⟨recorded.ranked, recorded.queued, recorded.free⟩
  unfold Scheduler.run finish
  dsimp only
  split
  · exact (left.kill id).unset
  · exact left.unset

end Frames

/-- One turn of the loop that runs threads: the first thread of the current offset goes on waiting
or runs; without one the search moves on, unless nothing is left to do. -/
def turn? (sched : Scheduler) (runner : Runner) : Option Scheduler :=
  match sched.next? with
  | none => if sched.isDone then none else some sched.advance
  | some (id, rest) =>
    let sched := sched.take id rest
    some (if 0 < (sched.thread id).delay then sched.postpone id else sched.run runner id)

def Turns (runner : Runner) : Scheduler → Scheduler → Prop :=
  Relation.ReflTransGen fun sched after => sched.turn? runner = some after

variable {s : Scheduler} {rn : Runner} {id : Nat} {r : Queue}

theorem next?_eq_none_iff : s.next? = none ↔ (s.queue s.active).toList = [] := by
  have popped := Queue.map_pop? (s.queue s.active)
  rw [← next?] at popped
  constructor
  · intro no
    rw [no] at popped
    by_contra some
    rw [if_neg some] at popped
    simp at popped
  · intro empty
    rw [if_pos empty] at popped
    simpa using popped

theorem turn_of_next? (rn : Runner) (fst : s.next? = some (id, r)) :
    ∃ t, s.turn? rn = some t ∧ t.setting = s.setting ∧
      t = (if 0 < ((s.take id r).thread id).delay then (s.take id r).postpone id
        else (s.take id r).run rn id) ∧
      (t.queue s.active).toList.length ≤ r.toList.length := by
  have taken := (Frames.refl s).take fst
  have left : ((s.take id r).queue s.active).toList = r.toList := by simp [take]
  refine ⟨_, by rw [turn?, fst], ?_, rfl, ?_⟩
  · split
    · exact (Agrees.postpone _ id).setting_eq.trans taken.setting_eq
    · exact (Frames.run _ rn id).setting_eq.trans taken.setting_eq
  · rw [← left, ← taken.active_eq]
    split
    · simp [postpone, enqueue]
    · exact (Frames.run _ rn id).shorter

theorem turn?_eq_none_iff : s.turn? rn = none ↔ s.next? = none ∧ s.isDone = true := by
  unfold turn?
  split <;> simp_all

/-- The closure that the next turn runs, if it runs one: what the runner is given. -/
def closing (sched : Scheduler) : List (Scheduler × Nat) :=
  match sched.next? with
  | none => []
  | some (id, rest) =>
    let sched := sched.take id rest
    if 0 < (sched.thread id).delay then []
    else [(sched.begin id, ((sched.begin id).thread id).entry)]

/-- Some turns, and the closures that they run, in this order. -/
inductive Plays (runner : Runner) : Scheduler → List (Scheduler × Nat) → Scheduler → Prop where
  | nil {sched} : Plays runner sched [] sched
  | cons {sched next final closures}
      (turned : sched.turn? runner = some next) (plays : Plays runner next closures final) :
      Plays runner sched (sched.closing ++ closures) final

theorem closing_of_next? (fst : s.next? = some (id, r)) :
    s.closing = if 0 < ((s.take id r).thread id).delay then []
      else [((s.take id r).begin id, (((s.take id r).begin id).thread id).entry)] := by
  simp [closing, fst]

namespace Plays

variable {t u : Scheduler} {log log' : List (Scheduler × Nat)}

theorem turns (plays : Plays rn s log t) : Turns rn s t := by
  induction plays with
  | nil => exact .refl
  | cons turned _ ih => exact .head turned ih

theorem trans (fst : Plays rn s log t) (snd : Plays rn t log' u) : Plays rn s (log ++ log') u := by
  induction fst with
  | nil => exact snd
  | cons turned _ ih =>
    rw [append_assoc]
    exact .cons turned (ih snd)

theorem advance (no : s.next? = none) (unfinished : s.isDone = false)
    (plays : Plays rn s.advance log t) : Plays rn s log t := by
  have quiet : s.closing = [] := by simp [closing, no]
  have moved : s.turn? rn = some s.advance := by simp [turn?, no, unfinished]
  have all := Plays.cons moved plays
  rwa [quiet] at all

end Plays

theorem drain_plays (rn : Runner) (n : Nat) (lim : Option Nat) (s : Scheduler)
    (enough : (s.queue s.active).toList.length ≤ n) :
    ∃ log, Plays rn s log (drain rn n lim s).2 ∧ (drain rn n lim s).2.setting = s.setting ∧
      (drain rn n lim s).1 = lim.map (· - log.length) ∧ (∀ k ∈ lim, log.length ≤ k) ∧
      ((drain rn n lim s).1 = some 0 ∨ (drain rn n lim s).2.next? = none) := by
  induction n generalizing s lim with
  | zero =>
    have empty := length_eq_zero_iff.mp (Nat.le_zero.mp enough)
    exact ⟨[], .nil, rfl, by simp [drain], by simp, .inr (next?_eq_none_iff.mpr empty)⟩
  | succ n ih =>
    by_cases stopped : lim = some 0
    · subst stopped
      exact ⟨[], .nil, rfl, rfl, by simp, .inl rfl⟩
    rw [drain.eq_3 _ _ _ _ stopped]
    cases fst : s.next? with
    | none => exact ⟨[], .nil, rfl, by simp, by simp, .inr fst⟩
    | some popped =>
      obtain ⟨id, r⟩ := popped
      obtain ⟨t, turn, eq, after_eq, fewer⟩ := turn_of_next? rn fst
      have eqAct : t.active = s.active := congrArg Setting.active eq
      have parts := toList_of_next? fst
      have run := closing_of_next? fst
      have enough' : (t.queue t.active).toList.length ≤ n := by
        rw [eqAct]
        rw [parts, length_cons] at enough
        omega
      simp only
      split
      · next delayed =>
        rw [if_pos delayed] at after_eq run
        obtain ⟨log, plays, kept, rest⟩ := ih lim t enough'
        have all := Plays.cons turn plays
        rw [run] at all
        rw [after_eq] at all kept rest eq
        exact ⟨log, all, kept.trans eq, rest⟩
      · next due =>
        rw [if_neg due] at after_eq run
        obtain ⟨log, plays, kept, left, le, drained⟩ := ih (lim.map (· - 1)) t enough'
        have all := Plays.cons turn plays
        rw [run] at all
        rw [after_eq] at all kept left drained eq
        refine ⟨_, all, kept.trans eq, left.trans ?_, fun k got => ?_, drained⟩
        · rw [Option.map_map]
          exact congrArg (lim.map ·) (funext fun k => by simp; omega)
        · obtain rfl := got
          have one := le (k - 1) rfl
          have pos : k ≠ 0 := fun zero => stopped (by rw [zero])
          simp only [cons_append, nil_append, length_cons]
          omega

/-- Moving on to the next byte, before a thread starts there. -/
def moveOn (sched : Scheduler) : Scheduler :=
  { sched with offset := sched.offset + 1, active := !sched.active, bitmapOwner := none }.position

theorem advance_eq (s : Scheduler) : s.advance =
    if s.moveOn.anchorsStart || s.moveOn.matched then s.moveOn
    else s.moveOn.seed := rfl

theorem setting_seed (s : Scheduler) : s.seed.setting = s.setting := (Frames.refl s).seed.setting_eq

theorem remaining_advance (unfinished : s.isDone = false) :
    s.advance.remaining + 1 = s.remaining := by
  have inText : s.offset < s.text.size := by
    by_contra beyond
    simp only [isDone, Bool.or_eq_false_iff, decide_eq_false_iff_not] at unfinished
    omega
  have moved : s.advance.setting = s.moveOn.setting := by
    rw [advance_eq]
    split
    · rfl
    · exact setting_seed _
  have offset : s.advance.offset = s.offset + 1 := congrArg Setting.offset moved
  have text : s.advance.text = s.text := congrArg Setting.text moved
  rw [remaining, remaining, offset, text]
  omega

theorem dispatchFrom_plays (rn : Runner) (offs : Nat) (lim : Option Nat)
    (s : Scheduler) (enough : s.remaining < offs) : ∃ log z, Plays rn s log z ∧
      (dispatchFrom rn offs lim s = (true, z) ∧ lim = some log.length ∨
        dispatchFrom rn offs lim s = (false, z.noteDropped) ∧ z.turn? rn = none ∧
          ∀ k ∈ lim, log.length < k) := by
  induction offs generalizing s lim with
  | zero => exact absurd enough (Nat.not_lt_zero _)
  | succ offs ih =>
    obtain ⟨log, plays, eq, left, le, drained⟩ := drain_plays rn _ lim s (Nat.le_refl _)
    rw [dispatchFrom]
    cases res : drain rn (s.queue s.active).toList.length lim s with
    | mk l t =>
    rw [res] at plays eq left drained
    dsimp only at plays eq left drained
    by_cases interrupted : l = some 0
    · subst interrupted
      obtain ⟨k, rfl, spent⟩ := Option.map_eq_some_iff.mp left.symm
      exact ⟨log, t, plays, .inl ⟨rfl, congrArg some (by have := le k rfl; omega)⟩⟩
    have no := drained.resolve_left interrupted
    have lt : ∀ k ∈ lim, log.length < k := by
      rintro k rfl
      have ne : k - log.length ≠ 0 := fun zero => interrupted (by rw [left, Option.map_some, zero])
      omega
    simp only
    cases fin : t.isDone with
    | true => exact ⟨log, t, plays, .inr ⟨by simp, by simp [turn?, no, fin], lt⟩⟩
    | false =>
      have fewer := remaining_advance fin
      have sameRemaining : t.remaining = s.remaining := by
        have offset : t.offset = s.offset := congrArg Setting.offset eq
        have text : t.text = s.text := congrArg Setting.text eq
        rw [remaining, remaining, offset, text]
      obtain ⟨log', z, plays', ended⟩ := ih l t.advance (by omega)
      refine ⟨log ++ log', z, plays.trans (.advance no fin plays'), ?_⟩
      simp only [Bool.false_eq_true, if_false, length_append]
      rcases ended with ⟨cut, all⟩ | ⟨cut, stops, below⟩
      · obtain ⟨k, rfl, rest⟩ := Option.map_eq_some_iff.mp (left.symm.trans all)
        exact .inl ⟨cut, congrArg some (by have := lt k rfl; omega)⟩
      · refine .inr ⟨cut, stops, ?_⟩
        rintro k rfl
        have : log'.length < k - log.length := below _ left
        omega

/-- A call takes turns of the loop: as many as run the closures that it may run, or all that are
left. -/
theorem dispatch_plays (rn : Runner) (s : Scheduler) (m : Int) : ∃ log z, Plays rn s log z ∧
      (s.dispatch rn m = (true, z) ∧ 0 < m ∧ (log.length : Int) = m ∨
        s.dispatch rn m = (false, z.noteDropped) ∧ z.turn? rn = none ∧
          (0 < m → (log.length : Int) < m)) := by
  obtain ⟨log, z, plays, ended⟩ := dispatchFrom_plays rn (s.remaining + 1)
    (if m ≤ 0 then none else some m.toNat) s (Nat.lt_succ_self _)
  refine ⟨log, z, plays, ended.imp (fun ⟨cut, all⟩ => ⟨cut, ?_⟩) fun ⟨cut, stops, below⟩ =>
    ⟨cut, stops, fun pos => ?_⟩⟩
  · split at all
    · cases all
    · have := Option.some.inj all
      omega
  · rw [if_neg (by omega)] at below
    have := below _ rfl
    omega

theorem dispatch_zero (rn : Runner) (s : Scheduler) : ∃ f, s.dispatch rn 0 = (false, f) := by
  obtain ⟨log, z, -, ⟨-, pos, -⟩ | ⟨ended, -⟩⟩ := dispatch_plays rn s 0
  · simp at pos
  · exact ⟨_, ended⟩

theorem dispatch_turns (rn : Runner) (s : Scheduler) (m : Int) : ∃ z, Turns rn s z ∧
      (s.dispatch rn m = (true, z) ∨
        s.dispatch rn m = (false, z.noteDropped) ∧ z.turn? rn = none) := by
  obtain ⟨log, z, plays, ended⟩ := dispatch_plays rn s m
  exact ⟨z, plays.turns, ended.imp And.left fun ⟨cut, stops, _⟩ => ⟨cut, stops⟩⟩

end Rematch.Scheduler
