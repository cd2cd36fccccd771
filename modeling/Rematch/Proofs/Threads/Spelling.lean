import Rematch.Proofs.Threads.History
import Rematch.Proofs.Threads.Layout

/-!
The links of the records follow the lists of the scheduler. The places of the records say what a
turn does to the lists; here each operation on the links is shown to spell the lists that the
scheduler has after the same operation.
-/

namespace Rematch

open List Layout Ranking

namespace Scheduler

variable {s : Scheduler} {n lo now won : List Nat} {id : Nat}
variable {order : List Nat}

section

variable (roster : s.Roster n lo now won)
include roster

theorem Roster.waiting_eq (l : Lane) : s.waiting l = if l = s.active then now else n := by
  split
  · next here => rw [here, waiting, roster.activeQueue]
  · next there => rw [Bool.eq_not.mpr there, waiting, roster.nextQueue]

theorem Roster.mem_waiting_iff (l : Lane) (id : Nat) :
    id ∈ s.waiting l ↔ id < s.arena.size ∧ (s.thread id).lane = some l := by
  rw [roster.waiting_eq]
  split
  · next here =>
    rw [here]
    exact (roster.mem_iff .now id).trans (and_congr_right fun _ => Thread.place_eq_now_iff _ _)
  · next there =>
    rw [Bool.eq_not.mpr there]
    exact (roster.mem_iff .next id).trans (and_congr_right fun _ => Thread.place_eq_next_iff _ _)

theorem Roster.not_mem_waiting (id : Nat) (pl : id ∈ lo) (l : Lane) : id ∉ s.waiting l := by
  intro queued
  have unqueued := (roster.of_mem_loose id pl).2.2
  simp [((roster.mem_waiting_iff l id).mp queued).2] at unqueued

theorem Roster.waiting_nodup (l : Lane) : (s.waiting l).Nodup := by
  rw [roster.waiting_eq]
  split
  · exact roster.nodup .now
  · exact roster.nodup .next

theorem Roster.waiting_apart (l : Lane) : ∀ id ∈ s.waiting (!l), id ∉ s.waiting l := by
  intro id there here
  rw [roster.mem_waiting_iff] at there here
  rw [here.2] at there
  cases l <;> simp at there

theorem Roster.mem_live_iff (id : Nat) :
    id ∈ n ++ lo ++ now ++ won ↔ id < s.arena.size ∧ id ∉ s.free := by
  have places := fun p => roster.mem_iff p id
  have free := places .free
  have nextIff := places .next
  have looseIff := places .loose
  have nowIff := places .now
  have wonIff := places .won
  simp only [Place.pick] at free nextIff looseIff nowIff wonIff
  simp only [mem_append, nextIff, looseIff, nowIff, wonIff, free]
  cases (s.thread id).place s.active <;> simp

theorem Roster.nodup_live : (n ++ lo ++ now ++ won).Nodup := by
  have apart : ∀ (p o : Place), o ≠ p → ∀ id ∈ p.pick n lo now won s.free,
        id ∉ o.pick n lo now won s.free :=
    fun p o ne id pl => roster.not_mem o pl ne
  have one := apart .loose .next (by simp)
  have two := apart .now .next (by simp)
  have three := apart .now .loose (by simp)
  have four := apart .won .next (by simp)
  have five := apart .won .loose (by simp)
  have six := apart .won .now (by simp)
  have nodup := roster.nodup
  have fst := nodup .next
  have snd := nodup .loose
  have third := nodup .now
  have fourth := nodup .won
  simp only [Place.pick] at *
  simp only [nodup_append, mem_append]
  grind

end

/-- The ranking lists the live records, each of them once. -/
structure Placed (sched : Scheduler) (order : List Nat) : Prop where
  nodup : order.Nodup
  mem_iff : ∀ id, id ∈ order ↔ id < sched.arena.size ∧ id ∉ sched.free

theorem Roster.placed (roster : s.Roster n lo now won) (perm : order.Perm (n ++ lo ++ now ++ won)) :
    s.Placed order :=
  ⟨perm.nodup_iff.mpr roster.nodup_live, fun id => perm.mem_iff.trans (roster.mem_live_iff id)⟩

theorem Placed.apart (pl : s.Placed order) : ∀ id ∈ s.free, id ∉ order :=
  fun id free rk => ((pl.mem_iff id).mp rk).2 free

section

variable (roster : s.Roster n lo now won) (lt : id < s.arena.size) (live : id ∉ s.free)

include roster lt live

theorem Roster.state_ne_dead : (s.thread id).state ≠ .dead := by
  intro dead
  apply live
  refine (roster.mem_iff .free id).mpr ⟨lt, ?_⟩
  cases lane : (s.thread id).lane with
  | none => rw [Thread.place_unqueued _ _ lane, dead]
  | some held =>
    have pend := roster.pending id lt (by simp [lane])
    simp [dead] at pend

theorem Roster.exists_retire :
    ∃ n' lo' now' won', (s.retire id).Roster n' lo' now' won' := by
  have pl := (roster.mem_iff ((s.thread id).place s.active) id).mpr ⟨lt, rfl⟩
  refine ⟨n.erase id, lo.erase id, now.erase id, won.erase id,
    roster.retire _ ?_ pl ?_ fun o ne => ?_⟩
  · intro isFree
    rw [isFree] at pl
    exact live pl
  · have gone : s.free = s.free.erase id := (erase_of_not_mem live).symm
    cases (s.thread id).place s.active <;> first | rfl | exact gone
  · have kept := erase_of_not_mem (roster.not_mem o pl ne)
    cases o <;> first | rfl | exact kept

end

theorem Placed.retire {u v : List Nat} (pl : s.Placed (u ++ id :: v)) :
    (s.retire id).Placed (u ++ v) := by
  have unique := nodup_cons.mp (nodup_middle.mp pl.nodup)
  refine ⟨unique.2, ?_⟩
  intro j
  rw [arena_size_retire, retire_free]
  have rk := pl.mem_iff j
  by_cases eq : j = id
  · subst eq
    simpa using unique.1
  · simp only [mem_append, mem_cons, eq, false_or] at rk ⊢
    exact rk

section

variable (s : Scheduler)

theorem waiting_allocate : s.allocate.2.waiting = s.waiting := by
  unfold allocate
  split
  · rfl
  · dsimp only
    split <;> rfl

theorem waiting_modify (id : Nat) (f : Thread → Thread) : (s.modify id f).waiting = s.waiting := by
  funext l
  rw [waiting, waiting, queue_modify]

theorem waiting_enqueue (l : Lane) (id : Nat) : (s.enqueue l id).waiting =
      Function.update s.waiting l (s.waiting l ++ [id]) := by
  funext p
  by_cases here : p = l
  · subst here
    simp [waiting, enqueue]
  · obtain rfl := Bool.eq_not.mpr here
    simp [waiting, enqueue]

theorem order_enqueue (l : Lane) (id : Nat) : (s.enqueue l id).order = s.order :=
  congrArg toList (Agrees.enqueue s l id).ranking_eq

theorem enqueue_free (l : Lane) (id : Nat) : (s.enqueue l id).free = s.free := by
  simp [enqueue]

theorem waiting_fork (e : Nat) (c : Captures) : (s.fork e c).2.waiting = s.waiting := by
  have allocated := waiting_allocate s
  unfold fork
  cases alloc : s.allocate with
  | mk found st =>
  rw [alloc] at allocated
  cases found with
  | none => exact allocated
  | some id =>
    rw [← allocated]
    funext l
    cases l <;> rfl

theorem free_fork (e : Nat) (c : Captures) : (s.fork e c).2.free = s.allocate.2.free := by
  unfold fork
  cases alloc : s.allocate with
  | mk found st => cases found <;> rfl

theorem fst_fork (e : Nat) (c : Captures) : (s.fork e c).1 = s.allocate.1 := by
  unfold fork
  cases alloc : s.allocate with
  | mk found st => cases found <;> rfl

theorem retire_ranking (id : Nat) (rk : Ranking) :
    ({ s with ranking := rk } : Scheduler).retire id = { s.retire id with ranking := rk } := by
  have eq : ({ s with ranking := rk } : Scheduler).thread id = s.thread id := rfl
  unfold retire dequeue
  rw [eq]
  cases lane : (s.thread id).lane with
  | none => rfl
  | some held => cases held <;> rfl

end

theorem foldl_retire_ranking (ids : List Nat) (s : Scheduler) (rk : Ranking) :
    ids.foldl retire { s with ranking := rk } = { ids.foldl retire s with ranking := rk } := by
  induction ids generalizing s with
  | nil => rfl
  | cons id r ih =>
    rw [foldl_cons, foldl_cons, ← ih]
    rw [retire_ranking]

theorem Placed.perm (pl : s.Placed order) (nodup : s.free.Nodup)
    (within : ∀ id ∈ s.free, id < s.arena.size) :
    (order ++ s.free).Perm (List.range s.arena.size) := by
  refine (perm_ext_iff_of_nodup ?_ nodup_range).mpr ?_
  · refine nodup_append.mpr ⟨pl.nodup, nodup, ?_⟩
    rintro id rk j isFree rfl
    exact pl.apart id isFree rk
  · intro id
    rw [mem_append, pl.mem_iff, mem_range]
    constructor
    · rintro (⟨lt, -⟩ | isFree)
      · exact lt
      · exact within id isFree
    · intro lt
      by_cases isFree : id ∈ s.free
      · exact .inr isFree
      · exact .inl ⟨lt, isFree⟩

theorem Placed.length_le (pl : s.Placed order) : order.length ≤ s.arena.size := by
  have within : order ⊆ List.range s.arena.size := fun id rk =>
    mem_range.mpr ((pl.mem_iff id).mp rk).1
  simpa using (subperm_of_subset pl.nodup within).length_le

namespace During

variable {u v : List Nat}

section

variable (during : s.During id u v now won)
include during

theorem order_eq : s.order = u ++ id :: v ++ (now ++ won) := by
  rw [order, during.ranking_eq]
  simp [toList]

theorem placed : s.Placed s.order := by
  apply during.toRoster.placed
  rw [during.order_eq]
  have front : (u ++ id :: v).Perm (u ++ v ++ [id]) :=
    perm_middle.trans (perm_append_singleton _ _).symm
  simpa using front.append_right (now ++ won)

theorem order_eq_cursor : ∃ f cur, s.cursor = some cur ∧ u ++ id :: v = f ++ [cur] := by
  refine ⟨u ++ (id :: v).dropLast, _, during.cursor_eq, ?_⟩
  rw [append_assoc, dropLast_append_getLast]

end

end During

namespace Ending

variable {u v : List Nat}

theorem placed (ending : s.Ending id u v now won) : s.Placed s.order := by
  apply ending.toRoster.placed
  rw [ending.order_eq]
  have front : (u ++ id :: v).Perm (u ++ v ++ [id]) :=
    perm_middle.trans (perm_append_singleton _ _).symm
  simpa using front.append_right (now ++ won)

theorem state_fail (ending : s.Ending id u v now won) (run : s.running = some id) :
    (s.fail.thread id).state = .dead := by
  have lt := (ending.of_mem_loose id (by simp)).1
  have killed : s.fail = { s.retire id with ranking := s.ranking.erase id } := by
    simp [fail, run, kill, ending.state_eq]
  rw [killed]
  change ((s.retire id).thread id).state = .dead
  rw [thread_retire_self s lt]

end Ending

end Scheduler

namespace Layout

open Scheduler

variable {L : Layout} {s : Scheduler} {n lo now won u v : List Nat} {id : Nat}

theorem Holds.allocate {order : List Nat} {qs : Lane → List Nat} (holds : L.Holds order qs s.free) :
    (L.allocate s).1 = s.allocate.1 ∧ (L.allocate s).2.Holds order qs s.allocate.2.free := by
  have fst := holds.free_eq
  unfold Layout.allocate Scheduler.allocate
  cases free : s.free with
  | cons id r =>
    rw [free] at fst holds
    simp only [fst, head?_cons, true_and]
    refine ⟨holds.ranking, holds.lanes, ?_, holds.stacked.2⟩
    exact congrArg Link.next holds.stacked.1
  | nil =>
    rw [free] at fst holds
    simp only [fst, head?_nil]
    split
    · exact ⟨rfl, by rw [free]; exact holds⟩
    · exact ⟨rfl, holds⟩

section

variable (spells : L.Spells s) (during : s.During id u v now won) (e : Nat)

include spells during e

theorem Spells.fork (c : Captures) :
    (L.fork s).1 = (s.fork e c).1 ∧ (L.fork s).2.Spells (s.fork e c).2 := by
  obtain ⟨sameId, holds⟩ := Holds.allocate spells
  rw [← free_fork s e c] at holds
  rw [← fst_fork s e c] at sameId
  unfold Layout.fork Spells
  rw [waiting_fork]
  cases res : s.fork e c with
  | mk found forked =>
  cases alloc : L.allocate s with
  | mk found' L' =>
  rw [res, alloc] at sameId holds
  subst sameId
  cases found' with
  | none =>
    have eq : forked.order = s.order := by
      obtain ⟨rfl, -⟩ := fork_none res
      rfl
    exact ⟨rfl, by rw [eq]; exact holds⟩
  | some new =>
    refine ⟨rfl, ?_⟩
    rw [← fork_fitted _ _ _ during.size_spare] at res
    obtain ⟨-, roster, ranking⟩ := during.fork (size_fitted s c) res
    obtain ⟨f, cur, cursor_eq, cut⟩ := during.order_eq_cursor
    have oldOrder : s.order = f ++ cur :: (now ++ won) := by
      rw [during.order_eq, cut]
      simp
    have newOrder : forked.order = f ++ cur :: new :: (now ++ won) := by
      have cut' : u ++ id :: (v ++ [new]) = f ++ [cur] ++ [new] := by
        rw [← cut]
        simp
      rw [order, ranking, cut']
      simp [toList]
    -- The new thread is one of the records in `forked`, so it is in no other list there.
    have pl : forked.Placed (f ++ cur :: new :: (now ++ won)) := by
      apply roster.placed
      have start : (f ++ [cur]).Perm (u ++ v ++ [id]) := by
        rw [← cut]
        exact perm_middle.trans (perm_append_singleton _ _).symm
      simpa using start.append_right (new :: (now ++ won))
    have parts : f ++ cur :: new :: (now ++ won) = (f ++ [cur]) ++ new :: (now ++ won) := by simp
    have parts' : f ++ cur :: (now ++ won) = (f ++ [cur]) ++ (now ++ won) := by simp
    have unique := nodup_cons.mp (nodup_middle.mp (parts ▸ pl.nodup))
    rw [cursor_eq, newOrder]
    rw [oldOrder] at holds
    apply holds.insertAfter
    · rw [parts']
      exact unique.2
    · rw [parts']
      exact unique.1
    · intro isFree
      exact pl.apart new isFree (by simp)
    · intro j isFree rk
      refine pl.apart j isFree ?_
      simp only [mem_append, mem_cons] at rk ⊢
      tauto

theorem Spells.wait (n : Int) (c : Captures) : (L.wait s n).Spells (s.wait e n c) := by
  unfold Layout.wait Scheduler.wait
  split
  · exact spells
  · obtain ⟨sameId, forkedSpells⟩ := spells.fork during e c
    have res := fork_fitted s e c during.size_spare
    cases outcome : s.fork e c with
    | mk found forked =>
    cases alloc : L.fork s with
    | mk found' L' =>
    rw [outcome, alloc] at sameId forkedSpells
    rw [outcome] at res
    subst sameId
    cases found' with
    | none => exact forkedSpells
    | some new =>
      obtain ⟨facts, roster, -⟩ := during.fork (size_fitted s c) res
      have eqAct : forked.active = s.active := congrArg Setting.active facts.setting_eq
      have loose := roster.not_mem_waiting new (by simp)
      dsimp only [Spells]
      rw [order_enqueue, waiting_enqueue, enqueue_free, waiting_modify, eqAct]
      exact forkedSpells.enqueue (!s.active) (roster.waiting_nodup _) loose (roster.waiting_apart _)

end

theorem Holds.kill (roster : s.Roster n lo now won)
    (holds : L.Holds (u ++ id :: v) s.waiting s.free) (pl : s.Placed (u ++ id :: v)) :
    (L.kill s id).Holds (u ++ v) (s.retire id).waiting (s.retire id).free := by
  obtain ⟨lt, live⟩ := (pl.mem_iff id).mp (by simp)
  have nodup := pl.nodup
  have left : ∀ l, (s.retire id).waiting l =
      if (s.thread id).lane = some l then (s.waiting l).erase id
      else s.waiting l := fun l => queue_retire s id l
  have unranked : id ∉ u ++ v := (nodup_cons.mp (nodup_middle.mp nodup)).1
  rw [Layout.kill, if_neg (roster.state_ne_dead lt live), retire_free]
  cases lane : (s.thread id).lane with
  | none =>
    have eq : (s.retire id).waiting = s.waiting := by
      funext p
      rw [left, lane, if_neg (by simp)]
    rw [eq]
    exact (holds.unlink nodup pl.apart).release unranked live
  | some held =>
    obtain ⟨f, b, queued⟩ := mem_iff_append.mp
      ((roster.mem_waiting_iff held id).mpr ⟨lt, lane⟩)
    have queueNodup := roster.waiting_nodup held
    have eq : (s.retire id).waiting = Function.update s.waiting held (f ++ b) := by
      funext p
      rw [left, lane]
      by_cases here : held = p
      · subst here
        rw [queued] at queueNodup ⊢
        have absent : id ∉ f := fun inFront =>
          (nodup_append.mp queueNodup).2.2 id inFront id (by simp) rfl
        simp [erase_append_right _ absent]
      · rw [if_neg (by simpa using here), Function.update_of_ne (Ne.symm here)]
    rw [eq]
    exact (((holds.dequeue queued queueNodup (roster.waiting_apart held)).unlink nodup
      pl.apart).release unranked live)

theorem Spells.kill (spells : L.Spells s) (roster : s.Roster n lo now won)
    (pl : s.Placed s.order) (rk : id ∈ s.order) : (L.kill s id).Spells (s.kill id) := by
  obtain ⟨lt, live⟩ := (pl.mem_iff id).mp rk
  obtain ⟨u, v, parts⟩ := mem_iff_append.mp rk
  have unique := nodup_cons.mp (nodup_middle.mp (parts ▸ pl.nodup))
  simp only [mem_append, not_or] at unique
  have order_eq : (s.kill id).order = u ++ v := by
    rw [Scheduler.kill, if_neg (roster.state_ne_dead lt live)]
    exact Ranking.toList_erase s.ranking parts unique.1.1 unique.1.2
  have others : (s.kill id).waiting = (s.retire id).waiting ∧
      (s.kill id).free = (s.retire id).free := by
    rw [Scheduler.kill, if_neg (roster.state_ne_dead lt live)]
    exact ⟨rfl, rfl⟩
  unfold Spells at spells ⊢
  rw [order_eq, others.1, others.2]
  rw [parts] at spells pl
  exact spells.kill roster pl

theorem Holds.killFrom {below : List Nat} (roster : s.Roster n lo now won)
    (holds : L.Holds (u ++ below) s.waiting s.free)
    (pl : s.Placed (u ++ below)) {m : Nat} (enough : below.length ≤ m) :
    (L.killFrom m s below.head?).Holds u
      (below.foldl retire s).waiting (below.foldl retire s).free := by
  induction below generalizing s L n lo now won m with
  | nil =>
    rw [append_nil] at holds
    cases m <;> exact holds
  | cons id r ih =>
    obtain ⟨lt, live⟩ := (pl.mem_iff id).mp (by simp)
    obtain ⟨n', lo', now', won', retired⟩ := roster.exists_retire lt live
    have follows : (L.ranks id).next = r.head? := by
      have link := holds.ranking.joined.link_eq
      exact (congrArg Link.next link).trans Option.or_none
    cases m with
    | zero => simp at enough
    | succ m =>
      rw [head?_cons, killFrom, follows, foldl_cons]
      exact ih retired (holds.kill roster pl) pl.retire (by simpa using enough)

/-- The links of the last thread that the closure has started lead to the threads below. -/
theorem Spells.killBelowCursor (spells : L.Spells s) (during : s.During id u v now won) :
    (L.killBelowCursor s).Spells s.killBelowCursor := by
  obtain ⟨f, cur, cursor_eq, cut⟩ := during.order_eq_cursor
  have pl := during.placed
  have holds : L.Holds s.order s.waiting s.free := spells
  have order_eq : s.order = f ++ [cur] ++ (now ++ won) := by rw [during.order_eq, cut]
  rw [order_eq] at pl holds
  have follows : (L.ranks cur).next = (now ++ won).head? := by
    have parts : f ++ [cur] ++ (now ++ won) = f ++ cur :: (now ++ won) := by simp
    rw [parts] at holds
    exact (congrArg Link.next holds.ranking.joined.link_eq).trans Option.or_none
  have enough : (now ++ won).length ≤ s.arena.size := by
    have le := pl.length_le
    rw [length_append] at le
    omega
  have killed : s.killBelowCursor =
      { (now ++ won).foldl retire s with
        ranking := ⟨(u ++ id :: v).reverse, []⟩ } := by
    rw [during.killBelowCursor_eq, foldl_retire_ranking]
  have order' : s.killBelowCursor.order = f ++ [cur] := by
    rw [killed, ← cut]
    simp [order, toList]
  unfold Spells
  rw [order', Layout.killBelowCursor, cursor_eq, killed]
  dsimp only [Layout.killBelow]
  rw [follows]
  exact holds.killFrom during.toRoster pl enough

theorem Spells.recordMatch (spells : L.Spells s) (during : s.During id u v now won) (c : Captures) :
    (L.recordMatch s c).Spells (s.recordMatch c).2 := by
  unfold Layout.recordMatch Scheduler.recordMatch
  split
  · exact spells
  · have killed := during.killBelowCursor
    obtain ⟨sameId, forkedSpells⟩ := (spells.killBelowCursor during).fork killed 0 c
    have res := fork_fitted s.killBelowCursor 0 c killed.size_spare
    cases outcome : s.killBelowCursor.fork 0 c with
    | mk found forked =>
    cases alloc : (L.killBelowCursor s).fork s.killBelowCursor with
    | mk found' L' =>
    rw [outcome, alloc] at sameId forkedSpells
    rw [outcome] at res
    subst sameId
    cases found' with
    | none => exact forkedSpells
    | some new =>
      obtain ⟨-, roster, ranking⟩ := killed.fork (size_fitted _ c) res
      -- The match is the last thread, so there is nothing left to end.
      have last : forked.order = (u ++ id :: v) ++ [new] := by
        rw [order, ranking]
        simp [toList]
      have no : (L'.ranks new).next = none := by
        have holds : L'.Holds forked.order forked.waiting forked.free := forkedSpells
        rw [last] at holds
        exact congrArg Link.next holds.ranking.joined.link_eq
      have unchanged : L'.killBelow forked new = L' := by
        rw [killBelow, no]
        cases forked.arena.size <;> rfl
      have cut : forked.ranking = ⟨new :: (u ++ id :: v).reverse, []⟩ := by
        rw [ranking]
        simp
      dsimp only
      rw [unchanged, killBelow_last cut]
      exact forkedSpells

theorem Spells.setVisitId (spells : L.Spells s) (v : Nat) : L.Spells (s.setVisitId v) := spells

theorem Spells.applyAll (evs : List Event) (spells : L.Spells s) (during : s.During id u v now won)
    (run : s.running = some id) (lawful : Event.Lawful s.mayMatch evs) :
    (L.applyAll s evs).Spells (evs.foldl Scheduler.apply s) := by
  induction evs generalizing s L v with
  | nil => exact spells
  | cons ev r ih =>
    have fr := (Frames.refl s).apply ev
    have eqMay := mayMatch_congr fr.setting_eq
    have stillRunning := fr.running_eq.trans run
    cases ev with
    | wait e n c vi =>
      have started := during.setVisitId vi
      obtain ⟨v', waiting⟩ := started.exists_wait e n c
      exact ih ((spells.setVisitId vi).wait started e n c)
        waiting stillRunning (by rw [eqMay]; exact lawful)
    | accept c vi =>
      have started := during.setVisitId vi
      have recorded := (spells.setVisitId vi).recordMatch started c
      cases allowed : s.mayMatch with
      | true =>
        rw [lawful.1 allowed]
        exact recorded
      | false =>
        have refused : s.apply (.accept c vi) = s.setVisitId vi := recordMatch_refused c allowed
        rw [foldl_cons, refused, applyAll, refused]
        have kept : L.apply s (.accept c vi) = L := by
          have early : (s.setVisitId vi).mayMatch = false := allowed
          simp [apply, Layout.recordMatch, early]
        rw [kept]
        exact ih (spells.setVisitId vi) started run lawful.2
    | fail =>
      have last : r = [] := lawful
      subst last
      change (L.fail s).Spells s.fail
      simp only [Layout.fail, Scheduler.fail, run]
      refine spells.kill during.toRoster during.placed ?_
      rw [during.order_eq]
      simp

section

variable (spells : L.Spells s)
include spells

theorem Spells.finish (ending : s.Ending id u v now won) (sc : Scope) (ns : List Notice) :
    (L.finish s id).Spells ({ s with scope := sc, notices := ns }.finish id) := by
  have noted : L.Spells { s with scope := sc, notices := ns } := spells
  have roster : ({ s with scope := sc, notices := ns } : Scheduler).Roster (u ++ v) [id] now won :=
    ending.toRoster.congr rfl rfl rfl rfl
  have pl : ({ s with scope := sc, notices := ns } : Scheduler).Placed s.order :=
    ⟨ending.placed.nodup, ending.placed.mem_iff⟩
  have state : (({ s with scope := sc, notices := ns } : Scheduler).thread id).state = .running :=
    ending.state_eq
  have rk : id ∈ s.order := by
    rw [ending.order_eq]
    simp
  unfold Layout.finish Scheduler.finish
  rw [if_pos ending.state_eq, if_pos state]
  exact noted.kill roster pl rk

variable {rn : Runner}

theorem Spells.run (rk : s.Ranked n [id] now won) (lawful : rn.Lawful) :
    (L.run s rn id).Spells (s.run rn id) := by
  have begun := rk.begin
  have rules := (lawful (s.begin id) ((s.begin id).thread id).entry rk.begin_work).1
  have sameOrder : (s.begin id).order = s.order := toList_cutAt s.ranking id
  have beginSpells : L.Spells (s.begin id) := by
    unfold Spells
    rw [sameOrder]
    exact spells
  unfold Layout.run Scheduler.run
  dsimp only
  generalize rn (s.begin id) ((s.begin id).thread id).entry = turn at rules ⊢
  have applied := beginSpells.applyAll turn.events begun rfl rules
  obtain ⟨v, now', won', ending, -, -, -⟩ := begun.absorb rk.single rk.matched_eq
    (tame_orderly _ turn.events rules)
  rcases begun.foldl_tame turn.events rules with eq | ended
  · rw [eq] at applied ⊢
    exact applied.finish ending turn.scope _
  · -- The closure has ended its thread itself.
    rw [ended] at applied ⊢
    have dead : ((((s.begin id).tame turn.events).foldl Scheduler.apply
        (s.begin id)).fail.thread id).state = .dead := by
      apply ending.state_fail
      exact ((Frames.refl _).foldl_apply _).running_eq
    unfold Layout.finish Scheduler.finish
    rw [if_neg (by simp [dead]), if_neg (by
      change ¬(Scheduler.thread (Scheduler.fail _) id).state = .running
      simp [dead])]
    exact applied

theorem Spells.take (rk : s.Ranked n [] (id :: now) won) {r : Queue} (left : r.toList = now) :
    (L.dequeue s.active id).Spells (s.take id r) := by
  have queued : s.waiting s.active = [] ++ id :: now := rk.activeQueue
  have dequeued := Holds.dequeue spells queued (rk.waiting_nodup _) (rk.waiting_apart _)
  have agrees := Agrees.take s id r
  have order_eq : (s.take id r).order = s.order := congrArg toList agrees.ranking_eq
  have waiting_eq : (s.take id r).waiting = Function.update s.waiting s.active now := by
    funext l
    by_cases here : l = s.active
    · subst here
      simp [waiting, Scheduler.take, left]
    · obtain rfl := Bool.eq_not.mpr here
      simp [waiting, Scheduler.take]
  have free_eq : (s.take id r).free = s.free := by simp [Scheduler.take]
  unfold Spells
  rw [order_eq, waiting_eq, free_eq]
  exact dequeued

theorem Spells.postpone (rk : s.Ranked n [id] now won) :
    (L.enqueue (!s.active) id).Spells (s.postpone id) := by
  unfold Spells Scheduler.postpone
  rw [order_enqueue, waiting_enqueue, enqueue_free, waiting_modify]
  exact Holds.enqueue spells _ (rk.waiting_nodup _) (rk.not_mem_waiting id (by simp))
    (rk.waiting_apart _)

theorem Spells.seed (rk : s.Ranked n [] now []) : (L.seed s).Spells s.seed := by
  obtain ⟨sameId, holds⟩ := Holds.allocate spells
  cases alloc : s.allocate with
  | mk found al =>
  cases alloc' : L.allocate s with
  | mk found' L' =>
  have agrees := Agrees.allocate s
  have sameWaiting := waiting_allocate s
  rw [alloc, alloc'] at sameId holds
  rw [alloc] at agrees sameWaiting
  subst sameId
  unfold Layout.seed Scheduler.seed
  rw [alloc, alloc']
  cases found' with
  | none =>
    obtain ⟨rfl, -⟩ := Roster.allocate_none alloc
    exact holds
  | some new =>
    obtain ⟨roster, -⟩ := rk.allocate_some alloc (fun t => { t with
        entry := al.start
        delay := 0
        visit := 0
        state := .queued
        captures := (Array.replicate t.captures.size (-1)).setIfInBounds 0
          (al.offset : Int) }) (fun _ => rfl) (fun _ => rfl) (fun _ => by simp)
    generalize (fun t : Thread => { t with
        entry := al.start
        delay := 0
        visit := 0
        state := .queued
        captures := (Array.replicate t.captures.size (-1)).setIfInBounds 0
          (al.offset : Int) }) = f at roster ⊢
    have pl : (al.modify new f).Placed (s.order ++ [new]) := by
      apply roster.placed
      rw [rk.order_eq]
      simpa using (perm_append_singleton new now).append_left n
    have order_eq : (al.ranking.append new).toList = s.order ++ [new] := by
      rw [toList_append, agrees.ranking_eq]
      rfl
    have unique := nodup_concat_iff.mp pl.nodup
    have app := holds.append unique.1 unique.2 (fun isFree => pl.apart new isFree (by simp))
      (fun j isFree ranked => pl.apart j isFree (by simp [ranked]))
    have eqAct : al.active = s.active := agrees.active_eq
    have waiting_eq : (al.modify new f).waiting = s.waiting :=
      (waiting_modify al new f).trans sameWaiting
    have fresh := waiting_eq ▸ roster.not_mem_waiting new (by simp)
    have queued := app.enqueue s.active (rk.waiting_nodup _) fresh (rk.waiting_apart _)
    unfold Spells
    rw [order_enqueue, waiting_enqueue, enqueue_free]
    change Holds _ (al.ranking.append new).toList
      (Function.update (al.modify new f).waiting al.active
        ((al.modify new f).waiting al.active ++ [new])) al.free
    rw [order_eq, waiting_eq, eqAct]
    exact queued

theorem Spells.advance (rk : s.Ranked n [] [] won) : (L.advance s).Spells s.advance := by
  have moved : L.Spells s.moveOn := spells
  rw [advance_eq, Layout.advance]
  split
  · exact moved
  · next restless =>
    have matched := rk.moveOn.matched_eq
    have noMatch : won = [] := by
      cases won with
      | nil => rfl
      | cons id r => simp [matched] at restless
    subst noMatch
    exact moved.seed rk.moveOn

theorem Spells.turn {t : Scheduler} (rk : s.Ranked n [] now won) (lawful : rn.Lawful)
    (turned : s.turn? rn = some t) : (L.turn s rn).Spells t := by
  have head : (L.lanes s.active).head = now.head? := by
    have front := (spells.lanes s.active).head_eq
    rwa [waiting, rk.activeQueue] at front
  unfold Layout.turn
  cases fst : s.next? with
  | none =>
    have no : now = [] := by
      rw [← rk.activeQueue]
      exact next?_eq_none_iff.mp fst
    subst no
    simp only [turn?, fst] at turned
    split at turned
    · simp at turned
    · cases turned
      rw [head]
      exact spells.advance rk
  | some popped =>
    obtain ⟨id, r⟩ := popped
    have parts := toList_of_next? fst
    rw [rk.activeQueue] at parts
    subst parts
    have taken : (s.take id r).Ranked n [id] r.toList won := rk.take rfl
    have takenSpells : (L.dequeue s.active id).Spells (s.take id r) := spells.take rk rfl
    have eqAct := (Agrees.take s id r).active_eq
    simp only [turn?, fst, Option.some.injEq] at turned
    rw [head]
    dsimp only [head?_cons]
    subst turned
    split
    · have postponed := takenSpells.postpone taken
      rwa [eqAct] at postponed ⊢
    · exact takenSpells.run taken lawful

end

theorem Holds.reset (L : Layout) (n : Nat) : (L.reset n).Holds [] (fun _ => []) (List.range n) := by
  unfold Layout.reset
  have stacked : ∀ ids : List Nat, ids.Nodup →
      (ids.foldr (fun id (r : Layout) =>
          { r.release id with waits := Function.update r.waits id {} })
        { L with ranking := {}, lanes := fun _ => {}, free := none }).Holds []
          (fun _ => []) ids := by
    intro ids nodup
    induction ids with
    | nil => exact ⟨⟨rfl, rfl, trivial⟩, fun l => ⟨rfl, rfl, trivial⟩, rfl, trivial⟩
    | cons id tl ih =>
      obtain ⟨absent, nodup⟩ := nodup_cons.mp nodup
      have released := (ih nodup).release (by simp) absent
      exact ⟨released.ranking, fun l => (released.lanes l).congr rfl (by simp), released.free_eq,
        released.stacked⟩
  exact stacked _ nodup_range

theorem Spells.init {m : Nat} (L : Layout) (tidy : s.Tidy m) (t : Text) (i fl sl : Nat) :
    (L.init s t i fl sl).Spells (s.init t i fl sl) := by
  have size : (s.resize (max sl 2)).arena.size = s.arena.size := by
    unfold resize
    split <;> simp
  have cleared : (L.reset s.arena.size).Spells (s.cleared t i fl sl) := by
    have holds := Holds.reset L s.arena.size
    have waiting_eq : (s.cleared t i fl sl).waiting = fun _ => [] := by
      funext l
      cases l <;> rfl
    have free_eq : (s.cleared t i fl sl).free = List.range s.arena.size := congrArg List.range size
    unfold Spells
    rw [waiting_eq, free_eq]
    exact holds
  rw [init_eq]
  exact cleared.seed (tidy.cleared t i fl sl)

end Layout

end Rematch
