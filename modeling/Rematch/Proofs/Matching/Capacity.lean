import Rematch.Proofs.Matching.Exploration
import Rematch.Proofs.Threads.Spelling

/-!
Whether a match finds a record. A match ends all threads below the last fork of its closure and
takes one of their records, or a free one. So it is kept if and only if fewer threads are ranked at
or above that fork than the arena may hold: `History.keepsMatch_iff`. Where they fill the arena, the
match is lost, and `match_lost` has a search in which that happens.
-/

namespace Rematch

open List

deriving instance DecidableEq for Event, Queue

namespace Scheduler

variable {s : Scheduler} {id : Nat} {u v n lo now won : List Nat}
variable {c : Captures} {mt : Nat}

/-- The number of threads that rank at or above the last fork of the running thread. -/
def leading (sched : Scheduler) : Nat :=
  match sched.cursor with
  | none => 0
  | some cursor => sched.order.idxOf cursor + 1

/-- A thread has matched at the current offset with the given captures. -/
def KeepsMatch (sched : Scheduler) (captures : Captures) : Prop :=
  sched.matched = true ∧ ∃ id ∈ sched.order, (sched.thread id).state = .matched ∧
    (sched.thread id).captures = captures.setIfInBounds 1 (sched.offset : Int)

theorem During.leading_eq (during : s.During id u v now won) :
    s.leading = (u ++ id :: v).length := by
  obtain ⟨f, cur, cursor_eq, cut⟩ := during.order_eq_cursor
  have order_eq : s.order = f ++ cur :: (now ++ won) := by
    rw [during.order_eq, cut]
    simp
  have absent : cur ∉ f := by
    have nodup := during.placed.nodup
    rw [order_eq] at nodup
    exact fun inFront => (nodup_append.mp nodup).2.2 cur inFront cur (by simp) rfl
  simp [leading, cursor_eq, order_eq, cut, idxOf_append_of_notMem absent]

theorem During.length_add (during : s.During id u v now won) :
    (u ++ id :: v).length + (now ++ won).length + s.free.length = s.arena.size := by
  have within : ∀ id ∈ s.free, id < s.arena.size := fun id isFree =>
    ((during.mem_iff .free id).mp isFree).1
  have perm := (during.placed.perm (during.nodup .free) within).length_eq
  rw [during.order_eq, length_append, length_append, length_range] at perm
  exact perm

theorem Roster.state_ne_matched (roster : s.Roster n lo now []) (lt : id < s.arena.size) :
    (s.thread id).state ≠ .matched := by
  intro matched
  cases lane : (s.thread id).lane with
  | none =>
    have home : id ∈ Place.pick n lo now [] s.free .won := by
      rw [roster.mem_iff, Thread.place_unqueued _ _ lane, matched]
      exact ⟨lt, rfl⟩
    simp [Place.pick] at home
  | some held =>
    have pend := roster.pending id lt (by simp [lane])
    simp [matched] at pend

theorem During.lost_match (during : s.During id u v now won)
    (allowed : s.mayMatch = true) (lost : (s.recordMatch c).2.matched = false) :
    0 < s.maxThreads ∧ s.maxThreads ≤ s.leading ∧ (s.recordMatch c).2.dropped = s.dropped + 1 := by
  have killed := during.killBelowCursor
  have agrees := during.killBelowCursor_agrees
  have eqBd : s.killBelowCursor.maxThreads = s.maxThreads :=
    congrArg Setting.maxThreads agrees.setting_eq
  have sameDropped : s.killBelowCursor.dropped = s.dropped := agrees.dropped_eq
  unfold Scheduler.recordMatch at lost ⊢
  rw [if_neg (by simp [allowed])] at lost ⊢
  unfold Scheduler.fork at lost ⊢
  cases alloc : s.killBelowCursor.allocate with
  | mk found al =>
  rw [alloc] at lost
  cases found with
  | some new => simp at lost
  | none =>
    obtain ⟨rfl, empty, bounded, full⟩ := Roster.allocate_none alloc
    have total := killed.length_add
    rw [eqBd] at bounded full
    rw [empty] at total
    refine ⟨bounded, ?_, congrArg (· + 1) sameDropped⟩
    rw [during.leading_eq]
    simpa [← total] using full

/-- A match is kept if and only if the threads of higher priority leave a record for it. Otherwise
it is counted with the threads that were dropped. -/
theorem During.recordMatch_kept_iff (during : s.During id u v now won)
    (size : c.size = s.slots) (matched : s.matched = !won.isEmpty) (allowed : s.mayMatch = true) :
    ((s.recordMatch c).2.KeepsMatch c ↔ s.maxThreads = 0 ∨ s.leading < s.maxThreads) ∧
      (¬(s.recordMatch c).2.KeepsMatch c →
        (s.recordMatch c).2.matched = false ∧ (∀ id ∈ (s.recordMatch c).2.order,
            ((s.recordMatch c).2.thread id).state ≠ .matched) ∧
          (s.recordMatch c).2.dropped = s.dropped + 1) := by
  obtain ⟨eq, -, outcome⟩ := during.recordMatch size matched allowed
  have eqOff : (s.recordMatch c).2.offset = s.offset := congrArg Setting.offset eq
  have eqBd : (s.recordMatch c).2.maxThreads = s.maxThreads := congrArg Setting.maxThreads eq
  rcases outcome with ⟨-, ended⟩ | ⟨new, ended, recorded, -⟩
  · have clear : (s.recordMatch c).2.matched = false := ended.matched_eq
    obtain ⟨bounded, full, dropped⟩ := during.lost_match allowed clear
    have notKept : ¬(s.recordMatch c).2.KeepsMatch c := by
      rintro ⟨set, -⟩
      simp [clear] at set
    refine ⟨⟨fun kept => absurd kept notKept, ?_⟩, fun _ => ⟨clear, ?_, dropped⟩⟩
    · omega
    · intro j rk
      exact ended.state_ne_matched ((ended.placed.mem_iff j).mp rk).1
  · have kept : (s.recordMatch c).2.KeepsMatch c := by
      refine ⟨ended.matched_eq, new, ?_, ended.state_of_won (by simp), ?_⟩
      · rw [ended.order_eq]
        simp
      · rw [eqOff]
        exact recorded
    refine ⟨⟨fun _ => ?_, fun _ => kept⟩, fun notKept => absurd kept notKept⟩
    -- The match is one more thread, so there was room for it.
    have room := ended.placed.length_le
    have bounded := ended.bounded
    rw [ended.order_eq] at room
    rw [eqBd] at bounded
    rw [during.leading_eq]
    simp only [length_append, length_cons, length_nil] at room ⊢
    omega

theorem matched_wait (s : Scheduler) (e : Nat) (n : Int) (c : Captures) :
    (s.wait e n c).matched = s.matched := by
  have agrees := Agrees.allocate s
  unfold wait
  split
  · rfl
  · unfold fork
    cases alloc : s.allocate with
    | mk found al =>
    rw [alloc] at agrees
    cases found with
    | none => exact agrees.matched_eq
    | some new => exact (Agrees.enqueue _ _ new).matched_eq.trans agrees.matched_eq

theorem During.exists_foldl {e l : List Event} {vi : Nat}
    (during : s.During id u v now won) (allowed : s.mayMatch = true)
    (ord : Event.Orderly s.slots s.mayMatch (e ++ .accept c vi :: l)) :
    c.size = s.slots ∧ (e.foldl apply s).matched = s.matched ∧
      ∃ v', (e.foldl apply s).During id u v' now won := by
  induction e generalizing s v with
  | nil => exact ⟨ord.1, rfl, v, during⟩
  | cons ev r ih =>
    have fr := (Frames.refl s).apply ev
    cases ev with
    | wait en n caught vi =>
      have eqMay : ((s.setVisitId vi).wait en n caught).mayMatch =
          s.mayMatch := mayMatch_congr fr.setting_eq
      have sameSlots : ((s.setVisitId vi).wait en n caught).slots = s.slots := fr.slots_eq
      obtain ⟨v', waiting⟩ := (during.setVisitId vi).exists_wait en n caught
      obtain ⟨size, matched, got⟩ := ih waiting (eqMay.trans allowed)
        (by rw [eqMay, sameSlots]; exact ord.2)
      exact ⟨size.trans sameSlots,
        matched.trans (matched_wait (s.setVisitId vi) en n caught), got⟩
    | accept caught vi =>
      have last := ord.2.1 allowed
      simp at last
    | fail => exact False.elim ord

/-- The closure of the next thread, computed by an interpreter, asks for a match with `captures`;
`before` is the scheduler at that moment. -/
inductive Asks (analysis : Analysis) (sched : Scheduler) : Scheduler → Captures → Prop where
  | intro {id rest begun earlier later captures visit} (first : sched.next? = some (id, rest))
      (due : ((sched.take id rest).thread id).delay = 0)
      (begun_eq : begun = (sched.take id rest).begin id)
      (events_eq : (analysis.interpreter begun (begun.thread id).entry).events =
        earlier ++ .accept captures visit :: later) :
      Asks analysis sched ((earlier.foldl apply begun).setVisitId visit) captures

theorem mayMatch_of_granted (granted : (s.recordMatch c).1 = true) : s.mayMatch = true := by
  cases allowed : s.mayMatch with
  | true => rfl
  | false => simp [recordMatch, allowed] at granted

/-- Of the matches that the closures of an interpreter are granted, those are kept that find fewer
threads at or above the last fork than there may be; the others are dropped. -/
theorem History.keepsMatch_iff {sched before : Scheduler} {maxThreads states : Nat}
    {captures : Captures} (past : History Runner.Lawful states maxThreads sched)
    (analysis : Analysis)
    (asks : Asks analysis sched before captures)
    (granted : (before.recordMatch captures).1 = true) :
    ((before.recordMatch captures).2.KeepsMatch captures ↔
        maxThreads = 0 ∨ before.leading < maxThreads) ∧
      (¬(before.recordMatch captures).2.KeepsMatch captures →
        (before.recordMatch captures).2.matched = false ∧
          (∀ id ∈ (before.recordMatch captures).2.order,
            ((before.recordMatch captures).2.thread id).state ≠ .matched) ∧
          (before.recordMatch captures).2.dropped = before.dropped + 1) := by
  have allowed := mayMatch_of_granted granted
  cases asks with
  | @intro id rest begun earlier later captures visit first due begun_eq events_eq =>
  rcases past.shows with rfl | ⟨query, search, shown, -, bound⟩
  · simp [Scheduler.new, next?, queue, Queue.pop?] at first
  obtain ⟨next, now, won, taken⟩ := shown.exists_taken first
  have during := taken.begin
  have work := taken.begin_work
  rw [← begun_eq] at during work
  have orderly := (analysis.interpreter_orderly begun (begun.thread id).entry work).1
  rw [events_eq] at orderly
  have frames := (Frames.refl begun).foldl_apply earlier
  have begunAllowed : begun.mayMatch = true := (mayMatch_congr frames.setting_eq).symm.trans allowed
  obtain ⟨size, matched, after, waiting⟩ := during.exists_foldl begunAllowed orderly
  have sameBound : ((earlier.foldl apply begun).setVisitId visit).maxThreads = maxThreads := by
    have begunBound : begun.maxThreads = sched.maxThreads := by
      rw [begun_eq]
      exact congrArg Setting.maxThreads (Agrees.take sched id rest).setting_eq
    exact frames.maxThreads_eq.trans (begunBound.trans (shown.tidy.maxThreads_eq.trans bound))
  rw [← sameBound]
  exact (waiting.setVisitId visit).recordMatch_kept_iff (size.trans frames.slots_eq.symm)
    (matched.trans (by rw [begun_eq]; exact taken.matched_eq)) allowed

/-- The automaton of some letters `a` followed by `b`, or nothing. -/
def optional : Graph where
  automaton :=
    { insts := #[{ op := .fail }, { op := .byteRange, lo := 0x61, hi := 0x61, out := 2 },
        { op := .alt, out := 1, out1 := 3 }, { op := .byteRange, lo := 0x62, hi := 0x62, out := 5 },
        { op := .alt, out := 1, out1 := 5 }, { op := .accept }]
      start := 4
      slots := 2 }
  overlay := []

/-- A search of the letter `a` from its begin. -/
def optionalSearch (maxThreads : Nat) : Scheduler :=
  (new optional.size maxThreads).init #[0x61] optional.summary.start 1 2

/-- The first closure waits for the letters to end, then it asks for the empty match. -/
def optionalCall (maxThreads : Nat) : Scheduler :=
  (([.wait 2 1 #[0, -1] 0] : List Event).foldl apply
    (((optionalSearch maxThreads).take 0 {}).begin 0)).setVisitId 0

theorem asks_optional (small : mt = 2 ∨ mt = 3) :
    Asks optional.summary (optionalSearch mt) (optionalCall mt) #[0, -1] := by
  have events_eq : (optional.summary.interpreter (((optionalSearch mt).take 0 {}).begin 0)
      ((((optionalSearch mt).take 0 {}).begin 0).thread 0).entry).events =
        [.wait 2 1 #[0, -1] 0] ++ [.accept #[0, -1] 0] := by
    rcases small with rfl | rfl
    · decide +kernel
    · decide +kernel
  rcases small with rfl | rfl
  · exact .intro (by decide +kernel) (by decide +kernel) rfl events_eq
  · exact .intro (by decide +kernel) (by decide +kernel) rfl events_eq

/-- With room for three threads the empty match is kept. -/
theorem keepsMatch_optional :
    Asks optional.summary (optionalSearch 3) (optionalCall 3) #[0, -1] ∧
      (optionalCall 3).leading = 2 ∧
      ((optionalCall 3).recordMatch #[0, -1]).2.KeepsMatch #[0, -1] := by
  have past : History Runner.Lawful optional.size 3 (optionalSearch 3) :=
    History.new.init #[0x61] optional.summary.start 1 2
  have asks := asks_optional (.inr rfl)
  have leading : (optionalCall 3).leading = 2 := by decide +kernel
  have kept := (past.keepsMatch_iff optional.summary asks (by decide +kernel)).1
  exact ⟨asks, leading, kept.mpr (.inr (by rw [leading]; decide))⟩

/-- With room for two it is not: the thread that waits takes the only other record. -/
theorem match_lost : ¬∀ (graph : Graph) (analysis : Analysis) (maxThreads : Nat)
    (sched before : Scheduler) (captures : Captures),
    graph.analyze = .ok analysis → maxThreads = 0 ∨ 2 ≤ maxThreads →
    History (· = analysis.interpreter) graph.size maxThreads sched →
    Asks analysis sched before captures → (before.recordMatch captures).1 = true →
    (before.recordMatch captures).2.KeepsMatch captures := by
  intro keeps
  have kept := keeps optional optional.summary 2 (optionalSearch 2) (optionalCall 2) #[0, -1] rfl
    (.inr (Nat.le_refl 2)) (History.new.init #[0x61] optional.summary.start 1 2)
    (asks_optional (.inl rfl)) (by decide +kernel)
  have clear : ((optionalCall 2).recordMatch #[0, -1]).2.matched = false := by decide +kernel
  exact absurd kept.1 (by simp [clear])

end Scheduler

end Rematch
