import Rematch.Proofs.Threads.Spelling

/-!
The records of a scheduler over its whole history. The links of the records follow the lists of the
scheduler from turn to turn, and these lists divide the records without overlap:
`History.keeps_arena`.
-/

namespace Rematch

namespace Scheduler

section

variable (rule : Runner → Prop) (states maxThreads : Nat)

/-- The links over a history: they are set up by `init` and change with every turn. -/
inductive Laid : Layout → Scheduler → Prop where
  | new : Laid {} (new states maxThreads)
  | init {layout sched} (past : Laid layout sched) (text : Text) (start flags slots : Nat) :
      Laid (layout.init sched text start flags slots) (sched.init text start flags slots)
  | turn {layout sched after runner} (past : Laid layout sched) (kept : rule runner)
      (turned : sched.turn? runner = some after) : Laid (layout.turn sched runner) after
  | note {layout sched} (past : Laid layout sched) : Laid layout sched.noteDropped

end

variable {rule : Runner → Prop} {states maxThreads : Nat} {L : Layout} {sched : Scheduler}

theorem Laid.history (laid : Laid rule states maxThreads L sched) :
    History rule states maxThreads sched := by
  induction laid with
  | new => exact .new
  | init _ t i fl sl ih => exact ih.init t i fl sl
  | turn _ kept turned ih => exact ih.turn kept turned
  | note _ ih => exact ih.note

theorem History.exists_laid (past : History rule states maxThreads sched) :
    ∃ L, Laid rule states maxThreads L sched := by
  induction past with
  | new => exact ⟨_, .new⟩
  | init _ t i fl sl ih =>
    obtain ⟨L, laid⟩ := ih
    exact ⟨_, laid.init t i fl sl⟩
  | turn _ kept turned ih =>
    obtain ⟨L, laid⟩ := ih
    exact ⟨_, laid.turn kept turned⟩
  | note _ ih =>
    obtain ⟨L, laid⟩ := ih
    exact ⟨L, laid.note⟩

theorem History.tidy (past : History Runner.Lawful states maxThreads sched) :
    sched.Tidy maxThreads := by
  rcases past.shows with rfl | ⟨q, s, shown, -, rfl⟩
  · exact tidy_new states maxThreads
  · exact shown.tidy

theorem ranked_new (n m : Nat) : (new n m).Roster [] [] [] [] ∧ (new n m).order = [] := by
  refine ⟨⟨rfl, rfl, ?_, ?_, ?_, fun _ => Nat.zero_le _, ?_⟩, rfl⟩
  · intro p
    cases p <;> exact List.nodup_nil
  · intro p id
    cases p <;> simp [Place.pick, Scheduler.new]
  · intro id lt
    exact absurd lt (Nat.not_lt_zero id)
  · intro id lt
    exact absurd lt (Nat.not_lt_zero id)

theorem History.roster (past : History Runner.Lawful states maxThreads sched) :
    ∃ n now won, sched.Roster n [] now won ∧ sched.order = n ++ [] ++ now ++ won := by
  rcases past.shows with rfl | ⟨q, s, shown, -, -⟩
  · obtain ⟨roster, order_eq⟩ := ranked_new states maxThreads
    exact ⟨[], [], [], roster, order_eq⟩
  · obtain ⟨n, now, won, rk, -⟩ := shown.ranked
    exact ⟨n, now, won, rk.toRoster, rk.order_eq⟩

theorem Laid.spells (laid : Laid Runner.Lawful states maxThreads L sched) : L.Spells sched := by
  induction laid with
  | new => exact ⟨⟨rfl, rfl, trivial⟩, fun l => by cases l <;> exact ⟨rfl, rfl, trivial⟩,
      rfl, trivial⟩
  | @init layout s past t i fl sl _ => exact Layout.Spells.init layout past.history.tidy t i fl sl
  | @turn layout s after rn past lawful turned ih =>
    rcases past.history.shows with rfl | ⟨q, se, shown, -, -⟩
    · simp [turn?_new] at turned
    · obtain ⟨n, now, won, rk, -⟩ := shown.ranked
      exact ih.turn rk lawful turned
  | @note layout s past ih =>
    unfold noteDropped
    split
    · exact ih
    · exact ih

/-- The ranking, the queues and the free list divide the records of a scheduler. -/
structure Consistent (maxThreads : Nat) (sched : Scheduler) : Prop where
  order_nodup : sched.order.Nodup
  waiting_nodup : ∀ lane, (sched.waiting lane).Nodup
  free_nodup : sched.free.Nodup
  /-- A record is live or free, and never both. -/
  recorded_iff : ∀ id, id < sched.arena.size ↔ id ∈ sched.order ∨ id ∈ sched.free
  free_apart : ∀ id ∈ sched.free, id ∉ sched.order
  length_add : sched.order.length + sched.free.length = sched.arena.size
  /-- A live thread has matched, or it waits in the one queue that its record names. -/
  matched_or_waits : ∀ id ∈ sched.order,
    ((sched.thread id).state = .matched ∧ (sched.thread id).lane = none ∧
        ∀ lane, id ∉ sched.waiting lane) ∨
      ∃ lane, (sched.thread id).state ≠ .matched ∧ (sched.thread id).lane = some lane ∧
        ∀ other, id ∈ sched.waiting other ↔ other = lane
  waiting_live : ∀ lane, ∀ id ∈ sched.waiting lane, id ∈ sched.order
  bounded : 0 < maxThreads → sched.arena.size ≤ maxThreads

theorem History.consistent (past : History Runner.Lawful states maxThreads sched) :
    sched.Consistent maxThreads := by
  obtain ⟨n, now, won, roster, order_eq⟩ := past.roster
  have pl : sched.Placed sched.order := roster.placed (by rw [order_eq])
  have within : ∀ id ∈ sched.free, id < sched.arena.size := fun id isFree =>
    ((roster.mem_iff .free id).mp isFree).1
  have free_nodup : sched.free.Nodup := roster.nodup .free
  have live := roster.mem_live_iff
  have le := past.tidy.maxThreads_eq
  refine ⟨pl.nodup, roster.waiting_nodup, free_nodup, ?_, pl.apart, ?_, ?_, ?_, ?_⟩
  · intro id
    rw [pl.mem_iff]
    constructor
    · intro lt
      by_cases isFree : id ∈ sched.free
      · exact .inr isFree
      · exact .inl ⟨lt, isFree⟩
    · rintro (⟨lt, -⟩ | isFree)
      · exact lt
      · exact within id isFree
  · simpa using (pl.perm free_nodup within).length_eq
  · intro id rk
    obtain ⟨lt, notFree⟩ := (pl.mem_iff id).mp rk
    have queued := fun l => roster.mem_waiting_iff l id
    cases held : (sched.thread id).lane with
    | some l =>
      refine .inr ⟨l, ?_, rfl, ?_⟩
      · rcases roster.pending id lt (by simp [held]) with state | state <;> simp [state]
      · intro o
        rw [queued o, held]
        simp [lt, eq_comm]
    | none =>
      refine .inl ⟨?_, rfl, ?_⟩
      · have unloose : id ∉ Place.pick n [] now won sched.free .loose := List.not_mem_nil
        rw [roster.mem_iff, Thread.place_unqueued _ _ held] at unloose
        have alive := roster.state_ne_dead lt notFree
        cases state : (sched.thread id).state <;> simp_all
      · intro l waits
        simp [((queued l).mp waits).2] at held
  · intro l id waits
    obtain ⟨lt, held⟩ := (roster.mem_waiting_iff l id).mp waits
    refine (pl.mem_iff id).mpr ⟨lt, ?_⟩
    intro isFree
    have home := ((roster.mem_iff .free id).mp isFree).2
    have unqueued := Thread.lane_eq_none _ _ home (by simp) (by simp)
    simp [held] at unqueued
  · rw [← le]
    exact roster.bounded

/-- However a scheduler is used, its lists divide the records between them, and the links of the
records spell these lists. -/
theorem History.keeps_arena (past : History Runner.Lawful states maxThreads sched) :
    sched.Consistent maxThreads ∧
      (∀ runner maxSteps, runner.Lawful →
        (sched.dispatch runner maxSteps).2.Consistent maxThreads) ∧
      (∃ layout, Laid Runner.Lawful states maxThreads layout sched) ∧
      ∀ layout, Laid Runner.Lawful states maxThreads layout sched → layout.Spells sched :=
  ⟨past.consistent, fun _ maxSteps lawful => (past.dispatch lawful maxSteps).consistent,
    past.exists_laid, fun _ laid => laid.spells⟩

/-- A runner that waits for two bytes and for one, and ends itself. What waited for one byte waits
for another one; what waited longer accepts. -/
def fickle : Runner := fun sched entry =>
  { events :=
      if entry = 0 then [.wait 1 2 #[] 0, .wait 2 1 #[] 0, .fail]
      else if entry = 1 then [.wait 2 1 #[] 0, .accept sched.scope.captures 0]
      else [.wait 1 1 #[] 0]
    scope := sched.scope }

theorem fickle_lawful : fickle.Lawful := by
  intro s e work
  refine ⟨?_, work⟩
  unfold fickle
  dsimp only
  split
  · exact rfl
  · split
    · exact ⟨fun _ => rfl, trivial⟩
    · trivial

/-- A search that is given up, and two closures of another one with more slots: one record is free,
two threads wait for this offset and one for the next. -/
theorem arena_fickle :
    ∃ (sched : Scheduler) (layout : Layout), History Runner.Lawful 1 4 sched ∧
      sched.order = [1, 3, 0] ∧
      sched.waiting false = [1, 3] ∧ sched.waiting true = [0] ∧ sched.free = [2] ∧
      sched.Consistent 4 ∧ layout.Spells sched ∧ layout.ranks 3 = ⟨some 1, some 0⟩ ∧
      layout.free = some 2 := by
  let sched := (((((new 1 4).init #[1, 2, 3] 0 0 2).dispatch fickle 3).2.init
    #[1, 2, 3, 4] 0 0 4).dispatch fickle 2).2
  have past : History Runner.Lawful 1 4 sched :=
    ((((History.new.init #[1, 2, 3] 0 0 2).dispatch fickle_lawful 3).init
      #[1, 2, 3, 4] 0 0 4).dispatch fickle_lawful 2)
  have order : sched.order = [1] ++ 3 :: [0] := by decide +kernel
  have free : sched.free = [2] := by decide +kernel
  obtain ⟨consistent, -, ⟨layout, laid⟩, spelled⟩ := past.keeps_arena
  have spells := spelled layout laid
  have ranking := spells.ranking
  rw [order] at ranking
  refine ⟨sched, layout, past, order, by decide +kernel, by decide +kernel, free, consistent,
    spells, ranking.joined.link_eq, ?_⟩
  rw [spells.free_eq, free]
  rfl

end Scheduler

end Rematch
