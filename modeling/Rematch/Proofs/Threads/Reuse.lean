import Rematch.Proofs.Threads.Progress

/-!
Schedulers that have been used before. Whatever an earlier search has left behind, the next one
begins with one thread at the begin of its text, as on a new scheduler. Only the visited bitmap is
not cleared before the first closure: `Used.shows_init`.
-/

namespace Rematch.Scheduler

variable {q : Query} {se : Search}

/-- Any number of calls that run threads, each with a limit of its own. -/
def Dispatches (runner : Runner) : Scheduler → Scheduler → Prop :=
  Relation.ReflTransGen fun sched after => ∃ maxSteps, after = (sched.dispatch runner maxSteps).2

/-- A scheduler that has carried out any number of searches, some of which may have been given up on
the way. -/
inductive Used (maxThreads : Nat) : Scheduler → Prop where
  | new (states : Nat) : Used maxThreads (new states maxThreads)
  | search {sched after runner} (used : Used maxThreads sched) (text : Text)
      (start flags slots : Nat) (orderly : runner.Orderly)
      (dispatched : Dispatches runner (sched.init text start flags slots) after) :
      Used maxThreads after

/-- What every search leaves behind: all records have the captures that are asked for, and there
are no more of them than are allowed. -/
structure Tidy (maxThreads : Nat) (sched : Scheduler) : Prop where
  maxThreads_eq : sched.maxThreads = maxThreads
  bounded : 0 < sched.maxThreads → sched.arena.size ≤ sched.maxThreads
  tracked : ∀ id < sched.arena.size, (sched.thread id).captures.size = sched.slots
  work : sched.scope.captures.size = sched.slots

variable {s t : Scheduler} {m : Nat}

theorem tidy_new (n m : Nat) : (new n m).Tidy m :=
  ⟨rfl, fun _ => Nat.zero_le _, fun _ lt => absurd lt (Nat.not_lt_zero _), rfl⟩

theorem Shows.tidy (shown : s.Shows q se) : s.Tidy q.maxThreads := by
  obtain ⟨n, now, won, rk, -⟩ := shown.ranked
  exact ⟨congrArg Query.maxThreads shown.query_eq, rk.bounded, rk.tracked, rk.work⟩

theorem Tidy.resize (tidy : s.Tidy m) (sl : Nat) :
    (s.resize sl).Tidy m ∧ (s.resize sl).slots = sl := by
  unfold Scheduler.resize
  split
  · next eq => exact ⟨tidy, eq.symm⟩
  · refine ⟨⟨tidy.maxThreads_eq, ?_, ?_, by simp⟩, rfl⟩
    · simpa using tidy.bounded
    · intro id lt
      have held : id < s.arena.size := by simpa using lt
      simp [thread, held]

/-- The state of a search before its first thread starts. -/
def cleared (sched : Scheduler) (text : Text) (start flags slots : Nat) : Scheduler :=
  let sched := (sched.resize (max slots 2)).reset
  { sched with
    text, start, flags
    offset := 0
    matched := false
    dropped := 0
    bitmapOwner := none
    scope := { sched.scope with visitId := 0, lastVisitId := 0 } }.position

theorem init_eq (s : Scheduler) (t : Text) (i fl sl : Nat) :
    s.init t i fl sl = (s.cleared t i fl sl).seed := rfl

theorem Tidy.cleared (tidy : s.Tidy m) (t : Text) (i fl sl : Nat) :
    (s.cleared t i fl sl).Ranked [] [] [] [] := by
  obtain ⟨resized, slots_eq⟩ := tidy.resize (max sl 2)
  have size : (s.cleared t i fl sl).arena.size = (s.resize (max sl 2)).arena.size := by
    simp [Scheduler.cleared, reset, position]
  have record : ∀ id < (s.resize (max sl 2)).arena.size,
      (s.cleared t i fl sl).thread id =
        { (s.resize (max sl 2)).thread id with state := .dead, lane := none } := by
    intro id lt
    simp [Scheduler.cleared, reset, position, thread, lt]
  have home : ∀ id < (s.resize (max sl 2)).arena.size, ∀ active,
      ((s.cleared t i fl sl).thread id).place active = .free := by
    intro id lt active
    rw [record id lt]
    rfl
  exact
    { nextQueue := rfl
      activeQueue := rfl
      nodup := by
        intro p
        cases p with
        | free => exact List.nodup_range
        | next | now | loose | won => exact List.nodup_nil
      mem_iff := by
        intro p id
        rw [size]
        have free_eq : (s.cleared t i fl sl).free =
            List.range (s.resize (max sl 2)).arena.size := rfl
        constructor
        · intro pl
          cases p with
          | free =>
            have lt := List.mem_range.mp (free_eq ▸ pl)
            exact ⟨lt, home id lt _⟩
          | next | now | loose | won => exact absurd pl List.not_mem_nil
        · rintro ⟨lt, pl⟩
          rw [home id lt] at pl
          subst pl
          exact free_eq ▸ List.mem_range.mpr lt
      pending := by
        intro id lt queued
        rw [record id (size ▸ lt)] at queued
        simp at queued
      bounded := by
        rw [size]
        exact resized.bounded
      tracked := by
        intro id lt
        rw [record id (size ▸ lt)]
        exact resized.tracked id (size ▸ lt)
      order_eq := rfl
      single := Nat.zero_le _
      matched_eq := rfl
      work := resized.work
      atLeastTwo := by
        change 2 ≤ (s.resize (max sl 2)).slots
        rw [slots_eq]
        exact Nat.le_max_right sl 2 }

theorem seed_ne (s : Scheduler) {a : Nat} {r : List Nat} (available : s.free = a :: r) :
    s.seed ≠ s := by
  intro eq
  have alloc : s.allocate = (some a, { s with free := r }) := by simp [allocate, available]
  have app : s.seed.ranking = s.ranking.append a := by
    simp only [seed, alloc]
    exact (Agrees.enqueue _ _ _).ranking_eq
  have order := congrArg Ranking.toList app
  rw [eq, Ranking.toList_append] at order
  have lengths := congrArg List.length order
  simp at lengths

theorem Tidy.shows_init (tidy : s.Tidy m) (t : Text) (i fl sl : Nat) :
    (s.init t i fl sl).Shows ⟨t, fl, max sl 2, i, m⟩ { Search.initial ⟨t, fl, max sl 2, i, m⟩ with
        visited := s.scope.visited } := by
  obtain ⟨resized, slots_eq⟩ := tidy.resize (max sl 2)
  have rk := tidy.cleared t i fl sl
  have query_eq : (s.cleared t i fl sl).query = ⟨t, fl, max sl 2, i, m⟩ := by
    have slots' : (s.cleared t i fl sl).slots = max sl 2 := slots_eq
    have maxThreads' : (s.cleared t i fl sl).maxThreads = m := resized.maxThreads_eq
    simp only [query, slots', maxThreads']
    rfl
  have free_eq : (s.cleared t i fl sl).free = List.range (s.cleared t i fl sl).arena.size := by
    simp [Scheduler.cleared, reset, position]
  have fresh : (s.cleared t i fl sl).offset = 0 ∧ (s.cleared t i fl sl).bitmapOwner = none ∧
      (s.cleared t i fl sl).scope.lastVisitId = 0 := ⟨rfl, rfl, rfl⟩
  have visited : (s.cleared t i fl sl).scope.visited = s.scope.visited := by
    change (s.resize (max sl 2)).scope.visited = _
    unfold Scheduler.resize
    split <;> rfl
  have positioned : (s.cleared t i fl sl).holding =
      Condition.holdingAt (s.cleared t i fl sl).text (s.cleared t i fl sl).offset := rfl
  rw [init_eq]
  generalize s.cleared t i fl sl = clear at *
  rcases rk.seed with ⟨bounded, full, refused⟩ | ⟨a, seeded, record, -, -, eq, scopeEq, ownerEq⟩
  · obtain ⟨n, size⟩ : ∃ n, clear.arena.size = n + 1 := Nat.exists_eq_succ_of_ne_zero (by omega)
    rw [size, List.range_succ_eq_map] at free_eq
    exact absurd refused (seed_ne clear free_eq)
  · have textEq : clear.seed.text = clear.text := congrArg Setting.text eq
    have offsetEq : clear.seed.offset = clear.offset := congrArg Setting.offset eq
    have holdingEq : clear.seed.holding = clear.holding := congrArg Setting.holding eq
    refine ⟨(query_congr eq).trans query_eq, ?_, [], [a], [], seeded, ?_⟩
    · rw [holdingEq, textEq, offsetEq, positioned]
    · have recordEq : clear.seed.pendings [a] = [clear.query.seed clear.offset] :=
        congrArg (· :: []) record
      simp only [search, front, offsetEq, scopeEq, ownerEq, recordEq, query_eq, fresh, visited]
      rfl

variable {rn : Runner}

theorem Shows.dispatches (shown : s.Shows q se) (ord : rn.Orderly)
    (dispatched : Dispatches rn s t) : ∃ s', t.Shows q s' := by
  induction dispatched with
  | refl => exact ⟨se, shown⟩
  | tail _ step ih =>
    obtain ⟨mid, shownMiddle⟩ := ih
    obtain ⟨m, rfl⟩ := step
    obtain ⟨z, -, shownLast, -⟩ := shownMiddle.dispatch ord m
    exact ⟨z, shownLast⟩

theorem Used.tidy (used : Used m s) : s.Tidy m := by
  induction used with
  | new n => exact tidy_new n m
  | search _ t i fl sl ord dispatched ih =>
    obtain ⟨z, shown⟩ := (ih.shows_init t i fl sl).dispatches ord dispatched
    exact shown.tidy

theorem Used.shows_init (used : Used m s) (t : Text) (i fl sl : Nat) :
    (s.init t i fl sl).Shows ⟨t, fl, max sl 2, i, m⟩ { Search.initial ⟨t, fl, max sl 2, i, m⟩ with
        visited := s.scope.visited } :=
  used.tidy.shows_init t i fl sl

theorem shows_init (n m : Nat) (t : Text) (i fl sl : Nat) :
    ((new n m).init t i fl sl).Shows ⟨t, fl, max sl 2, i, m⟩ (.initial ⟨t, fl, max sl 2, i, m⟩) :=
  (tidy_new n m).shows_init t i fl sl

/-- The answer of a search that has run to its end is the best match of a search that took steps
until no thread was left. -/
theorem Finishes.result?_eq {n : Nat} {t : Text} {i fl sl : Nat}
    {f : Scheduler} (finishes : Finishes rn ((new n m).init t i fl sl) f) (ord : rn.Orderly) :
    ∃ z, (Search.initial ⟨t, fl, max sl 2, i, m⟩).Reaches rn ⟨t, fl, max sl 2, i, m⟩ z ∧
      z.isDone ⟨t, fl, max sl 2, i, m⟩ = true ∧
      z.front.later = [] ∧ z.front.now = [] ∧ f.result? = z.front.best := by
  obtain ⟨z, reached, shown, noNow, done⟩ := finishes.reaches ord (shows_init n m t i fl sl)
  have noLater := reached.fits.later_eq_nil done
  exact ⟨z, reached, done, noLater, noNow, shown.result?_eq noLater noNow⟩

end Rematch.Scheduler

namespace Rematch.Search

theorem fits_initial_with (q : Query) (visited : Nat) : { initial q with visited }.Fits q :=
  ⟨(fits_initial q).offset, (fits_initial q).later, (fits_initial q).now⟩

end Rematch.Search
