import Rematch.Proofs.Threads.History

/-!
The order of the queues. Both queues list threads in priority order, and every thread that waits
for the next offset comes before every thread of the current one; a matched thread is the last of
all. Since no thread waits beyond the end of the text, a search that has ended has at most its
match left: `History.precedes_and_settles`.
-/

namespace Rematch.Scheduler

open List

variable {q : Query} {s : Search}

/-- The queues agree with the ranking, nobody waits beyond the end of the text, and a match is the
last thread of all. -/
structure Precedence (sched : Scheduler) : Prop where
  sublist : ∀ lane, (sched.queue lane).toList.Sublist sched.order
  next_first : ∀ first ∈ (sched.queue (!sched.active)).toList,
    ∀ second ∈ (sched.queue sched.active).toList,
      sched.order.idxOf first < sched.order.idxOf second
  due : ∀ id ∈ (sched.queue sched.active).toList,
    sched.offset + (sched.thread id).delay ≤ sched.text.size
  later : ∀ id ∈ (sched.queue (!sched.active)).toList,
    sched.offset + 1 + (sched.thread id).delay ≤ sched.text.size
  single : ∀ first ∈ sched.order, ∀ second ∈ sched.order,
    (sched.thread first).state = .matched → (sched.thread second).state = .matched → first = second
  matched_iff : sched.matched = true ↔
    ∃ id, sched.order.getLast? = some id ∧ (sched.thread id).state = .matched

variable {sched : Scheduler} {n now won : List Nat} {states maxThreads : Nat}

namespace Roster

theorem not_matched {id : Nat} {lo : List Nat} (roster : sched.Roster n lo now won)
    (pl : id ∈ n ++ now) : (sched.thread id).state ≠ .matched := by
  have lt : id < sched.arena.size ∧ (sched.thread id).lane.isSome := by
    rcases mem_append.mp pl with inNext | inNow
    · obtain ⟨inside, home⟩ := (roster.mem_iff .next id).mp inNext
      exact ⟨inside, by simp [(Thread.place_eq_next_iff _ _).mp home]⟩
    · obtain ⟨inside, home⟩ := (roster.mem_iff .now id).mp inNow
      exact ⟨inside, by simp [(Thread.place_eq_now_iff _ _).mp home]⟩
  rcases roster.pending id lt.1 lt.2 with state | state <;> simp [state]

end Roster

section

variable (rk : sched.Ranked n [] now won)

include rk

theorem Ranked.mem_won {id : Nat} (live : id ∈ sched.order)
    (matched : (sched.thread id).state = .matched) : id ∈ won := by
  rw [rk.order_eq] at live
  by_contra elsewhere
  exact rk.not_matched (by simpa [elsewhere] using live) matched

theorem Ranked.won_cases : (won = [] ∧ sched.matched = false) ∨
      ∃ winner, won = [winner] ∧ sched.matched = true ∧ (sched.thread winner).state = .matched := by
  have matched := rk.matched_eq
  have single := rk.single
  rcases won with _ | ⟨winner, _ | ⟨b, r⟩⟩
  · exact .inl ⟨rfl, matched⟩
  · exact .inr ⟨winner, rfl, matched, rk.state_of_won (mem_singleton_self winner)⟩
  · simp at single

theorem Ranked.precedence
    (due : ∀ id ∈ now, sched.offset + (sched.thread id).delay ≤ sched.text.size)
    (later : ∀ id ∈ n, sched.offset + 1 + (sched.thread id).delay ≤ sched.text.size) :
    sched.Precedence := by
  have order : sched.order = n ++ (now ++ won) := by simpa using rk.order_eq
  refine ⟨?_, ?_, ?_, ?_, ?_, ?_⟩
  · intro l
    have lanes : l = sched.active ∨ l = !sched.active := by cases l <;> cases sched.active <;> simp
    rw [order]
    rcases lanes with rfl | rfl
    · rw [rk.activeQueue]
      exact (sublist_append_left now won).trans (sublist_append_right n _)
    · rw [rk.nextQueue]
      exact sublist_append_left n _
  · rw [rk.nextQueue, rk.activeQueue, order]
    intro a inNext b inNow
    have pl : b ∈ Place.pick n [] now won sched.free .now := inNow
    have elsewhere : b ∉ n := rk.not_mem .next pl (by simp)
    rw [idxOf_append_of_mem inNext, idxOf_append_of_notMem elsewhere]
    have le := idxOf_lt_length_iff.mpr inNext
    omega
  · rw [rk.activeQueue]
    exact due
  · rw [rk.nextQueue]
    exact later
  · intro a inFirst b inSecond firstMatched secondMatched
    have firstWon := rk.mem_won inFirst firstMatched
    have secondWon := rk.mem_won inSecond secondMatched
    rcases rk.won_cases with ⟨rfl, -⟩ | ⟨winner, rfl, -, -⟩
    · simp at firstWon
    · rw [mem_singleton.mp firstWon, mem_singleton.mp secondWon]
  · rw [order]
    rcases rk.won_cases with ⟨rfl, unmatched⟩ | ⟨winner, rfl, matched, state⟩
    · rw [unmatched, append_nil]
      simp only [Bool.false_eq_true, false_iff]
      rintro ⟨id, last, matched⟩
      exact rk.not_matched (mem_of_getLast? last) matched
    · simp [← append_assoc, matched, state]

end

/-- A search has ended with its match, or with nothing. -/
structure Settled (sched : Scheduler) : Prop where
  found : sched.matched = true → ∃ id, sched.order = [id] ∧ (sched.thread id).state = .matched
  lost : sched.matched = false → sched.order = []
  result_iff : sched.result?.isSome = true ↔ sched.matched = true

theorem Ranked.settled (rk : sched.Ranked [] [] [] won) : sched.Settled := by
  have order : sched.ranking.toList = won := by simpa [Scheduler.order] using rk.order_eq
  rcases rk.won_cases with ⟨rfl, unmatched⟩ | ⟨winner, rfl, matched, state⟩
  · refine ⟨by simp [unmatched], fun _ => order, ?_⟩
    simp [unmatched, result?, Ranking.head?, order]
  · refine ⟨fun _ => ⟨winner, order, state⟩, by simp [matched], ?_⟩
    simp [matched, result?, Ranking.head?, order, state]

theorem Shows.precedence (shown : sched.Shows q s) (fits : s.Fits q) : sched.Precedence := by
  obtain ⟨n, now, won, rk, rfl⟩ := shown.ranked
  have text : sched.text = q.text := congrArg Query.text shown.query_eq
  apply rk.precedence
  · intro id inNow
    rw [text]
    exact fits.now (sched.thread id).pending (mem_map_of_mem inNow)
  · intro id inNext
    rw [text]
    exact fits.later (sched.thread id).pending (mem_map_of_mem inNext)

theorem Shows.settled {rn : Runner} (shown : sched.Shows q s) (fits : s.Fits q)
    (fin : sched.turn? rn = none) : sched.Settled := by
  have no : sched.next? = none ∧ sched.isDone = true := by
    unfold turn? at fin
    split at fin
    · next nothing => exact ⟨nothing, by simpa using fin⟩
    · simp at fin
  have empty := Scheduler.next?_eq_none_iff.mp no.1
  have noLater := fits.later_eq_nil (by rw [← shown.isDone_eq, no.2])
  obtain ⟨n, now, won, rk, rfl⟩ := shown.ranked
  rw [rk.activeQueue] at empty
  have noNext : n = [] := by simpa [Scheduler.search, front, pendings] using noLater
  subst empty noNext
  exact rk.settled

theorem precedence_new (n m : Nat) : (new n m).Precedence := by
  have queues : ∀ l, ((new n m).queue l).toList = [] := by
    intro l
    cases l <;> rfl
  have order : (new n m).order = [] := rfl
  have unmatched : (new n m).matched = false := rfl
  constructor <;> simp [queues, order, unmatched]

theorem settled_new (n m : Nat) : (new n m).Settled :=
  ⟨by simp [new], fun _ => rfl, by simp [new, result?, Ranking.head?]⟩

theorem Settled.noteDropped (settled : sched.Settled) : sched.noteDropped.Settled := by
  unfold Scheduler.noteDropped
  split
  · exact ⟨settled.found, settled.lost, settled.result_iff⟩
  · exact settled

/-- At any time the queues keep the order of the ranking, and what a call reports as finished has
nothing but its match left. -/
theorem History.precedes_and_settles (past : History Runner.Lawful states maxThreads sched) :
    sched.Precedence ∧
      ∀ (runner : Runner) (maxSteps : Int) (final : Scheduler), runner.Lawful →
        sched.dispatch runner maxSteps = (false, final) → final.Settled := by
  refine ⟨?_, fun runner maxSteps final lawful finished => ?_⟩
  · rcases past.shows with rfl | ⟨query, search, shown, fits, -⟩
    · exact precedence_new states maxThreads
    · exact shown.precedence fits
  · obtain ⟨last, turned, interrupted | ⟨ended, noTurn⟩⟩ := dispatch_turns runner sched maxSteps
    · simp [interrupted] at finished
    · have final_eq : final = last.noteDropped := by
        rw [ended] at finished
        exact (Prod.mk.inj finished).2.symm
      rw [final_eq]
      apply Settled.noteDropped
      rcases (past.turns lawful turned).shows with rfl | ⟨query, search, shown, fits, -⟩
      · exact settled_new states maxThreads
      · exact shown.settled fits noTurn

/-- A runner that waits for three bytes and for one, then accepts. What waited for one byte waits
for another one and ends itself. Its captures are too short. -/
def hasty : Runner := fun sched entry =>
  { events :=
      if entry = 0 then [.wait 1 3 #[7] 0, .wait 2 1 #[] 5, .accept #[8] 0]
      else if entry = 1 then [.accept sched.scope.captures 0]
      else [.wait 2 1 #[] 0, .fail]
    scope := sched.scope }

theorem hasty_lawful : hasty.Lawful := by
  intro s e work
  refine ⟨?_, work⟩
  unfold hasty
  split
  · exact ⟨fun _ => rfl, trivial⟩
  · split
    · exact ⟨fun _ => rfl, trivial⟩
    · exact rfl

/-- With room for three threads, one of the waits is put off, one is lost and one begins at the
second byte; in the end the thread that waited for three bytes has matched. -/
theorem precedence_hasty :
    ∃ sched final, History Runner.Lawful 1 3 sched ∧
      (sched.queue (!sched.active)).toList = [1] ∧ (sched.queue sched.active).toList = [0] ∧
      sched.dropped = 2 ∧ sched.Precedence ∧ sched.order.idxOf 1 < sched.order.idxOf 0 ∧
      sched.dispatch hasty 0 = (false, final) ∧ final.Settled ∧
      final.result? = some #[7, 3, 0, 0] := by
  let sched := (((new 1 3).init #[1, 2, 3, 4] 0 0 4).dispatch hasty 2).2
  have past : History Runner.Lawful 1 3 sched :=
    (History.new.init #[1, 2, 3, 4] 0 0 4).dispatch hasty_lawful 2
  have queues : (sched.queue (!sched.active)).toList = [1] ∧
      (sched.queue sched.active).toList = [0] := by decide +kernel
  have finished : (sched.dispatch hasty 0).1 = false := by decide +kernel
  have dispatched : sched.dispatch hasty 0 = (false, (sched.dispatch hasty 0).2) := by
    rw [← finished]
  obtain ⟨precedence, settled⟩ := past.precedes_and_settles
  exact ⟨sched, (sched.dispatch hasty 0).2, past, queues.1, queues.2, by decide +kernel, precedence,
    precedence.next_first 1 (by simp [queues.1]) 0 (by simp [queues.2]), dispatched,
    settled hasty 0 _ hasty_lawful dispatched, by decide +kernel⟩

end Rematch.Scheduler
