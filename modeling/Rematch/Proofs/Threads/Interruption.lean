import Rematch.Proofs.Threads.Priority

/-!
Interrupted searches. Every search comes to an end, from any state of the scheduler and with any
runner: a turn that moves on uses up a byte, and every other turn takes a thread out of the queue of
the offset, to which none is added. Calls with limits of any kind cut the same turns into pieces:
`dispatch_interrupted`.
-/

namespace Rematch.Scheduler

/-- Calls with the given limits, one after the other, until one answers that no work remains, and
the closures that each of them runs. -/
inductive Calls (runner : Runner) :
    (Nat → Int) → Scheduler → List (List (Scheduler × Nat)) → Scheduler → Prop where
  | last {limits sched stop closures}
      (plays : Plays runner sched closures stop) (stops : stop.turn? runner = none)
      (answer : sched.dispatch runner (limits 0) = (false, stop.noteDropped)) :
      Calls runner limits sched [closures] stop.noteDropped
  | more {limits sched stop final closures parts} (plays : Plays runner sched closures stop)
      (answer : sched.dispatch runner (limits 0) = (true, stop))
      (rest : Calls runner (fun call => limits (call + 1)) stop parts final) :
      Calls runner limits sched (closures :: parts) final

variable {rn : Runner} {s t f : Scheduler} {log log' : List (Scheduler × Nat)}

namespace Plays

theorem eq_of_stops (plays : Plays rn s log t) (stops : s.turn? rn = none) : log = [] ∧ t = s := by
  cases plays with
  | nil => exact ⟨rfl, rfl⟩
  | cons turned => simp [stops] at turned

/-- Turns are determined, so that those up to the end begin with any others. -/
theorem rest (part : Plays rn s log t) (all : Plays rn s log' f) (stops : f.turn? rn = none) :
    ∃ left, log' = log ++ left ∧ Plays rn t left f := by
  induction part generalizing log' with
  | nil => exact ⟨log', rfl, all⟩
  | cons turned _ ih =>
    cases all with
    | nil => simp [stops] at turned
    | cons turned' all =>
      cases turned.symm.trans turned'
      obtain ⟨left, rfl, plays⟩ := ih all
      exact ⟨left, (List.append_assoc ..).symm, plays⟩

/-- Every call that is interrupted has run a closure, so that fewer are left. -/
theorem calls (plays : Plays rn s log f) (stops : f.turn? rn = none) {limits : Nat → Int}
    (pos : ∀ call, 0 < limits call) :
    ∃ parts, Calls rn limits s parts f.noteDropped ∧ parts.flatten = log ∧
      ∀ call part, parts[call]? = some part → (part.length : Int) ≤ limits call := by
  induction count : log.length using Nat.strong_induction_on generalizing s log limits with
  | _ n ih =>
  obtain ⟨fst, t, part, ended⟩ := dispatch_plays rn s (limits 0)
  obtain ⟨left, rfl, plays'⟩ := part.rest plays stops
  rcases ended with ⟨answer, -, length⟩ | ⟨answer, noTurn, length⟩
  · have fewer : left.length < n := by
      have := pos 0
      rw [List.length_append] at count
      omega
    obtain ⟨parts, rest, rfl, le⟩ := ih _ fewer plays' (fun call => pos (call + 1)) rfl
    refine ⟨fst :: parts, .more part answer rest, rfl, fun call p got => ?_⟩
    cases call with
    | zero => exact Option.some.inj got ▸ Int.le_of_eq length
    | succ call => exact le call p got
  · obtain ⟨rfl, rfl⟩ := plays'.eq_of_stops noTurn
    refine ⟨[fst], .last part stops answer, by simp, fun call p got => ?_⟩
    cases call with
    | zero => exact Option.some.inj got ▸ Int.le_of_lt (length (pos 0))
    | succ => simp at got

end Plays

theorem turn?_noteDropped (stops : s.turn? rn = none) : s.noteDropped.turn? rn = none := by
  have ended := turn?_eq_none_iff.mp stops
  unfold noteDropped
  split
  · exact turn?_eq_none_iff.mpr ended
  · exact stops

theorem dispatch_of_stops (stops : s.turn? rn = none) (m : Int) :
    s.dispatch rn m = (false, s.noteDropped) := by
  obtain ⟨log, z, plays, ended⟩ := dispatch_plays rn s m
  obtain ⟨rfl, rfl⟩ := plays.eq_of_stops stops
  rcases ended with ⟨-, pos, length⟩ | ⟨answer, -⟩
  · simp at length
    omega
  · exact answer

theorem noteDropped_eq (s : Scheduler) :
    s.noteDropped = { s with notices := s.noteDropped.notices } := by
  unfold noteDropped
  split <;> rfl

/-- In any state, a search without limit comes to its end after finitely many closures. Calls with
any positive limits run the same closures in the same order, each no more than it may, and come to
the same end. A call after the end repeats the note on lost threads and changes nothing else. -/
theorem dispatch_interrupted (runner : Runner) (sched : Scheduler) :
    (∃ closures final, Plays runner sched closures final ∧ final.turn? runner = none ∧
      sched.dispatch runner 0 = (false, final.noteDropped) ∧
      ∀ limits : Nat → Int, (∀ call, 0 < limits call) →
        ∃ parts, Calls runner limits sched parts final.noteDropped ∧ parts.flatten = closures ∧
          ∀ call part, parts[call]? = some part → (part.length : Int) ≤ limits call) ∧
      ∀ maxSteps after, sched.dispatch runner maxSteps = (false, after) → ∀ again,
        after.dispatch runner again =
          (false, { after with notices := after.noteDropped.notices }) := by
  constructor
  · obtain ⟨closures, final, plays, ⟨-, pos, -⟩ | ⟨answer, stops, -⟩⟩ :=
      dispatch_plays runner sched 0
    · simp at pos
    · exact ⟨closures, final, plays, stops, answer, fun _ pos => plays.calls stops pos⟩
  · intro maxSteps after ended again
    obtain ⟨_, final, -, ⟨answer, -⟩ | ⟨answer, stops, -⟩⟩ := dispatch_plays runner sched maxSteps
    · simp [ended] at answer
    · obtain rfl := (Prod.mk.inj (ended.symm.trans answer)).2
      rw [dispatch_of_stops (turn?_noteDropped stops), ← noteDropped_eq]

/-- One closure at a time, the search is interrupted and comes to the match after three bytes. -/
theorem dispatch_interrupted_patient : ∃ sched final parts,
    sched = (new 1 0).init #[1, 2, 3, 4] 0 0 2 ∧
    (sched.dispatch (patient 2).runner 1).1 = true ∧
    Calls (patient 2).runner (fun _ => 1) sched parts final ∧
    (∀ part ∈ parts, part.length ≤ 1) ∧ final.result? = some #[0, 3] ∧
    final.dispatch (patient 2).runner 5 =
      (false, { final with notices := final.noteDropped.notices }) := by
  let sched := (new 1 0).init #[1, 2, 3, 4] 0 0 2
  obtain ⟨⟨_, final, -, -, ended, cut⟩, idle⟩ := dispatch_interrupted (patient 2).runner sched
  obtain ⟨parts, calls, -, le⟩ := cut (fun _ => 1) fun _ => Int.one_pos
  have found : final.noteDropped.result? = some #[0, 3] := by
    have same : final.noteDropped = (sched.dispatch (patient 2).runner 0).2 := by rw [ended]
    rw [same]
    decide +kernel
  refine ⟨sched, _, parts, rfl, by decide +kernel, calls, fun part mem => ?_,
    found, idle 0 _ ended 5⟩
  obtain ⟨call, got⟩ := List.mem_iff_getElem?.mp mem
  exact Int.ofNat_le.mp (le call part got)

end Rematch.Scheduler
