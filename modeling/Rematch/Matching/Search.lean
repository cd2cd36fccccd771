import Rematch.Threads.Dispatch

/-!
Searches from begin to end, in one go or in steps of a limited number of closures.
-/

namespace Rematch.Scheduler

def complete (sched : Scheduler) (runner : Runner) : Scheduler := (sched.dispatch runner 0).2

/-- Runs a search in steps of `maxSteps` closures and lists the scheduler after each of the first
`count` steps, with whether work remains. The last component is the end of the search. -/
def trace (runner : Runner) (maxSteps : Int) :
    Nat → Scheduler → List (Bool × Scheduler) × Scheduler
  | 0, sched => ([], sched.complete runner)
  | count + 1, sched =>
    match sched.dispatch runner maxSteps with
    | (false, sched) => ([(false, sched)], sched)
    | (true, sched) =>
      let (steps, last) := trace runner maxSteps count sched
      ((true, sched) :: steps, last)

end Rematch.Scheduler
