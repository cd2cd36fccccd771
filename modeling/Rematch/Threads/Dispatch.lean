import Rematch.Threads.Scheduler

/-!
Running threads. A runner computes the closure of a thread: everything the thread does without
consuming input. The closure is a list of events, which the scheduler applies in order. `dispatch`
runs the queued threads offset by offset and can be interrupted between any two closures.
-/

namespace Rematch

inductive Event where
  | wait (entry : Nat) (count : Int) (captures : Captures) (visitId : Nat)
  | accept (captures : Captures) (visitId : Nat)
  | fail

structure Turn where
  events : List Event
  scope : Scope
  notices : List Notice := []

/-- Computes the closure of the running thread from its entry. -/
abbrev Runner := Scheduler → Nat → Turn

namespace Scheduler

variable (sched : Scheduler)

def setVisitId (id : Nat) : Scheduler :=
  { sched with scope := { sched.scope with visitId := id } }

def apply : Event → Scheduler
  | .wait entry count captures visitId => (sched.setVisitId visitId).wait entry count captures
  | .accept captures visitId => ((sched.setVisitId visitId).recordMatch captures).2
  | .fail => sched.fail

/-- Makes a thread the running one. Threads with the same visit id that run one after the other
share the visited bitmap; otherwise it is cleared. -/
def begin (id : Nat) : Scheduler :=
  let sched := sched.modify id ({ · with state := .running })
  let thread := sched.thread id
  { sched with
    ranking := sched.ranking.cutAt id
    running := some id
    cursor := some id
    bitmapOwner := some thread.visit
    scope := { sched.scope with
      captures := thread.captures.copyInto sched.scope.captures
      visitId := thread.visit
      visited := if sched.bitmapOwner = some thread.visit then sched.scope.visited else 0 } }

def finish (id : Nat) : Scheduler :=
  let sched := if (sched.thread id).state = .running then sched.kill id else sched
  { sched with running := none, cursor := none }

def run (runner : Runner) (id : Nat) : Scheduler :=
  let sched := sched.begin id
  let turn := runner sched (sched.thread id).entry
  let sched := turn.events.foldl apply sched
  { sched with scope := turn.scope, notices := turn.notices ++ sched.notices }.finish id

def next? : Option (Nat × Queue) := (sched.queue sched.active).pop?

def take (id : Nat) (rest : Queue) : Scheduler :=
  let lane := sched.active
  (sched.setQueue lane rest).modify id ({ · with lane := none })

def postpone (id : Nat) : Scheduler :=
  let lane := !sched.active
  (sched.modify id fun thread => { thread with delay := thread.delay - 1 }).enqueue lane id

/-- Runs up to `count` threads of the current offset, and no more closures than `limit` allows.
Closures start threads for later offsets only, so that the length of the queue is a sufficient
count. -/
def drain (runner : Runner) : Nat → Option Nat → Scheduler → Option Nat × Scheduler
  | 0, limit, sched => (limit, sched)
  | _ + 1, some 0, sched => (some 0, sched)
  | count + 1, limit, sched =>
    match sched.next? with
    | none => (limit, sched)
    | some (id, rest) =>
      let sched := sched.take id rest
      if 0 < (sched.thread id).delay then drain runner count limit (sched.postpone id)
      else drain runner count (limit.map (· - 1)) (sched.run runner id)

def noteDropped : Scheduler :=
  if 0 < sched.dropped then
    { sched with notices := .exhausted sched.dropped sched.maxThreads :: sched.notices }
  else sched

def dispatchFrom (runner : Runner) : Nat → Option Nat → Scheduler → Bool × Scheduler
  | 0, _, sched => (false, sched)
  | offsets + 1, limit, sched =>
    match drain runner (sched.queue sched.active).toList.length limit sched with
    | (some 0, sched) => (true, sched)
    | (limit, sched) =>
      if sched.isDone then (false, sched.noteDropped)
      else dispatchFrom runner offsets limit sched.advance

/-- Runs threads until none is left or `maxSteps` closures have run; zero or less stands for no
limit. The answer says whether work remains. -/
def dispatch (runner : Runner) (maxSteps : Int) : Bool × Scheduler :=
  let limit := if maxSteps ≤ 0 then none else some maxSteps.toNat
  dispatchFrom runner (sched.remaining + 1) limit sched

end Scheduler

end Rematch
