import Rematch.Threads.Dispatch

/-!
Sessions: a scheduler that is driven by commands. Commands can be given one at a time, and a script
says which commands make up the closure of each entry. A command that reads or writes outside the
captures or the visited bitmap is a fault; the session then stays as it was at that moment.
-/

namespace Rematch

inductive Command where
  | wait (entry : Nat) (count : Int)
  | waitWith (entry : Nat) (count : Int) (captures : Captures)
  | accept
  | acceptWith (captures : Captures)
  | fork (entry : Nat)
  | fail
  | setCapture (slot value : Int)
  | visit (pc : Int)
  | clearVisited
  | saveVisited
  | restoreVisited
  | newVisitId
  | setVisitId (id : Nat)
  | ifAt (offset : Int) (command : Command)
  deriving Inhabited

inductive Reply where
  | nothing
  | flag (value : Bool)
  | number (value : Int)
  | words (words : List Nat)

structure Report where
  entry : Nat
  offset : Nat
  captures : Captures
  visitId : Nat
  replies : List Reply

/-- A scheduler, the script of its closures, and the bitmap that was saved last. -/
structure Session where
  scheduler : Scheduler
  script : List (Nat × List Command)
  saved : Option Nat := none
  reports : List Report := []

inductive SessionFault where
  | outOfBounds
  deriving DecidableEq

namespace Session

abbrev Action := EStateM SessionFault Session

def onScheduler (change : Scheduler → Scheduler) : Action Reply := do
  modify fun session => { session with scheduler := change session.scheduler }
  return .nothing

def onScope (change : Scope → Scope) : Action Reply :=
  onScheduler fun sched => { sched with scope := change sched.scope }

/-- Accepts at the current offset. Without a slot for the end of the match that is a fault, once
there is a thread for it. -/
def acceptWith (captures : Captures) : Action Reply := do
  let sched := (← get).scheduler
  if sched.slots < 2 && sched.mayMatch then
    match sched.killBelowCursor.fork 0 captures with
    | (none, sched) =>
      discard (onScheduler fun _ => sched)
      return .flag true
    | (some _, sched) =>
      discard (onScheduler fun _ => sched)
      throw .outOfBounds
  else
    let (accepted, sched) := sched.recordMatch captures
    discard (onScheduler fun _ => sched)
    return .flag accepted

def wordsOf (count bitmap : Nat) : List Nat :=
  (List.range count).map fun index => bitmap >>> (64 * index) % Nat.pow 2 64

def perform : Command → Action Reply
  | .wait entry count => onScheduler fun sched => sched.wait entry count sched.scope.captures
  | .waitWith entry count captures => onScheduler fun sched => sched.wait entry count captures
  | .accept => do acceptWith (← get).scheduler.scope.captures
  | .acceptWith captures => acceptWith captures
  | .fork entry => do
    let sched := (← get).scheduler
    let (id, sched) := sched.fork entry sched.scope.captures
    discard (onScheduler fun _ => sched)
    return .number (match id with
      | some id => id
      | none => -1)
  | .fail => onScheduler Scheduler.fail
  | .setCapture slot value => do
    let size := (← get).scheduler.scope.captures.size
    if 0 ≤ slot ∧ slot < size then
      onScope fun scope =>
        { scope with captures := scope.captures.setIfInBounds slot.toNat value }
    else throw .outOfBounds
  | .visit pc => do
    let sched := (← get).scheduler
    if pc < 0 ∨ (64 * sched.words : Int) ≤ pc then throw .outOfBounds
    else if sched.scope.visited.testBit pc.toNat then return .flag false
    else
      discard (onScope fun scope => { scope with visited := scope.visited ||| 1 <<< pc.toNat })
      return .flag true
  | .clearVisited => onScope fun scope => { scope with visited := 0 }
  | .saveVisited => do
    let sched := (← get).scheduler
    modify fun session => { session with saved := some sched.scope.visited }
    return .words (wordsOf sched.words sched.scope.visited)
  | .restoreVisited => do
    match (← get).saved with
    | none => return .nothing
    | some saved => onScope fun scope => { scope with visited := saved }
  | .newVisitId => do
    let scope := (← get).scheduler.scope
    discard (onScope fun scope =>
      { scope with visitId := scope.lastVisitId + 1, lastVisitId := scope.lastVisitId + 1 })
    return .number scope.visitId
  | .setVisitId id => onScope fun scope => { scope with visitId := id }
  | .ifAt offset command => do
    if ((← get).scheduler.offset : Int) = offset then perform command else return .nothing

def runThread (id : Nat) : Action Unit := do
  discard (onScheduler fun sched => sched.begin id)
  let session ← get
  let sched := session.scheduler
  let entry := (sched.thread id).entry
  let replies ← ((session.script.lookup entry).getD []).mapM perform
  let report : Report :=
    { entry, offset := sched.offset, captures := sched.scope.captures
      visitId := sched.scope.visitId, replies }
  modify fun session => { session with
    scheduler := session.scheduler.finish id
    reports := report :: session.reports }

def drain : Nat → Option Nat → Action (Option Nat)
  | 0, limit => return limit
  | _ + 1, some 0 => return some 0
  | count + 1, limit => do
    let sched := (← get).scheduler
    match sched.next? with
    | none => return limit
    | some (id, rest) =>
      let sched := sched.take id rest
      if 0 < (sched.thread id).delay then
        discard (onScheduler fun _ => sched.postpone id)
        drain count limit
      else
        discard (onScheduler fun _ => sched)
        runThread id
        drain count (limit.map (· - 1))

def dispatchFrom : Nat → Option Nat → Action Bool
  | 0, _ => return false
  | offsets + 1, limit => do
    let sched := (← get).scheduler
    match ← drain (sched.queue sched.active).toList.length limit with
    | some 0 => return true
    | limit =>
      if (← get).scheduler.isDone then
        discard (onScheduler Scheduler.noteDropped)
        return false
      else
        discard (onScheduler Scheduler.advance)
        dispatchFrom offsets limit

def dispatch (maxSteps : Int) : Action Bool := do
  dispatchFrom ((← get).scheduler.remaining + 1)
    (if maxSteps ≤ 0 then none else some maxSteps.toNat)

inductive Operation where
  | init (text : Text) (start flags slots : Nat)
  | dispatch (maxSteps : Int)
  | command (command : Command)

def operate : Operation → Action Reply
  | .init text start flags slots => onScheduler fun sched => sched.init text start flags slots
  | .dispatch maxSteps => return .flag (← dispatch maxSteps)
  | .command command => perform command

def step (session : Session) (operation : Operation) : Option Reply × Session :=
  let session := { session with
    reports := []
    scheduler := { session.scheduler with notices := [] } }
  match operate operation session with
  | .ok reply session => (some reply, session)
  | .error _ session => (none, session)

end Session

end Rematch
