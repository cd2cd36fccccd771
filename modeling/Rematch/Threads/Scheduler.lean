import Rematch.Automaton.Condition
import Rematch.Threads.Notice
import Rematch.Threads.Queue
import Rematch.Threads.Ranking
import Rematch.Threads.Thread

/-!
The scheduler of threads. All live threads are ranked in priority order; those that are to run at
the current offset and those that are to run at the next one also stand in two queues. A
thread that forks puts its children directly below itself in the order in which they were made, and
a match retires every thread below it, so that the first thread in the list always belongs to the
preferred match.

Dead records are kept on a free list and used again, the most recently freed first.
-/

namespace Rematch

/-- What a closure may change besides starting threads: the captures it works on, which
instructions it has entered, and the visit id of the running thread. -/
structure Scope where
  captures : Captures := #[]
  /-- Bit `pc` is set once instruction `pc` has been entered. -/
  visited : Nat := 0
  visitId : Nat := 0
  lastVisitId : Nat := 0

structure Scheduler where
  /-- The size of the visited bitmap in words of 64 bits. -/
  words : Nat
  /-- The most records in the arena; zero stands for no bound. -/
  maxThreads : Nat
  text : Text := #[]
  offset : Nat := 0
  /-- Bit 0 anchors matches to the begin of the text, bit 1 to its end. -/
  flags : Nat := 0
  holding : Nat := 0
  slots : Nat := 0
  start : Nat := 0
  matched : Bool := false
  arena : Array Thread := #[]
  free : List Nat := []
  ranking : Ranking := {}
  evenQueue : Queue := {}
  oddQueue : Queue := {}
  active : Lane := false
  running : Option Nat := none
  /-- The thread below which the next fork goes. -/
  cursor : Option Nat := none
  scope : Scope := {}
  /-- The visit id that the visited bitmap was last cleared for. -/
  bitmapOwner : Option Nat := none
  dropped : Nat := 0
  /-- What is worth a log record, the last notice first. -/
  notices : List Notice := []

namespace Scheduler

def new (states maxThreads : Nat) : Scheduler :=
  { words := (states + 63) / 64 + 1, maxThreads }

variable (sched : Scheduler)

def thread (id : Nat) : Thread := sched.arena.getD id {}

def modify (sched : Scheduler) (id : Nat) (change : Thread → Thread) : Scheduler :=
  { sched with arena := sched.arena.modify id change }

def order : List Nat := sched.ranking.toList

def queue : Lane → Queue
  | false => sched.evenQueue
  | true => sched.oddQueue

def setQueue (lane : Lane) (queue : Queue) : Scheduler :=
  match lane with
  | false => { sched with evenQueue := queue }
  | true => { sched with oddQueue := queue }

def remaining : Nat := sched.text.size - sched.offset

def anchorsStart : Bool := sched.flags.testBit 0

def anchorsEnd : Bool := sched.flags.testBit 1

def mayMatch : Bool := !(sched.anchorsEnd && sched.offset < sched.text.size)

def enqueue (lane : Lane) (id : Nat) : Scheduler :=
  (sched.setQueue lane ((sched.queue lane).push id)).modify id ({ · with lane := some lane })

def dequeue (id : Nat) : Scheduler :=
  match (sched.thread id).lane with
  | none => sched
  | some lane =>
    (sched.setQueue lane ((sched.queue lane).erase id)).modify id ({ · with lane := none })

def allocate : Option Nat × Scheduler :=
  match sched.free with
  | id :: free => (some id, { sched with free })
  | [] =>
    let size := sched.arena.size
    if 0 < sched.maxThreads ∧ sched.maxThreads ≤ size then (none, sched)
    else
      let record : Thread := { captures := Array.replicate sched.slots 0 }
      (some size, { sched with arena := sched.arena.push record })

def retire (id : Nat) : Scheduler :=
  let sched := sched.dequeue id
  ({ sched with free := id :: sched.free } : Scheduler).modify id ({ · with state := .dead })

def kill (id : Nat) : Scheduler :=
  if (sched.thread id).state = .dead then sched
  else
    let ranking := sched.ranking.erase id
    { sched.retire id with ranking }

def killBelow (id : Nat) : Scheduler :=
  let (ended, ranking) := sched.ranking.splitAt id
  ended.foldl retire { sched with ranking }

/-- Starts a thread with the given captures below the running thread and the threads it has
already started. The thread is in no queue yet. When the arena is full the thread is dropped. -/
def fork (entry : Nat) (captures : Captures) : Option Nat × Scheduler :=
  match sched.allocate with
  | (none, sched) => (none, { sched with dropped := sched.dropped + 1 })
  | (some id, sched) =>
    let visit := sched.scope.visitId
    let sched := sched.modify id fun thread =>
      { thread with
        entry, visit, delay := 0, state := .queued
        captures := captures.copyInto thread.captures }
    let ranking := match sched.cursor with
      | none => sched.ranking.append id
      | some cursor => sched.ranking.insertAfter cursor id
    (some id, { sched with ranking, cursor := some id })

/-- How far ahead of the current offset a thread can be queued. A longer wait is queued again. -/
def lookahead : Nat := 1

/-- Starts a thread that resumes at `entry` once `count` more bytes are consumed. There is none if
the text ends before. -/
def wait (entry : Nat) (count : Int) (captures : Captures) : Scheduler :=
  if count ≤ 0 ∨ (sched.remaining : Int) < count then sched
  else
    match sched.fork entry captures with
    | (none, sched) => sched
    | (some id, sched) =>
      let lane := !sched.active
      (sched.modify id ({ · with delay := count.toNat - lookahead, state := .waiting })).enqueue
        lane id

def killBelowCursor : Scheduler :=
  match sched.cursor with
  | none => sched
  | some cursor => sched.killBelow cursor

/-- Records a match that ends at the offset and ends every thread of lower priority; these go
first, so that there is a record for the match. Nothing happens, and the answer is `false`, where no
match may end. -/
def recordMatch (captures : Captures) : Bool × Scheduler :=
  if !sched.mayMatch then (false, sched)
  else
    match sched.killBelowCursor.fork 0 captures with
    | (none, sched) => (true, sched)
    | (some id, sched) =>
      let offset : Int := sched.offset
      let sched := sched.modify id fun thread =>
        { thread with captures := thread.captures.setIfInBounds 1 offset, state := .matched }
      (true, { sched.killBelow id with matched := true, bitmapOwner := none })

def fail : Scheduler :=
  match sched.running with
  | none => sched
  | some id => sched.kill id

def reset : Scheduler :=
  { sched with
    arena := sched.arena.map fun thread => { thread with state := .dead, lane := none }
    free := List.range sched.arena.size
    ranking := {}
    evenQueue := {}
    oddQueue := {}
    active := false
    running := none
    cursor := none }

def position : Scheduler :=
  { sched with holding := Condition.holdingAt sched.text sched.offset }

def seed : Scheduler :=
  match sched.allocate with
  | (none, sched) => sched
  | (some id, sched) =>
    let offset : Int := sched.offset
    let entry := sched.start
    let sched := sched.modify id fun thread =>
      { thread with
        entry, delay := 0, visit := 0, state := .queued
        captures := (Array.replicate thread.captures.size (-1)).setIfInBounds 0 offset }
    ({ sched with ranking := sched.ranking.append id } : Scheduler).enqueue sched.active id

/-- Changes the number of capture slots; the captures of all records start anew. -/
def resize (slots : Nat) : Scheduler :=
  if slots = sched.slots then sched
  else
    { sched with
      slots
      scope := { sched.scope with captures := Array.replicate slots 0 }
      arena := sched.arena.map fun thread =>
        { thread with captures := Array.replicate slots 0 } }

/-- Prepares a search of `text` from `start`, with one thread at the begin of the text. There are
at least two capture slots. -/
def init (text : Text) (start flags slots : Nat) : Scheduler :=
  let sched := (sched.resize (max slots 2)).reset
  { sched with
    text, start, flags
    offset := 0
    matched := false
    dropped := 0
    bitmapOwner := none
    scope := { sched.scope with visitId := 0, lastVisitId := 0 } }.position.seed

def idle : Bool := sched.evenQueue.isEmpty && sched.oddQueue.isEmpty

def isDone : Bool :=
  sched.text.size ≤ sched.offset || ((sched.matched || sched.anchorsStart) && sched.idle)

def advance : Scheduler :=
  let sched := { sched with
    offset := sched.offset + 1
    active := !sched.active
    bitmapOwner := none }.position
  if sched.anchorsStart || sched.matched then sched else sched.seed

def result? : Option Captures :=
  match sched.ranking.head? with
  | none => none
  | some id =>
    let thread := sched.thread id
    if thread.state = .matched then some thread.captures else none

end Scheduler

end Rematch
