import Rematch.Extension.Evaluation

/-!
Threads. A thread is a candidate position in an automaton together with its captures. Its record
stays in the arena when the thread has ended, and is used again for a later thread.
-/

namespace Rematch

inductive ThreadState where
  | dead
  | queued
  | running
  | waiting
  | matched
  deriving DecidableEq

namespace ThreadState

def ofCode : Nat → ThreadState
  | 1 => .queued
  | 2 => .running
  | 3 => .waiting
  | 4 => .matched
  | _ => .dead

def name : ThreadState → String
  | .dead => "dead"
  | .queued => "queued"
  | .running => "running"
  | .waiting => "waiting"
  | .matched => "matched"

end ThreadState

/-- One of the two queues, which take turns: threads that resume at offsets of the same parity
share a queue. -/
abbrev Lane := Bool

structure Thread where
  entry : Nat := 0
  /-- How many further bytes it waits for once its queue comes up. -/
  delay : Nat := 0
  /-- Threads with equal visit ids have equal captures for every backreference. -/
  visit : Nat := 0
  state : ThreadState := .dead
  lane : Option Lane := none
  captures : Captures := #[]
  deriving Inhabited

/-- Replaces the first entries of `target` by those of `source`, as far as both reach. -/
def Captures.copyInto (source target : Captures) : Captures :=
  source.extract 0 target.size ++ target.extract source.size target.size

end Rematch
