import Rematch.Log.Record

/-!
What a search has to report besides its result.
-/

namespace Rematch

inductive Notice where
  | exhausted (dropped maxThreads : Nat)
  /-- The outbox was full and the closure of an instruction was computed again. -/
  | overflow (pc offset : Nat)
  deriving DecidableEq

namespace Notice

def record : Notice → Log.Record
  | .exhausted dropped maxThreads =>
    .debug "thread arena exhausted" [("dropped", .number dropped), ("max", .number maxThreads)]
  | .overflow pc offset =>
    .debug "outbox overflow, rerunning closure" [("inst", .number pc), ("offset", .number offset)]

def isOverflow : Notice → Bool
  | .overflow .. => true
  | .exhausted .. => false

end Notice

end Rematch
