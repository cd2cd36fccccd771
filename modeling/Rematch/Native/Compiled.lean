import Rematch.Matching.Closure
import Rematch.Native.Emission

/-!
Compiled automata. Compiled code computes the same closures as the interpreter, but leaves its
events in an outbox of fixed capacity. When a closure writes more records than fit, the outbox is
thrown away and the interpreter computes the closure again.
-/

namespace Rematch.Native

/-- Compiled code with its sizes in bytes, and the capacity of the outbox in records. -/
structure Compiled where
  analysis : Analysis
  size : Nat
  stack : Nat
  capacity : Nat

def compile (automaton : Automaton) (analysis : Analysis) : Except EmissionError Compiled :=
  (emit automaton analysis).map fun code =>
    { analysis
      size := code.size
      stack := stackSize automaton analysis
      capacity := outboxCapacity analysis }

namespace Compiled

def installed (compiled : Compiled) : Log.Record :=
  .debug "native code installed"
    [("insts", .number compiled.analysis.size), ("blocks", .number compiled.analysis.blocks.length),
      ("bytes", .number compiled.size), ("stack", .number compiled.stack)]

/-- What compiled code is taken to do, with its outbox read back: it computes the closure, or has
the interpreter compute it again. That the emitted bytes do so is not proved. -/
def runner (compiled : Compiled) : Runner := fun sched entry =>
  if entry < compiled.analysis.size then
    let state := compiled.analysis.closure sched entry
    { events := state.events.reverse
      scope := state.scope
      notices :=
        if compiled.capacity < state.records then [.overflow entry sched.offset] else [] }
  else { events := [], scope := sched.scope }

end Compiled

def notCompiled (error : EmissionError) : String := s!"jit: not compiled: {error.message}"

end Rematch.Native
