/-!
Programs over code points. A program has the control steps of a byte automaton, and steps that
consume one code point instead of one byte.
-/

namespace Rematch

/-- A step of a program; exits are indices of steps. -/
inductive Step where
  | alt (out out1 : Nat)
  | altMatch (out out1 : Nat)
  | capture (slot out : Nat)
  | emptyWidth (conditions out : Nat)
  | accept
  | fail
  | nop (out : Nat)
  /-- One code, or alternating first and last codes; with `fold`, also codes of other case. -/
  | codes (bounds : List Int) (fold : Bool) (out : Nat)
  | code (codes : List Int) (out : Nat)
  | anyCode (out : Nat)
  | anyCodeButNewline (out : Nat)
  | unsupported

structure Program where
  steps : Array Step
  start : Int
  slots : Int

end Rematch
