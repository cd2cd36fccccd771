import Rematch.Automaton.Basic
import Rematch.Program.Basic
import Rematch.Text.ByteRanges
import Rematch.Unicode.CaseFolding

/-!
Lowering of programs to byte automata. Every step keeps its index. A step that consumes a code
point becomes the head of a small graph of byte ranges, whose other instructions come after all
steps: one chain for each product of byte ranges, joined by a ladder of alternatives.
-/

namespace Rematch

inductive LoweringError where
  | refused (error : AutomatonError)
  | malformed
  deriving DecidableEq

namespace Lowering

def byteInst (range : ByteRange) (out : Int) : Inst :=
  { op := .byteRange, lo := range.lo, hi := range.hi, out }

/-- The head of a chain that consumes the given ranges in turn; the other positions are appended,
the last one first. -/
def chain (insts : Array Inst) (out : Int) : List ByteRange → Inst × Array Inst
  | [] => ({}, insts)
  | [range] => (byteInst range out, insts)
  | range :: rest =>
    let (next, insts) := chain insts out rest
    let pc := insts.size
    (byteInst range pc, insts.push next)

def chains (insts : Array Inst) (out : Int) : List (List ByteRange) → List Nat × Array Inst
  | [] => ([], insts)
  | seq :: rest =>
    let (head, insts) := chain insts out seq
    let pc := insts.size
    let (heads, insts) := chains (insts.push head) out rest
    (pc :: heads, insts)

def ladder (insts : Array Inst) (pc : Nat) : List Nat → Array Inst
  | [] => insts
  | [head] => insts.setIfInBounds pc { op := .nop, out := head }
  | [first, second] => insts.setIfInBounds pc { op := .alt, out := first, out1 := second }
  | head :: rest =>
    let next := insts.size
    ladder ((insts.push {}).setIfInBounds pc { op := .alt, out := head, out1 := next }) next rest

variable (insts : Array Inst)

def products (pc : Nat) (out : Int) : List (List ByteRange) → Array Inst
  | [] => insts.setIfInBounds pc { op := .fail }
  | [seq] =>
    let (head, insts) := chain insts out seq
    insts.setIfInBounds pc head
  | seqs =>
    let (heads, insts) := chains insts out seqs
    ladder insts pc heads

def bounds? (pc : Nat) (bounds : List Int) (out : Int) :
    Option (Array Inst) :=
  (ByteRange.sequencesOfBounds? bounds).map fun seqs => products insts pc out seqs

def orbit (code : Int) : List Int :=
  if 0 ≤ code then (Unicode.CaseFolding.orbitOf code.toNat).map Int.ofNat else [code]

/-- Makes the instruction at `pc` consume one code in any case. An ASCII letter whose only other
case is ASCII needs a single byte range. -/
def folded? (pc : Nat) (code : Int) (out : Int) : Option (Array Inst) :=
  match orbit code with
  | [upper, lower] =>
    if upper < 0x80 ∧ lower < 0x80 then
      let byte := ByteRange.lowByte lower
      some (insts.setIfInBounds pc { op := .byteRange, lo := byte, hi := byte, fold := true, out })
    else bounds? insts pc [upper, upper, lower, lower] out
  | codes => bounds? insts pc (codes.flatMap fun code => [code, code]) out

def step (pc : Nat) : Step → Except LoweringError (Array Inst)
  | .alt out out1 => .ok (insts.setIfInBounds pc { op := .alt, out, out1 })
  | .altMatch out out1 => .ok (insts.setIfInBounds pc { op := .altMatch, out, out1 })
  | .capture slot out => .ok (insts.setIfInBounds pc { op := .capture, arg := slot, out })
  | .emptyWidth conditions out =>
    .ok (insts.setIfInBounds pc { op := .emptyWidth, arg := conditions, out })
  | .accept => .ok (insts.setIfInBounds pc { op := .accept })
  | .fail => .ok (insts.setIfInBounds pc { op := .fail })
  | .nop out => .ok (insts.setIfInBounds pc { op := .nop, out })
  | .codes [code] true out => orMalformed (folded? insts pc code out)
  | .codes [code] false out => orMalformed (bounds? insts pc [code, code] out)
  | .codes bounds _ out => orMalformed (bounds? insts pc bounds out)
  | .code (code :: _) out => orMalformed (bounds? insts pc [code, code] out)
  | .code [] _ => .error .malformed
  | .anyCode out => orMalformed (bounds? insts pc [0, Unicode.maxCode] out)
  | .anyCodeButNewline out =>
    orMalformed (bounds? insts pc [0, 0x09, 0x0B, Unicode.maxCode] out)
  | .unsupported => .error (.refused (.unsupportedStep pc))
where
  orMalformed (result : Option (Array Inst)) : Except LoweringError (Array Inst) :=
    match result with
    | some insts => .ok insts
    | none => .error .malformed

def stepsFrom (insts : Array Inst) : Nat → List Step → Except LoweringError (Array Inst)
  | _, [] => .ok insts
  | pc, first :: rest =>
    match step insts pc first with
    | .ok insts => stepsFrom insts (pc + 1) rest
    | .error error => .error error

end Lowering

def Program.lower (program : Program) : Except LoweringError Automaton :=
  if program.steps.isEmpty then .error (.refused .emptyProgram)
  else
    match Lowering.stepsFrom (Array.replicate program.steps.size {}) 0 program.steps.toList with
    | .error error => .error error
    | .ok insts =>
      let automaton : Automaton := ⟨insts, program.start, max program.slots 2⟩
      match automaton.validate with
      | .ok () => .ok automaton
      | .error error => .error (.refused error)

end Rematch
