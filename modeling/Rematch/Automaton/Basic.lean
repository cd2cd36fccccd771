import Rematch.Automaton.Condition
import Rematch.Automaton.Extension
import Rematch.Automaton.Inst

/-!
Byte automata: a list of instructions with a start. `validate` refuses an automaton with an exit
that leads outside it, and is the gate before every analysis and execution.
-/

namespace Rematch

structure Automaton where
  insts : Array Inst
  start : Int
  slots : Int

inductive AutomatonError where
  | noInstructions
  | emptyProgram
  | startOutside (start : Int)
  | exitOutside (pc : Nat) (out : Int)
  | secondExitOutside (pc : Nat) (out1 : Int)
  | unknownOpcode (pc : Nat) (op : Opcode)
  | unsupportedStep (pc : Nat)
  | misplacedExtension (pc : Int)
  | badExtension (pc : Int) (ext : Extension)
  deriving DecidableEq

def AutomatonError.message (error : AutomatonError) : String :=
  "invalid automaton: " ++
    match error with
    | .noInstructions => "no instructions"
    | .emptyProgram => "empty program"
    | .startOutside start => s!"start {start} out of range"
    | .exitOutside pc out => s!"inst {pc}: out {out} out of range"
    | .secondExitOutside pc out1 => s!"inst {pc}: out1 {out1} out of range"
    | .unknownOpcode pc op => s!"inst {pc}: unknown opcode {op.name}"
    | .unsupportedStep pc => s!"inst {pc}: unsupported opcode "
    | .misplacedExtension pc => s!"extension at inst {pc}"
    | .badExtension pc ext => s!"inst {pc}: bad extension {ext.render}"

namespace Automaton

def empty : Automaton := ⟨#[{ op := .accept }], 0, 2⟩

def size (automaton : Automaton) : Nat := automaton.insts.size

variable (automaton : Automaton)

def inst? (pc : Int) : Option Inst :=
  if 0 ≤ pc then automaton.insts[pc.toNat]? else none

def inside (pc : Int) : Bool :=
  0 ≤ pc && pc < automaton.insts.size

def faultAt? (pc : Nat) (inst : Inst) : Option AutomatonError :=
  let exitFault := if automaton.inside inst.out then none else some (.exitOutside pc inst.out)
  match inst.op with
  | .alt | .altMatch =>
    if automaton.inside inst.out1 then exitFault else some (.secondExitOutside pc inst.out1)
  | .byteRange | .capture | .emptyWidth | .nop => exitFault
  | .accept | .fail => none
  | .unknown code => some (.unknownOpcode pc (.unknown code))

def firstFault? (automaton : Automaton) : Nat → List Inst → Option AutomatonError
  | _, [] => none
  | pc, inst :: rest =>
    match automaton.faultAt? pc inst with
    | some fault => some fault
    | none => firstFault? automaton (pc + 1) rest

def validate : Except AutomatonError Unit :=
  if automaton.insts.isEmpty then .error .noInstructions
  else if !automaton.inside automaton.start then .error (.startOutside automaton.start)
  else
    match automaton.firstFault? 0 automaton.insts.toList with
    | some fault => .error fault
    | none => .ok ()

def render (automaton : Automaton) : String :=
  String.join (automaton.insts.toList.zipIdx.map fun (inst, pc) =>
    let mark := if (pc : Int) = automaton.start then "* " else "  "
    let index := Digits.padLeft ' ' 3 (toString pc)
    s!"{mark}{index}. {inst.render}\n")

/-- Walks over captures and nops for at most `steps` instructions and asks the first other one for
the begin of the text; `none` if the walk leaves the automaton. -/
def anchoredFrom? (automaton : Automaton) : Nat → Int → Option Bool
  | 0, _ => some false
  | steps + 1, pc =>
    match automaton.inst? pc with
    | none => none
    | some inst =>
      match inst.op with
      | .capture | .nop => anchoredFrom? automaton steps inst.out
      | .emptyWidth => some (inst.arg &&& Condition.beginText != 0)
      | _ => some false

/-- Whether every match must begin at the begin of the text, as far as the first instructions
show; `none` if they lead outside the automaton. -/
def isAnchored? : Option Bool :=
  automaton.anchoredFrom? automaton.size automaton.start

end Automaton

end Rematch
