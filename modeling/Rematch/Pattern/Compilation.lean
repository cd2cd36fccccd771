import Rematch.Pattern.Expr
import Rematch.Program.Basic

/-!
Programs of expressions. Every expression becomes a fragment: where it begins, and which exits are
still open. An exit of a step is either its only or first one, or its second one. The first step of
a program fails.
-/

namespace Rematch

open Unicode (CodeSet)

structure Exit where
  step : Nat
  isSecond : Bool

structure Fragment where
  start : Nat
  exits : List Exit
  /-- Whether the fragment can be passed without consuming anything. -/
  nullable : Bool

def Step.leadTo (target : Nat) (isSecond : Bool) : Step → Step
  | .alt out out1 => if isSecond then .alt out target else .alt target out1
  | .altMatch out out1 => if isSecond then .altMatch out target else .altMatch target out1
  | .capture slot _ => .capture slot target
  | .emptyWidth conditions _ => .emptyWidth conditions target
  | .nop _ => .nop target
  | .codes bounds fold _ => .codes bounds fold target
  | .code list _ => .code list target
  | .anyCode _ => .anyCode target
  | .anyCodeButNewline _ => .anyCodeButNewline target
  | step => step

namespace Compilation

abbrev Steps := Array Step

def connect (steps : Steps) (exits : List Exit) (target : Nat) : Steps :=
  exits.foldl (fun steps exit => steps.modify exit.step (Step.leadTo target exit.isSecond)) steps

def single (steps : Steps) (step : Step) (nullable : Bool) : Fragment × Steps :=
  (⟨steps.size, [⟨steps.size, false⟩], nullable⟩, steps.push step)

def chain (first second : Fragment) (steps : Steps) : Fragment × Steps :=
  (⟨first.start, second.exits, first.nullable && second.nullable⟩,
    connect steps first.exits second.start)

def choose (first second : Fragment) (steps : Steps) : Fragment × Steps :=
  (⟨steps.size, first.exits ++ second.exits, first.nullable || second.nullable⟩,
    steps.push (.alt first.start second.start))

def fork (body : Fragment) (lazy : Bool) (steps : Steps) : Exit × Steps :=
  (⟨steps.size, !lazy⟩, steps.push (if lazy then .alt 0 body.start else .alt body.start 0))

def optional (body : Fragment) (lazy : Bool) (steps : Steps) : Fragment × Steps :=
  let (exit, forked) := fork body lazy steps
  (⟨steps.size, exit :: body.exits, true⟩, forked)

def loop (body : Fragment) (lazy : Bool) (steps : Steps) : Fragment × Steps :=
  let (exit, forked) := fork body lazy steps
  (⟨steps.size, [exit], true⟩, connect forked body.exits steps.size)

def oneOrMore (body : Fragment) (lazy : Bool) (steps : Steps) : Fragment × Steps :=
  let (looped, steps) := loop body lazy steps
  (⟨body.start, looped.exits, body.nullable⟩, steps)

/-- A fragment any number of times. If it can be passed without consuming anything, that is one or
more times or nothing, so that the preferred match stays the same. -/
def zeroOrMore (body : Fragment) (lazy : Bool) (steps : Steps) : Fragment × Steps :=
  if body.nullable then
    let (repeated, steps) := oneOrMore body lazy steps
    optional repeated lazy steps
  else loop body lazy steps

def literalStep (code : Nat) (foldCase : Bool) : Step :=
  if foldCase && Unicode.CaseFolding.nextInOrbit code != code then .codes [(code : Int)] true 0
  else .code [(code : Int)] 0

def setStep (codes : CodeSet) : Step :=
  let bounds : List Int := codes.flatMap fun span => [(span.lo : Int), (span.hi : Int)]
  match codes with
  | [span] =>
    if span.lo = span.hi then .code bounds 0
    else if codes = CodeSet.full then .anyCode 0
    else .codes bounds false 0
  | _ => if codes = CodeSet.butNewline then .anyCodeButNewline 0 else .codes bounds false 0

def literalFrom (foldCase : Bool) (before : Fragment) (steps : Steps) :
    List Nat → Fragment × Steps
  | [] => (before, steps)
  | code :: rest =>
    let (next, steps) := single steps (literalStep code foldCase) false
    let (joined, steps) := chain before next steps
    literalFrom foldCase joined steps rest

/-- The fragment of a repetition that is not counted. Counted repetitions are written out before. -/
def repeated (kind : Repetition) (lazy : Bool) (body : Fragment) (steps : Steps) :
    Fragment × Steps :=
  match kind with
  | .star => zeroOrMore body lazy steps
  | .plus => oneOrMore body lazy steps
  | .quest => optional body lazy steps
  | .counted .. => (body, steps)

mutual

def fragment (steps : Steps) : Expr → Fragment × Steps
  | .empty => single steps (.nop 0) true
  | .literal codes mode =>
    match codes with
    | [] => single steps (.nop 0) true
    | code :: rest =>
      let (first, steps) := single steps (literalStep code mode.foldCase) false
      literalFrom mode.foldCase first steps rest
  | .set codes => single steps (setStep codes) false
  | .any => single steps (.anyCode 0) false
  | .anyButNewline => single steps (.anyCodeButNewline 0) false
  | .assertion conditions => single steps (.emptyWidth conditions 0) true
  | .capture group _ body =>
    let (opening, steps) := single steps (.capture (2 * group) 0) true
    let (body, steps) := fragment steps body
    let (closing, steps) := single steps (.capture (2 * group + 1) 0) true
    let (front, steps) := chain opening body steps
    chain front closing steps
  | .repetition kind lazy body =>
    let (body, steps) := fragment steps body
    repeated kind lazy body steps
  | .concat parts =>
    match parts with
    | [] => single steps (.nop 0) true
    | first :: rest =>
      let (first, steps) := fragment steps first
      concatFrom first steps rest
  | .alternate choices =>
    match choices with
    | [] => single steps .fail false
    | first :: rest =>
      let (first, steps) := fragment steps first
      alternateFrom first steps rest

def concatFrom (before : Fragment) (steps : Steps) : List Expr → Fragment × Steps
  | [] => (before, steps)
  | part :: rest =>
    let (next, steps) := fragment steps part
    let (joined, steps) := chain before next steps
    concatFrom joined steps rest

def alternateFrom (preferred : Fragment) (steps : Steps) : List Expr → Fragment × Steps
  | [] => (preferred, steps)
  | choice :: rest =>
    let (next, steps) := fragment steps choice
    let (joined, steps) := choose preferred next steps
    alternateFrom joined steps rest

end

def slots (steps : Steps) : Nat :=
  steps.foldl (fun slots step =>
    match step with
    | .capture slot _ => max slots (slot + 1)
    | _ => slots) 2

end Compilation

def Expr.compile (expr : Expr) : Program :=
  let (whole, steps) := Compilation.fragment #[.fail] expr
  let steps := Compilation.connect (steps.push .accept) whole.exits steps.size
  { steps, start := whole.start, slots := Compilation.slots steps }

end Rematch
