import Rematch.Program.Lowering
import Rematch.Proofs.Matching.Backtracking
import Rematch.Proofs.Text.ByteRanges

/-!
The meaning of a program, one code point at a time. A program is searched by backtracking: depth
first, the alternatives of a step in order, and no step twice without consuming a code point.
Conditions look at the neighbouring code points, and captures are offsets in bytes.
-/

namespace Rematch

namespace Condition

def isWordCode (code : Nat) : Bool :=
  (0x61 ≤ code && code ≤ 0x7A) || (0x41 ≤ code && code ≤ 0x5A) ||
    (0x30 ≤ code && code ≤ 0x39) || code == 0x5F

/-- The conditions that the code point before a position decides. -/
def openingCode : Option Nat → Nat
  | none => beginText + beginLine
  | some code => if code = 0x0A then beginLine else 0

/-- The conditions that the code point after a position decides. -/
def closingCode : Option Nat → Nat
  | none => endText + endLine
  | some code => if code = 0x0A then endLine else 0

/-- The conditions that hold between two neighbouring code points. -/
def betweenCodes (before after : Option Nat) : Nat :=
  openingCode before + closingCode after +
    if before.any isWordCode != after.any isWordCode then wordBoundary else noWordBoundary

end Condition

namespace Step

/-- Whether a step that consumes a code point takes this one. -/
def admits : Step → Nat → Bool
  | .codes [bound] true _, point => (Unicode.CaseFolding.orbitOf bound.toNat).contains point
  | .codes [bound] false _, point => bound == point
  | .codes bounds _ _, point => ByteRange.inBounds bounds point
  | .code points _, point => points.head? == some ↑point
  | .anyCode _, _ => true
  | .anyCodeButNewline _, point => point != 0x0A
  | _, _ => false

/-- The intervals of code points that a step takes, if it is not one code point in any case. -/
def intervals? : Step → Option (List Int)
  | .codes [_] true _ => none
  | .codes [bound] false _ => some [bound, bound]
  | .codes bounds _ _ => some bounds
  | .code (point :: _) _ => some [point, point]
  | .anyCode _ => some [0, Unicode.maxCode]
  | .anyCodeButNewline _ => some [0, 0x09, 0x0B, Unicode.maxCode]
  | _ => none

/-- The intervals of code points that a step takes, of one code point in any case too. -/
def ranges : Step → List Int
  | .codes [bound] true _ => (Lowering.orbit bound).flatMap fun code => [code, code]
  | step => step.intervals?.getD []

/-- Where a step goes on after a code point, if it consumes one. -/
def next? : Step → Option Nat
  | .codes _ _ out | .code _ out | .anyCode out | .anyCodeButNewline out => some out
  | _ => none

def control? : Step → Option Inst
  | .alt out out1 => some { op := .alt, out, out1 }
  | .altMatch out out1 => some { op := .altMatch, out, out1 }
  | .capture slot out => some { op := .capture, arg := slot, out }
  | .emptyWidth conditions out => some { op := .emptyWidth, arg := conditions, out }
  | .accept => some { op := .accept }
  | .fail => some { op := .fail }
  | .nop out => some { op := .nop, out }
  | _ => none

/-- The exits of a step lead to one of `size` steps, and its codes are code points. -/
def Fits (size : Nat) : Step → Prop
  | .alt out out1 | .altMatch out out1 => out < size ∧ out1 < size
  | .capture _ out | .emptyWidth _ out | .nop out => out < size
  | .anyCode out | .anyCodeButNewline out => out < size
  | .accept | .fail => True
  | .codes bounds _ out => out < size ∧ ∀ bound ∈ bounds, 0 ≤ bound ∧ bound ≤ Unicode.maxCode
  | .code points out =>
    out < size ∧ points ≠ [] ∧ ∀ point ∈ points, 0 ≤ point ∧ point ≤ Unicode.maxCode
  | .unsupported => False

instance (size : Nat) : (step : Step) → Decidable (step.Fits size)
  | .alt .. | .altMatch .. | .codes .. | .code .. => inferInstanceAs (Decidable (_ ∧ _))
  | .capture .. | .emptyWidth .. | .nop _ | .anyCode _ | .anyCodeButNewline _ =>
    inferInstanceAs (Decidable (_ < _))
  | .accept | .fail => inferInstanceAs (Decidable True)
  | .unsupported => inferInstanceAs (Decidable False)

theorem Fits.next?_lt {n out : Nat} {sp : Step} (fits : sp.Fits n) (next : sp.next? = some out) :
    out < n := by
  cases sp <;> simp only [next?, reduceCtorEq, Option.some.injEq] at next <;> subst next
  case codes | code => exact fits.1
  case anyCode | anyCodeButNewline => exact fits

end Step

/-- How far a text is read: the code point before, those after, and the number of bytes before. -/
structure Reading where
  before : Option Nat
  after : List Nat
  offset : Nat

def Reading.holding (reading : Reading) : Nat :=
  Condition.betweenCodes reading.before reading.after.head?

namespace Program

variable {w : Bool} {c : Captures} {p : List Nat} {pc sl : Nat} {P : Program} {rd : Reading}

structure WellFormed (program : Program) : Prop where
  start : 0 ≤ program.start ∧ program.start < program.steps.size
  fits : ∀ step ∈ program.steps, step.Fits program.steps.size

/-- The captures of the first match that is found from a step on, after a path where it stands; with
`whole`, matches end at the end of the text only. -/
def attempt (program : Program) (slots : Nat) (whole : Bool) (path : List Nat) (reading : Reading)
    (pc : Nat) (captures : Captures) : Option Captures :=
  if _cut : pc ∈ path ∨ program.steps.size ≤ pc then none
  else
    match program.steps.getD pc .fail with
    | .alt out out1 | .altMatch out out1 =>
      (program.attempt slots whole (pc :: path) reading out captures).or
        (program.attempt slots whole (pc :: path) reading out1 captures)
    | .capture slot out =>
      program.attempt slots whole (pc :: path) reading out
        (if slot < slots then captures.setIfInBounds slot reading.offset else captures)
    | .emptyWidth conditions out =>
      if Condition.satisfied conditions reading.holding then
        program.attempt slots whole (pc :: path) reading out captures
      else none
    | .nop out => program.attempt slots whole (pc :: path) reading out captures
    | .accept =>
      if whole && !reading.after.isEmpty then none
      else some (captures.setIfInBounds 1 reading.offset)
    | step =>
      match reading with
      | ⟨_, code :: after, offset⟩ =>
        if step.admits code then
          step.next?.bind fun out =>
            program.attempt slots whole [] ⟨code, after, offset + (Utf8.encode code).length⟩ out
              captures
        else none
      | ⟨_, [], _⟩ => none
termination_by (reading.after.length, (Finset.range program.steps.size \ path.toFinset).card)
decreasing_by
  all_goals
    first
    | exact Prod.Lex.left _ _ (Nat.lt_succ_self _)
    | simp only [not_or, Nat.not_le] at _cut
      exact Prod.Lex.right _ (card_range_sdiff_cons_lt _cut.2 _cut.1)

theorem attempt_of_cut (cut : pc ∈ p ∨ P.steps.size ≤ pc) : P.attempt sl w p rd pc c = none := by
  rw [attempt, dif_pos cut]

theorem attempt_of_next {out : Nat} {sp : Step}
    (got : P.steps[pc]? = some sp) (next : sp.next? = some out) (new : pc ∉ p) :
    P.attempt sl w p rd pc c = (rd.after.head?.filter sp.admits).bind fun cd =>
        P.attempt sl w [] ⟨cd, rd.after.tail, rd.offset + (Utf8.encode cd).length⟩ out c := by
  obtain ⟨lt, -⟩ := Array.getElem?_eq_some_iff.mp got
  have step_eq : P.steps.getD pc .fail = sp := by
    rw [Array.getD_eq_getD_getElem?, got]
    rfl
  obtain ⟨u, v, k⟩ := rd
  rw [attempt, dif_neg (by simp [new, lt]), step_eq]
  cases sp <;> simp only [Step.next?, reduceCtorEq, Option.some.injEq] at next <;> subst next <;>
    cases v <;> simp only [List.head?_nil, List.head?_cons, Option.filter_none,
      Option.filter_some, Option.bind_none, List.tail_cons, Step.next?, Option.bind_some] <;>
    split <;> rfl

def search (program : Program) (slots : Nat) (whole : Bool) (codes : List Nat) : Option Captures :=
  program.attempt slots whole [] ⟨none, codes, 0⟩ program.start.toNat
    ((Array.replicate slots (-1)).setIfInBounds 0 0)

end Program

end Rematch
