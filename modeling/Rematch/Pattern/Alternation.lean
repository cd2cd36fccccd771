import Rematch.Pattern.Expr

/-!
Alternations. What the choices of an alternation begin with in common is taken out in front, choices
that stand for one code point are joined into sets, and neighbouring empty choices become one. All
this keeps which text is matched and what is preferred.
-/

namespace Rematch.Expr

open Unicode (CodeSet)

def literalSet (code : Nat) (mode : Mode) : CodeSet :=
  if mode.foldCase then CodeSet.foldCase [⟨code, code⟩] else [⟨code, code⟩]

def unitSet : Expr → CodeSet
  | .literal [code] mode => literalSet code mode
  | .set codes => codes
  | .any => CodeSet.full
  | .anyButNewline => CodeSet.butNewline
  | _ => []

def rank : Expr → Nat
  | .literal .. => 0
  | .set _ => 1
  | .anyButNewline => 2
  | .any => 3
  | _ => 4

def hasNewline : Expr → Bool
  | .literal codes _ => codes == [0x0A]
  | .set codes => codes.contains 0x0A
  | .any => true
  | _ => false

/-- Joins two expressions for one code point, of which the first has at least the rank of the
second. -/
def join (first second : Expr) : Expr :=
  match first, second with
  | .any, _ => .any
  | .anyButNewline, second => if second.hasNewline then .any else .anyButNewline
  | .literal [code] mode, .literal [other] otherMode =>
    if code = other ∧ mode = otherMode then first
    else .set ((literalSet code mode).union (literalSet other otherMode))
  | first, second => .set (first.unitSet.union second.unitSet)

def nameSet : Expr → Expr
  | .set codes =>
    if codes = CodeSet.full then .any
    else if codes = CodeSet.butNewline then .anyButNewline
    else .set codes
  | expr => expr

def choices : Expr → List Expr
  | .alternate choices => choices
  | expr => [expr]

def parts : Expr → List Expr
  | .concat parts => parts
  | expr => [expr]

def leadingString (expr : Expr) : List Nat × Bool :=
  match expr.parts.head? with
  | some (.literal codes mode) => (codes, mode.foldCase)
  | _ => ([], false)

def dropCodes (count : Nat) : Expr → Expr
  | .literal codes mode =>
    if codes.length ≤ count then .empty else .literal (codes.drop count) mode
  | expr => expr

def dropLeadingString (count : Nat) (expr : Expr) : Expr :=
  match expr with
  | .concat (first :: rest) =>
    match dropCodes count first, rest with
    | .empty, [] => .empty
    | .empty, [second] => second
    | .empty, rest => .concat rest
    | first, rest => .concat (first :: rest)
  | expr => dropCodes count expr

def leadingPart? (expr : Expr) : Option Expr :=
  match expr.parts.head? with
  | some .empty | none => none
  | first => first

def dropLeadingPart : Expr → Expr
  | .concat (_ :: [second]) => second
  | .concat (_ :: rest) => if rest.isEmpty then .empty else .concat rest
  | _ => .empty

/-- Whether two expressions for one code point have the same code points; the modes of literals do
not count. -/
def sameUnit : Expr → Expr → Bool
  | .literal [code] _, .literal [other] _ => code = other
  | .set codes, .set others => codes = others
  | .any, .any => true
  | .anyButNewline, .anyButNewline => true
  | _, _ => false

/-- Whether two parts are the same and simple enough to be taken out: one code point, or a fixed
number of them. -/
def sameLeadingPart : Expr → Expr → Bool
  | .repetition (.counted least most) lazy body,
    .repetition (.counted otherLeast otherMost) otherLazy otherBody =>
    most = some least && least = otherLeast && most = otherMost && lazy = otherLazy &&
      sameUnit body otherBody
  | first, second => sameUnit first second

def commonFront : List Nat → List Nat → List Nat
  | first :: rest, other :: others => if first = other then first :: commonFront rest others else []
  | _, _ => []

def ofChoices (combine : List Expr → List Expr) (list : List Expr) : Expr :=
  match combine (list.flatMap choices) with
  | [choice] => choice
  | list => .alternate list

/-- Ends a run of choices that begin with the same literal. The run is given last choice first. -/
def endStringRun (combine : List Expr → List Expr) (codes : List Nat) (foldCase : Bool) :
    List Expr → List Expr
  | [] => []
  | [choice] => [choice]
  | run =>
    let mode : Mode := { foldCase, oneLine := false }
    let rests := run.reverse.map (dropLeadingString codes.length)
    [.concat [.literal codes mode, ofChoices combine rests]]

def factorStrings (combine : List Expr → List Expr) (run : List Expr) (codes : List Nat)
    (foldCase : Bool) : List Expr → List Expr
  | [] => endStringRun combine codes foldCase run
  | choice :: rest =>
    let (leading, folds) := choice.leadingString
    let common := if folds = foldCase then commonFront codes leading else []
    if common.isEmpty then
      endStringRun combine codes foldCase run ++
        factorStrings combine [choice] leading folds rest
    else factorStrings combine (choice :: run) common foldCase rest

def endPartRun (combine : List Expr → List Expr) (part : Option Expr) :
    List Expr → List Expr
  | [] => []
  | [choice] => [choice]
  | run =>
    [.concat [part.getD .empty, ofChoices combine (run.reverse.map dropLeadingPart)]]

def factorParts (combine : List Expr → List Expr) (run : List Expr) (part : Option Expr) :
    List Expr → List Expr
  | [] => endPartRun combine part run
  | choice :: rest =>
    let leading := choice.leadingPart?
    let isSame := match part, leading with
      | some part, some leading => sameLeadingPart part leading
      | _, _ => false
    if isSame then factorParts combine (choice :: run) part rest
    else endPartRun combine part run ++ factorParts combine [choice] leading rest

def isSimpler (first second : Expr) : Bool :=
  first.rank < second.rank || (first.rank = second.rank && first.ownCodes < second.ownCodes)

def richestFirst : List Expr → List Expr
  | [] => []
  | first :: rest =>
    match richestFirst rest with
    | richest :: others =>
      if isSimpler first richest then richest :: first :: others else first :: rest
    | [] => [first]

def endUnitRun (run : List Expr) : List Expr :=
  match run with
  | [] => []
  | [choice] => [choice]
  | run =>
    match richestFirst run.reverse with
    | richest :: others => [nameSet (others.foldl join richest)]
    | [] => []

def joinUnits (run : List Expr) : List Expr → List Expr
  | [] => endUnitRun run
  | choice :: rest =>
    if choice.isUnit then joinUnits (choice :: run) rest
    else endUnitRun run ++ choice :: joinUnits [] rest

def mergeEmpty : List Expr → List Expr
  | .empty :: .empty :: rest => mergeEmpty (.empty :: rest)
  | first :: rest => first :: mergeEmpty rest
  | [] => []

/-- Shortens the choices of an alternation. Whatever is taken out is handled `depth` levels deep. -/
def combine : Nat → List Expr → List Expr
  | 0, list => list
  | depth + 1, list =>
    if list.length < 2 then list
    else
      let strings := factorStrings (combine depth) [] [] false list
      let parts := factorParts (combine depth) [] none strings
      mergeEmpty (joinUnits [] parts)

/-- The alternation of a list of choices. Every level that is taken out makes the choices smaller,
so that their size is a sufficient depth. -/
def alternation : List Expr → Expr
  | [choice] => choice
  | list => ofChoices (combine (sizes list + 1)) list

def concatenation : List Expr → Expr
  | [] => .empty
  | [part] => part
  | list => .concat (list.flatMap parts)

end Rematch.Expr
