import Rematch.Unicode.CodeSet

/-!
Expressions: the trees that patterns stand for, with their sizes. A literal keeps the mode that it
was read in, because two literals are the same only if their modes are.
-/

namespace Rematch

open Unicode (CodeSet)

structure Mode where
  foldCase : Bool := false
  dotNewline : Bool := false
  /-- The begin and the end of a line are those of the text. -/
  oneLine : Bool := true
  lazy : Bool := false
  deriving DecidableEq

inductive Repetition where
  | star
  | plus
  | quest
  | counted (least : Nat) (most : Option Nat)
  deriving DecidableEq

inductive Expr where
  | empty
  | literal (codes : List Nat) (mode : Mode)
  | set (codes : CodeSet)
  | any
  | anyButNewline
  | assertion (conditions : Nat)
  | capture (group : Nat) (name : String) (body : Expr)
  | repetition (kind : Repetition) (lazy : Bool) (body : Expr)
  | concat (parts : List Expr)
  | alternate (choices : List Expr)

namespace Expr

def isUnit : Expr → Bool
  | .literal [_] _ | .set _ | .any | .anyButNewline => true
  | _ => false

def ownCodes : Expr → Nat
  | .literal codes _ => codes.length
  | .set codes => 2 * codes.length
  | _ => 0

def repeatedSize (body : Nat) : Repetition → Nat
  | .star => 2 + body
  | .plus | .quest => 1 + body
  | .counted 0 none => 2 + body
  | .counted least none => 1 + least * body
  | .counted least (some most) => most * body + (most - least)

mutual

def size : Expr → Nat
  | .literal codes _ => max 1 codes.length
  | .capture _ _ body => 2 + body.size
  | .repetition kind _ body => max 1 (repeatedSize body.size kind)
  | .concat parts => max 1 (sizes parts)
  | .alternate choices => max 1 (sizes choices + (choices.length - 1))
  | _ => 1

def sizes : List Expr → Nat
  | [] => 0
  | first :: rest => first.size + sizes rest

end

mutual

def height : Expr → Nat
  | .capture _ _ body => 1 + body.height
  | .repetition _ _ body => 1 + body.height
  | .concat parts => 1 + heights parts
  | .alternate choices => 1 + heights choices
  | _ => 1

def heights : List Expr → Nat
  | [] => 0
  | first :: rest => max first.height (heights rest)

end

mutual

/-- Whether nested counted repetitions ask for no more than `budget` copies of anything. -/
def repeatsAtMost (budget : Nat) : Expr → Bool
  | .repetition kind _ body =>
    match kind with
    | .counted _ (some 0) => true
    | .counted least most =>
      let copies := most.getD least
      copies ≤ budget && body.repeatsAtMost (if copies = 0 then budget else budget / copies)
    | _ => body.repeatsAtMost budget
  | .capture _ _ body => body.repeatsAtMost budget
  | .concat parts => allRepeatAtMost budget parts
  | .alternate choices => allRepeatAtMost budget choices
  | _ => true

def allRepeatAtMost (budget : Nat) : List Expr → Bool
  | [] => true
  | first :: rest => first.repeatsAtMost budget && allRepeatAtMost budget rest

end

mutual

def groups : Expr → List (Nat × String)
  | .capture group name body => (group, name) :: body.groups
  | .repetition _ _ body => body.groups
  | .concat parts => groupsOf parts
  | .alternate choices => groupsOf choices
  | _ => []

def groupsOf : List Expr → List (Nat × String)
  | [] => []
  | first :: rest => first.groups ++ groupsOf rest

end

/-- The name of each group up to the last one; the whole match and groups without a name have the
empty name. -/
def groupNames (expr : Expr) : List String :=
  (expr.groups.foldl (fun names (group, name) =>
    let names := if names.size ≤ group then
      names ++ Array.replicate (group + 1 - names.size) "" else names
    names.setIfInBounds group name) #[""]).toList

end Expr

end Rematch
