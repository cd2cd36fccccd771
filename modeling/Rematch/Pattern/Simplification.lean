import Rematch.Pattern.Expr

/-!
Simplification of expressions: counted repetitions are written out, and repetitions that change
nothing are left away. Of `least` to `most` copies, the optional ones are nested, so that each is
tried only after the one before it.
-/

namespace Rematch.Expr

/-- Repeats a simplified body. The empty expression cannot be repeated, and repeating twice in the
same way changes nothing. -/
def repeatBody (kind : Repetition) (lazy : Bool) (body : Expr) : Expr :=
  match body with
  | .empty => .empty
  | .repetition inner innerLazy _ =>
    if inner = kind ∧ innerLazy = lazy then body else .repetition kind lazy body
  | _ => .repetition kind lazy body

def optionalCopies (lazy : Bool) (body : Expr) : Nat → Expr
  | 0 => repeatBody .quest lazy body
  | count + 1 => repeatBody .quest lazy (.concat [body, optionalCopies lazy body count])

def writeOut (least : Nat) (most : Option Nat) (lazy : Bool) (body : Expr) : Expr :=
  match least, most with
  | 0, none => repeatBody .star lazy body
  | 1, none => repeatBody .plus lazy body
  | least, none =>
    .concat (List.replicate (least - 1) body ++ [repeatBody .plus lazy body])
  | least, some most =>
    if least = 1 ∧ most = 1 then body
    else
      let optional :=
        if least < most then [optionalCopies lazy body (most - least - 1)] else []
      if least = 0 then optional.headD .empty
      else .concat (List.replicate least body ++ optional)

mutual

def simplify : Expr → Expr
  | .capture group name body => .capture group name body.simplify
  | .concat parts => .concat (simplifyAll parts)
  | .alternate choices => .alternate (simplifyAll choices)
  | .repetition kind lazy body =>
    match kind with
    | .counted least most =>
      if most = some 0 then .empty else writeOut least most lazy body.simplify
    | kind => repeatBody kind lazy body.simplify
  | .empty => .empty
  | .literal codes mode => .literal codes mode
  | .set codes => .set codes
  | .any => .any
  | .anyButNewline => .anyButNewline
  | .assertion conditions => .assertion conditions

def simplifyAll : List Expr → List Expr
  | [] => []
  | first :: rest => first.simplify :: simplifyAll rest

end

end Rematch.Expr
