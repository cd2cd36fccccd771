import Rematch.Pattern.Alternation
import Rematch.Pattern.Token

/-!
Reading patterns. Tokens are put on a stack of expressions, bars and open parentheses; a bar
finishes the concatenation above it, and a closing parenthesis the alternation. Neighbouring
literals are joined once nothing can be applied to the last of them any more.
-/

namespace Rematch

open Unicode (CodeSet)

inductive StackItem where
  | expr (expr : Expr)
  | bar
  /-- An open parenthesis with its group, if it captures, and the mode to go back to. -/
  | parenthesis (group : Option (Nat × String)) (mode : Mode)

structure Parser where
  mode : Mode := {}
  stack : List StackItem := []
  groups : Nat := 0
  /-- How many code points and bounds were put on the stack. -/
  codes : Nat := 0

namespace Parser

def maxHeight : Nat := 1000

def maxSize : Nat := 3355443

def maxCodes : Nat := 33554432

/-- The limits on what is pushed. The size is computed anew each time, also where a bound on it that
is cheaper to keep would do. -/
def checkLimits (parser : Parser) (expr : Expr) : Except SyntaxFault Unit :=
  if maxCodes < parser.codes ∨ maxSize < expr.size then .error .tooLarge
  else if maxHeight < expr.height then .error .tooDeep
  else .ok ()

def isCasePair (first second : Nat) : Bool :=
  Unicode.CaseFolding.nextInOrbit first = second && Unicode.CaseFolding.nextInOrbit second = first

def toLiteral (mode : Mode) : Expr → Expr
  | .set [span] =>
    if span.lo = span.hi then .literal [span.lo] { mode with foldCase := false }
    else if span.lo + 1 = span.hi ∧ isCasePair span.lo span.hi then
      .literal [span.lo] { mode with foldCase := true }
    else .set [span]
  | .set [first, second] =>
    if first.lo = first.hi ∧ second.lo = second.hi ∧ isCasePair first.lo second.lo then
      .literal [first.lo] { mode with foldCase := true }
    else .set [first, second]
  | expr => expr

def joinLiterals : List StackItem → List StackItem
  | .expr (.literal last lastMode) :: .expr (.literal codes mode) :: rest =>
    if lastMode.foldCase = mode.foldCase then .expr (.literal (codes ++ last) mode) :: rest
    else .expr (.literal last lastMode) :: .expr (.literal codes mode) :: rest
  | stack => stack

def pushItem (parser : Parser) (item : StackItem) : Parser :=
  { parser with stack := item :: joinLiterals parser.stack }

def push (parser : Parser) (expr : Expr) : Except SyntaxFault Parser :=
  let parser := { parser with codes := parser.codes + expr.ownCodes }
  let expr := toLiteral parser.mode expr
  match parser.checkLimits expr with
  | .error fault => .error fault
  | .ok () => .ok (parser.pushItem (.expr expr))

def unwind : List Expr → List StackItem → List Expr × List StackItem
  | above, .expr expr :: rest => unwind (expr :: above) rest
  | above, stack => (above, stack)

def concat (parser : Parser) : Except SyntaxFault Parser :=
  let (parts, stack) := unwind [] (joinLiterals parser.stack)
  { parser with stack }.push (Expr.concatenation parts)

def nameLast : List Expr → List Expr
  | [] => []
  | [last] => [last.nameSet]
  | first :: rest => first :: nameLast rest

def alternate (parser : Parser) : Except SyntaxFault Parser :=
  let (choices, stack) := unwind [] parser.stack
  { parser with stack }.push (Expr.alternation (nameLast choices))

def nameTop : List StackItem → List StackItem
  | .expr expr :: rest => .expr expr.nameSet :: rest
  | stack => stack

/-- Moves the last expression below the bar before it, or joins it with the one below the bar if
both stand for one code point; `none` if there is no bar. The bar is then the last element. -/
def swapBar? : List StackItem → Option (List StackItem)
  | .expr last :: .bar :: rest =>
    match rest with
    | .expr other :: below =>
      if last.isUnit && other.isUnit then
        let joined := if other.rank < last.rank then last.join other else other.join last
        some (.bar :: .expr joined :: below)
      else some (.bar :: .expr last :: nameTop rest)
    | _ => some (.bar :: .expr last :: rest)
  | _ => none

def bar (parser : Parser) : Except SyntaxFault Parser :=
  parser.concat.map fun parser =>
    match swapBar? parser.stack with
    | some stack => { parser with stack }
    | none => parser.pushItem .bar

def finishGroup (parser : Parser) : Except SyntaxFault Parser :=
  match parser.concat with
  | .error fault => .error fault
  | .ok parser =>
    match swapBar? parser.stack with
    | some stack => { parser with stack := stack.drop 1 }.alternate
    | none => parser.alternate

def close (parser : Parser) : Except SyntaxFault Parser :=
  match parser.finishGroup with
  | .error fault => .error fault
  | .ok parser =>
    match parser.stack with
    | .expr body :: .parenthesis group mode :: stack =>
      let parser := { parser with stack, mode }
      match group with
      | none => parser.push body
      | some (group, name) => parser.push (.capture group name body)
    | _ => .error .unexpectedParenthesis

def pushLiterals (parser : Parser) : List Nat → Except SyntaxFault Parser
  | [] => .ok parser
  | code :: rest =>
    let code := if parser.mode.foldCase then Unicode.CaseFolding.leastInOrbit code else code
    match parser.push (.literal [code] parser.mode) with
    | .error fault => .error fault
    | .ok parser => pushLiterals parser rest

def multiplies : Repetition → Bool
  | .counted least most => 2 ≤ least || most.any (2 ≤ ·)
  | _ => false

def applyRepetition (parser : Parser) (kind : Repetition) (lazy : Bool) :
    Except SyntaxFault Parser :=
  match parser.stack with
  | .expr body :: stack =>
    let expr := Expr.repetition kind lazy body
    match parser.checkLimits expr with
    | .error fault => .error fault
    | .ok () =>
      if multiplies kind && !expr.repeatsAtMost Token.maxCount then .error .invalidCount
      else .ok { parser with stack := .expr expr :: stack }
  | _ => .error .missingOperand

def accept (parser : Parser) : Token → Except SyntaxFault Parser
  | .literal codes => parser.pushLiterals codes
  | .set codes => parser.push (.set codes)
  | .any => parser.push .any
  | .anyButNewline => parser.push .anyButNewline
  | .assertion conditions => parser.push (.assertion conditions)
  | .openCapture name =>
    let group := parser.groups + 1
    .ok ({ parser with groups := group }.pushItem (.parenthesis (some (group, name)) parser.mode))
  | .openGroup mode => .ok { parser.pushItem (.parenthesis none parser.mode) with mode }
  | .close => parser.close
  | .bar => parser.bar
  | .switchMode mode => .ok { parser with mode }
  | .repetition kind lazy => parser.applyRepetition kind lazy

/-- Which part of the pattern is to blame for a fault of a token: for a repetition the repetition
itself, and the whole pattern otherwise and when a limit is exceeded. -/
def blamed (pattern input rest : Bytes) (fault : SyntaxFault) : SyntaxError :=
  match fault with
  | .missingOperand | .invalidCount => ⟨fault, Bytes.before input rest⟩
  | _ => ⟨fault, pattern⟩

/-- Handles the tokens of the rest of a pattern. A repetition must not follow another one, which
begins at `repetition`. Every token takes at least one byte, so that `fuel` is at least the length
of the rest. -/
def readTokens (pattern : Bytes) :
    Nat → Option Bytes → Parser → Bytes → Except SyntaxError Parser
  | 0, _, parser, _ => .ok parser
  | _, _, parser, [] => .ok parser
  | fuel + 1, repetition, parser, input =>
    match Token.scan parser.mode input with
    | .error error => .error error
    | .ok (token, rest) =>
      match token, repetition with
      | .repetition .., some first => .error ⟨.nestedRepetition, Bytes.before first rest⟩
      | token, _ =>
        match parser.accept token with
        | .error fault => .error (blamed pattern input rest fault)
        | .ok parser =>
          let repetition := match token with
            | .repetition .. => some input
            | _ => none
          readTokens pattern fuel repetition parser rest

end Parser

def Expr.parse (pattern : Bytes) : Except SyntaxError Expr :=
  match Parser.readTokens pattern pattern.length none {} pattern with
  | .error error => .error error
  | .ok parser =>
    match parser.finishGroup with
    | .error fault => .error ⟨fault, pattern⟩
    | .ok parser =>
      match parser.stack with
      | [.expr expr] => .ok expr
      | _ => .error ⟨.missingParenthesis, pattern⟩

end Rematch
