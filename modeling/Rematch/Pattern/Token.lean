import Rematch.Automaton.Condition
import Rematch.Pattern.Expr
import Rematch.Pattern.Scanner

/-!
Tokens of patterns. What a token is depends on the mode that holds where it stands.
-/

namespace Rematch

open Unicode (CodeSet)

inductive Token where
  | literal (codes : List Nat)
  | set (codes : CodeSet)
  | any
  | anyButNewline
  | assertion (conditions : Nat)
  | openCapture (name : String)
  | openGroup (mode : Mode)
  | close
  | bar
  | switchMode (mode : Mode)
  | repetition (kind : Repetition) (lazy : Bool)

namespace Token

def quotedCodes : Nat → Bytes → Except SyntaxError (List Nat)
  | 0, _ => .ok []
  | _, [] => .ok []
  | fuel + 1, input =>
    match Scanner.code input with
    | .error error => .error error
    | .ok (code, rest) => (quotedCodes fuel rest).map (code :: ·)

def quoted (input : Bytes) : Scanned Token :=
  let (body, rest) := (Bytes.cut? (Bytes.ofString "\\E") input).getD (input, [])
  (quotedCodes body.length body).map fun codes => (.literal codes, rest)

def backslash (mode : Mode) (input : Bytes) : Scanned Token :=
  let rest := input.drop 2
  match Bytes.peek (input.drop 1) with
  | 'A' => .ok (.assertion Condition.beginText, rest)
  | 'b' => .ok (.assertion Condition.wordBoundary, rest)
  | 'B' => .ok (.assertion Condition.noWordBoundary, rest)
  | 'C' => .error ⟨.invalidEscape, input.take 2⟩
  | 'Q' => quoted rest
  | 'z' => .ok (.assertion Condition.endText, rest)
  | _ =>
    match Scanner.property mode.foldCase input with
    | .error error => .error error
    | .ok (some (codes, rest)) => .ok (.set codes, rest)
    | .ok none =>
      match Scanner.letterSet mode.foldCase input with
      | some (codes, rest) => .ok (.set codes, rest)
      | none => (Scanner.escape input).map fun (code, rest) => (.literal [code], rest)

def isGroupName (name : Bytes) : Bool :=
  !name.isEmpty &&
    name.all fun byte => byte = 0x5F || Scanner.isAlphanumeric byte.toNat

def namedGroup (skip : Nat) (input : Bytes) : Scanned Token :=
  match Bytes.cut? [0x3E] input with
  | none =>
    match Scanner.requireUtf8 input with
    | .error error => .error error
    | .ok () => .error ⟨.invalidGroupName, input⟩
  | some (opening, rest) =>
    let name := opening.drop skip
    match Scanner.requireUtf8 name with
    | .error error => .error error
    | .ok () =>
      if isGroupName name then
        .ok (.openCapture ((Bytes.toString? name).getD ""), rest)
      else .error ⟨.invalidGroupName, opening ++ [0x3E]⟩

def switch? (mode : Mode) (letter : Char) (isOn : Bool) : Option Mode :=
  match letter with
  | 'i' => some { mode with foldCase := isOn }
  | 'm' => some { mode with oneLine := !isOn }
  | 's' => some { mode with dotNewline := isOn }
  | 'U' => some { mode with lazy := isOn }
  | _ => none

/-- Reads the letters after a parenthesis and a question mark. A minus sign must be followed by at
least one letter, and there is only one. -/
def switches (input : Bytes) : Nat → Mode → Bool → Bool → Bytes → Scanned Token
  | 0, _, _, _, rest => Scanner.blame .invalidGroup input rest
  | _, _, _, _, [] => Scanner.blame .invalidGroup input []
  | fuel + 1, mode, isOn, sawLetter, rest =>
    match Scanner.code rest with
    | .error error => .error error
    | .ok (code, rest) =>
      let letter := Char.ofNat code
      match switch? mode letter isOn with
      | some mode => switches input fuel mode isOn true rest
      | none =>
        if letter = '-' ∧ isOn then switches input fuel mode false false rest
        else if (letter = ':' ∨ letter = ')') ∧ (isOn ∨ sawLetter) then
          .ok (if letter = ':' then .openGroup mode else .switchMode mode, rest)
        else Scanner.blame .invalidGroup input rest

def specialGroup (mode : Mode) (input : Bytes) : Scanned Token :=
  if List.isPrefixOf (Bytes.ofString "(?P<") input && 4 < input.length then namedGroup 4 input
  else if List.isPrefixOf (Bytes.ofString "(?<") input && 3 < input.length then namedGroup 3 input
  else switches input (input.length + 1) mode true false (input.drop 2)

def number? (input : Bytes) : Option (Nat × Bytes) :=
  let digits := input.takeWhile fun byte => (Digits.decimalValue? byte).isSome
  match digits with
  | [] => none
  | first :: others =>
    if first = 0x30 && !others.isEmpty then none
    else
      some (digits.foldl (fun value byte => 10 * value + (byte.toNat - 0x30)) 0,
        input.drop digits.length)

def count? (input : Bytes) : Option (Nat × Option Nat × Bytes) := do
  let (least, rest) ← number? input
  match rest with
  | 0x7D :: rest => some (least, some least, rest)
  | 0x2C :: 0x7D :: rest => some (least, none, rest)
  | 0x2C :: rest =>
    let (most, rest) ← number? rest
    if rest.head? = some 0x7D then some (least, some most, rest.drop 1) else none
  | _ => none

def maxCount : Nat := 1000

def repeated (mode : Mode) (kind : Repetition) (rest : Bytes) : Token × Bytes :=
  if Bytes.peek rest = '?' then (.repetition kind !mode.lazy, rest.drop 1)
  else (.repetition kind mode.lazy, rest)

def brace (mode : Mode) (input : Bytes) : Scanned Token :=
  match count? (input.drop 1) with
  | none => .ok (.literal [0x7B], input.drop 1)
  | some (least, most, rest) =>
    if maxCount < least ∨ maxCount < most.getD 0 ∨ most.any (· < least) then
      Scanner.blame .invalidCount input rest
    else .ok (repeated mode (.counted least most) rest)

def scan (mode : Mode) (input : Bytes) : Scanned Token :=
  let rest := input.drop 1
  match Bytes.peek input with
  | '(' => if Bytes.peek rest = '?' then specialGroup mode input else .ok (.openCapture "", rest)
  | ')' => .ok (.close, rest)
  | '|' => .ok (.bar, rest)
  | '^' =>
    .ok (.assertion (if mode.oneLine then Condition.beginText else Condition.beginLine), rest)
  | '$' => .ok (.assertion (if mode.oneLine then Condition.endText else Condition.endLine), rest)
  | '.' => .ok (if mode.dotNewline then .any else .anyButNewline, rest)
  | '[' => (Scanner.bracketSet mode.foldCase input).map fun (codes, rest) => (.set codes, rest)
  | '*' => .ok (repeated mode .star rest)
  | '+' => .ok (repeated mode .plus rest)
  | '?' => .ok (repeated mode .quest rest)
  | '{' => brace mode input
  | '\\' => backslash mode input
  | _ => (Scanner.code input).map fun (code, rest) => (.literal [code], rest)

end Token

end Rematch
