import Rematch.Automaton.Analysis
import Rematch.Extension.Encoding
import Rematch.Extension.Recovery
import Rematch.Pattern.Compilation
import Rematch.Pattern.Parser
import Rematch.Pattern.Simplification
import Rematch.Program.Lowering

/-!
From patterns to automata: the extensions of a pattern are encoded, the pattern is read, simplified,
compiled and lowered, and the extensions are found again in the automaton. Only the encoding may put
reserved code points into the pattern, and backreferences must name a group.
-/

namespace Rematch

inductive PatternError where
  | encoding (error : Encoding.EncodingError)
  | reading (error : SyntaxError)
  | reserved (code : Nat)
  | lowering (error : LoweringError)
  | missingGroup (group groups : Nat)
  deriving DecidableEq

def PatternError.message : PatternError → Bytes
  | .encoding .reserved => Bytes.ofString "pattern contains a reserved private-use codepoint"
  | .encoding (.groupTooLarge reference) =>
    Bytes.ofString "backreference out of range: " ++ reference
  | .reading error => error.message
  | .reserved code =>
    Bytes.ofString
      s!"pattern contains a reserved private-use codepoint: {Digits.codePoint code}"
  | .lowering (.refused error) => Bytes.ofString error.message
  | .lowering .malformed => []
  | .missingGroup group groups =>
    Bytes.ofString s!"backreference out of range: \\{group} with {groups} groups"

mutual

/-- The reserved code points that an expression holds, with repetition. A span of the whole block
does not count: none of its code points can be mistaken for an extension. -/
def Expr.reservedCodes : Expr → List Nat
  | .literal codes _ => codes.filter Codec.isReserved
  | .set codes => codes.flatMap fun span =>
    if span.lo ≤ Codec.reservedLo ∧ Codec.reservedHi ≤ span.hi then []
    else
      let first := max span.lo Codec.reservedLo
      List.range' first (min span.hi Codec.reservedHi + 1 - first)
  | .capture _ _ body => body.reservedCodes
  | .repetition _ _ body => body.reservedCodes
  | .concat parts => Expr.reservedCodesOf parts
  | .alternate choices => Expr.reservedCodesOf choices
  | _ => []

def Expr.reservedCodesOf : List Expr → List Nat
  | [] => []
  | first :: rest => first.reservedCodes ++ Expr.reservedCodesOf rest

end

def reservedTally (codes : List Nat) : Array Nat :=
  codes.foldl (fun tally code => tally.modify (code - Codec.reservedLo) (· + 1))
    (Array.replicate (Codec.reservedHi + 1 - Codec.reservedLo) 0)

/-- The least reserved code point that an expression holds more often than the encoded pattern. -/
def surplusCode? (expr : Expr) (encoded : Bytes) : Option Nat :=
  match expr.reservedCodes with
  | [] => none
  | found =>
    let found := reservedTally found
    let inserted := reservedTally ((Utf8.codes encoded).filter Codec.isReserved)
    ((List.range found.size).find? fun index => inserted.getD index 0 < found.getD index 0).map
      (Codec.reservedLo + ·)

structure CompiledPattern extends Graph where
  /-- The names of all groups, with an empty one for the whole match. -/
  names : List String

def Overlay.missingGroup? (overlay : Overlay) (groups : Nat) : Option Nat :=
  overlay.findSome? fun (_, exts) =>
    (exts.find? fun ext => ext.kind = .backreference && groups ≤ ext.arg).map (·.arg)

namespace CompiledPattern

def ofExpr (expr : Expr) : Except PatternError CompiledPattern :=
  let expr := expr.simplify
  match expr.compile.lower with
  | .error error => .error (.lowering error)
  | .ok automaton =>
    let overlay := Recovery.overlay automaton
    let names := expr.groupNames
    match overlay.missingGroup? names.length with
    | some group => .error (.missingGroup group (names.length - 1))
    | none => .ok { automaton, overlay, names }

def compile (pattern : Bytes) : Except PatternError CompiledPattern :=
  match Encoding.encode pattern with
  | .error error => .error (.encoding error)
  | .ok encoded =>
    match Expr.parse encoded with
    | .error error => .error (.reading error)
    | .ok expr =>
      match surplusCode? expr encoded with
      | some code => .error (.reserved code)
      | none => ofExpr expr

end CompiledPattern

end Rematch
