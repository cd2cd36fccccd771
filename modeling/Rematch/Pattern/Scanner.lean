import Rematch.Pattern.SyntaxError
import Rematch.Text.Digits
import Rematch.Text.Utf8
import Rematch.Unicode.Property

/-!
Reading the small parts of patterns: code points, escape sequences, and sets in brackets. Each
reader takes the rest of the pattern and returns what it read with what comes after it.
-/

namespace Rematch

open Unicode (CodeSet)

abbrev Scanned (α : Type) := Except SyntaxError (α × Bytes)

namespace Scanner

def blame {α : Type} (fault : SyntaxFault) (input rest : Bytes) : Except SyntaxError α :=
  .error ⟨fault, Bytes.before input rest⟩

def requireUtf8 (text : Bytes) : Except SyntaxError Unit :=
  match Utf8.malformedFrom? 0 text with
  | some rest => .error ⟨.invalidUtf8, rest⟩
  | none => .ok ()

/-- Reads one code point. At the end of the pattern it is the replacement character, which takes no
bytes there. -/
def code (input : Bytes) : Scanned Nat :=
  match input with
  | [] => .ok (Utf8.replacement, [])
  | _ =>
    match Utf8.decode? input with
    | some (code, width) => .ok (code, input.drop width)
    | none => .error ⟨.invalidUtf8, input⟩

def octalValue? (byte : UInt8) : Option Nat :=
  if 0x30 ≤ byte && byte ≤ 0x37 then some (byte.toNat - 0x30) else none

def octal : Nat → Nat → Bytes → Nat × Bytes
  | count + 1, value, byte :: rest =>
    match octalValue? byte with
    | some digit => octal count (8 * value + digit) rest
    | none => (value, byte :: rest)
  | _, value, rest => (value, rest)

/-- Reads hexadecimal digits up to a closing brace; there is at least one, and they stand for a
code point. `input` is the whole escape sequence with what follows, and `fuel` is at least the
length of `rest`. -/
def bracedHex (input : Bytes) : Nat → Option Nat → Bytes → Scanned Nat
  | 0, _, rest => blame .invalidEscape input rest
  | _, _, [] => blame .invalidEscape input []
  | fuel + 1, value, rest =>
    match code rest with
    | .error error => .error error
    | .ok (digit, rest) =>
      if digit = 0x7D then
        match value with
        | some value => .ok (value, rest)
        | none => blame .invalidEscape input rest
      else
        match Digits.hexValue? digit with
        | none => blame .invalidEscape input rest
        | some digit =>
          let next := 16 * value.getD 0 + digit
          if next ≤ Unicode.maxCode then bracedHex input fuel (some next) rest
          else blame .invalidEscape input rest

def hexEscape (input rest : Bytes) : Scanned Nat :=
  match rest with
  | [] => blame .invalidEscape input []
  | _ =>
    match code rest with
    | .error error => .error error
    | .ok (first, rest) =>
      if first = 0x7B then bracedHex input (rest.length + 1) none rest
      else
        match code rest with
        | .error error => .error error
        | .ok (second, rest) =>
          match Digits.hexValue? first, Digits.hexValue? second with
          | some high, some low => .ok (16 * high + low, rest)
          | _, _ => blame .invalidEscape input rest

def isAlphanumeric (code : Nat) : Bool :=
  (0x30 ≤ code && code ≤ 0x39) || (0x41 ≤ code && code ≤ 0x5A) || (0x61 ≤ code && code ≤ 0x7A)

def escape (input : Bytes) : Scanned Nat :=
  match input.drop 1 with
  | [] => .error ⟨.trailingBackslash, []⟩
  | body =>
    match code body with
    | .error error => .error error
    | .ok (named, rest) =>
      match Char.ofNat named with
      | 'x' => hexEscape input rest
      | 'a' => .ok (0x07, rest)
      | 'f' => .ok (0x0C, rest)
      | 'n' => .ok (0x0A, rest)
      | 'r' => .ok (0x0D, rest)
      | 't' => .ok (0x09, rest)
      | 'v' => .ok (0x0B, rest)
      | '0' => .ok (octal 2 0 rest)
      | _ =>
        if 0x31 ≤ named ∧ named ≤ 0x37 ∧ (rest.head?.bind octalValue?).isSome then
          .ok (octal 2 (named - 0x30) rest)
        else if named < 0x80 && !isAlphanumeric named then .ok (named, rest)
        else blame .invalidEscape input rest

def finishSet (foldCase negated : Bool) (codes : CodeSet) : CodeSet :=
  let codes := if foldCase then codes.foldCase else codes
  if negated then codes.complement else codes

/-- The sets that a backslash and a letter stand for; the capital letter is the complement. -/
def letterSet? (letter : Char) : Option (Bool × CodeSet) :=
  let digits : CodeSet := [⟨0x30, 0x39⟩]
  let blanks : CodeSet := [⟨0x09, 0x0A⟩, ⟨0x0C, 0x0D⟩, ⟨0x20, 0x20⟩]
  let words : CodeSet := [⟨0x30, 0x39⟩, ⟨0x41, 0x5A⟩, ⟨0x5F, 0x5F⟩, ⟨0x61, 0x7A⟩]
  match letter with
  | 'd' => some (false, digits)
  | 'D' => some (true, digits)
  | 's' => some (false, blanks)
  | 'S' => some (true, blanks)
  | 'w' => some (false, words)
  | 'W' => some (true, words)
  | _ => none

def letterSet (foldCase : Bool) : Bytes → Option (CodeSet × Bytes)
  | 0x5C :: letter :: rest =>
    (letterSet? (Bytes.char letter)).map fun (negated, codes) =>
      (finishSet foldCase negated codes, rest)
  | _ => none

def namedSets : List (String × CodeSet) := [
  ("alnum", [⟨0x30, 0x39⟩, ⟨0x41, 0x5A⟩, ⟨0x61, 0x7A⟩]),
  ("alpha", [⟨0x41, 0x5A⟩, ⟨0x61, 0x7A⟩]),
  ("ascii", [⟨0x00, 0x7F⟩]),
  ("blank", [⟨0x09, 0x09⟩, ⟨0x20, 0x20⟩]),
  ("cntrl", [⟨0x00, 0x1F⟩, ⟨0x7F, 0x7F⟩]),
  ("digit", [⟨0x30, 0x39⟩]),
  ("graph", [⟨0x21, 0x7E⟩]),
  ("lower", [⟨0x61, 0x7A⟩]),
  ("print", [⟨0x20, 0x7E⟩]),
  ("punct", [⟨0x21, 0x2F⟩, ⟨0x3A, 0x40⟩, ⟨0x5B, 0x60⟩, ⟨0x7B, 0x7E⟩]),
  ("space", [⟨0x09, 0x0D⟩, ⟨0x20, 0x20⟩]),
  ("upper", [⟨0x41, 0x5A⟩]),
  ("word", [⟨0x30, 0x39⟩, ⟨0x41, 0x5A⟩, ⟨0x5F, 0x5F⟩, ⟨0x61, 0x7A⟩]),
  ("xdigit", [⟨0x30, 0x39⟩, ⟨0x41, 0x46⟩, ⟨0x61, 0x66⟩])]

/-- Reads a set with a name between colons; `none` if there is no end to the name. -/
def namedSet (foldCase : Bool) (input : Bytes) :
    Except SyntaxError (Option (CodeSet × Bytes)) :=
  if List.isPrefixOf (Bytes.ofString "[:") input && 2 < input.length then
    match Bytes.cut? (Bytes.ofString ":]") (input.drop 2) with
    | none => .ok none
    | some (name, rest) =>
      let negated := Bytes.peek name = '^'
      let plain := if negated then name.drop 1 else name
      match namedSets.find? fun entry => plain == Bytes.ofString entry.1 with
      | some (_, codes) => .ok (some (finishSet foldCase negated codes, rest))
      | none => blame .invalidRange input rest
  else .ok none

def propertyName (input : Bytes) : Except SyntaxError (Bytes × Bytes × Bytes) :=
  match code (input.drop 2) with
  | .error error => .error error
  | .ok (first, rest) =>
    if first = 0x7B then
      match Bytes.cut? [0x7D] input with
      | none =>
        match requireUtf8 input with
        | .error error => .error error
        | .ok () => .error ⟨.invalidRange, input⟩
      | some (whole, rest) =>
        match requireUtf8 (whole.drop 3) with
        | .error error => .error error
        | .ok () => .ok (whole.drop 3, whole ++ [0x7D], rest)
    else
      let whole := Bytes.before input rest
      .ok (whole.drop 2, whole, rest)

/-- Reads a property escape, `none` if there is none. A circumflex in front of the name, or a
capital letter, asks for the complement. -/
def property (foldCase : Bool) (input : Bytes) :
    Except SyntaxError (Option (CodeSet × Bytes)) :=
  match input with
  | 0x5C :: letter :: _ =>
    if letter = 0x70 ∨ letter = 0x50 then
      match propertyName input with
      | .error error => .error error
      | .ok (name, whole, rest) =>
        let inverted := Bytes.peek name = '^'
        let plain := if inverted then name.drop 1 else name
        match Unicode.Property.codes? plain with
        | none => .error ⟨.invalidRange, whole⟩
        | some codes =>
          .ok (some (finishSet foldCase (inverted != decide (letter = 0x50)) codes, rest))
    else .ok none
  | _ => .ok none

def member (whole input : Bytes) : Scanned Nat :=
  match input with
  | [] => .error ⟨.missingBracket, whole⟩
  | 0x5C :: _ => escape input
  | _ => code input

def memberRange (foldCase : Bool) (whole input : Bytes) : Scanned CodeSet :=
  match member whole input with
  | .error error => .error error
  | .ok (lo, rest) =>
    match rest with
    | 0x2D :: next :: after =>
      if next = 0x5D then .ok (finishSet foldCase false [⟨lo, lo⟩], rest)
      else
        match member whole (next :: after) with
        | .error error => .error error
        | .ok (hi, rest) =>
          if hi < lo then blame .invalidRange input rest
          else .ok (finishSet foldCase false [⟨lo, hi⟩], rest)
    | _ => .ok (finishSet foldCase false [⟨lo, lo⟩], rest)

def setItem (foldCase : Bool) (whole input : Bytes) : Scanned CodeSet :=
  match namedSet foldCase input with
  | .error error => .error error
  | .ok (some item) => .ok item
  | .ok none =>
    match property foldCase input with
    | .error error => .error error
    | .ok (some item) => .ok item
    | .ok none =>
      match letterSet foldCase input with
      | some item => .ok item
      | none => memberRange foldCase whole input

/-- Reads the items of a set up to its closing bracket; a bracket that comes first is a member.
Every item takes at least one byte, so that `fuel` is at least the length of the rest. -/
def setItems (foldCase : Bool) (whole : Bytes) : Nat → Bool → CodeSet → Bytes → Scanned CodeSet
  | 0, _, _, _ => .error ⟨.missingBracket, whole⟩
  | fuel + 1, isFirst, codes, rest =>
    if !isFirst && rest.head? = some 0x5D then .ok (codes, rest.drop 1)
    else
      match setItem foldCase whole rest with
      | .error error => .error error
      | .ok (item, rest) => setItems foldCase whole fuel false (codes.union item) rest

def bracketSet (foldCase : Bool) (input : Bytes) : Scanned CodeSet :=
  let body := input.drop 1
  let negated := Bytes.peek body = '^'
  let body := if negated then body.drop 1 else body
  match setItems foldCase input (input.length + 1) true [] body with
  | .error error => .error error
  | .ok (codes, rest) => .ok (if negated then codes.complement else codes, rest)

end Scanner

end Rematch
