import Rematch.Config.Toml.Entry
import Rematch.Config.Toml.Moment
import Rematch.Config.Toml.Text

/-!
Keys and values as they are written. A value is read first, then its keys are found to be distinct,
and only then its numbers and moments are valued.
-/

namespace Rematch.Config.Toml

inductive Node where
  | text (content : Bytes)
  | flag (value : Bool)
  | numeral (numeral : Numeral)
  | moment (shape : MomentShape) (spelling : Bytes)
  | array (items : List Node)
  | inlineTable (pairs : List (List Bytes × Node))

def isBare (byte : UInt8) : Bool :=
  let char := Bytes.char byte
  char.isAlphanum || char = '-' || char = '_'

def readKeyPart (text : Bytes) : Reading Bytes :=
  match text with
  | [] => .error .expectedKey
  | byte :: _ =>
    if byte = Bytes.ascii '"' ∨ byte = Bytes.ascii '\'' then readString text
    else if isBare byte then .ok (text.span isBare)
    else .error (.keyStart byte)

def readKey : Nat → Bytes → Reading (List Bytes)
  | 0, _ => .error .expectedKey
  | fuel + 1, text =>
    match readKeyPart text with
    | .error error => .error error
    | .ok (part, rest) =>
      let rest := skipBlanks rest
      if Bytes.peek rest = '.' then
        (readKey fuel (skipBlanks (rest.drop 1))).map fun (parts, rest) => (part :: parts, rest)
      else .ok ([part], rest)

def expect (char : Char) (text : Bytes) : Except TomlError Bytes :=
  match text with
  | [] => .error (.endBeforeCharacter char)
  | byte :: rest => if byte = Bytes.ascii char then .ok rest else .error (.expectedCharacter char)

def readKeyAndSign (fuel : Nat) (text : Bytes) : Except TomlError (List Bytes × Bytes) := do
  let (key, rest) ← readKey fuel text
  if rest.isEmpty then throw .endAfterKey
  return (key, skipBlanks (← expect '=' rest))

def readWord (word : String) (node : Node) (text : Bytes) : Reading Node :=
  if (Bytes.ofString word).isPrefixOf text then .ok (node, text.drop word.length)
  else .error (.expectedWord word)

def readScalar (text : Bytes) : Reading Node :=
  let float := fun (word : String) => Node.numeral (.float (Bytes.ofString word))
  match Bytes.peek text with
  | 'i' => readWord "inf" (float "inf") text
  | 'n' => readWord "nan" (float "nan") text
  | _ =>
    if startsMoment text then
      let shape := shapeFrom 0 {} text
      .ok (.moment shape (text.take shape.width), text.drop shape.width)
    else
      match readNumeral text with
      | .error fault => .error (.number fault)
      | .ok (numeral, rest) => .ok (.numeral numeral, rest)

mutual

def readNode : Nat → Bytes → Reading Node
  | 0, _ => .error .expectedValue
  | fuel + 1, text =>
    if text.isEmpty then .error .expectedValue
    else
      match Bytes.peek text with
      | '"' | '\'' => (readText text).map fun (content, rest) => (.text content, rest)
      | 't' => readWord "true" (.flag true) text
      | 'f' => readWord "false" (.flag false) text
      | '[' =>
        (readItems fuel true (text.drop 1)).map fun (items, rest) => (.array items, rest)
      | '\x7b' =>
        (readPairs fuel true (text.drop 1)).map fun (pairs, rest) => (.inlineTable pairs, rest)
      | _ => readScalar text

def readItems : Nat → Bool → Bytes → Reading (List Node)
  | 0, _, _ => .error .incompleteArray
  | fuel + 1, isFirst, text =>
    if text.isEmpty then .error (.endBeforeCharacter ']')
    else
      match skipLines fuel text with
      | .error error => .error error
      | .ok [] => .error .incompleteArray
      | .ok text =>
        if Bytes.peek text = ']' then .ok ([], text.drop 1)
        else if Bytes.peek text = ',' then
          if isFirst then .error .leadingComma
          else
            match skipLines fuel (text.drop 1) with
            | .error error => .error error
            | .ok text =>
              if Bytes.peek text = ']' then .ok ([], text.drop 1) else readItem fuel text
        else if isFirst then readItem fuel text
        else .error .missingComma

def readItem : Nat → Bytes → Reading (List Node)
  | 0, _ => .error .incompleteArray
  | fuel + 1, text =>
    match readNode fuel text with
    | .error error => .error error
    | .ok (item, rest) =>
      match skipLines fuel rest with
      | .error error => .error error
      | .ok rest =>
        (readItems fuel false rest).map fun (items, rest) => (item :: items, rest)

def readPairs : Nat → Bool → Bytes → Reading (List (List Bytes × Node))
  | 0, _, _ => .error .incompleteTable
  | fuel + 1, isFirst, text =>
    if text.isEmpty then .error (.endBeforeCharacter '\x7d')
    else
      let text := skipBlanks text
      if text.isEmpty then .error .incompleteTable
      else if Bytes.peek text = '\x7d' then .ok ([], text.drop 1)
      else
        match if isFirst then .ok text else (expect ',' text).map skipBlanks with
        | .error error => .error error
        | .ok text =>
          match readKeyAndSign fuel text with
          | .error error => .error error
          | .ok (key, rest) =>
            match readNode fuel rest with
            | .error error => .error error
            | .ok (node, rest) =>
              (readPairs fuel false rest).map fun (pairs, rest) => ((key, node) :: pairs, rest)

end

mutual

def Node.check : Node → Except DefinitionFault Unit
  | .array items => checkItems items
  | .inlineTable pairs => checkPairs [] pairs
  | _ => .ok ()

def checkItems : List Node → Except DefinitionFault Unit
  | [] => .ok ()
  | item :: rest => do
    item.check
    checkItems rest

def checkPairs (before : Entries) : List (List Bytes × Node) → Except DefinitionFault Unit
  | [] => .ok ()
  | (key, node) :: rest => do
    let before ← before.define .null key
    node.check
    checkPairs before rest

end

mutual

def Node.value : Node → Except TomlError Value
  | .text content => .ok (.text content)
  | .flag value => .ok (.flag value)
  | .numeral (.integer spelling) => ((integerValue spelling).mapError .number).map .integer
  | .numeral (.float spelling) => ((floatValue spelling).mapError .number).map .number
  | .moment shape spelling => ((shape.wording spelling).mapError .moment).map .moment
  | .array items => (itemValues items).map .list
  | .inlineTable pairs => (pairValues [] pairs).map fun entries => .table (pairsOf entries)

def itemValues : List Node → Except TomlError (List Value)
  | [] => .ok []
  | item :: rest => do
    let value ← item.value
    return value :: (← itemValues rest)

def pairValues (before : Entries) : List (List Bytes × Node) → Except TomlError Entries
  | [] => .ok before
  | (key, node) :: rest => do
    let value ← node.value
    let entries ← (before.define value key).mapError .definition
    pairValues entries rest

end

end Rematch.Config.Toml
