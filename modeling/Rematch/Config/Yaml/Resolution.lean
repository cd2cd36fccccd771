import Rematch.Config.Value
import Rematch.Config.Yaml.Error
import Rematch.Config.Yaml.Moment
import Rematch.Number.Numeral
import Rematch.Text.Base64

/-!
What scalars mean. Without a tag the wording of a scalar tells its kind, and a tag must agree with
the wording. A tag of no known kind leaves the text as it is.
-/

namespace Rematch.Config.Yaml

inductive ScalarKind where
  | text
  | flag
  | integer
  | number
  | null
  | moment
  deriving DecidableEq

namespace ScalarKind

def tag (kind : ScalarKind) : Bytes :=
  Bytes.ofString <| match kind with
    | text => "!!str"
    | flag => "!!bool"
    | integer => "!!int"
    | number => "!!float"
    | null => "!!null"
    | moment => "!!timestamp"

def ofTag? (tag : Bytes) : Option ScalarKind :=
  [text, flag, integer, number, null, moment].find? fun kind => kind.tag == tag

end ScalarKind

def sequenceTag : Bytes := Bytes.ofString "!!seq"

def mappingTag : Bytes := Bytes.ofString "!!map"

def mergeTag : Bytes := Bytes.ofString "!!merge"

def binaryTag : Bytes := Bytes.ofString "!!binary"

def commonTags : Bytes := Bytes.ofString "tag:yaml.org,2002:"

def shorten (tag : Bytes) : Bytes :=
  if commonTags.isPrefixOf tag then Bytes.ofString "!!" ++ tag.drop commonTags.length else tag

def words : List (List String × ScalarKind × Value) := [
  (["true", "True", "TRUE"], .flag, .flag true),
  (["false", "False", "FALSE"], .flag, .flag false),
  (["", "~", "null", "Null", "NULL"], .null, .null),
  ([".nan", ".NaN", ".NAN"], .number, .number .nan),
  ([".inf", ".Inf", ".INF", "+.inf", "+.Inf", "+.INF"], .number, .number (.infinite false)),
  (["-.inf", "-.Inf", "-.INF"], .number, .number (.infinite true))]

def word? (text : Bytes) : Option (ScalarKind × Value) :=
  let isMeant := fun (spellings : List String) =>
    spellings.any fun spelling => Bytes.ofString spelling == text
  (words.find? fun (spellings, _) => isMeant spellings).map (·.2)

def separatesDigits (afterDigit : Bool) : Bytes → Bool
  | [] => true
  | byte :: rest =>
    let isDigit := fun byte => (Digits.decimalValue? byte).isSome
    if byte = Integer.underscore then
      afterDigit && isDigit (rest.headD 0) && separatesDigits false rest
    else separatesDigits (isDigit byte) rest

def withoutUnderscores (text : Bytes) : Bytes := text.filter (· ≠ Integer.underscore)

def unsigned? (text : Bytes) : Option Int :=
  let (base, digits) := Integer.splitBase text
  if text.isEmpty then none
  else (Integer.readFrom base 0 digits).toOption.map fun value => (value : Int)

def markedInteger? (text : Bytes) (mark : String) (base : Nat) : Option Int :=
  if (Bytes.ofString mark).isPrefixOf text then
    (Integer.parseDigits base (text.drop mark.length)).toOption
  else if (Bytes.ofString s!"-{mark}").isPrefixOf text then
    (Integer.parseDigits base (Bytes.ascii '-' :: text.drop (mark.length + 1))).toOption
  else none

def numeral? (text : Bytes) : Option (ScalarKind × Value) :=
  let digits := withoutUnderscores text
  let integer := fun value => (ScalarKind.integer, Value.integer value)
  ((Integer.parse digits).toOption.map integer)
    <|> ((unsigned? digits).map integer)
    <|> ((Double.parse digits).toOption.map fun value => (.number, .number value))
    <|> ((markedInteger? digits "0b" 2).map integer)
    <|> ((markedInteger? digits "0o" 8).map integer)

def interpret (takesMoments : Bool) (text : Bytes) : ScalarKind × Value :=
  let first := Bytes.peek text
  let plain := (ScalarKind.text, Value.text text)
  if let some meaning := word? text then meaning
  else if first = '.' then
    match Double.parse (withoutUnderscores text) with
    | .ok value => if separatesDigits false text then (.number, .number value) else plain
    | .error _ => plain
  else if first.isDigit ∨ first = '+' ∨ first = '-' then
    match (if takesMoments then instant? text else none) with
    | some instant => (.moment, .moment instant.render)
    | none => (numeral? text).getD plain
  else plain

def plainTag (text : Bytes) : Bytes :=
  if text = Bytes.ofString "<<" then mergeTag else (interpret true text).1.tag

def resolve (tag text : Bytes) : Except YamlError Value :=
  match ScalarKind.ofTag? tag with
  | none =>
    if tag = binaryTag then
      match Base64.decode? text with
      | some bytes => .ok (.text bytes)
      | none => .error .malformedBinary
    else .ok (.text text)
  | some .text => .ok (.text text)
  | some kind =>
    match kind, interpret (kind = .moment) text with
    | .number, (.integer, .integer value) =>
      if value < Nat.pow 2 63 then .ok (.number (Double.ofInt value))
      else .error (.mistagged ScalarKind.integer.tag text tag)
    | _, (found, value) =>
      if found = kind then .ok value else .error (.mistagged found.tag text tag)

end Rematch.Config.Yaml
