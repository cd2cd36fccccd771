import Rematch.Number.Shortest
import Rematch.Text.Integer
import Rematch.Text.Loose

/-!
The values of settings, and how a value of one kind is read as another. A value that cannot be read
as asked counts as empty, zero or false.
-/

namespace Rematch.Config

inductive Value where
  | null
  | flag (value : Bool)
  | integer (value : Int)
  | number (value : Double)
  | text (bytes : Bytes)
  /-- A date, a time of day or both, by its wording. -/
  | moment (wording : String)
  | list (items : List Value)
  | table (entries : List (Value × Value))

def truth? (text : Bytes) : Option Bool :=
  match Bytes.toString? text with
  | some spelling =>
    if spelling ∈ ["1", "t", "T", "TRUE", "true", "True"] then some true
    else if spelling ∈ ["0", "f", "F", "FALSE", "false", "False"] then some false
    else none
  | none => none

def withoutDecimals (text : Bytes) : Bytes :=
  match Bytes.cut? (Bytes.ofString ".") text with
  | none => text
  | some (front, decimals) =>
    let isDigit := fun byte => (Digits.decimalValue? byte).isSome
    let unsigned := (Integer.splitSign front).2
    if unsigned.all isDigit && decimals.all isDigit then
      if unsigned.isEmpty then front ++ Bytes.ofString "0" else front
    else text

namespace Value

def toText : Value → Bytes
  | .null | .list _ | .table _ => []
  | .flag value => Bytes.ofString (if value then "true" else "false")
  | .integer value => Bytes.ofString (toString value)
  | .number value => Bytes.ofString value.render
  | .text bytes => bytes
  | .moment wording => Bytes.ofString wording

def toInt : Value → Int
  | .flag value => if value then 1 else 0
  | .integer value => value.bmod (Nat.pow 2 64)
  | .number value => value.toInt
  | .text bytes => (Integer.parse (withoutDecimals bytes)).toOption.getD 0
  | _ => 0

def toFlag : Value → Bool
  | .flag value => value
  | .integer value => value ≠ 0
  | .number value => value.isNonzero
  | .text bytes => (truth? bytes).getD false
  | _ => false

def isNull : Value → Bool
  | .null => true
  | _ => false

end Value

/-- Settings by name, later ones first. -/
abbrev Table := List (Bytes × Value)

/-- The settings with the given names, later ones first. A name counts in lower case, but one that
is not written so comes before one that is. -/
def Table.ofEntries (entries : List (Bytes × Value)) : Table :=
  let (others, lower) := entries.partition fun (name, _) => Loose.lower name != name
  (others ++ lower).map fun (name, value) => (Loose.lower name, value)

def Table.get? (table : Table) (name : Bytes) : Option Value :=
  (table.find? fun (key, _) => key == name).map (·.2)

end Rematch.Config
