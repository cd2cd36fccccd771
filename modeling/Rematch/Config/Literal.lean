import Rematch.Config.Value
import Rematch.Text.Quoted

/-!
Values in the spelling of program text, with the kinds of lists and tables before their contents.
-/

namespace Rematch.Config.Value

def anyKind : String := "interface \x7b\x7d"

def isText : Value → Bool
  | .text _ => true
  | _ => false

/-- The kind of a list or a table. Keys that all are texts show in the kind of a table. -/
def kind : Value → String
  | .list _ => s!"[]{anyKind}"
  | .table entries =>
    let key := if entries.all (·.1.isText) then "string" else anyKind
    s!"map[{key}]{anyKind}"
  | _ => anyKind

def rank : Value → Nat
  | .null => 0
  | .flag _ => 1
  | .integer _ => 2
  | .number _ => 3
  | .text _ => 4
  | .moment _ => 5
  | .list _ => 6
  | .table _ => 7

def isSorted (first second : Value) : Bool :=
  match first, second with
  | .text first, .text second => Bytes.isSorted first second
  | .integer first, .integer second => decide (first ≤ second)
  | _, _ => first.rank ≤ second.rank

def isSameKey (first second : Value) : Bool :=
  match first, second with
  | .null, .null => true
  | .flag first, .flag second => first == second
  | .integer first, .integer second => first == second
  | .number first, .number second => first == second && first != .nan
  | .text first, .text second => first == second
  | .moment first, .moment second => first == second
  | _, _ => false

def integerLiteral (value : Int) : String :=
  if value < Nat.pow 2 63 then toString value else "0x" ++ Digits.hex value.natAbs

def braced (parts : List String) : String :=
  "\x7b" ++ String.intercalate ", " parts ++ "\x7d"

mutual

def literal : Value → String
  | .null => s!"{anyKind}(nil)"
  | .flag value => if value then "true" else "false"
  | .integer value => integerLiteral value
  | .number value => value.renderCompact
  | .text bytes => Quoted.encode bytes
  | .moment wording => wording
  | .list items => kind (.list items) ++ braced (itemLiterals items)
  | .table entries =>
    let entries' := (entryLiterals entries).mergeSort fun first second =>
      isSorted first.1 second.1
    kind (.table entries) ++ braced (entries'.map (·.2))

def itemLiterals : List Value → List String
  | [] => []
  | item :: items => item.literal :: itemLiterals items

/-- The spellings of the entries of a table, with their keys. Of equal keys the first one counts. -/
def entryLiterals : List (Value × Value) → List (Value × String)
  | [] => []
  | (key, value) :: entries =>
    (key, key.literal ++ ":" ++ value.literal) ::
      (entryLiterals entries).filter fun (other, _) => !key.isSameKey other

end

end Rematch.Config.Value
