import Rematch.Automaton.Extension
import Rematch.Text.Utf8
import Rematch.Unicode.Category

/-!
Evaluation of extensions at an offset of a text. The answer is the number of bytes that the
extension consumes, or `none` if it does not match there.
-/

namespace Rematch

abbrev Text := Array UInt8

/-- The capture slots of a thread: two for each group, -1 where nothing is captured. -/
abbrev Captures := Array Int

namespace Text

def window (text : Text) (offset : Nat) : Bytes := (text.extract offset (offset + 4)).toList

end Text

namespace Extension

/-- The length of the code point at the front of the input, if it is well formed and its membership
in the category is `member`. -/
def matchCategory? (input : Bytes) (number : Nat) (member : Bool) : Option Nat :=
  match Unicode.Category.ofNumber? number, Utf8.decode? input with
  | some category, some (code, width) =>
    if category.contains code = member then some width else none
  | _, _ => none

def capturedSpan? (text : Text) (captures : Captures) (group : Nat) : Option (Nat × Nat) :=
  match captures[2 * group]?, captures[2 * group + 1]? with
  | some first, some last =>
    if first < 0 ∨ last < first ∨ (text.size : Int) < last then none
    else some (first.toNat, last.toNat)
  | _, _ => none

/-- The length of the span of a group, if it is repeated at the offset. An empty span is repeated
everywhere. -/
def matchBackreference? (text : Text) (offset : Nat) (captures : Captures) (group : Nat) :
    Option Nat :=
  match capturedSpan? text captures group with
  | none => none
  | some (first, last) =>
    if first = last then some 0
    else if text.size < offset + (last - first) then none
    else if text.extract first last = text.extract offset (offset + (last - first)) then
      some (last - first)
    else none

def evaluate? (ext : Extension) (text : Text) (offset : Nat) (captures : Captures) : Option Nat :=
  match ext.kind with
  | .category => matchCategory? (text.window offset) ext.arg true
  | .notCategory => matchCategory? (text.window offset) ext.arg false
  | .backreference => matchBackreference? text offset captures ext.arg
  | .unknown _ => none

inductive OutOfBounds where
  | group (group : Int)
  | offset (offset : Int)
  deriving DecidableEq

/-- Repeats a group at any offset. A negative offset is refused where bytes would be compared. -/
def matchBackreferenceAt (text : Text) (offset : Int) (captures : Captures) (group : Int) :
    Except OutOfBounds (Option Nat) :=
  if group < 0 then .error (.group group)
  else if offset < 0 ∧
      (capturedSpan? text captures group.toNat).any fun span => span.1 ≠ span.2 then
    .error (.offset offset)
  else .ok (matchBackreference? text offset.toNat captures group.toNat)

def evaluateAt (ext : Extension) (text : Text) (offset : Int) (captures : Captures) :
    Except OutOfBounds (Option Nat) :=
  match ext.kind with
  | .category | .notCategory =>
    if offset < 0 ∨ (text.size : Int) < offset then .error (.offset offset)
    else .ok (ext.evaluate? text offset.toNat captures)
  | .backreference => matchBackreferenceAt text offset captures ext.arg
  | .unknown _ => .ok none

end Extension

end Rematch
