/-!
Sizes for readers: a number of bytes in the largest unit that fits, with one decimal below ten.
-/

namespace Rematch.Size

def units : List String := ["B", "KiB", "MiB", "GiB", "TiB", "PiB", "EiB"]

def wholes (tenths : Nat) : Nat :=
  let whole := tenths / 10
  if tenths % 10 < 5 then whole
  else if tenths % 10 = 5 ∧ whole % 2 = 0 then whole
  else whole + 1

def renderIn (count scale : Nat) (unit : String) : String :=
  let tenths := (20 * count + scale) / (2 * scale)
  if tenths < 100 then s!"{tenths / 10}.{tenths % 10} {unit}" else s!"{wholes tenths} {unit}"

def renderFrom (count : Nat) : Nat → List String → String
  | _, [] => ""
  | scale, [unit] => renderIn count scale unit
  | scale, unit :: rest =>
    if count < 1024 * scale then renderIn count scale unit else renderFrom count (1024 * scale) rest

def render (count : Nat) : String :=
  if count < 10 then s!"{count} B" else renderFrom count 1 units

end Rematch.Size
