import Rematch.Text.Bytes

/-!
The edit distance between two texts: the least number of bytes to insert, to remove and to exchange
that turns one into the other.
-/

namespace Rematch.Distance

/-- The rest of a row of distances, from the one above it. The distances are those from a text that
ends with `byte` to the beginnings of the target. -/
def extendRow (byte : UInt8) : Nat → Bytes → List Nat → List Nat
  | left, target :: targets, diagonal :: above :: row =>
    let here := min (min left above + 1) (if byte = target then diagonal else diagonal + 1)
    here :: extendRow byte here targets (above :: row)
  | _, _, _ => []

def nextRow (target : Bytes) (row : List Nat) (byte : UInt8) : List Nat :=
  let first := row.headD 0 + 1
  first :: extendRow byte first target row

def edits (source target : Bytes) : Nat :=
  (source.foldl (nextRow target) (List.range (target.length + 1))).getLastD 0

end Rematch.Distance
