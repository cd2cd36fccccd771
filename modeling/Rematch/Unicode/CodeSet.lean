import Rematch.Unicode.CaseFolding

/-!
Sets of code points. A set is a list of spans in ascending order with a gap between any two of
them, so that equal sets are equal lists.
-/

namespace Rematch.Unicode

abbrev CodeSet := List Span

namespace CodeSet

def contains (set : CodeSet) (code : Nat) : Bool := set.any (·.contains code)

def insert (span : Span) : CodeSet → CodeSet
  | [] => [span]
  | other :: rest =>
    if span.hi + 1 < other.lo then span :: other :: rest
    else if other.hi + 1 < span.lo then other :: insert span rest
    else insert ⟨min span.lo other.lo, max span.hi other.hi⟩ rest

def union (first second : CodeSet) : CodeSet := first.foldr insert second

def ofSpans (spans : List Span) : CodeSet := spans.foldr insert []

def ofCodes (codes : List Nat) : CodeSet := ofSpans (codes.map fun code => ⟨code, code⟩)

def gapsFrom (next : Nat) : List Span → CodeSet
  | [] => if next ≤ maxCode then [⟨next, maxCode⟩] else []
  | span :: rest =>
    if next < span.lo then ⟨next, span.lo - 1⟩ :: gapsFrom (span.hi + 1) rest
    else gapsFrom (span.hi + 1) rest

def complement (set : CodeSet) : CodeSet := gapsFrom 0 set

def mayFold (span : Span) : Bool :=
  CaseFolding.leastFolded ≤ span.hi && span.lo ≤ CaseFolding.greatestFolded

def foldCase (set : CodeSet) : CodeSet :=
  if set.any mayFold then
    CaseFolding.orbits.foldl (fun folded orbit =>
      if orbit.any set.contains then union (ofCodes orbit) folded else folded) set
  else set

def full : CodeSet := [⟨0, maxCode⟩]

def butNewline : CodeSet := [⟨0, 0x09⟩, ⟨0x0B, maxCode⟩]

end CodeSet

end Rematch.Unicode
