import Rematch.Regex.Basic

/-!
The groups of a regular expression, and what a search captured for them. The captures of group `g`
are the slots `2 * g` and `2 * g + 1`.
-/

namespace Rematch

/-- Slots with the pairs of a search's captures written over them; a last slot without a partner
stays as it is. -/
def Captures.writeOver (captures : Captures) (slots : List Int) : List Int :=
  let paired := 2 * (slots.length / 2)
  (List.range paired).map (captures.getD · (-1)) ++ slots.drop paired

namespace Regex

def namedGroups (regex : Regex) : List (Nat × String) :=
  (regex.names.zipIdx.filter fun (name, _) => !name.isEmpty).map fun (name, index) => (index, name)

def groupIndex? (regex : Regex) (name : Bytes) : Option Nat :=
  if name.isEmpty then none
  else regex.names.findIdx? fun candidate => Bytes.ofString candidate == name

def groupEnd? (slots : List Int) (group : Nat) : Option Int :=
  match slots[2 * group]?, slots[2 * group + 1]? with
  | some first, some last => if first < 0 ∨ last < 0 then none else some last
  | _, _ => none

/-- The number of the group that ends last; of several, the first. -/
def lastIndex? (regex : Regex) (slots : List Int) : Option Nat :=
  ((List.range' 1 (regex.names.length - 1)).foldl (fun best group =>
    match groupEnd? slots group, best with
    | none, best => best
    | some last, none => some (group, last)
    | some last, some (leader, furthest) =>
      if furthest < last then some (group, last) else some (leader, furthest))
    (none : Option (Nat × Int))).map (·.1)

def lastGroup (regex : Regex) (slots : List Int) : String :=
  ((regex.lastIndex? slots).bind (regex.names[·]?)).getD ""

def searchGroups (regex : Regex) (text : Text) (anchor : Anchor) : Scheduler :=
  regex.search text anchor (2 * regex.names.length)

def groupsFound? (regex : Regex) (ended : Scheduler) : Option (List Int) :=
  ended.result?.map (·.writeOver (List.replicate (2 * regex.names.length) (-1)))

def find? (regex : Regex) (text : Text) (anchor : Anchor) : Option (List Int) :=
  regex.groupsFound? (regex.searchGroups text anchor)

end Regex

end Rematch
