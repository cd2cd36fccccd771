/-!
Rankings: the live threads in priority order, cut in two at the place where forks go. A ranking can
be cut anywhere without a change of the order.
-/

namespace Rematch

/-- A ranking: the threads above the cut, the nearest first, and those below it in order. -/
structure Ranking where
  above : List Nat := []
  below : List Nat := []

namespace Ranking

variable (ranking : Ranking)

def toList : List Nat := ranking.above.reverse ++ ranking.below

def isCutAt (id : Nat) : Bool := ranking.above.head? == some id

/-- Moves the cut directly below a thread; it stays where it is if there is no such thread. -/
def cutAt (id : Nat) : Ranking :=
  if ranking.isCutAt id then ranking
  else
    match ranking.below.dropWhile (· != id) with
    | found :: far =>
      ⟨found :: ((ranking.below.takeWhile (· != id)).reverse ++ ranking.above), far⟩
    | [] =>
      match ranking.above.dropWhile (· != id) with
      | found :: far =>
        ⟨found :: far, (ranking.above.takeWhile (· != id)).reverse ++ ranking.below⟩
      | [] => ranking

def append (id : Nat) : Ranking :=
  { ranking with below := ranking.below ++ [id] }

def insertAfter (after id : Nat) : Ranking :=
  let ranking := ranking.cutAt after
  if ranking.isCutAt after then { ranking with above := id :: ranking.above } else ranking

def erase (ranking : Ranking) (id : Nat) : Ranking :=
  if ranking.above.contains id then { ranking with above := ranking.above.erase id }
  else { ranking with below := ranking.below.erase id }

def splitAt (id : Nat) : List Nat × Ranking :=
  let ranking := ranking.cutAt id
  if ranking.isCutAt id then (ranking.below, { ranking with below := [] }) else ([], ranking)

def head? (ranking : Ranking) : Option Nat := ranking.toList.head?

@[simp]
theorem toList_empty : ({} : Ranking).toList = [] := rfl

@[simp]
theorem toList_cutAt (ranking : Ranking) (id : Nat) :
    (ranking.cutAt id).toList = ranking.toList := by
  have belowParts := List.takeWhile_append_dropWhile (p := (· != id)) (l := ranking.below)
  have aboveParts := List.takeWhile_append_dropWhile (p := (· != id)) (l := ranking.above)
  unfold cutAt
  split
  · rfl
  · split
    · next found far cut =>
      generalize ranking.below.takeWhile (· != id) = near at belowParts ⊢
      rw [cut] at belowParts
      simp [toList, ← belowParts]
    · split
      · next found far cut =>
        generalize ranking.above.takeWhile (· != id) = near at aboveParts ⊢
        rw [cut] at aboveParts
        simp [toList, ← aboveParts]
      · rfl

@[simp]
theorem toList_append (ranking : Ranking) (id : Nat) :
    (ranking.append id).toList = ranking.toList ++ [id] := by
  simp [append, toList]

theorem toList_splitAt (ranking : Ranking) (id : Nat) :
    (ranking.splitAt id).2.toList ++ (ranking.splitAt id).1 = ranking.toList := by
  rw [← toList_cutAt ranking id]
  by_cases found : (ranking.cutAt id).isCutAt id = true <;> simp [splitAt, found, toList]

end Ranking

end Rematch
