/-!
Queues of threads, first in, first out. A thread that ends can be taken out of the middle.
-/

namespace Rematch

/-- A queue: the threads at its front in order, and those at its back in reverse. -/
structure Queue where
  front : List Nat := []
  back : List Nat := []

namespace Queue

def toList (queue : Queue) : List Nat := queue.front ++ queue.back.reverse

def isEmpty (queue : Queue) : Bool := queue.front.isEmpty && queue.back.isEmpty

def push (queue : Queue) (id : Nat) : Queue := { queue with back := id :: queue.back }

def erase (queue : Queue) (id : Nat) : Queue :=
  if queue.front.contains id then { queue with front := queue.front.erase id }
  else ⟨queue.front ++ queue.back.reverse.erase id, []⟩

def pop? (queue : Queue) : Option (Nat × Queue) :=
  match queue.front with
  | id :: front => some (id, { queue with front })
  | [] =>
    match queue.back.reverse with
    | [] => none
    | id :: front => some (id, ⟨front, []⟩)

@[simp]
theorem toList_empty : ({} : Queue).toList = [] := rfl

@[simp]
theorem isEmpty_eq (queue : Queue) : queue.isEmpty = queue.toList.isEmpty := by
  cases queue with
  | mk front back => cases front <;> cases back <;> simp [isEmpty, toList]

@[simp]
theorem toList_push (queue : Queue) (id : Nat) :
    (queue.push id).toList = queue.toList ++ [id] := by
  simp [push, toList]

@[simp]
theorem toList_erase (queue : Queue) (id : Nat) :
    (queue.erase id).toList = queue.toList.erase id := by
  by_cases membership : id ∈ queue.front
  · simp [erase, toList, membership, List.erase_append_left]
  · simp [erase, toList, membership, List.erase_append_right]

theorem map_pop? (queue : Queue) :
    (queue.pop?.map fun (id, rest) => id :: rest.toList) =
      if queue.toList = [] then none else some queue.toList := by
  cases queue with
  | mk front back =>
    cases front with
    | cons id front => simp [pop?, toList]
    | nil => cases reversed : back.reverse <;> simp [pop?, toList, reversed]

end Queue

end Rematch
