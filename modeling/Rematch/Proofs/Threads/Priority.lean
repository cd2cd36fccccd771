import Rematch.Proofs.Threads.Outlook

/-!
Priority of threads. A plan says what a closure asks for, as a function of the entry, the offset and
the captures, and so grows an ordered tree from every begin of a match. The scheduler goes through
these trees offset by offset, yet it reports what a depth-first search finds first:
`Scheduler.result?_eq_search`.
-/

namespace Rematch

/-- What a closure can ask for: a thread that resumes once `count` bytes are consumed, or a
match. -/
inductive Request (slots : Nat) where
  | wait (entry : Nat) (count : Int) (captures : Vector Int slots)
  | accept (captures : Vector Int slots)

/-- What the closure of a thread asks for, from its entry, at an offset and with its captures. -/
abbrev Plan (slots : Nat) := Nat → Nat → Vector Int slots → List (Request slots)

namespace Request

variable {slots : Nat}

/-- The requests up to the first match that is granted. -/
def upToMatch (mayMatch : Bool) : List (Request slots) → List (Request slots)
  | [] => []
  | .wait entry count captures :: rest => .wait entry count captures :: upToMatch mayMatch rest
  | .accept captures :: rest => .accept captures :: if mayMatch then [] else upToMatch mayMatch rest

def event (visitId : Nat) : Request slots → Event
  | .wait entry count captures => .wait entry count captures.toArray visitId
  | .accept captures => .accept captures.toArray visitId

theorem orderly (mayMatch : Bool) (visitId : Nat) (requests : List (Request slots)) :
    Event.Orderly slots mayMatch ((upToMatch mayMatch requests).map (event visitId)) := by
  induction requests with
  | nil => trivial
  | cons request r ih =>
    cases request with
    | wait e n c => exact ⟨c.size_toArray, ih⟩
    | accept c =>
      cases mayMatch with
      | true => exact ⟨c.size_toArray, fun _ => rfl, trivial⟩
      | false => exact ⟨c.size_toArray, by simp, ih⟩

end Request

namespace Plan

variable {slots : Nat}

def runner (plan : Plan slots) : Runner := fun sched entry =>
  { events := if sized : sched.scope.captures.size = slots then
      (Request.upToMatch sched.mayMatch (plan entry sched.offset ⟨sched.scope.captures, sized⟩)).map
        (Request.event sched.scope.visitId)
    else []
    scope := sched.scope }

section

variable (pl : Plan slots)

include pl

theorem runner_orderly : pl.runner.Orderly := by
  intro s e work
  refine ⟨?_, work⟩
  unfold runner
  split
  · next sized =>
    rw [← work, sized]
    exact Request.orderly ..
  · trivial

/-- The first match that a depth-first search finds from an entry on. The requests of a closure are
its children in order; a wait that consumes nothing, or more than there is, has no children. -/
def first? (plan : Plan slots) (query : Query) (entry offset : Nat) (captures : Vector Int slots) :
    Option (Vector Int slots) :=
  (plan entry offset captures).findSome? fun
    | .wait next count captures =>
      if _fits : 0 < count ∧ offset + count ≤ query.text.size then
        plan.first? query next (offset + count.toNat) captures
      else none
    | .accept captures =>
      if query.mayMatchAt offset then some (captures.setIfInBounds 1 offset) else none
termination_by query.text.size - offset

def blank (slots offset : Nat) : Vector Int slots :=
  (Vector.replicate slots (-1)).setIfInBounds 0 offset

/-- The first match of a search: begins are tried in ascending order, and only the begin of the text
if matches must begin there. -/
def search? (plan : Plan slots) (query : Query) : Option (Vector Int slots) :=
  (List.range (if query.anchorsStart then 1 else query.text.size + 1)).findSome? fun offset =>
    plan.first? query query.start offset (blank slots offset)

/-- What a depth-first search finds, if the captures have the slots. -/
def found (plan : Plan slots) (query : Query) (entry offset : Nat) (captures : Captures) :
    Option Captures :=
  if sized : captures.size = slots then
    (plan.first? query entry offset ⟨captures, sized⟩).map Vector.toArray
  else none

/-- What a depth-first search finds below a request of a closure at an offset. -/
def foundBelow (plan : Plan slots) (query : Query) (offset : Nat) :
    Request slots → Option (Vector Int slots)
  | .wait next count captures =>
    if 0 < count ∧ offset + count ≤ query.text.size then
      plan.first? query next (offset + count.toNat) captures
    else none
  | .accept captures =>
    if query.mayMatchAt offset then some (captures.setIfInBounds 1 offset) else none

theorem first?_eq (q : Query) (e k : Nat) (c : Vector Int slots) :
    pl.first? q e k c = (pl e k c).findSome? (pl.foundBelow q k) := by
  rw [first?]
  rfl

theorem found_blank {q : Query} (sized : q.slots = slots) (k : Nat) :
    pl.found q q.start k
    (q.blank k) = (pl.first? q q.start k (blank slots k)).map Vector.toArray := by
  have size : (q.blank k).size = slots := by simp [Query.blank, sized]
  have eq : (⟨q.blank k, size⟩ : Vector Int slots) = blank slots k := by
    apply Vector.toArray_inj.mp
    simp [Query.blank, blank, sized]
  rw [found, dif_pos size, eq]

theorem leadsTo_event (s : Scheduler) (v : Nat) (request : Request slots) :
    s.leadsTo (pl.found s.query) (request.event v) =
      (pl.foundBelow s.query s.offset request).map Vector.toArray := by
  cases request with
  | wait e n c =>
    have text : s.query.text = s.text := rfl
    rw [Request.event, Scheduler.leadsTo, foundBelow, text, Scheduler.remaining]
    split
    · rw [if_neg (by omega)]
      rfl
    · rw [if_pos (by omega), found, dif_pos c.size_toArray]
  | accept c =>
    have granted : s.query.mayMatchAt s.offset = s.mayMatch := rfl
    rw [Request.event, Scheduler.leadsTo, foundBelow, granted]
    split <;> simp

/-- Nothing that a closure asks for after a match is missed. -/
theorem findSome?_upToMatch (s : Scheduler) (v : Nat) (requests : List (Request slots)) :
    ((Request.upToMatch s.mayMatch requests).map (Request.event v)).findSome?
        (s.leadsTo (pl.found s.query)) =
      (requests.findSome? (pl.foundBelow s.query s.offset)).map Vector.toArray := by
  induction requests with
  | nil => rfl
  | cons request r ih =>
    rw [findSome?_cons_or, Option.map_or, ← ih, ← leadsTo_event pl s v]
    cases request with
    | wait => rw [Request.upToMatch, List.map_cons, findSome?_cons_or]
    | accept c =>
      rw [Request.upToMatch, List.map_cons, findSome?_cons_or]
      split
      · next granted => simp [Request.event, Scheduler.leadsTo, granted]
      · rfl

end

variable {q : Query} {z : Search}

theorem outlook_step (pl : Plan slots) {first : Search}
    (step : first.Step pl.runner q z) (unb : q.maxThreads = 0) :
    z.outlook (pl.found q) q = first.outlook (pl.found q) q := by
  unfold Search.outlook
  cases step with
  | postpone feq delayed => rw [feq, Search.prospect_postpone delayed]
  | advance feq unfinished seeded => rw [feq, Search.prospect_advance unb unfinished seeded]
  | @close t l now best v owner s feq due beg abs owned =>
    have caps : s.scope.captures = t.captures := by
      rw [beg.scope_eq]
      rfl
    have unlimited : s.maxThreads = 0 := by
      rw [← beg.query_eq] at unb
      exact unb
    rw [feq, ← beg.query_eq, ← beg.offset_eq]
    have got : Search.prospect (pl.found s.query) s.query s.offset none v =
        Search.prospect (pl.found s.query) s.query s.offset
          (pl.found s.query t.entry s.offset t.captures) ⟨l, now, best⟩ := by
      unfold runner at abs
      rw [found]
      by_cases sized : t.captures.size = slots
      · rw [dif_pos (caps ▸ sized)] at abs
        rw [dif_pos sized, Search.prospect_absorb abs unlimited (Request.orderly ..),
          findSome?_upToMatch, first?_eq]
        simp only [caps]
      · rw [dif_neg (caps ▸ sized)] at abs
        rw [dif_neg sized]
        cases abs
        rfl
    refine got.trans ?_
    simp only [Search.prospect, Search.foundBy_cons, due, Nat.add_zero, Option.or_assoc,
      Option.none_or]

theorem outlook_reaches (pl : Plan slots) {s : Search}
    (reached : s.Reaches pl.runner q z) (unb : q.maxThreads = 0) :
    z.outlook (pl.found q) q = s.outlook (pl.found q) q := by
  induction reached with
  | refl => rfl
  | tail _ step ih => exact (pl.outlook_step step unb).trans ih

end Plan

namespace Scheduler

/-- Without a bound on the number of threads, a search on any scheduler comes to an end, and its
answer is what a depth-first search finds first. -/
theorem result?_eq_search {sched : Scheduler} (used : Used 0 sched) (text : Text)
    (start flags slots : Nat) (plan : Plan (max slots 2)) :
    (∃ final, (sched.init text start flags slots).dispatch plan.runner 0 = (false, final)) ∧
      ∀ final, Finishes plan.runner (sched.init text start flags slots) final →
        final.result? =
          (plan.search? ⟨text, flags, max slots 2, start, 0⟩).map Vector.toArray := by
  have shown := used.shows_init text start flags slots
  refine ⟨dispatch_zero .., fun final finishes => ?_⟩
  obtain ⟨last, reached, shownLast, noNow, done⟩ := finishes.reaches plan.runner_orderly shown
  have noLater : last.front.later = [] :=
    ((Search.fits_initial_with _ _).reaches reached).later_eq_nil done
  rw [shownLast.result?_eq noLater noNow, ← Search.outlook_of_done done noLater noNow,
    plan.outlook_reaches reached rfl, Search.outlook_initial, Plan.search?, List.map_findSome?]
  exact congrArg (List.findSome? · _) (funext (plan.found_blank rfl))

/-- A plan that would rather match after three bytes than after one, and after one than at once. -/
def patient (slots : Nat) : Plan slots := fun entry _ captures =>
  match entry with
  | 0 => [.wait 1 3 captures, .wait 2 1 captures, .accept captures]
  | _ => [.accept captures]

/-- The match after three bytes is found last and reported, on a scheduler that was left in the
middle of another search. -/
theorem result?_patient :
    ∃ sched final, Used 0 sched ∧ sched.order ≠ [] ∧
      Finishes (patient 2).runner (sched.init #[1, 2, 3, 4] 0 0 2) final ∧
      final.result? = some #[0, 3] ∧
      ((patient 2).search? ⟨#[1, 2, 3, 4], 0, 2, 0, 0⟩).map Vector.toArray = some #[0, 3] := by
  let left := (((new 1 0).init #[5, 6] 0 0 4).dispatch (patient 4).runner 1).2
  have used : Used 0 left :=
    .search (.new 1) #[5, 6] 0 0 4 (patient 4).runner_orderly (.single ⟨1, rfl⟩)
  obtain ⟨⟨final, finished⟩, agrees⟩ := result?_eq_search used #[1, 2, 3, 4] 0 0 2 (patient 2)
  have found : final.result? = some #[0, 3] := by
    have same : final = ((left.init #[1, 2, 3, 4] 0 0 2).dispatch (patient 2).runner 0).2 := by
      rw [finished]
    rw [same]
    decide +kernel
  exact ⟨left, final, used, by decide +kernel, .done finished, found,
    (agrees final (.done finished)).symm.trans found⟩

end Scheduler

end Rematch
