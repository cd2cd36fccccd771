import Rematch.Proofs.Threads.Reuse

/-!
What searches lead to. Given what is found from an entry, at an offset and with captures, the
threads of a search, its best match and later begins lead to a match in this order. That outlook is
the answer in the end, and what threads and closures lead to is all that a step can change of it.
-/

namespace Rematch

/-- What an event of a closure leads to. -/
def Scheduler.leadsTo (sched : Scheduler) (found : Nat → Nat → Captures → Option Captures) :
    Event → Option Captures
  | .wait entry count captures _ =>
    if count ≤ 0 ∨ (sched.remaining : Int) < count then none
    else found entry (sched.offset + count.toNat) captures
  | .accept captures _ =>
    if sched.mayMatch then some (captures.setIfInBounds 1 sched.offset) else none
  | .fail => none

namespace Search

variable (found : Nat → Nat → Captures → Option Captures)

def foundBy (offset : Nat)
    (threads : List Pending) : Option Captures :=
  threads.findSome? fun thread => found thread.entry (offset + thread.delay) thread.captures

def begins (query : Query) (offset : Nat) :
    Option Captures :=
  if query.anchorsStart then none
  else (List.range' (offset + 1) (query.text.size - offset)).findSome? fun offset =>
    found query.start offset (query.blank offset)

/-- What the threads of a front, the best match and later begins lead to, in this order. In place of
a thread that runs stands what it still leads to. -/
def prospect (query : Query) (offset : Nat)
    (running : Option Captures) (front : Front) : Option Captures :=
  (foundBy found (offset + 1) front.later).or <| running.or <|
    (foundBy found offset front.now).or <| front.best.or (begins found query offset)

def outlook (query : Query) (search : Search) :
    Option Captures :=
  prospect found query search.offset none search.front

variable {found : Nat → Nat → Captures → Option Captures} {q : Query} {k : Nat}

theorem foundBy_append (threads others : List Pending) :
    foundBy found k (threads ++ others) = (foundBy found k threads).or (foundBy found k others) :=
  List.findSome?_append

theorem foundBy_cons (t : Pending) (threads : List Pending) : foundBy found k (t :: threads) =
      (found t.entry (k + t.delay) t.captures).or (foundBy found k threads) :=
  findSome?_cons_or ..

theorem foundBy_nil : foundBy found k [] = none := rfl

theorem foundBy_wait {n : Int} (pos : 0 < n) (e v : Nat) (c : Captures) :
    foundBy found (k + 1) [⟨e, n.toNat - 1, v, c⟩] = found e (k + n.toNat) c := by
  have eq : k + 1 + (n.toNat - 1) = k + n.toNat := by omega
  simp [foundBy, eq]

theorem prospect_absorb {s : Scheduler} {evs : List Event} {f f' : Front} {slots : Nat}
    (abs : Front.AbsorbsAll s evs f f') (unb : s.maxThreads = 0)
    (ord : Event.Orderly slots s.mayMatch evs) : prospect found q s.offset none f' =
      prospect found q s.offset (evs.findSome? (s.leadsTo found)) f := by
  induction abs with
  | nil => rfl
  | cons head tail ih =>
    rw [findSome?_cons_or]
    cases head with
    | @wait _ _ n _ _ within =>
      have pos : 0 < n := by omega
      rw [ih ord.2, Scheduler.leadsTo, if_neg within]
      simp only [prospect, foundBy_append, foundBy_wait pos, Option.or_assoc]
    | misfit beyond =>
      rw [ih ord.2, Scheduler.leadsTo, if_pos beyond]
      rfl
    | lose bounded | loseMatch bounded => omega
    | refuse early =>
      rw [ih ord.2.2, Scheduler.leadsTo, early]
      rfl
    | accept allowed =>
      obtain rfl := ord.2.1 allowed
      cases tail
      simp [prospect, foundBy, Scheduler.leadsTo, allowed]

variable {s : Search} {l : List Pending} {best : Option Captures}

theorem prospect_postpone {t : Pending} {now : List Pending}
    (delayed : 0 < t.delay) :
    prospect found q k none ⟨l ++ [{ t with delay := t.delay - 1 }], now, best⟩ =
      prospect found q k none ⟨l, t :: now, best⟩ := by
  have eq : k + 1 + (t.delay - 1) = k + t.delay := by omega
  simp only [prospect, foundBy_append, foundBy_cons, foundBy_nil, eq, Option.or_assoc,
    Option.none_or]

theorem prospect_advance {sd : List Pending}
    (unb : q.maxThreads = 0) (unfinished : s.isDone q = false)
    (seeded : q.Seeds (s.offset + 1) best sd) :
    prospect found q (s.offset + 1) none ⟨[], l ++ sd, best⟩ =
      prospect found q s.offset none ⟨l, [], best⟩ := by
  simp only [prospect, foundBy_append, foundBy_nil, Option.none_or, Option.or_assoc]
  congr 1
  unfold Query.Seeds at seeded
  split at seeded
  · next stopped =>
    subst seeded
    cases best with
    | some c => rfl
    | none =>
      have anc : q.anchorsStart = true := by simpa using stopped
      simp [foundBy, begins, anc]
  · next goesOn =>
    simp only [Bool.or_eq_true, not_or, Bool.not_eq_true] at goesOn
    obtain rfl := seeded.resolve_right (by omega)
    obtain rfl : best = none := by simpa using goesOn.2
    have count : q.text.size - s.offset = q.text.size - (s.offset + 1) + 1 := by
      simp only [isDone, Bool.or_eq_false_iff, decide_eq_false_iff_not] at unfinished
      omega
    simp only [begins, goesOn.1, Bool.false_eq_true, if_false]
    rw [count, List.range'_succ, findSome?_cons_or]
    simp [foundBy, Query.seed]

theorem outlook_initial (visited : Nat) : { initial q with visited }.outlook found q =
      (List.range (if q.anchorsStart then 1 else q.text.size + 1)).findSome? fun k =>
        found q.start k (q.blank k) := by
  simp only [outlook, prospect, initial, foundBy_cons, foundBy_nil, begins, Option.none_or,
    Option.or_none]
  split
  · simp [List.range_succ, Query.seed]
  · rw [List.range_eq_range', List.range'_succ, findSome?_cons_or]
    rfl

theorem outlook_of_done (done : s.isDone q = true) (noLater : s.front.later = [])
    (noNow : s.front.now = []) : s.outlook found q = s.front.best := by
  have last : s.front.best.or (begins found q s.offset) = s.front.best := by
    simp only [isDone, Bool.or_eq_true, Bool.and_eq_true, decide_eq_true_eq] at done
    rcases done with fin | ⟨got | anc, -⟩
    · simp [begins, Nat.sub_eq_zero_of_le fin]
    · exact Option.or_of_isSome got
    · simp [begins, anc]
  simp [outlook, prospect, noLater, noNow, foundBy, last]

end Search

end Rematch
