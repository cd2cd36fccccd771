import Rematch.Proofs.Threads.Links
import Rematch.Proofs.Threads.Reuse
import Mathlib.Data.List.Nodup

/-!
The links of an arena. Every record has two links: one for the ranking, whose second half also
threads the free list, and one for the queue that holds it. A `Layout` is made of these links and of
the ends of the lists; its operations find records by following links only, and take from the
scheduler what the records say of their threads and what a closure asks for.

`Layout.Spells` says that the links spell the lists of a scheduler. Each operation of the scheduler
keeps this: `Spells.turn`, `Spells.init`.
-/

namespace Rematch

def Scheduler.waiting (sched : Scheduler) (lane : Lane) : List Nat := (sched.queue lane).toList

/-- The links of all records, and the ends of the lists that they form. -/
structure Layout where
  /-- The links of the ranking. A free record is linked to the next free one. -/
  ranks : Nat → Link := fun _ => {}
  /-- The links of the queues. -/
  waits : Nat → Link := fun _ => {}
  ranking : Ends := {}
  lanes : Lane → Ends := fun _ => {}
  free : Option Nat := none

namespace Layout

section

variable (layout : Layout) (sched : Scheduler)

def rankLinkage : Linkage := ⟨layout.ranks, layout.ranking⟩

def laneLinkage (lane : Lane) : Linkage := ⟨layout.waits, layout.lanes lane⟩

def onRanking (change : Linkage → Linkage) : Layout :=
  { layout with
    ranks := (change layout.rankLinkage).links
    ranking := (change layout.rankLinkage).ends }

def onLane (lane : Lane) (change : Linkage → Linkage) : Layout :=
  { layout with
    waits := (change (layout.laneLinkage lane)).links
    lanes := Function.update layout.lanes lane (change (layout.laneLinkage lane)).ends }

def append (id : Nat) : Layout := layout.onRanking (·.append id)

def insertAfter (after id : Nat) : Layout :=
  layout.onRanking (·.insertAfter after id)

def unlink (id : Nat) : Layout := layout.onRanking (·.unlink id)

def enqueue (lane : Lane) (id : Nat) : Layout :=
  layout.onLane lane (·.append id)

def dequeue (lane : Lane) (id : Nat) : Layout :=
  layout.onLane lane fun linkage => (linkage.unlink id).write id {}

def release (id : Nat) : Layout :=
  { layout with
    ranks := Function.update layout.ranks id ⟨none, layout.free⟩
    free := some id }

/-- Takes the first free record, or a new one if the arena may still grow. -/
def allocate : Option Nat × Layout :=
  match layout.free with
  | some id => (some id, { layout with free := (layout.ranks id).next })
  | none =>
    if 0 < sched.maxThreads ∧ sched.maxThreads ≤ sched.arena.size then (none, layout)
    else (some sched.arena.size, layout)

/-- Ends a thread: its record leaves the queue that it names and the ranking, and becomes free. -/
def kill (id : Nat) : Layout :=
  if (sched.thread id).state = .dead then layout
  else
    let layout := match (sched.thread id).lane with
      | none => layout
      | some lane => layout.dequeue lane id
    (layout.unlink id).release id

/-- Ends the threads from a record on, along the links of the ranking. -/
def killFrom : Nat → Scheduler → Option Nat → Layout → Layout
  | 0, _, _, layout => layout
  | _ + 1, _, none, layout => layout
  | count + 1, sched, some id, layout =>
    killFrom count (sched.retire id) (layout.ranks id).next (layout.kill sched id)

/-- Ends every thread below a record. No list has more records than the arena. -/
def killBelow (id : Nat) : Layout :=
  killFrom sched.arena.size sched (layout.ranks id).next layout

/-- Ends every thread below the last fork of the running thread. -/
def killBelowCursor : Layout :=
  match sched.cursor with
  | none => layout
  | some cursor => layout.killBelow sched cursor

/-- Starts a thread behind the last fork of the running thread. -/
def fork : Option Nat × Layout :=
  match layout.allocate sched with
  | (none, layout) => (none, layout)
  | (some id, layout) =>
    (some id, match sched.cursor with
      | none => layout.append id
      | some cursor => layout.insertAfter cursor id)

def wait (count : Int) : Layout :=
  if count ≤ 0 ∨ (sched.remaining : Int) < count then layout
  else
    match layout.fork sched with
    | (none, layout) => layout
    | (some id, layout) => layout.enqueue (!sched.active) id

/-- Records a match once every thread of lower priority has ended. -/
def recordMatch (captures : Captures) : Layout :=
  if !sched.mayMatch then layout
  else
    match (layout.killBelowCursor sched).fork sched.killBelowCursor with
    | (none, layout) => layout
    | (some id, layout) => layout.killBelow (sched.killBelowCursor.fork 0 captures).2 id

def fail : Layout :=
  match sched.running with
  | none => layout
  | some id => layout.kill sched id

def apply : Event → Layout
  | .wait _ count _ _ => layout.wait sched count
  | .accept captures visit => layout.recordMatch (sched.setVisitId visit) captures
  | .fail => layout.fail sched

def applyAll : Layout → Scheduler → List Event → Layout
  | layout, _, [] => layout
  | layout, sched, event :: rest => applyAll (layout.apply sched event) (sched.apply event) rest

def finish (id : Nat) : Layout :=
  if (sched.thread id).state = .running then layout.kill sched id else layout

def run (runner : Runner) (id : Nat) : Layout :=
  let begun := sched.begin id
  let turn := runner begun (begun.thread id).entry
  (layout.applyAll begun turn.events).finish (turn.events.foldl Scheduler.apply begun) id

/-- Starts a thread of lowest priority at the current offset. -/
def seed : Layout :=
  match layout.allocate sched with
  | (none, layout) => layout
  | (some id, layout) => (layout.append id).enqueue sched.active id

def advance : Layout :=
  if sched.moveOn.anchorsStart || sched.moveOn.matched then layout else layout.seed sched.moveOn

/-- One turn of the loop that runs threads; `rest` is what the first thread leaves in its queue. -/
def turn (runner : Runner) : Layout :=
  match (layout.lanes sched.active).head, sched.next? with
  | some id, some (_, rest) =>
    let layout := layout.dequeue sched.active id
    let sched := sched.take id rest
    if 0 < (sched.thread id).delay then layout.enqueue (!sched.active) id
    else layout.run sched runner id
  | _, _ => layout.advance sched

/-- The links after all of `count` records were put on the free list, the last one first, and were
cut off from the queues. -/
def reset (count : Nat) : Layout :=
  (List.range count).foldr
    (fun id layout => { layout.release id with waits := Function.update layout.waits id {} })
    { layout with ranking := {}, lanes := fun _ => {}, free := none }

def init (text : Text) (start flags slots : Nat) : Layout :=
  (layout.reset sched.arena.size).seed (sched.cleared text start flags slots)

end

/-- The records of a free list are linked one to the next, and to nothing before. -/
def Stacked (ranks : Nat → Link) : List Nat → Prop
  | [] => True
  | id :: rest => ranks id = ⟨none, rest.head?⟩ ∧ Stacked ranks rest

/-- The links spell a ranking, two queues and a free list. -/
structure Holds (layout : Layout) (order : List Nat) (queues : Lane → List Nat)
    (free : List Nat) : Prop where
  ranking : layout.rankLinkage.Lists order
  lanes : ∀ lane, (layout.laneLinkage lane).Lists (queues lane)
  free_eq : layout.free = free.head?
  stacked : Stacked layout.ranks free

def Spells (layout : Layout) (sched : Scheduler) : Prop :=
  layout.Holds sched.order sched.waiting sched.free

theorem Stacked.congr {ranks o : Nat → Link} {ids : List Nat} (stacked : Stacked ranks ids)
    (eq : ∀ id ∈ ids, o id = ranks id) : Stacked o ids := by
  induction ids with
  | nil => trivial
  | cons id r ih =>
    refine ⟨(eq id (by simp)).trans stacked.1, ih stacked.2 ?_⟩
    exact fun j mem => eq j (by simp [mem])

namespace Holds

variable {L : Layout} {order u v fr : List Nat} {qs : Lane → List Nat} {id : Nat}

theorem append (holds : L.Holds order qs fr) (nodup : order.Nodup) (fresh : id ∉ order)
    (taken : id ∉ fr) (apart : ∀ j ∈ fr, j ∉ order) :
    (L.append id).Holds (order ++ [id]) qs fr := by
  refine ⟨holds.ranking.append nodup fresh, holds.lanes, holds.free_eq, holds.stacked.congr ?_⟩
  intro j isFree
  exact holds.ranking.links_append (apart j isFree) (by rintro rfl; exact taken isFree)

theorem insertAfter {a : Nat} (holds : L.Holds (u ++ a :: v) qs fr) (nodup : (u ++ a :: v).Nodup)
    (fresh : id ∉ u ++ a :: v) (taken : id ∉ fr) (apart : ∀ j ∈ fr, j ∉ u ++ a :: v) :
    (L.insertAfter a id).Holds (u ++ a :: id :: v) qs fr := by
  refine ⟨holds.ranking.insertAfter nodup fresh, holds.lanes, holds.free_eq, holds.stacked.congr ?_⟩
  intro j isFree
  exact holds.ranking.links_insertAfter (apart j isFree) (by rintro rfl; exact taken isFree)

theorem unlink (holds : L.Holds (u ++ id :: v) qs fr) (nodup : (u ++ id :: v).Nodup)
    (apart : ∀ j ∈ fr, j ∉ u ++ id :: v) : (L.unlink id).Holds (u ++ v) qs fr := by
  refine ⟨holds.ranking.unlink nodup, holds.lanes, holds.free_eq, holds.stacked.congr ?_⟩
  exact fun j isFree => holds.ranking.links_unlink (apart j isFree)

section

variable (holds : L.Holds order qs fr)
include holds

theorem release (unranked : id ∉ order) (fresh : id ∉ fr) :
    (L.release id).Holds order qs (id :: fr) := by
  have eq : ∀ j, j ≠ id → (L.release id).ranks j = L.ranks j :=
    fun j ne => Function.update_of_ne ne _ _
  refine ⟨holds.ranking.congr rfl ?_, holds.lanes, rfl, ?_, holds.stacked.congr ?_⟩
  · intro j rk
    exact eq j (by rintro rfl; exact unranked rk)
  · rw [← holds.free_eq]
    exact Function.update_self id _ L.ranks
  · intro j isFree
    exact eq j (by rintro rfl; exact fresh isFree)

variable {l : Lane}

theorem onLane {f : Linkage → Linkage} {ids : List Nat} (changed : (f (L.laneLinkage l)).Lists ids)
    (eq : ∀ j ∈ qs (!l), (f (L.laneLinkage l)).links j = L.waits j) :
    (L.onLane l f).Holds order (Function.update qs l ids) fr := by
  refine ⟨holds.ranking, ?_, holds.free_eq, holds.stacked⟩
  intro p
  by_cases here : p = l
  · subst here
    rw [Function.update_self]
    refine changed.congr ?_ fun _ _ => rfl
    simp [laneLinkage, Layout.onLane]
  · obtain rfl := Bool.eq_not.mpr here
    rw [Function.update_of_ne here]
    refine (holds.lanes (!l)).congr ?_ eq
    simp [laneLinkage, Layout.onLane]

theorem enqueue (l : Lane) (nodup : (qs l).Nodup) (fresh : ∀ l, id ∉ qs l)
    (apart : ∀ j ∈ qs (!l), j ∉ qs l) :
    (L.enqueue l id).Holds order (Function.update qs l (qs l ++ [id])) fr := by
  refine holds.onLane ((holds.lanes l).append nodup (fresh l)) ?_
  intro j queued
  refine (holds.lanes l).links_append (apart j queued) ?_
  rintro rfl
  exact fresh _ queued

theorem dequeue (queued : qs l = u ++ id :: v) (nodup : (qs l).Nodup)
    (apart : ∀ j ∈ qs (!l), j ∉ qs l) :
    (L.dequeue l id).Holds order (Function.update qs l (u ++ v)) fr := by
  have lists := holds.lanes l
  rw [queued] at lists nodup apart
  refine holds.onLane ((lists.unlink nodup).congr rfl ?_) ?_
  · intro j left
    refine Function.update_of_ne ?_ _ _
    rintro rfl
    exact (List.nodup_cons.mp (List.nodup_middle.mp nodup)).1 left
  · intro j elsewhere
    have absent := apart j elsewhere
    refine (Function.update_of_ne ?_ _ _).trans (lists.links_unlink absent)
    rintro rfl
    exact absent (by simp)

end

end Holds

end Layout

end Rematch
