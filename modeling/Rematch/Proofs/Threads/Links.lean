import Mathlib.Logic.Function.Basic

/-!
Lists that are threaded through records. Each record has a link to its neighbours, and the list
knows its two ends. `Linkage.Lists` says that head, tail and all links agree with a list of records;
putting a record at the end, putting it behind another one and taking it out are a few writes each,
and what they make of the list is said by `Lists.append`, `Lists.insertAfter` and `Lists.unlink`.
-/

namespace Rematch

open List

structure Link where
  prev : Option Nat := none
  next : Option Nat := none
  deriving DecidableEq

structure Ends where
  head : Option Nat := none
  tail : Option Nat := none
  deriving DecidableEq

/-- Records with their links, and the ends of one of the lists that they form. -/
structure Linkage where
  links : Nat → Link
  ends : Ends

namespace Linkage

variable {p : Option Nat}

variable (linkage : Linkage)

def write (id : Nat) (link : Link) : Linkage :=
  { linkage with links := Function.update linkage.links id link }

/-- Makes `next` follow a record; without a record it becomes the head. -/
def setNext (id next : Option Nat) : Linkage :=
  match id with
  | none => { linkage with ends := { linkage.ends with head := next } }
  | some id => linkage.write id { linkage.links id with next }

/-- Makes `prev` precede a record; without a record it becomes the tail. -/
def setPrev (id prev : Option Nat) : Linkage :=
  match id with
  | none => { linkage with ends := { linkage.ends with tail := prev } }
  | some id => linkage.write id { linkage.links id with prev }

def append (id : Nat) : Linkage :=
  let tail := linkage.ends.tail
  ((linkage.write id ⟨tail, none⟩).setNext tail (some id)).setPrev none (some id)

def insertAfter (after id : Nat) : Linkage :=
  let next := (linkage.links after).next
  ((linkage.write id ⟨some after, next⟩).setNext (some after) (some id)).setPrev next (some id)

/-- Takes a record out: its neighbours become neighbours of each other. -/
def unlink (id : Nat) : Linkage :=
  let link := linkage.links id
  (linkage.setNext link.prev link.next).setPrev link.next link.prev

/-- The links of some records are their neighbours, where `prev` precedes the first of them and
`next` follows the last. -/
def Joined (linkage : Linkage) : Option Nat → List Nat → Option Nat → Prop
  | _, [], _ => True
  | prev, id :: rest, next =>
    linkage.links id = ⟨prev, rest.head?.or next⟩ ∧ linkage.Joined (some id) rest next

structure Lists (linkage : Linkage) (ids : List Nat) : Prop where
  head_eq : linkage.ends.head = ids.head?
  tail_eq : linkage.ends.tail = ids.getLast?
  joined : linkage.Joined none ids none

variable {lk : Linkage} {prev n : Option Nat} {ids u v : List Nat} {id : Nat}

theorem joined_append (prev n : Option Nat) (a b : List Nat) : lk.Joined prev (a ++ b) n ↔
      lk.Joined prev a (b.head?.or n) ∧ lk.Joined (a.getLast?.or prev) b n := by
  induction a generalizing prev with
  | nil => simp [Joined]
  | cons id r ih =>
    have last : (id :: r).getLast?.or prev = r.getLast?.or (some id) := by
      cases r <;> simp [getLast?_cons]
    have front : (r ++ b).head?.or n = r.head?.or (b.head?.or n) := by cases r <;> simp
    simp only [cons_append, Joined, ih, last, front, and_assoc]

theorem Joined.link_eq (joined : lk.Joined prev (u ++ id :: v) n) :
    lk.links id = ⟨u.getLast?.or prev, v.head?.or n⟩ :=
  ((joined_append prev n u (id :: v)).mp joined).2.1

section

variable (joined : lk.Joined prev ids n)
include joined

theorem Joined.congr {o : Linkage} (eq : ∀ id ∈ ids, o.links id = lk.links id) :
    o.Joined prev ids n := by
  induction ids generalizing prev with
  | nil => trivial
  | cons id r ih =>
    refine ⟨(eq id (by simp)).trans joined.1, ih joined.2 ?_⟩
    exact fun j mem => eq j (by simp [mem])

theorem Joined.write (absent : id ∉ ids) (link : Link) : (lk.write id link).Joined prev ids n := by
  apply joined.congr
  intro j mem
  apply Function.update_of_ne
  rintro rfl
  exact absent mem

theorem Joined.setNext (absent : ∀ id, p = some id → id ∉ ids) (v : Option Nat) :
    (lk.setNext p v).Joined prev ids n := by
  cases p with
  | none => exact joined.congr fun _ _ => rfl
  | some id => exact joined.write (absent id rfl) _

theorem Joined.setPrev (absent : ∀ id, p = some id → id ∉ ids) (v : Option Nat) :
    (lk.setPrev p v).Joined prev ids n := by
  cases p with
  | none => exact joined.congr fun _ _ => rfl
  | some id => exact joined.write (absent id rfl) _

theorem Joined.setNext_last (nodup : ids.Nodup) (v : Option Nat) :
    (lk.setNext ids.getLast? v).Joined prev ids v := by
  rcases eq_nil_or_concat ids with rfl | ⟨f, z, rfl⟩
  · trivial
  · rw [concat_eq_append] at joined nodup ⊢
    have absent : z ∉ f := by
      have apart := nodup_append.mp nodup
      exact fun mem => apart.2.2 z mem z (by simp) rfl
    rw [joined_append] at joined ⊢
    simp only [getLast?_append, getLast?_singleton, Option.some_or] at joined ⊢
    refine ⟨?_, ?_, trivial⟩
    · exact joined.1.write absent _
    · simp [Linkage.setNext, Linkage.write, joined.2.1]

theorem Joined.setPrev_first (nodup : ids.Nodup) (v : Option Nat) :
    (lk.setPrev ids.head? v).Joined v ids n := by
  cases ids with
  | nil => trivial
  | cons a r =>
    refine ⟨?_, joined.2.write (nodup_cons.mp nodup).1 _⟩
    simp [Linkage.setPrev, Linkage.write, joined.1]

end

section

variable (lk : Linkage)

@[simp]
theorem ends_write (id : Nat) (link : Link) : (lk.write id link).ends = lk.ends := rfl

theorem links_write_self (id : Nat) (link : Link) : (lk.write id link).links id = link := by
  simp [write]

theorem links_setNext_of_ne (v : Option Nat) (ne : p ≠ some id) :
    (lk.setNext p v).links id = lk.links id := by
  cases p with
  | none => rfl
  | some j => exact Function.update_of_ne (by rintro rfl; exact ne rfl) _ _

theorem links_setPrev_of_ne (v : Option Nat) (ne : p ≠ some id) :
    (lk.setPrev p v).links id = lk.links id := by
  cases p with
  | none => rfl
  | some j => exact Function.update_of_ne (by rintro rfl; exact ne rfl) _ _

theorem head_setNext (p v : Option Nat) : (lk.setNext p v).ends.head =
      if p = none then v else lk.ends.head := by
  cases p <;> rfl

theorem tail_setNext (p v : Option Nat) : (lk.setNext p v).ends.tail = lk.ends.tail := by
  cases p <;> rfl

theorem head_setPrev (p v : Option Nat) : (lk.setPrev p v).ends.head = lk.ends.head := by
  cases p <;> rfl

theorem tail_setPrev (p v : Option Nat) : (lk.setPrev p v).ends.tail =
      if p = none then v else lk.ends.tail := by
  cases p <;> rfl

end

namespace Lists

variable {a j : Nat}

theorem congr {o : Linkage} (lists : lk.Lists ids) (sameEnds : o.ends = lk.ends)
    (eq : ∀ id ∈ ids, o.links id = lk.links id) : o.Lists ids :=
  ⟨by rw [sameEnds, lists.head_eq], by rw [sameEnds, lists.tail_eq], lists.joined.congr eq⟩

theorem append (lists : lk.Lists ids) (nodup : ids.Nodup) (fresh : id ∉ ids) :
    (lk.append id).Lists (ids ++ [id]) := by
  have other : ids.getLast? ≠ some id := fun last => fresh (mem_of_getLast? last)
  unfold Linkage.append
  rw [lists.tail_eq]
  refine ⟨?_, ?_, ?_⟩
  · rw [head_setPrev, head_setNext, ends_write, lists.head_eq]
    cases ids <;> simp
  · simp [tail_setPrev]
  · rw [joined_append]
    refine ⟨?_, ?_, trivial⟩
    · exact ((lists.joined.write fresh _).setNext_last nodup _).setPrev (by simp) _
    · rw [links_setPrev_of_ne _ _ (by simp), links_setNext_of_ne _ _ other, links_write_self]
      simp

theorem insertAfter (lists : lk.Lists (u ++ a :: v))
    (nodup : (u ++ a :: v).Nodup) (fresh : id ∉ u ++ a :: v) :
    (lk.insertAfter a id).Lists (u ++ a :: id :: v) := by
  have parts : u ++ a :: v = (u ++ [a]) ++ v := by simp
  have parts' : u ++ a :: id :: v = (u ++ [a]) ++ id :: v := by simp
  have last : (u ++ [a]).getLast? = some a := by simp
  have link := lists.joined.link_eq
  rw [parts] at lists nodup fresh
  obtain ⟨frontNodup, backNodup, apart⟩ := nodup_append.mp nodup
  have notFront : id ∉ u ++ [a] := fun inFront => fresh (mem_append_left _ inFront)
  have notBack : id ∉ v := fun inBack => fresh (mem_append_right _ inBack)
  have front := ((joined_append none none _ _).mp lists.joined).1
  have back := ((joined_append none none _ _).mp lists.joined).2
  have follows : v.head?.or none = v.head? := Option.or_none
  unfold Linkage.insertAfter
  simp only [link, follows, ← last]
  rw [parts']
  refine ⟨?_, ?_, ?_⟩
  · rw [head_setPrev, head_setNext, if_neg (by simp), ends_write, lists.head_eq]
    simp
  · rw [tail_setPrev, tail_setNext, ends_write, lists.tail_eq]
    cases v <;> simp
  · rw [joined_append]
    refine ⟨?_, ?_, ?_⟩
    · refine Joined.setPrev ((front.write notFront _).setNext_last frontNodup _) ?_ _
      intro j isFirst inFront
      exact apart j inFront j (mem_of_mem_head? isFirst) rfl
    · rw [links_setPrev_of_ne, links_setNext_of_ne, links_write_self]
      · simp
      · rw [last]
        rintro eq
        exact notFront (by simp [Option.some.inj eq])
      · exact fun isFirst => notBack (mem_of_mem_head? isFirst)
    · refine Joined.setPrev_first (Joined.setNext (back.write notBack _) ?_ _) backNodup _
      intro j isLast inBack
      exact apart j (mem_of_getLast? isLast) j inBack rfl

theorem unlink (lists : lk.Lists (u ++ id :: v)) (nodup : (u ++ id :: v).Nodup) :
    (lk.unlink id).Lists (u ++ v) := by
  have link := lists.joined.link_eq
  obtain ⟨frontNodup, backNodup, apart⟩ := nodup_append.mp nodup
  have restNodup := (nodup_cons.mp backNodup).2
  have front := ((joined_append none none _ _).mp lists.joined).1
  have back := ((joined_append none none _ _).mp lists.joined).2.2
  unfold Linkage.unlink
  simp only [link, Option.or_none]
  refine ⟨?_, ?_, ?_⟩
  · rw [head_setPrev, head_setNext, lists.head_eq]
    cases u <;> simp [getLast?_cons]
  · rw [tail_setPrev, tail_setNext, lists.tail_eq]
    cases v <;> simp [getLast?_cons]
  · rw [joined_append, Option.or_none, Option.or_none]
    constructor
    · refine Joined.setPrev (front.setNext_last frontNodup _) ?_ _
      intro j isFirst inFront
      exact apart j inFront j (.tail _ (mem_of_mem_head? isFirst)) rfl
    · refine Joined.setPrev_first (back.setNext ?_ _) restNodup _
      intro j isLast inBack
      exact apart j (mem_of_getLast? isLast) j (.tail _ inBack) rfl

theorem links_append (lists : lk.Lists ids) (absent : j ∉ ids) (ne : j ≠ id) :
    (lk.append id).links j = lk.links j := by
  have notLast : ids.getLast? ≠ some j := fun last => absent (mem_of_getLast? last)
  unfold Linkage.append
  rw [lists.tail_eq]
  exact (links_setPrev_of_ne _ _ (by simp)).trans
    ((links_setNext_of_ne _ _ notLast).trans (Function.update_of_ne ne _ _))

theorem links_insertAfter (lists : lk.Lists (u ++ a :: v))
    (absent : j ∉ u ++ a :: v) (ne : j ≠ id) : (lk.insertAfter a id).links j = lk.links j := by
  have link := lists.joined.link_eq
  have notFirst : some a ≠ some j := by
    rintro eq
    exact absent (by simp [Option.some.inj eq])
  have notNext : v.head? ≠ some j := by
    intro isFirst
    exact absent (by simp [mem_of_mem_head? isFirst])
  unfold Linkage.insertAfter
  simp only [link, Option.or_none]
  exact (links_setPrev_of_ne _ _ notNext).trans
    ((links_setNext_of_ne _ _ notFirst).trans (Function.update_of_ne ne _ _))

theorem links_unlink (lists : lk.Lists (u ++ id :: v)) (absent : j ∉ u ++ id :: v) :
    (lk.unlink id).links j = lk.links j := by
  have link := lists.joined.link_eq
  have notLast : u.getLast? ≠ some j := by
    intro isLast
    exact absent (by simp [mem_of_getLast? isLast])
  have notNext : v.head? ≠ some j := by
    intro isFirst
    exact absent (by simp [mem_of_mem_head? isFirst])
  unfold Linkage.unlink
  simp only [link, Option.or_none]
  exact (links_setPrev_of_ne _ _ notNext).trans (links_setNext_of_ne _ _ notLast)

end Lists

end Linkage

end Rematch
