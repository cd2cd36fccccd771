import Rematch.Proofs.Matching.Path

/-!
Captures that agree on some groups. An instruction offers the same from two points that differ in
captures only, as long as these agree on the groups that its backreferences name.
-/

namespace Rematch

def Captures.SameOn (groups : List Nat) (first second : Captures) : Prop :=
  ∀ group ∈ groups, first[2 * group]? = second[2 * group]? ∧
    first[2 * group + 1]? = second[2 * group + 1]?

namespace Captures.SameOn

variable {gs : List Nat} {a b c : Captures}

theorem refl (gs : List Nat) (c : Captures) : SameOn gs c c := fun _ _ => ⟨rfl, rfl⟩

theorem symm (eq : SameOn gs a b) : SameOn gs b a :=
  fun gr mem => ⟨(eq gr mem).1.symm, (eq gr mem).2.symm⟩

theorem trans (left : SameOn gs a b) (right : SameOn gs b c) : SameOn gs a c :=
  fun gr mem => ⟨(left gr mem).1.trans (right gr mem).1, (left gr mem).2.trans (right gr mem).2⟩

theorem getElem?_setIfInBounds {i : Nat} (eq : a[i]? = b[i]?) (sl : Nat) (v : Int) :
    (a.setIfInBounds sl v)[i]? = (b.setIfInBounds sl v)[i]? := by
  rw [Array.getElem?_setIfInBounds, Array.getElem?_setIfInBounds]
  split
  · next here =>
    subst here
    have bounds : a.size ≤ sl ↔ b.size ≤ sl := by
      rw [← Array.getElem?_eq_none_iff, eq, Array.getElem?_eq_none_iff]
    simp only [← Nat.not_le, bounds]
  · exact eq

theorem setIfInBounds (eq : SameOn gs a b) (sl : Nat) (v : Int) :
    SameOn gs (a.setIfInBounds sl v) (b.setIfInBounds sl v) :=
  fun gr mem => ⟨getElem?_setIfInBounds (eq gr mem).1 sl v,
    getElem?_setIfInBounds (eq gr mem).2 sl v⟩

theorem setIfInBounds_of_not_mem {sl : Nat} (unlisted : sl / 2 ∉ gs) (c : Captures) (v : Int) :
    SameOn gs (c.setIfInBounds sl v) c := by
  intro gr mem
  have other : sl / 2 ≠ gr := fun eq => unlisted (eq ▸ mem)
  exact ⟨Array.getElem?_setIfInBounds_ne (by omega), Array.getElem?_setIfInBounds_ne (by omega)⟩

end Captures.SameOn

variable {gs : List Nat}

theorem Query.blank_sameOn (pos : ∀ gr ∈ gs, 1 ≤ gr) (q : Query) (k : Nat) :
    Captures.SameOn gs (q.blank k) (q.blank 0) := by
  have unset : ∀ begins, Captures.SameOn gs (q.blank begins)
      (Array.replicate q.slots (-1)) := fun begins =>
    .setIfInBounds_of_not_mem (fun mem => absurd (pos _ mem) (by simp)) _ _
  exact (unset k).trans (unset 0).symm

theorem Extension.evaluate?_congr {ext : Extension} {a b : Captures}
    (named : ext.kind = .backreference → ext.arg ∈ gs)
    (eq : Captures.SameOn gs a b) (t : Text) (k : Nat) :
    ext.evaluate? t k a = ext.evaluate? t k b := by
  unfold evaluate?
  cases kind : ext.kind with
  | backreference =>
    obtain ⟨sameFirst, sameLast⟩ := eq ext.arg (named kind)
    simp [matchBackreference?, capturedSpan?, sameFirst, sameLast]
  | category | notCategory | unknown => rfl

/-- Points that differ in captures of other groups only. -/
structure Point.Alike (groups : List Nat) (first second : Point) : Prop where
  pc_eq : first.pc = second.pc
  offset_eq : first.offset = second.offset
  captures : Captures.SameOn groups first.captures second.captures

namespace Point.Alike

variable {gs : List Nat} {a b c : Point}

theorem refl (gs : List Nat) (p : Point) : Alike gs p p := ⟨rfl, rfl, .refl _ _⟩

theorem symm (alike : Alike gs a b) : Alike gs b a :=
  ⟨alike.pc_eq.symm, alike.offset_eq.symm, alike.captures.symm⟩

theorem trans (left : Alike gs a b) (right : Alike gs b c) : Alike gs a c :=
  ⟨left.pc_eq.trans right.pc_eq, left.offset_eq.trans right.offset_eq,
    left.captures.trans right.captures⟩

end Point.Alike

/-- Branches that lead to points of this kind, or both accept. -/
inductive Branch.Alike (groups : List Nat) : Branch → Branch → Prop where
  | step {first second} (alike : first.Alike groups second) :
      Alike groups (.step first) (.step second)
  | accept : Alike groups .accept .accept

namespace Graph

variable {g : Graph} {q : Query} {gs : List Nat} {a b : Point}

/-- The backreferences at an instruction name some of the given groups. -/
def References (graph : Graph) (groups : List Nat) (pc : Nat) : Prop :=
  ∀ exts, graph.extensionsAt? pc = some exts → ∀ ext ∈ exts, ext.kind = .backreference →
    ext.arg ∈ groups

theorem branches_alike (refs : g.References gs a.pc) (alike : a.Alike gs b) :
    List.Forall₂ (Branch.Alike gs) (g.branches q a) (g.branches q b) := by
  obtain ⟨samePc, eqOff, caps⟩ := alike
  unfold branches
  rw [← samePc, ← eqOff]
  cases plain : g.extensionsAt? a.pc with
  | some es =>
    have named := refs es plain
    clear plain
    induction es with
    | nil => exact .nil
    | cons ext r ih =>
      have ev : ext.evaluate? q.text a.offset a.captures =
          ext.evaluate? q.text a.offset b.captures :=
        Extension.evaluate?_congr (named ext (.head _)) caps _ _
      have tail := ih fun o mem => named o (.tail _ mem)
      simp only [List.filterMap_cons, Extension.branch?, ← eqOff, ← ev] at tail ⊢
      cases ext.evaluate? q.text a.offset a.captures with
      | none => exact tail
      | some n => exact .cons (.step ⟨rfl, rfl, caps⟩) tail
  | none =>
    dsimp only
    have stays : ∀ pc, Branch.Alike gs (.step ⟨pc, a.offset, a.captures⟩)
        (.step ⟨pc, a.offset, b.captures⟩) := fun _ => .step ⟨rfl, rfl, caps⟩
    cases (g.inst a.pc).op with
    | alt | altMatch => exact .cons (stays _) (.cons (stays _) .nil)
    | byteRange =>
      dsimp only
      split
      · exact .cons (.step ⟨rfl, rfl, caps⟩) .nil
      · exact .nil
    | capture =>
      dsimp only
      split
      · exact .cons (.step ⟨rfl, rfl, caps.setIfInBounds _ _⟩) .nil
      · exact .cons (stays _) .nil
    | emptyWidth =>
      dsimp only
      split
      · exact .cons (stays _) .nil
      · exact .nil
    | nop => exact .cons (stays _) .nil
    | accept =>
      dsimp only
      split
      · exact .cons .accept .nil
      · exact .nil
    | fail | unknown => exact .nil

end Graph

end Rematch
