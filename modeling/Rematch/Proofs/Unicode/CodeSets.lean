import Rematch.Unicode.Property

/-!
Sets of code points stay in order: inserting, joining and complementing keep the spans ascending
with gaps between them. The tables of categories and scripts are in order to begin with.
-/

namespace Rematch.Unicode

open List

def Span.Proper (span : Span) : Prop := span.lo ≤ span.hi ∧ span.hi ≤ maxCode

instance (span : Span) : Decidable span.Proper := inferInstanceAs (Decidable (_ ∧ _))

theorem Span.contains_iff {sp : Span} {c : Nat} : sp.contains c = true ↔ sp.lo ≤ c ∧ c ≤ sp.hi := by
  simp [contains]

namespace CodeSet

variable {set a b : CodeSet} {sp : Span} {c m : Nat}

/-- The spans are proper, begin at `least` or later, ascend, and have gaps between them. -/
def InOrder (least : Nat) : CodeSet → Prop
  | [] => True
  | span :: rest => least ≤ span.lo ∧ span.Proper ∧ InOrder (span.hi + 2) rest

instance decidableInOrder (least : Nat) : (set : CodeSet) → Decidable (InOrder least set)
  | [] => inferInstanceAs (Decidable True)
  | span :: rest =>
    have := decidableInOrder (span.hi + 2) rest
    inferInstanceAs (Decidable (_ ∧ _ ∧ _))

theorem InOrder.mono {m' : Nat} (ord : InOrder m set) (le : m' ≤ m) : InOrder m' set := by
  cases set with
  | nil => trivial
  | cons sp r => exact ⟨Nat.le_trans le ord.1, ord.2⟩

theorem InOrder.proper (ord : InOrder m set) : ∀ sp ∈ set, m ≤ sp.lo ∧ sp.Proper := by
  induction set generalizing m with
  | nil => simp
  | cons h r ih =>
    intro sp mem
    obtain ⟨above, proper, later⟩ := ord
    rcases mem_cons.mp mem with rfl | mem
    · exact ⟨above, proper⟩
    · obtain ⟨above', proper'⟩ := ih later sp mem
      exact ⟨by have := proper.1; omega, proper'⟩

theorem contains_iff : set.contains c = true ↔ ∃ sp ∈ set, sp.lo ≤ c ∧ c ≤ sp.hi := by
  simp [contains, Span.contains]

theorem contains_cons : contains (sp :: set) c = (sp.contains c || set.contains c) := rfl

theorem inOrder_insert (inOrder : InOrder m set) (proper : sp.Proper) (above : m ≤ sp.lo) :
    InOrder m (insert sp set) := by
  induction set generalizing m sp with
  | nil => exact ⟨above, proper, trivial⟩
  | cons h r ih =>
    obtain ⟨above', ⟨ord, le⟩, later⟩ := inOrder
    have ⟨ord', le'⟩ := proper
    unfold insert
    split
    · exact ⟨above, proper, by omega, ⟨ord, le⟩, later⟩
    split
    · exact ⟨above', ⟨ord, le⟩, ih later proper (by omega)⟩
    · exact ih (later.mono (by omega)) ⟨by dsimp only; omega, by dsimp only; omega⟩
        (by dsimp only; omega)

theorem contains_insert : (insert sp set).contains c = (sp.contains c || set.contains c) := by
  induction set generalizing sp with
  | nil => rfl
  | cons h r ih =>
    unfold insert
    split
    · rfl
    split
    · rw [contains_cons, ih, contains_cons, Bool.or_left_comm]
    · rw [ih, contains_cons, ← Bool.or_assoc]
      congr 1
      rw [Bool.eq_iff_iff, Bool.or_eq_true, Span.contains_iff, Span.contains_iff, Span.contains_iff]
      dsimp only
      omega

theorem inOrder_foldr_insert (proper : ∀ sp ∈ a, sp.Proper) (ord : InOrder 0 b) :
    InOrder 0 (a.foldr insert b) := by
  induction a with
  | nil => exact ord
  | cons sp r ih =>
    exact inOrder_insert (ih fun sp mem => proper sp (.tail _ mem))
      (proper sp (.head _)) (Nat.zero_le _)

theorem inOrder_union (ord : InOrder 0 a) (ord' : InOrder 0 b) : InOrder 0 (a.union b) :=
  inOrder_foldr_insert (fun sp mem => (ord.proper sp mem).2) ord'

theorem contains_union : (a.union b).contains c = (a.contains c || b.contains c) := by
  induction a with
  | nil => rfl
  | cons sp r ih =>
    rw [union, foldr_cons, contains_insert, contains_cons, Bool.or_assoc]
    exact congrArg _ ih

theorem inOrder_ofSpans {spans : List Span} (proper : ∀ sp ∈ spans, sp.Proper) :
    InOrder 0 (ofSpans spans) :=
  inOrder_foldr_insert proper trivial

theorem inOrder_cons {sp : Span} : InOrder m (sp :: set) ↔
    m ≤ sp.lo ∧ sp.Proper ∧ InOrder (sp.hi + 2) set := Iff.rfl

theorem inOrder_single {lo hi : Nat} (ord : lo ≤ hi) (le : hi ≤ maxCode) : InOrder 0 [⟨lo, hi⟩] :=
  ⟨Nat.zero_le _, ⟨ord, le⟩, trivial⟩

theorem inOrder_gapsFrom {n : Nat} (ord : InOrder m set) (early : n ≤ m) :
    InOrder n (gapsFrom n set) := by
  induction set generalizing n m with
  | nil =>
    unfold gapsFrom
    split
    · next within => exact ⟨Nat.le_refl _, ⟨within, Nat.le_refl _⟩, trivial⟩
    · trivial
  | cons sp r ih =>
    obtain ⟨above, ⟨odd, le⟩, later⟩ := ord
    have gaps := ih later (show sp.hi + 1 ≤ sp.hi + 2 by omega)
    unfold gapsFrom
    split
    · exact ⟨Nat.le_refl _, ⟨by dsimp only; omega, by dsimp only; omega⟩,
        gaps.mono (by dsimp only; omega)⟩
    · exact gaps.mono (by omega)

theorem inOrder_complement (ord : InOrder 0 set) : InOrder 0 set.complement :=
  inOrder_gapsFrom ord (Nat.le_refl _)

-- The tables below must not be unfolded to see whether they are in order.
attribute [irreducible] InOrder

end CodeSet

theorem assignedSpans_checked : GeneralCategory.assigned.all (fun cat =>
    cat.assignedSpans.all fun sp => decide sp.Proper) = true := by decide +kernel

theorem scripts_checked : Script.all.all (fun script =>
    decide (CodeSet.InOrder 0 script.spans)) = true := by decide +kernel

theorem proper_assignedSpans (cat : GeneralCategory) : ∀ sp ∈ cat.assignedSpans, sp.Proper := by
  intro sp mem
  by_cases assigned : cat ∈ GeneralCategory.assigned
  · have checked := all_eq_true.mp assignedSpans_checked cat assigned
    exact of_decide_eq_true (all_eq_true.mp checked sp mem)
  · obtain rfl : cat = .unassigned := by cases cat <;> simp_all [GeneralCategory.assigned]
    exact absurd mem not_mem_nil

theorem inOrder_assignedCodes : CodeSet.InOrder 0 assignedCodes := by
  unfold assignedCodes
  refine CodeSet.inOrder_ofSpans fun sp mem => ?_
  rw [mem_flatMap] at mem
  obtain ⟨cat, -, got⟩ := mem
  exact proper_assignedSpans cat sp got

theorem proper_codes (cat : GeneralCategory) : ∀ sp ∈ cat.codes, sp.Proper := by
  intro sp mem
  unfold GeneralCategory.codes at mem
  split at mem
  · exact ((CodeSet.inOrder_complement inOrder_assignedCodes).proper sp mem).2
  · exact proper_assignedSpans cat sp mem

theorem inOrder_codes (cat : Category) : CodeSet.InOrder 0 cat.codes := by
  unfold Category.codes
  refine CodeSet.inOrder_ofSpans fun sp mem => ?_
  rw [mem_flatMap] at mem
  obtain ⟨general, -, got⟩ := mem
  exact proper_codes general sp got

theorem inOrder_codes? {nm : Bytes} {cs : CodeSet} (got : Property.codes? nm = some cs) :
    CodeSet.InOrder 0 cs := by
  unfold Property.codes? at got
  split at got
  · cases got
    decide
  split at got
  · obtain rfl := Option.some.inj got
    exact inOrder_assignedCodes
  split at got
  · obtain rfl := Option.some.inj got
    decide
  split at got
  · cases got
    exact inOrder_codes _
  split at got
  · next script known =>
    cases got
    have mem := mem_of_find?_eq_some known
    exact of_decide_eq_true (all_eq_true.mp scripts_checked script mem)
  · obtain ⟨e, -, named⟩ := Option.bind_eq_some_iff.mp got
    obtain ⟨cat, -, rfl⟩ := Option.map_eq_some_iff.mp named
    exact inOrder_codes cat

end Rematch.Unicode
