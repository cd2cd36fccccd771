import Mathlib.Data.List.Nodup
import Mathlib.Data.List.Pairwise
import Mathlib.Tactic.ByContra
import Rematch.Pattern.Parser
import Rematch.Proofs.Unicode.CodeSets

/-!
Case folding of sets. A folded set has the members of the set and everything that shares an orbit
with one of them. No code point is in two orbits, so that a pair of cases folds to itself.
-/

namespace Rematch.Unicode

open List CaseFolding

namespace CaseFolding

/-- Orbits ascend within bounds, and a pair of ASCII characters is an upper and a lower letter. -/
theorem orbits_checked : orbits.all (fun orb =>
    orb.all (fun c => leastFolded ≤ c && c ≤ greatestFolded) && orb.Pairwise (· < ·) &&
    match orb with
    | [u, lower] => 0x80 ≤ u || 0x80 ≤ lower || (0x41 ≤ u && u ≤ 0x5A && lower == u + 0x20)
    | _ => true) = true := by decide +kernel

variable {orb : List Nat} {c : Nat}

theorem ascending_of_mem_orbits (mem : orb ∈ orbits) :
    (∀ c ∈ orb, leastFolded ≤ c ∧ c ≤ greatestFolded) ∧ orb.Pairwise (· < ·) := by
  have checked := all_eq_true.mp orbits_checked _ mem
  simp only [Bool.and_eq_true, all_eq_true, decide_eq_true_eq] at checked
  exact checked.1

theorem bounds_of_mem_orbit (mem : orb ∈ orbits) (mb : c ∈ orb) :
    leastFolded ≤ c ∧ c ≤ greatestFolded :=
  (ascending_of_mem_orbits mem).1 c mb

/-- Marks code points one after the other; `none` if one of them was marked before. -/
def markAll? : Nat → List Nat → Option Nat
  | marks, [] => some marks
  | marks, code :: rest => if marks.testBit code then none else markAll? (marks ||| 1 <<< code) rest

theorem nodup_of_markAll? {cs : List Nat} {ms : Nat} (marked : (markAll? ms cs).isSome) :
    cs.Nodup ∧ ∀ c ∈ cs, ms.testBit c = false := by
  induction cs generalizing ms with
  | nil => simp
  | cons a r ih =>
    unfold markAll? at marked
    split at marked
    · simp at marked
    next unmarked =>
    obtain ⟨distinct, free⟩ := ih marked
    simp only [Nat.testBit_or, Bool.or_eq_false_iff] at free
    refine ⟨nodup_cons.mpr ⟨fun again => ?_, distinct⟩, fun c mem => ?_⟩
    · have taken := (free a again).2
      simp [Nat.testBit_shiftLeft] at taken
    · rcases mem_cons.mp mem with rfl | later
      · simpa using unmarked
      · exact (free c later).1

theorem orbits_marked : (markAll? 0 orbits.flatten).isSome = true := by decide +kernel

theorem eq_of_mem_orbits {o : List Nat} (mem : orb ∈ orbits) (mem' : o ∈ orbits)
    (mb : c ∈ orb) (mb' : c ∈ o) : orb = o := by
  have apart := (nodup_flatten.mp (nodup_of_markAll? orbits_marked).1).2
  have symmetric : Std.Symm (@List.Disjoint Nat) :=
    ⟨fun _ _ disjoint _ mem mem' => disjoint mem' mem⟩
  by_contra differ
  exact apart.forall mem mem' differ mb mb'

theorem orbitOf_cases (c : Nat) : orbitOf c = [c] ∨ orbitOf c ∈ orbits ∧ c ∈ orbitOf c := by
  unfold orbitOf
  split
  · cases got : orbits.find? (·.contains c) with
    | none => exact .inl rfl
    | some orb =>
      refine .inr ⟨mem_of_find?_eq_some got, ?_⟩
      simpa using find?_some got
  · exact .inl rfl

theorem orbitOf_ascending (c : Nat) : orbitOf c = [c] ∨
    (∀ m ∈ orbitOf c, m < 0xF0000) ∧ (orbitOf c).Pairwise (· < ·) := by
  refine (orbitOf_cases c).imp_right fun ⟨orbit, _⟩ => ?_
  obtain ⟨bounded, ascends⟩ := ascending_of_mem_orbits orbit
  exact ⟨fun m mem => Nat.lt_of_le_of_lt (bounded m mem).2 (by decide), ascends⟩

theorem orbitOf_le {m : Nat} (le : c ≤ maxCode) (mem : m ∈ orbitOf c) : m ≤ maxCode := by
  rcases orbitOf_ascending c with alone | ⟨small, -⟩
  · rw [alone, mem_singleton] at mem
    omega
  · exact Nat.le_of_lt (Nat.lt_of_lt_of_le (small m mem) (by decide))

theorem orbitOf_pair {u lower : Nat} (pair : orbitOf c = [u, lower])
    (ascii : u < 0x80) (ascii' : lower < 0x80) : 0x41 ≤ u ∧ u ≤ 0x5A ∧ lower = u + 0x20 := by
  rcases orbitOf_cases c with alone | ⟨orbit, -⟩
  · simp [pair] at alone
  · have checked := all_eq_true.mp orbits_checked _ orbit
    simp only [pair, Bool.and_eq_true, Bool.or_eq_true, decide_eq_true_eq, beq_iff_eq] at checked
    omega

theorem nextInOrbit_mem (c : Nat) : nextInOrbit c ∈ orbitOf c := by
  have ne : orbitOf c ≠ [] := by
    rcases orbitOf_cases c with alone | ⟨-, mb⟩
    · simp [alone]
    · exact ne_nil_of_mem mb
  unfold nextInOrbit
  dsimp only
  cases got : (orbitOf c).find? (c < ·) with
  | none =>
    obtain ⟨h, r, orbit_eq⟩ := exists_cons_of_ne_nil ne
    simp [orbit_eq]
  | some n => exact mem_of_find?_eq_some got

theorem leastInOrbit_mem (c : Nat) : leastInOrbit c ∈ orbitOf c := by
  have mb : c ∈ orbitOf c := by
    rcases orbitOf_cases c with alone | ⟨-, mb⟩
    · simp [alone]
    · exact mb
  obtain ⟨a, r, orbit_eq⟩ := exists_cons_of_ne_nil (ne_nil_of_mem mb)
  simp [leastInOrbit, orbit_eq]

theorem leastInOrbit_eq_iff {literal : Nat} (large : greatestFolded < c) :
    leastInOrbit literal = c ↔ literal = c := by
  rcases orbitOf_cases literal with alone | ⟨mem, mb⟩
  · simp [leastInOrbit, alone]
  · have le := (bounds_of_mem_orbit mem (leastInOrbit_mem literal)).2
    have le' := (bounds_of_mem_orbit mem mb).2
    omega

theorem largeOrbits_checked : largeOrbits.all (fun orb => orb.all fun c =>
    decide (nextInOrbit (nextInOrbit c) ≠ c)) = true := by decide +kernel

theorem orbit_of_isCasePair {a b : Nat} (apart : a ≠ b) (pair : Parser.isCasePair a b = true) :
    ∃ orb ∈ orbits, ∀ c, c ∈ orb ↔ c = a ∨ c = b := by
  obtain ⟨next, back⟩ : nextInOrbit a = b ∧ nextInOrbit b = a := by
    simpa [Parser.isCasePair] using pair
  have second_mem := next ▸ nextInOrbit_mem a
  rcases orbitOf_cases a with alone | ⟨mem, first_mem⟩
  · rw [alone, mem_singleton] at second_mem
    exact absurd second_mem.symm apart
  · refine ⟨_, mem, ?_⟩
    rcases mem_append.mp mem with large | two
    · have checked := all_eq_true.mp (all_eq_true.mp largeOrbits_checked _ large) a first_mem
      simp [next, back] at checked
    · obtain ⟨sp, -, orbit_eq⟩ := mem_map.mp two
      rw [← orbit_eq] at first_mem second_mem ⊢
      simp only [mem_cons, not_mem_nil, or_false] at first_mem second_mem ⊢
      intro c
      omega

end CaseFolding

namespace CodeSet

variable {set : CodeSet} {c : Nat}

theorem proper_single {c : Nat} (le : c ≤ maxCode) : (⟨c, c⟩ : Span).Proper := ⟨Nat.le_refl _, le⟩

variable {cs : List Nat}

theorem contains_ofCodes : (ofCodes cs).contains c = true ↔ c ∈ cs := by
  induction cs with
  | nil => simp [ofCodes, ofSpans, contains]
  | cons a r ih =>
    change (insert ⟨a, a⟩ (ofCodes r)).contains c = true ↔ _
    have alone : a ≤ c ∧ c ≤ a ↔ c = a := by omega
    rw [contains_insert, Bool.or_eq_true, ih, Span.contains_iff, mem_cons]
    rw [alone]

theorem inOrder_ofCodes (le : ∀ c ∈ cs, c ≤ maxCode) : InOrder 0 (ofCodes cs) := by
  refine inOrder_ofSpans fun sp mem => ?_
  obtain ⟨c, mb, rfl⟩ := mem_map.mp mem
  exact proper_single (le c mb)

theorem inOrder_foldCase (ord : InOrder 0 set) : InOrder 0 set.foldCase := by
  have joined (orbits : List (List Nat)) (all : ∀ orb ∈ orbits, orb ∈ CaseFolding.orbits)
      (folded : CodeSet) (ord : InOrder 0 folded) :
      InOrder 0 (orbits.foldl (fun folded orb =>
        if orb.any set.contains then union (ofCodes orb) folded else folded) folded) := by
    induction orbits generalizing folded with
    | nil => exact ord
    | cons orb r ih =>
      have small (c : Nat) (mb : c ∈ orb) : c ≤ maxCode := by
        have := (bounds_of_mem_orbit (all orb (.head _)) mb).2
        unfold greatestFolded at this
        unfold maxCode
        omega
      refine ih (fun orb mem => all orb (.tail _ mem)) _ ?_
      dsimp only
      split
      · exact inOrder_union (inOrder_ofCodes small) ord
      · exact ord
  unfold foldCase
  split
  · exact joined CaseFolding.orbits (fun _ mem => mem) set ord
  · exact ord

theorem contains_foldCase : set.foldCase.contains c = true ↔ set.contains c = true ∨
    ∃ orb ∈ CaseFolding.orbits, c ∈ orb ∧ ∃ j ∈ orb, set.contains j = true := by
  unfold foldCase
  split
  · have joined (orbits : List (List Nat)) (folded : CodeSet) :
        (orbits.foldl (fun folded orb =>
          if orb.any set.contains then union (ofCodes orb) folded else folded) folded).contains
            c = true ↔ folded.contains c = true ∨
              ∃ orb ∈ orbits, c ∈ orb ∧ ∃ j ∈ orb, set.contains j = true := by
      induction orbits generalizing folded with
      | nil => simp
      | cons orb r ih =>
        rw [foldl_cons, ih]
        split
        · next got =>
          rw [contains_union, Bool.or_eq_true, contains_ofCodes]
          simp only [any_eq_true] at got
          simp only [mem_cons, exists_eq_or_imp, got, and_true]
          rw [or_assoc, or_left_comm]
        · next absent =>
          simp only [any_eq_true] at absent
          simp [absent]
    exact joined CaseFolding.orbits set
  · next unfoldable =>
    refine ⟨.inl, ?_⟩
    rintro (held | ⟨orb, mem, -, j, mb, held⟩)
    · exact held
    · obtain ⟨sp, inSet, above, below⟩ := contains_iff.mp held
      have range := bounds_of_mem_orbit mem mb
      refine absurd (any_eq_true.mpr ⟨sp, inSet, ?_⟩) unfoldable
      simp only [mayFold, Bool.and_eq_true, decide_eq_true_eq]
      omega

theorem contains_foldCase_of_greatest_lt (large : greatestFolded < c) :
    set.foldCase.contains c = set.contains c := by
  rw [Bool.eq_iff_iff, contains_foldCase]
  refine ⟨?_, .inl⟩
  rintro (held | ⟨orb, mem, mb, -⟩)
  · exact held
  · have := (bounds_of_mem_orbit mem mb).2
    omega

theorem contains_foldCase_pair {a b : Nat} (apart : a ≠ b) (pair : Parser.isCasePair a b = true) :
    (foldCase [⟨a, a⟩]).contains c = true ↔ c = a ∨ c = b := by
  obtain ⟨orb, mem, mems⟩ := orbit_of_isCasePair apart pair
  have single (j : Nat) : contains [⟨a, a⟩] j = true ↔ j = a := by
    rw [contains_iff]
    simp only [mem_singleton, exists_eq_left]
    omega
  rw [contains_foldCase, single]
  constructor
  · rintro (eq | ⟨orb', mem', mb, j, mb', eq⟩)
    · exact .inl eq
    · obtain rfl := (single j).mp eq
      rw [eq_of_mem_orbits mem' mem mb' ((mems j).mpr (.inl rfl))] at mb
      exact (mems c).mp mb
  · intro either
    exact .inr ⟨orb, mem, (mems c).mpr either, a, (mems a).mpr (.inl rfl), (single a).mpr rfl⟩

end CodeSet

end Rematch.Unicode
