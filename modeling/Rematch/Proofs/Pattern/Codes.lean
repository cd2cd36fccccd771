import Rematch.Proofs.Pattern.Stacks

/-!
Reserved code points in expressions. Whatever reading does to expressions, they hold the reserved
code points that were read and no others: case folding does not reach the reserved block.
-/

namespace Rematch

open List Codec
open Unicode (CodeSet maxCode)

namespace Codec

variable {c : Nat} (res : isReserved c = true)

include res

theorem greatestFolded_lt : Unicode.CaseFolding.greatestFolded < c := by
  have := (isReserved_iff.mp res).1
  unfold Unicode.CaseFolding.greatestFolded
  omega

theorem contains_full : CodeSet.full.contains c = true := by
  have bounds := isReserved_iff.mp res
  exact CodeSet.contains_iff.mpr ⟨_, .head _, Nat.zero_le _, Nat.le_trans bounds.2 (by decide)⟩

theorem contains_butNewline : CodeSet.butNewline.contains c = true := by
  have bounds := isReserved_iff.mp res
  exact CodeSet.contains_iff.mpr ⟨_, .tail _ (.head _), Nat.le_trans (by decide) bounds.1,
    Nat.le_trans bounds.2 (by decide)⟩

end Codec

namespace Expr

mutual

@[simp]
def HoldsCode (code : Nat) : Expr → Prop
  | .literal codes _ => code ∈ codes
  | .set codes => codes.contains code = true
  | .any | .anyButNewline => True
  | .capture _ _ body => body.HoldsCode code
  | .repetition _ _ body => body.HoldsCode code
  | .concat parts => AnyHoldsCode code parts
  | .alternate choices => AnyHoldsCode code choices
  | _ => False

/-- Whether one of the expressions holds a reserved code point. -/
@[simp]
def AnyHoldsCode (code : Nat) : List Expr → Prop
  | [] => False
  | first :: rest => first.HoldsCode code ∨ AnyHoldsCode code rest

end

variable {e o : Expr} {c : Nat}

theorem anyHoldsCode_iff {l : List Expr} : AnyHoldsCode c l ↔ ∃ e ∈ l, e.HoldsCode c := by
  induction l with
  | nil => simp
  | cons a r ih => simp [ih]

theorem holdsCode_of_sameUnit (eq : sameUnit e o = true) : o.HoldsCode c ↔ e.HoldsCode c := by
  unfold sameUnit at eq
  split at eq
  · rw [HoldsCode, HoldsCode, of_decide_eq_true eq]
  · rw [HoldsCode, HoldsCode, of_decide_eq_true eq]
  · rfl
  · rfl
  · simp at eq

section Reserved

variable (res : Codec.isReserved c = true)

include res

theorem contains_literalSet (literal : Nat) (m : Mode) :
    (literalSet literal m).contains c = true ↔ c = literal := by
  have single : CodeSet.contains [⟨literal, literal⟩] c = true ↔ c = literal := by
    rw [CodeSet.contains_iff]
    simp only [mem_singleton, exists_eq_left]
    omega
  unfold literalSet
  split
  · rw [CodeSet.contains_foldCase_of_greatest_lt (greatestFolded_lt res), single]
  · exact single

theorem contains_unitSet (isUnit : e.isUnit = true) :
    e.unitSet.contains c = true ↔ e.HoldsCode c := by
  unfold Expr.isUnit at isUnit
  split at isUnit
  · rw [unitSet, HoldsCode, contains_literalSet res, mem_singleton]
  · rw [unitSet, HoldsCode]
  · simp [unitSet, contains_full res]
  · simp [unitSet, contains_butNewline res]
  · simp at isUnit

theorem holdsCode_join (isUnit : e.isUnit = true) (isUnit' : o.isUnit = true) :
    (e.join o).HoldsCode c ↔ e.HoldsCode c ∨ o.HoldsCode c := by
  have union : (e.unitSet.union o.unitSet).contains c = true ↔ e.HoldsCode c ∨ o.HoldsCode c := by
    rw [CodeSet.contains_union, Bool.or_eq_true, contains_unitSet res isUnit,
      contains_unitSet res isUnit']
  unfold join
  split
  · simp
  · split <;> simp
  · split
    · next eq => simp [eq.1]
    · rw [HoldsCode]
      exact union
  · rw [HoldsCode]
    exact union

theorem holdsCode_nameSet (e : Expr) : e.nameSet.HoldsCode c ↔ e.HoldsCode c := by
  unfold nameSet
  split
  · split
    · next eq => simp [eq, contains_full res]
    split
    · next eq => simp [eq, contains_butNewline res]
    · rfl
  · rfl

theorem holdsCode_toLiteral (m : Mode) (e : Expr) :
    (Parser.toLiteral m e).HoldsCode c ↔ e.HoldsCode c := by
  unfold Parser.toLiteral
  split
  · next sp =>
    split
    · next single =>
      simp only [HoldsCode, CodeSet.contains_iff, mem_singleton, exists_eq_left]
      omega
    split
    · next pair =>
      simp only [HoldsCode, CodeSet.contains_iff, mem_singleton, exists_eq_left]
      have alone (held : c = sp.lo ∨ c = sp.hi) : False := by
        have apart := Parser.not_isCasePair (show sp.lo ≠ sp.hi by omega)
          (by rcases held with rfl | rfl <;> simp [res])
        rw [apart] at pair
        exact absurd pair.2 Bool.false_ne_true
      exact ⟨fun held => (alone (.inl held)).elim, fun held => (alone (by omega)).elim⟩
    · rfl
  · next a b =>
    split
    · next pair =>
      simp only [HoldsCode, CodeSet.contains_iff, mem_cons, not_mem_nil, or_false,
        exists_eq_or_imp, exists_eq_left]
      by_cases eq : a.lo = b.lo
      · omega
      have alone (held : c = a.lo ∨ c = b.lo) : False := by
        have apart := Parser.not_isCasePair eq (by rcases held with rfl | rfl <;> simp [res])
        rw [apart] at pair
        exact absurd pair.2.2 Bool.false_ne_true
      exact ⟨fun held => (alone (.inl held)).elim, fun held => (alone (by omega)).elim⟩
    · rfl
  · rfl

theorem holdsCode_literalIn (m : Mode) (literal : Nat) :
    (Parser.literalIn m literal).HoldsCode c ↔ c = literal := by
  rw [Parser.literalIn, HoldsCode, mem_singleton]
  split
  · rw [eq_comm, Unicode.CaseFolding.leastInOrbit_eq_iff (greatestFolded_lt res), eq_comm]
  · rfl

theorem traces_holdsCode :
    Parser.Traces (· = c) (fun _ => False) (HoldsCode c) where
  empty := by simp
  literal cs m := by simp
  concat parts := by rw [HoldsCode, anyHoldsCode_iff]
  alternate choices := by rw [HoldsCode, anyHoldsCode_iff]
  join _ _ := holdsCode_join res
  name := holdsCode_nameSet res
  write := holdsCode_toLiteral res
  alike a b eq := by
    unfold sameLeadingPart at eq
    split at eq
    · rw [Bool.and_eq_true] at eq
      rw [HoldsCode, HoldsCode]
      exact holdsCode_of_sameUnit eq.2
    · exact holdsCode_of_sameUnit eq
  capture gr nm body := by simp
  repetition k lazy body := by rw [HoldsCode]

end Reserved

mutual

/-- An expression that holds a reserved code point, but not the whole block, shows it. -/
theorem mem_reservedCodes {missing : Nat} (res : isReserved c = true)
    (res' : isReserved missing = true) :
    ∀ e : Expr, e.HoldsCode c → ¬e.HoldsCode missing → c ∈ e.reservedCodes
  | .literal cs _, held, _ => by
    rw [reservedCodes, mem_filter]
    exact ⟨held, res⟩
  | .set codes, held, part => by
    rw [HoldsCode, CodeSet.contains_iff] at held part
    obtain ⟨sp, mem, lt⟩ := held
    have bounds := isReserved_iff.mp res
    have bounds' := isReserved_iff.mp res'
    rw [reservedCodes, mem_flatMap]
    refine ⟨sp, mem, ?_⟩
    rw [if_neg fun whole => part ⟨sp, mem, Nat.le_trans whole.1 bounds'.1,
      Nat.le_trans bounds'.2 whole.2⟩]
    simp only [mem_range'_1, reservedLo, reservedHi]
    omega
  | .any, _, part | .anyButNewline, _, part => (part trivial).elim
  | .capture _ _ body, held, part => by
    rw [reservedCodes]
    exact mem_reservedCodes res res' body held part
  | .repetition _ _ body, held, part => by
    rw [reservedCodes]
    exact mem_reservedCodes res res' body held part
  | .concat parts, held, part => by
    rw [reservedCodes]
    exact mem_reservedCodesOf res res' parts held part
  | .alternate choices, held, part => by
    rw [reservedCodes]
    exact mem_reservedCodesOf res res' choices held part
  | .empty, held, _ | .assertion _, held, _ => held.elim

theorem mem_reservedCodesOf {missing : Nat} (res : isReserved c = true)
    (res' : isReserved missing = true) :
    ∀ l : List Expr, AnyHoldsCode c l → ¬AnyHoldsCode missing l → c ∈ reservedCodesOf l
  | [], held, _ => held.elim
  | a :: r, held, part => by
    rw [AnyHoldsCode, not_or] at part
    rw [reservedCodesOf, mem_append]
    exact held.imp (mem_reservedCodes res res' a · part.1) (mem_reservedCodesOf res res' r · part.2)

end

end Expr

end Rematch
