import Mathlib.Data.List.Infix
import Rematch.Automaton.Condition
import Rematch.Extension.Evaluation
import Rematch.Proofs.Text.Utf8

/-!
Where the code points of a text begin. Reading code points leads from one boundary to another, and
so does repeating what stands between two of them. Inside a code point, no code point can be read,
and neither side of the offset is an ASCII character.
-/

namespace Rematch

open List Utf8

namespace Utf8

variable {b : UInt8}

theorem not_isContinuation_of_head {c : Nat} (scalar : isScalar c = true)
    (beg : (encode c).head? = some b) : isContinuation b = false := by
  have bounds := isScalar_iff.mp scalar
  have lead {n : Nat} (fits : n < 0x80 ∨ 0xC0 ≤ n ∧ n < 256)
      (eq : some (UInt8.ofNat n) = some b) : isContinuation b = false := by
    have toNat : (UInt8.ofNat n).toNat = n := UInt8.toNat_ofNat_of_lt (by change _ < 256; omega)
    rw [Bool.eq_false_iff, ne_eq, isContinuation_iff, ← Option.some.inj eq, toNat]
    omega
  rw [encode_of_isScalar scalar, encodeScalar] at beg
  split at beg
  · exact lead (by omega) beg
  split at beg
  · exact lead (by omega) beg
  split at beg
  · exact lead (by omega) beg
  · exact lead (by omega) beg

theorem isContinuation_of_mem_tail {c : Nat} (scalar : isScalar c = true)
    (mem : b ∈ (encode c).tail) : isContinuation b = true := by
  have follower (bs : Nat) : isContinuation (continuation bs) = true := by
    rw [isContinuation_iff, toNat_continuation]
    omega
  rw [encode_of_isScalar scalar, encodeScalar] at mem
  split at mem
  · simp at mem
  all_goals
    repeat' split at mem
    all_goals
      simp only [tail_cons, mem_cons, not_mem_nil, or_false] at mem
      rcases mem with rfl | rfl | rfl <;> exact follower _

theorem prefix_of_flatMap_encode {cs others : List Nat} (scalars : ∀ c ∈ cs, isScalar c = true)
    (scalars' : ∀ c ∈ others, isScalar c = true)
    (front : cs.flatMap encode <+: others.flatMap encode) : cs <+: others := by
  induction cs generalizing others with
  | nil => exact nil_prefix
  | cons c r ih =>
    obtain ⟨v, parts⟩ := front
    cases others with
    | nil =>
      have pos := length_encode_pos c
      have empty := congrArg List.length parts
      simp only [flatMap_cons, length_append, flatMap_nil, length_nil] at empty
      omega
    | cons j others =>
      rw [flatMap_cons, flatMap_cons, append_assoc] at parts
      obtain ⟨rfl, eq⟩ := encode_append_inj (scalars c (.head _)) (scalars' j (.head _)) parts
      exact (prefix_cons_inj c).mpr (ih (fun c mem => scalars c (.tail _ mem))
        (fun c mem => scalars' c (.tail _ mem)) ⟨v, eq⟩)

theorem between_or_inside (cs : List Nat) {k : Nat} (le : k ≤ (cs.flatMap encode).length) :
    (∃ f, f <+: cs ∧ (f.flatMap encode).length = k) ∨
      ∃ f c b, cs = f ++ c :: b ∧ (f.flatMap encode).length < k ∧
        k < (f.flatMap encode).length + (encode c).length := by
  induction cs generalizing k with
  | nil => exact .inl ⟨[], prefix_rfl, (Nat.le_zero.mp le).symm⟩
  | cons c r ih =>
    rcases Nat.eq_zero_or_pos k with rfl | pos
    · exact .inl ⟨[], nil_prefix, rfl⟩
    rcases Nat.lt_or_ge k (encode c).length with lt | beyond
    · exact .inr ⟨[], c, r, rfl, pos, by simpa using lt⟩
    rw [flatMap_cons, length_append] at le
    rcases @ih (k - (encode c).length) (by omega) with
      ⟨f, isPrefix, length⟩ | ⟨f, n, b, parts, above, below⟩
    · refine .inl ⟨c :: f, (prefix_cons_inj c).mpr isPrefix, ?_⟩
      rw [flatMap_cons, length_append]
      omega
    · refine .inr ⟨c :: f, n, b, by rw [parts]; rfl, ?_⟩
      rw [flatMap_cons, length_append]
      omega

end Utf8

namespace Text

/-- Where the code points of a text begin, and where the last one ends. -/
def boundaries (text : Text) : List Nat :=
  (Utf8.codes text.toList).inits.map fun front => (front.flatMap Utf8.encode).length

/-- An offset is where a code point of the text begins, or the end of the text. -/
def IsBoundary (text : Text) (offset : Nat) : Prop := offset ∈ text.boundaries

instance (text : Text) (offset : Nat) : Decidable (text.IsBoundary offset) :=
  inferInstanceAs (Decidable (_ ∈ _))

variable {t : Text} {k m : Nat}

theorem isBoundary_iff : t.IsBoundary k ↔
    ∃ f, f <+: codes t.toList ∧ (f.flatMap encode).length = k := by
  simp [IsBoundary, boundaries]

theorem isBoundary_zero (t : Text) : t.IsBoundary 0 := isBoundary_iff.mpr ⟨[], List.nil_prefix, rfl⟩

/-- Offsets that are not left by reading a code point, nor by repeating what stands between two of
them. -/
structure Closed (text : Text) (stops : Nat → Prop) : Prop where
  reads : ∀ {offset code : Nat} {rest : Bytes}, stops offset → Utf8.isScalar code = true →
    text.toList.drop offset = Utf8.encode code ++ rest →
    stops (offset + (Utf8.encode code).length)
  repeats : ∀ {first last offset : Nat}, stops first → stops last → first < last → stops offset →
    (text.toList.drop first).take (last - first) <+: text.toList.drop offset →
    stops (offset + (last - first))

section Valid

variable (ok : Utf8.valid t.toList = true)

include ok

theorem isBoundary_size : t.IsBoundary t.size := by
  refine isBoundary_iff.mpr ⟨_, prefix_rfl, ?_⟩
  rw [← (eq_flatMap_of_valid ok).1, Array.length_toList]

theorem IsBoundary.exists_back (boundary : t.IsBoundary k) :
    ∃ f b, codes t.toList = f ++ b ∧ (f.flatMap encode).length = k ∧ (∀ c ∈ b, isScalar c = true) ∧
      t.toList.drop k = b.flatMap encode := by
  obtain ⟨f, ⟨b, parts⟩, rfl⟩ := isBoundary_iff.mp boundary
  obtain ⟨whole, scalars⟩ := eq_flatMap_of_valid ok
  rw [← parts] at whole scalars
  refine ⟨f, b, parts.symm, rfl, fun c mem => scalars c (mem_append_right _ mem), ?_⟩
  rw [whole, flatMap_append, drop_left]

theorem IsBoundary.next {cs : List Nat} (boundary : t.IsBoundary k)
    (scalars : ∀ c ∈ cs, isScalar c = true) (front : cs.flatMap encode <+: t.toList.drop k) :
    t.IsBoundary (k + (cs.flatMap encode).length) := by
  obtain ⟨u, b, parts, rfl, scalars', drop_eq⟩ := boundary.exists_back ok
  rw [drop_eq] at front
  refine isBoundary_iff.mpr ⟨u ++ cs, ?_, by simp⟩
  rw [parts]
  exact (prefix_append_right_inj u).mpr (prefix_of_flatMap_encode scalars scalars' front)

theorem closed_isBoundary : t.Closed t.IsBoundary where
  reads {k c r} boundary scalar drop_eq := by
    have next := @IsBoundary.next _ _ ok [c] boundary (by simpa using scalar) (by simp [drop_eq])
    simpa using next
  repeats {a z k} boundary boundary' pre here repeated := by
    obtain ⟨f, b, parts, rfl, scalars, drop_eq⟩ := boundary.exists_back ok
    obtain ⟨f', isPrefix, rfl⟩ := isBoundary_iff.mp boundary'
    -- the code points before the first of the two offsets are some of those before the other
    obtain ⟨m, rfl⟩ : f <+: f' := by
      refine ( prefix_or_prefix_of_prefix (parts ▸ prefix_append f b)
        isPrefix).resolve_right ?_
      rintro ⟨mo, rfl⟩
      simp only [flatMap_append, length_append] at pre
      omega
    rw [parts, prefix_append_right_inj] at isPrefix
    obtain ⟨v, rfl⟩ := isPrefix
    have length_eq : ((f ++ m).flatMap encode).length -
        (f.flatMap encode).length = (m.flatMap encode).length := by simp
    rw [length_eq, drop_eq, flatMap_append, take_left] at repeated
    rw [length_eq]
    exact here.next ok (fun c mem => scalars c (mem_append_left _ mem)) repeated

theorem sides_of_not_isBoundary (lt : m ≤ t.size) (within : ¬t.IsBoundary m) :
    ∃ before after, 0 < m ∧ t[m - 1]? = some before ∧ t[m]? = some after ∧
      0x80 ≤ before.toNat ∧ isContinuation after = true := by
  obtain ⟨whole, scalars⟩ := eq_flatMap_of_valid ok
  have le : m ≤ ((codes t.toList).flatMap encode).length := by rwa [← whole, Array.length_toList]
  rcases between_or_inside _ le with boundary | ⟨f, c, b, parts, above, below⟩
  · exact absurd (isBoundary_iff.mpr boundary) within
  have scalar : isScalar c = true := scalars c (by simp [parts])
  rw [parts, flatMap_append, flatMap_cons] at whole
  have got {i : Nat} (after : (f.flatMap encode).length ≤ i)
      (early : i < (f.flatMap encode).length + (encode c).length) :
      t[i]? = (encode c)[i - (f.flatMap encode).length]? := by
    rw [← Array.getElem?_toList, whole, getElem?_append_right after,
      getElem?_append_left (by omega)]
  have before := got (show _ ≤ m - 1 by omega) (by omega)
  have after := got (show _ ≤ m by omega) below
  have later : (encode c)[m - (f.flatMap encode).length]? =
      (encode c).tail[m - (f.flatMap encode).length - 1]? := by
    rw [getElem?_tail]
    congr 1
    omega
  rw [later] at after
  rw [getElem?_eq_getElem (by omega)] at before
  rw [getElem?_eq_getElem (by rw [length_tail]; omega)] at after
  refine ⟨_, _, by omega, before, after, ?_,
    isContinuation_of_mem_tail scalar (getElem_mem _)⟩
  have long : c ≥ 0x80 := by
    by_contra ascii
    have toNat : (UInt8.ofNat c).toNat = c := UInt8.toNat_ofNat_of_lt (by change _ < 256; omega)
    have short := encode_ascii (show (UInt8.ofNat c).toNat < 0x80 by omega)
    rw [toNat] at short
    rw [short, length_singleton] at below
    omega
  have side := ascii_of_mem_encode scalar
    (getElem_mem (show m - 1 - (f.flatMap encode).length < _ by omega))
  omega

theorem not_reads_of_not_isBoundary (within : ¬t.IsBoundary m) {c : Nat} {r : Bytes}
    (scalar : isScalar c = true) : t.toList.drop m ≠ encode c ++ r := by
  intro drop_eq
  have pos := length_encode_pos c
  have lt : m ≤ t.size := by
    have length := congrArg List.length drop_eq
    rw [length_drop, Array.length_toList, length_append] at length
    omega
  obtain ⟨-, v, -, -, got, -, continues⟩ := sides_of_not_isBoundary ok lt within
  obtain ⟨b, bs, encode_eq⟩ := exists_cons_of_length_pos pos
  have head : t[m]? = some b := by
    rw [← Array.getElem?_toList, ← head?_drop, drop_eq, encode_eq]
    rfl
  cases got.symm.trans head
  rw [not_isContinuation_of_head scalar (by rw [encode_eq]; rfl)] at continues
  exact absurd continues Bool.false_ne_true

theorem closed_of_not_isBoundary (within : ¬t.IsBoundary m) : t.Closed (· = m) where
  reads := by
    rintro _ c r rfl scalar drop_eq
    exact absurd drop_eq (not_reads_of_not_isBoundary ok within scalar)
  repeats := by
    rintro _ _ _ rfl rfl pre
    exact absurd pre (Nat.lt_irrefl _)

end Valid

end Text

theorem Condition.holdingAt_of_not_isBoundary {t : Text} {m : Nat} (ok : valid t.toList = true)
    (lt : m ≤ t.size) (within : ¬t.IsBoundary m) : holdingAt t m = noWordBoundary := by
  obtain ⟨u, v, pos, got, got', high, continues⟩ := Text.sides_of_not_isBoundary ok lt within
  have high' : 0x80 ≤ v.toNat := (isContinuation_iff.mp continues).1
  have plain {b : UInt8} (high : 0x80 ≤ b.toNat) : (b == 0x0A) = false ∧ isWordByte b = false := by
    have apart {small : UInt8} (ascii : small.toNat < 0x80) : (b == small) = false := by
      rw [beq_eq_false_iff_ne]
      rintro rfl
      omega
    have above {small : UInt8} (ascii : small.toNat < 0x80) : decide (b ≤ small) = false := by
      rw [decide_eq_false_iff_not, UInt8.le_iff_toNat_le]
      omega
    refine ⟨apart (by decide), ?_⟩
    simp [isWordByte, above, apart]
  rw [holdingAt, if_neg (by omega), got, got', between]
  simp [opening, closing, isWordSide, plain high, plain high']

end Rematch
