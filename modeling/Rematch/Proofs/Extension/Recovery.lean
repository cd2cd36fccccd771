import Rematch.Proofs.Extension.Encodings
import Rematch.Proofs.Text.ByteRanges

/-!
Recovery on what lowering writes. The chain of a piece of code points is executed as extensions
exactly if the piece lies in the reserved block and each of its code points is one; the extensions
are those of the piece, ascending.
-/

namespace Rematch

open List Utf8
open Lowering (Sealed Chain ByteTest)

namespace Recovery

variable {A : Automaton}
variable {out : Int} {b bs c n a h z i : Nat}

theorem continues_continuation (bs : Nat) : continues (continuation bs) = true := by
  have checked : ∀ d < 64, continues (UInt8.ofNat (0x80 + d)) = true := by decide
  exact checked (bs % 64) (Nat.mod_lt _ (by decide))

/-- The test for a byte between two continuation bytes. -/
def digitTest (first last : Nat) : ByteTest :=
  .within ⟨Utf8.continuation first, Utf8.continuation last⟩

theorem bytesOf_digitTest (a z : Nat) (out : Int) :
    bytesOf ((digitTest a z).inst out) = List.range' (0x80 + a % 64) (z % 64 + 1 - a % 64) := by
  have count : 0x80 + z % 64 + 1 - (0x80 + a % 64) = z % 64 + 1 - a % 64 := by omega
  simp [bytesOf, digitTest, ByteTest.inst, ByteTest.within, toNat_continuation, count]

theorem map_range'_congr {i' : Nat} {fn : Nat → Nat} (eq : ∀ j < n, fn (i + j) = i' + j) :
    (List.range' i n).map fn = List.range' i' n := by
  rw [range'_eq_map_range, range'_eq_map_range, map_map]
  exact map_congr_left fun j mem => eq j (mem_range.mp mem)

variable {pc : Nat} {es : List Extension}

theorem spells_digitTest (here : A.insts[pc]? = some ((digitTest a z).inst out)) :
    Spells A (FourthBytes bs) pc c es ↔ c = 1 ∧
      (List.range' (0xF0000 + (bs * 64 + a % 64)) (z % 64 + 1 - a % 64)).mapM
        (Codec.extension? out) = some es := by
  have codes : (List.range' (0x80 + a % 64) (z % 64 + 1 - a % 64)).map
        (fun b => 0xF0000 + (bs * 64 + b % 64)) =
      List.range' (0xF0000 + (bs * 64 + a % 64)) (z % 64 + 1 - a % 64) :=
    map_range'_congr fun i le => by omega
  rw [spells_other ((inst?_natCast A pc).trans here) (by simp [digitTest, ByteTest.inst])]
  simp only [FourthBytes, bytesOf_digitTest, codes]
  simp [Continues, digitTest, ByteTest.inst, ByteTest.within, continues_continuation]

/-- The codes with a third byte in a list and a fourth byte in a range. -/
def codesOf (bytes : List Nat) (first last : Nat) : List Nat :=
  bytes.flatMap fun byte =>
    List.range' (0xF0000 + (byte % 64 * 64 + first % 64)) (last % 64 + 1 - first % 64)

theorem codesOf_cons (b : Nat) (r : List Nat) (a z : Nat) : codesOf (b :: r) a z =
      List.range' (0xF0000 + (b % 64 * 64 + a % 64)) (z % 64 + 1 - a % 64) ++ codesOf r a z :=
  rfl

theorem thirdBytes_digitTest
    (here : A.insts[pc]? = some ((digitTest a z).inst out)) (bs : List Nat) :
    ThirdBytes A pc bs c es ↔
      c = bs.length ∧ (codesOf bs a z).mapM (Codec.extension? out) = some es := by
  induction bs generalizing c es with
  | nil =>
    constructor
    · rintro ⟨⟩
      exact ⟨rfl, rfl⟩
    · rintro ⟨rfl, got⟩
      cases got
      exact .nil
  | cons byte r ih =>
    simp only [thirdBytes_cons, spells_digitTest here, ih, codesOf_cons, mapM_append,
      length_cons, Option.bind_eq_bind, Option.bind_eq_some_iff]
    constructor
    · rintro ⟨_, f, _, b, ⟨rfl, got⟩, ⟨rfl, got'⟩, rfl, rfl⟩
      exact ⟨Nat.add_comm _ _, f, got, b, got', rfl⟩
    · rintro ⟨rfl, f, got, b, got', eq⟩
      exact ⟨1, f, _, b, ⟨rfl, got⟩, ⟨rfl, got'⟩, Nat.add_comm _ _, (Option.some.inj eq).symm⟩

theorem codesOf_full {d : Nat} (small : d + n ≤ 64) (beg : a % 64 = 0) (ends : z % 64 = 63) :
    codesOf (List.range' (0x80 + d) n) a z = List.range' (0xF0000 + d * 64) (n * 64) := by
  induction n generalizing d with
  | zero => rfl
  | succ m ih =>
    have rest := ih (show d + 1 + m ≤ 64 by omega)
    have front : 0xF0000 + ((0x80 + d) % 64 * 64 + a % 64) = 0xF0000 + d * 64 := by omega
    have width : z % 64 + 1 - a % 64 = 64 := by omega
    have next : 0xF0000 + (d + 1) * 64 = 0xF0000 + d * 64 + 1 * 64 := by omega
    have total : (m + 1) * 64 = 64 + m * 64 := by omega
    rw [range'_succ, codesOf_cons, front, width, total, ← range'_append, ← next, ← rest,
      Nat.add_assoc]

theorem codesOf_box (ord : a ≤ z) (lt : 0xF0000 ≤ a ∧ z ≤ 0xF0FFF) (box : ByteRange.Box 3 a z) :
    codesOf (List.range' (0x80 + a / 64 % 64) (z / 64 % 64 + 1 - a / 64 % 64)) a z =
      List.range' a (z + 1 - a) := by
  rcases box with eq | ⟨beg, ends, -⟩
  · have single : z / 64 % 64 + 1 - a / 64 % 64 = 1 := by omega
    have front : 0xF0000 + ((0x80 + a / 64 % 64) % 64 * 64 + a % 64) = a := by omega
    have width : z % 64 + 1 - a % 64 = z + 1 - a := by omega
    rw [single, range'_one, codesOf, flatMap_singleton, front, width]
  · have front : 0xF0000 + a / 64 % 64 * 64 = a := by omega
    have width : (z / 64 % 64 + 1 - a / 64 % 64) * 64 = z + 1 - a := by omega
    rw [codesOf_full (by omega) beg ends, front, width]

theorem encode_reserved (res : 0xF0000 ≤ c ∧ c ≤ 0xF0FFF) :
    encode c = [0xF3, 0xB0, continuation (c / 64), continuation c] := by
  have lead : 0xF0 + c / 262144 = 0xF3 := by omega
  have snd : c / 4096 = 0xF0 := by omega
  rw [encode_of_isScalar (isScalar_iff.mpr (by omega)), encodeScalar,
    if_neg (by omega), if_neg (by omega), if_neg (by omega), lead, snd]
  rfl

/-- The chain of a piece of the reserved block is executed as the extensions of its codes, if each
of them is one. -/
theorem extensionsAt_reserved (whole : Sealed A.insts) (ord : a ≤ z)
    (lt : 0xF0000 ≤ a ∧ z ≤ 0xF0FFF) (box : ByteRange.Box 3 a z)
    (ch : Chain A.insts b out h ((ByteRange.spelled (a, z)).map ByteTest.within)) :
    ∃ x, A.insts[h]? = some x ∧ extensionsAt A x =
      orPlain ((List.range' a (z + 1 - a)).mapM (Codec.extension? out)) := by
  have spelled_eq : (ByteRange.spelled (a, z)).map ByteTest.within =
      [.within ⟨0xF3, 0xF3⟩, .within ⟨0xB0, 0xB0⟩, digitTest (a / 64) (z / 64), digitTest a z] := by
    rw [ByteRange.spelled, encode_reserved (by omega), encode_reserved (by omega)]
    rfl
  rw [spelled_eq] at ch
  cases ch with | @more _ n _ _ here _ ch =>
  cases ch with | @more _ c _ _ there _ ch =>
  cases ch with | @more _ d _ _ digit _ ch =>
  cases ch with
  | more _ _ ch => cases ch
  | last digit' =>
    refine ⟨_, here, ?_⟩
    have snd : A.inst? ((ByteTest.within ⟨0xF3, 0xF3⟩).inst n).out =
        some ((ByteTest.within ⟨0xB0, 0xB0⟩).inst c) := (inst?_natCast A n).trans there
    have spells {co : Nat} {es : List Extension} : Spells A
        (fun x => ThirdBytes A x.out (bytesOf x)) c co es ↔
          co = z / 64 % 64 + 1 - a / 64 % 64 + 1 ∧
            (List.range' a (z + 1 - a)).mapM (Codec.extension? out) = some es := by
      rw [spells_other ((inst?_natCast A c).trans digit) (by simp [digitTest, ByteTest.inst]),
        bytesOf_digitTest]
      change (∃ r, _ ∧ _ ∧ ThirdBytes A d _ r es) ↔ _
      simp [Continues, thirdBytes_digitTest digit', codesOf_box ord lt box, digitTest,
        ByteTest.inst, ByteTest.within, continues_continuation]
    rcases extensionsAt_cases whole here with ⟨plain, no⟩ | ⟨es, got, enc⟩
    · cases codes : (List.range' a (z + 1 - a)).mapM (Codec.extension? out) with
      | none => exact plain
      | some es =>
        refine absurd ⟨rfl, _, snd, rfl, ?_, _, ?_, spells.mpr ⟨rfl, codes⟩⟩ (no es)
        · rintro rfl
          obtain ⟨_, mem, -⟩ := exists_of_mapM codes a (mem_range'_1.mpr (by omega))
          simp at mem
        · rw [maxSteps]
          omega
    · obtain ⟨-, _, snd', -, -, co, -, spelled⟩ := enc
      cases snd.symm.trans snd'
      rw [got, (spells.mp spelled).2]
      rfl

theorem extensionsAt_of_not_lead {x : Inst} (other : isByte x 0xF3 = false) :
    extensionsAt A x = .error .plain := by
  simp [extensionsAt, other]

theorem continuation_ne_lead (bs : Nat) : continuation bs ≠ 0xF3 := by
  intro eq
  have digits := congrArg UInt8.toNat eq
  simp only [toNat_continuation, UInt8.reduceToNat] at digits
  omega

theorem encode_of_lead (scalar : isScalar c = true) (lead : (encode c).head? = some 0xF3) :
    encode c = [0xF3, continuation (c / 4096), continuation (c / 64),
      continuation c] ∧ 0xC0000 ≤ c ∧ c ≤ 0xFFFFF := by
  have bounds := isScalar_iff.mp scalar
  have lead_eq {n : Nat} (fits : n < 256) (eq : UInt8.ofNat n = 0xF3) : n = 0xF3 := by
    have toNat : (UInt8.ofNat n).toNat = n := UInt8.toNat_ofNat_of_lt fits
    rw [← toNat, eq]
    rfl
  rw [encode_of_isScalar scalar, encodeScalar] at lead ⊢
  split at lead
  · have := lead_eq (by omega) (Option.some.inj lead)
    omega
  split at lead
  · have := lead_eq (by omega) (Option.some.inj lead)
    omega
  split at lead
  · have := lead_eq (by omega) (Option.some.inj lead)
    omega
  · have third := lead_eq (by omega) (Option.some.inj lead)
    rw [if_neg (by omega), if_neg (by omega), if_neg (by omega), third]
    exact ⟨rfl, by omega, by omega⟩

/-- The chain of a piece that does not lie in the reserved block keeps its plain meaning. -/
theorem extensionsAt_unreserved (scalar : isScalar a = true) (scalar' : isScalar z = true)
    (outside : ¬(0xF0000 ≤ a ∧ z ≤ 0xF0FFF))
    (ch : Chain A.insts b out h ((ByteRange.spelled (a, z)).map ByteTest.within)) :
    ∃ x, A.insts[h]? = some x ∧ extensionsAt A x = .error .plain := by
  obtain ⟨c, bs, first_eq⟩ := exists_cons_of_length_pos (length_encode_pos a)
  obtain ⟨b', bs', last_eq⟩ := exists_cons_of_length_pos (length_encode_pos z)
  by_cases lead : c = 0xF3 ∧ b' = 0xF3
  · obtain ⟨rfl, rfl⟩ := lead
    obtain ⟨form, above, below⟩ := encode_of_lead scalar (by rw [first_eq]; rfl)
    obtain ⟨form', above', below'⟩ := encode_of_lead scalar' (by rw [last_eq]; rfl)
    rw [ByteRange.spelled, form, form'] at ch
    cases ch with | @more _ n _ _ here _ ch =>
    obtain ⟨t, r, d, tests_eq, there⟩ := ch.first
    cases tests_eq
    refine ⟨_, here, ?_⟩
    have lead : isByte ((ByteTest.within ⟨0xF3, 0xF3⟩).inst n) 0xF3 = true := rfl
    have snd : A.inst? ((ByteTest.within ⟨0xF3, 0xF3⟩).inst n).out = _ :=
      (inst?_natCast A n).trans there
    rw [extensionsAt, if_pos lead, snd]
    refine if_neg fun follows => outside ?_
    obtain ⟨-, lower, upper, -⟩ := isByte_iff.mp follows
    have digits := congrArg UInt8.toNat lower
    have digits' := congrArg UInt8.toNat upper
    simp only [ByteTest.inst, ByteTest.within, toNat_continuation, UInt8.reduceToNat]
      at digits digits'
    omega
  · obtain ⟨t, r, nx, tests_eq, here⟩ := ch.first
    rw [ByteRange.spelled, first_eq, last_eq] at tests_eq
    cases tests_eq
    refine ⟨_, here, extensionsAt_of_not_lead (Bool.eq_false_iff.mpr fun isLead => lead ?_)⟩
    obtain ⟨-, lower, upper, -⟩ := isByte_iff.mp isLead
    exact ⟨lower, upper⟩

theorem spelled_tail (scalar : isScalar a = true) :
    ∀ range ∈ (ByteRange.spelled (a, z)).tail, range.lo ≠ 0xF3 := by
  have tails : ∀ b ∈ (encode a).tail, b ≠ 0xF3 := by
    rw [encode_of_isScalar scalar, encodeScalar]
    intro b mem
    split at mem
    · simp at mem
    all_goals
      repeat' split at mem
      all_goals
        simp only [tail_cons, mem_cons, not_mem_nil, or_false] at mem
        rcases mem with rfl | rfl | rfl <;> exact continuation_ne_lead _
  intro range mem
  rw [ByteRange.spelled, tail_zipWith] at mem
  obtain ⟨i, got⟩ := mem_iff_getElem?.mp mem
  obtain ⟨lower, u, there, -, rfl⟩ := getElem?_zipWith_eq_some.mp got
  exact tails lower (mem_of_getElem? there)

end Recovery

end Rematch
