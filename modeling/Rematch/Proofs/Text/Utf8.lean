import Rematch.Text.Utf8
import Mathlib.Tactic.SplitIfs

/-!
UTF-8 forms. Reading undoes writing whatever comes after, and what is read is what was written, so
that no form begins with another one and a well-formed byte string is the forms of its code points.
-/

namespace Rematch.Utf8

open List

theorem toNat_continuation (bs : Nat) : (continuation bs).toNat = 0x80 + bs % 64 :=
  UInt8.toNat_ofNat_of_lt (by change _ < 256; omega)

theorem encode_of_isScalar {c : Nat} (scalar : isScalar c = true) : encode c = encodeScalar c := by
  rw [encode, if_pos scalar]

theorem isScalar_iff {c : Nat} : isScalar c = true ↔ c < 0xD800 ∨ 0xE000 ≤ c ∧ c ≤ 0x10FFFF := by
  simp [isScalar]

variable {c b d : UInt8} {bs r f : Bytes} {cs : List Nat}

theorem isContinuation_iff : isContinuation b = true ↔ 0x80 ≤ b.toNat ∧ b.toNat ≤ 0xBF := by
  simp [isContinuation, UInt8.le_iff_toNat_le]

theorem followsLead_iff : followsLead b c = true ↔
      (if b.toNat = 0xE0 then 0xA0 else if b.toNat = 0xF0 then 0x90 else 0x80) ≤
          c.toNat ∧ c.toNat ≤ if b.toNat = 0xED then 0x9F else if b.toNat = 0xF4 then 0x8F
          else 0xBF := by
  simp only [followsLead, Bool.and_eq_true, decide_eq_true_eq, beq_iff_eq, UInt8.le_iff_toNat_le,
    ← UInt8.toNat_inj, apply_ite UInt8.toNat, UInt8.reduceToNat]

theorem within_iff {low high : UInt8} :
    (low ≤ b && b ≤ high) = true ↔ low.toNat ≤ b.toNat ∧ b.toNat ≤ high.toNat := by
  simp [UInt8.le_iff_toNat_le]

theorem decode?_single (ascii : b.toNat < 0x80) (r : Bytes) :
    decode? (b :: r) = some (b.toNat, 1) := by
  have small : b < 0x80 := UInt8.lt_iff_toNat_lt.mpr ascii
  unfold decode?
  exact if_pos small

theorem decode?_double (lead : 0xC2 ≤ b.toNat ∧ b.toNat ≤ 0xDF)
    (follows : isContinuation c = true) (r : Bytes) :
    decode? (b :: c :: r) = some ((b.toNat - 0xC0) * 64 + (c.toNat - 0x80), 2) := by
  have large : ¬b < 0x80 := by simp only [UInt8.lt_iff_toNat_lt, UInt8.reduceToNat]; omega
  have lt : (0xC2 ≤ b && b ≤ 0xDF) = true := within_iff.mpr lead
  have bounds := isContinuation_iff.mp follows
  simp only [decode?, if_neg large, if_pos lt, if_pos follows, payload,
    Option.some.injEq, Prod.mk.injEq, and_true]
  omega

theorem decode?_triple (lead : 0xE0 ≤ b.toNat ∧ b.toNat ≤ 0xEF)
    (follows : followsLead b c = true) (ends : isContinuation d = true) (r : Bytes) :
    decode? (b :: c :: d :: r) =
      some (((b.toNat - 0xE0) * 64 + (c.toNat - 0x80)) * 64 + (d.toNat - 0x80), 3) := by
  have large : ¬b < 0x80 := by simp only [UInt8.lt_iff_toNat_lt, UInt8.reduceToNat]; omega
  have larger : ¬(0xC2 ≤ b && b ≤ 0xDF) = true := by
    simp only [within_iff, UInt8.reduceToNat]
    omega
  have lt : (0xE0 ≤ b && b ≤ 0xEF) = true := within_iff.mpr lead
  have bounds := followsLead_iff.mp follows
  have bounds' := isContinuation_iff.mp ends
  simp only [decode?, if_neg large, if_neg larger, if_pos lt, follows, ends, Bool.and_self,
    if_true, payload, Option.some.injEq, Prod.mk.injEq, and_true]
  split_ifs at bounds <;> omega

theorem decode?_quadruple {third : UInt8}
    (lead : 0xF0 ≤ b.toNat ∧ b.toNat ≤ 0xF4) (follows : followsLead b c = true)
    (goesOn : isContinuation third = true) (ends : isContinuation d = true) (r : Bytes) :
    decode? (b :: c :: third :: d :: r) =
      some ((((b.toNat - 0xF0) * 64 + (c.toNat - 0x80)) * 64 + (third.toNat - 0x80)) * 64 +
        (d.toNat - 0x80), 4) := by
  have large : ¬b < 0x80 := by simp only [UInt8.lt_iff_toNat_lt, UInt8.reduceToNat]; omega
  have larger : ¬(0xC2 ≤ b && b ≤ 0xDF) = true := by
    simp only [within_iff, UInt8.reduceToNat]
    omega
  have largest : ¬(0xE0 ≤ b && b ≤ 0xEF) = true := by
    simp only [within_iff, UInt8.reduceToNat]
    omega
  have lt : (0xF0 ≤ b && b ≤ 0xF4) = true := within_iff.mpr lead
  have bounds := followsLead_iff.mp follows
  have bounds' := isContinuation_iff.mp goesOn
  have bounds'' := isContinuation_iff.mp ends
  simp only [decode?, if_neg large, if_neg larger, if_neg largest, if_pos lt, follows, goesOn,
    ends, Bool.and_self, if_true, payload, Option.some.injEq, Prod.mk.injEq, and_true]
  split_ifs at bounds <;> omega

theorem decode?_encode {c : Nat} (scalar : isScalar c = true) (r : Bytes) :
    decode? (encode c ++ r) = some (c, (encode c).length) := by
  rw [encode_of_isScalar scalar]
  rw [isScalar_iff] at scalar
  have byte : ∀ n, n < 256 → (UInt8.ofNat n).toNat = n :=
    fun _ small => UInt8.toNat_ofNat_of_lt small
  unfold encodeScalar
  split
  · next ascii =>
    have fst := byte c (by omega)
    exact (decode?_single (by omega) r).trans (by rw [fst]; rfl)
  split
  · next large medium =>
    have fst := byte (0xC0 + c / 64) (by omega)
    refine (decode?_double (by omega) ?_ r).trans ?_
    · rw [isContinuation_iff, toNat_continuation]
      omega
    · rw [fst, toNat_continuation]
      simp only [length_cons, length_nil, Option.some.injEq, Prod.mk.injEq, and_true]
      omega
  split
  · next large medium =>
    have fst := byte (0xE0 + c / 4096) (by omega)
    refine (decode?_triple (by omega) ?_ ?_ r).trans ?_
    · rw [followsLead_iff, fst, toNat_continuation]
      split_ifs <;> omega
    · rw [isContinuation_iff, toNat_continuation]
      omega
    · rw [fst, toNat_continuation, toNat_continuation]
      simp only [length_cons, length_nil, Option.some.injEq, Prod.mk.injEq, and_true]
      omega
  · next large =>
    have fst := byte (0xF0 + c / 262144) (by omega)
    refine (decode?_quadruple (by omega) ?_ ?_ ?_ r).trans ?_
    · rw [followsLead_iff, fst, toNat_continuation]
      split_ifs <;> omega
    · rw [isContinuation_iff, toNat_continuation]
      omega
    · rw [isContinuation_iff, toNat_continuation]
      omega
    · rw [fst, toNat_continuation, toNat_continuation, toNat_continuation]
      simp only [length_cons, length_nil, Option.some.injEq, Prod.mk.injEq, and_true]
      omega

theorem ofNat_eq (b : UInt8) {n : Nat} (eq : b.toNat = n) : UInt8.ofNat n = b := by
  rw [← eq, UInt8.ofNat_toNat]

theorem isContinuation_of_followsLead (follows : followsLead b c = true) :
    isContinuation c = true := by
  have bounds := followsLead_iff.mp follows
  rw [isContinuation_iff]
  split_ifs at bounds <;> omega

theorem eq_continuation (follows : isContinuation b = true) {bs : Nat}
    (eq : bs % 64 = b.toNat - 0x80) : continuation bs = b := by
  have bounds := isContinuation_iff.mp follows
  exact ofNat_eq b (by omega)

theorem encode_eq {c : Nat} (bs r : Bytes) (scalar : isScalar c = true)
    (form : encodeScalar c = bs) : isScalar c = true ∧ bs.length = (encode c).length ∧
      bs ++ r = encode c ++ (bs ++ r).drop bs.length := by
  rw [encode_of_isScalar scalar, form]
  simp [scalar]

theorem encode_of_decode? {c w : Nat} (dec : decode? bs = some (c, w)) :
    isScalar c = true ∧ w = (encode c).length ∧ bs = encode c ++ bs.drop w := by
  unfold decode? at dec
  split at dec
  · simp at dec
  next b r =>
  split at dec
  · next ascii =>
    obtain ⟨rfl, rfl⟩ : b.toNat = c ∧ 1 = w := by simpa using dec
    have small : b.toNat < 0x80 := UInt8.lt_iff_toNat_lt.mp ascii
    refine encode_eq [b] r (isScalar_iff.mpr (by omega)) ?_
    rw [encodeScalar, if_pos small, UInt8.ofNat_toNat]
  split at dec
  · next lead =>
    simp only [within_iff, UInt8.reduceToNat] at lead
    split at dec
    · next second r =>
      split at dec
      · next follows =>
        have bounds := isContinuation_iff.mp follows
        simp only [Option.some.injEq, Prod.mk.injEq, payload] at dec
        obtain ⟨value, rfl⟩ := dec
        refine encode_eq [b, second] r (isScalar_iff.mpr (by omega)) ?_
        rw [encodeScalar, if_neg (by omega), if_pos (by omega), ofNat_eq b (by omega),
          eq_continuation follows (by omega)]
      · simp at dec
    · simp at dec
  split at dec
  · next lead =>
    simp only [within_iff, UInt8.reduceToNat] at lead
    split at dec
    · next second d r =>
      split at dec
      · next follows =>
        rw [Bool.and_eq_true] at follows
        have bounds := followsLead_iff.mp follows.1
        have continues := isContinuation_of_followsLead follows.1
        have secondBounds := isContinuation_iff.mp continues
        have thirdBounds := isContinuation_iff.mp follows.2
        simp only [Option.some.injEq, Prod.mk.injEq, payload] at dec
        obtain ⟨value, rfl⟩ := dec
        have range : 0x800 ≤ c ∧ c < 0x10000 ∧ ¬(0xD800 ≤ c ∧ c < 0xE000) := by
          split_ifs at bounds <;> omega
        refine encode_eq [b, second, d] r (isScalar_iff.mpr (by omega)) ?_
        rw [encodeScalar, if_neg (by omega), if_neg (by omega), if_pos (by omega),
          ofNat_eq b (by omega), eq_continuation continues (by omega),
          eq_continuation follows.2 (by omega)]
      · simp at dec
    · simp at dec
  split at dec
  · next lead =>
    simp only [within_iff, UInt8.reduceToNat] at lead
    split at dec
    · next second d e r =>
      split at dec
      · next follows =>
        rw [Bool.and_eq_true, Bool.and_eq_true] at follows
        have bounds := followsLead_iff.mp follows.1.1
        have continues := isContinuation_of_followsLead follows.1.1
        have secondBounds := isContinuation_iff.mp continues
        have thirdBounds := isContinuation_iff.mp follows.1.2
        have fourthBounds := isContinuation_iff.mp follows.2
        simp only [Option.some.injEq, Prod.mk.injEq, payload] at dec
        obtain ⟨value, rfl⟩ := dec
        have range : 0x10000 ≤ c ∧ c ≤ 0x10FFFF := by split_ifs at bounds <;> omega
        refine encode_eq [b, second, d, e] r (isScalar_iff.mpr (by omega)) ?_
        rw [encodeScalar, if_neg (by omega), if_neg (by omega), if_neg (by omega),
          ofNat_eq b (by omega), eq_continuation continues (by omega),
          eq_continuation follows.1.2 (by omega), eq_continuation follows.2 (by omega)]
      · simp at dec
    · simp at dec
  · simp at dec

theorem length_encode_le (c : Nat) : (encode c).length ≤ 4 := by
  unfold encode encodeScalar
  split_ifs <;> simp

theorem length_encode_pos (c : Nat) : 0 < (encode c).length := by
  unfold encode encodeScalar
  split_ifs <;> simp

theorem encode_append_inj {a b : Nat} {others : Bytes} (scalar : isScalar a = true)
    (scalar' : isScalar b = true) (eq : encode a ++ r = encode b ++ others) :
    a = b ∧ r = others := by
  have dec := decode?_encode scalar r
  rw [eq, decode?_encode scalar' others] at dec
  cases dec
  exact ⟨rfl, append_cancel_left eq⟩

theorem validFrom_drop (k : Nat) (bs : Bytes) : validFrom k bs = validFrom 0 (bs.drop k) := by
  induction k generalizing bs with
  | zero => rfl
  | succ k ih =>
    cases bs with
    | nil => rfl
    | cons b r => exact ih r

theorem codesFrom_drop (k : Nat) (bs : Bytes) : codesFrom k bs = codesFrom 0 (bs.drop k) := by
  induction k generalizing bs with
  | zero => rfl
  | succ k ih =>
    cases bs with
    | nil => rfl
    | cons b r => exact ih r

theorem eq_flatMap_of_valid (wf : valid bs = true) :
    bs = (codes bs).flatMap encode ∧ ∀ c ∈ codes bs, isScalar c = true := by
  unfold valid at wf
  unfold codes
  induction length : bs.length using Nat.strongRecOn generalizing bs with
  | _ _ ih =>
    cases bs with
    | nil => simp [codesFrom]
    | cons b r =>
      unfold validFrom at wf
      unfold codesFrom
      split at wf
      · next c w dec =>
        obtain ⟨scalar, width_eq, parts⟩ := encode_of_decode? dec
        have pos := length_encode_pos c
        obtain ⟨k, rfl⟩ : ∃ k, w = k + 1 := ⟨w - 1, by omega⟩
        rw [Nat.add_sub_cancel, validFrom_drop] at wf
        have shorter : (r.drop k).length < (b :: r).length := by
          simp only [length_drop, length_cons]
          omega
        obtain ⟨whole, scalars⟩ := ih _ (length ▸ shorter) wf rfl
        simp only [Nat.add_sub_cancel, codesFrom_drop k r, flatMap_cons, ← whole]
        refine ⟨parts, fun j mem => ?_⟩
        rcases mem_cons.mp mem with rfl | later
        · exact scalar
        · exact scalars j later
      · simp at wf

theorem ascii_of_mem_encode {c : Nat} (scalar : isScalar c = true) (mem : b ∈ encode c) :
    c < 0x80 ∧ b.toNat = c ∨ 0x80 ≤ c ∧ 0x80 ≤ b.toNat := by
  have bounds := isScalar_iff.mp scalar
  have lead {n : Nat} (fits : 0x80 ≤ n ∧ n < 256) : 0x80 ≤ (UInt8.ofNat n).toNat := by
    have eq : (UInt8.ofNat n).toNat = n := UInt8.toNat_ofNat_of_lt fits.2
    omega
  have follower (bs : Nat) : 0x80 ≤ (continuation bs).toNat := by
    rw [toNat_continuation]
    omega
  rw [encode_of_isScalar scalar, encodeScalar] at mem
  split at mem
  · obtain rfl := mem_singleton.mp mem
    exact .inl ⟨by omega, UInt8.toNat_ofNat_of_lt (by change _ < 256; omega)⟩
  refine .inr ⟨by omega, ?_⟩
  have led {n : Nat} {r : Bytes} (fits : 0x80 ≤ n ∧ n < 256)
      (others : ∀ d ∈ r, 0x80 ≤ d.toNat) (got : b ∈ UInt8.ofNat n :: r) :
      0x80 ≤ b.toNat := by
    rcases mem_cons.mp got with rfl | later
    · exact lead fits
    · exact others b later
  split at mem
  · exact led (by omega) (by simp [follower]) mem
  · split at mem
    · exact led (by omega) (by simp [follower]) mem
    · exact led (by omega) (by simp [follower]) mem

theorem codes_flatMap_append (scalars : ∀ c ∈ cs, isScalar c = true) (v : Bytes) :
    Utf8.codes (cs.flatMap encode ++ v) = cs ++ Utf8.codes v := by
  induction cs with
  | nil => rfl
  | cons c r ih =>
    have dec := decode?_encode (scalars c (.head _)) (r.flatMap encode ++ v)
    obtain ⟨b, bs, encode_eq⟩ := exists_cons_of_length_pos (length_encode_pos c)
    have others := ih fun j mem => scalars j (.tail _ mem)
    unfold Utf8.codes at others ⊢
    rw [encode_eq] at dec
    rw [flatMap_cons, encode_eq, append_assoc, cons_append, codesFrom]
    rw [cons_append] at dec
    simp only [dec, length_cons, Nat.add_sub_cancel]
    rw [codesFrom_drop bs.length, drop_left, others]
    rfl

theorem codes_flatMap (scalars : ∀ c ∈ cs, isScalar c = true) :
    Utf8.codes (cs.flatMap encode) = cs := by
  simpa [Utf8.codes, codesFrom] using codes_flatMap_append scalars []

theorem encode_ascii (ascii : b.toNat < 0x80) : encode b.toNat = [b] := by
  rw [encode_of_isScalar (isScalar_iff.mpr (by omega)), encodeScalar, if_pos ascii]
  simp

theorem flatMap_encode_ascii (ascii : ∀ b ∈ bs, b.toNat < 0x80) :
    (bs.map (·.toNat)).flatMap encode = bs := by
  induction bs with
  | nil => rfl
  | cons b r ih =>
    rw [map_cons, flatMap_cons, encode_ascii (ascii b (.head _)),
      ih fun d mem => ascii d (.tail _ mem)]
    rfl

theorem split_ascii (scalars : ∀ c ∈ cs, isScalar c = true)
    (ascii : b.toNat < 0x80) (parts : cs.flatMap encode = f ++ b :: r) :
    ∃ u v, cs = u ++ b.toNat :: v ∧ f = u.flatMap encode ∧ r = v.flatMap encode := by
  induction cs generalizing f with
  | nil => simp at parts
  | cons c cs ih =>
    have scalar := scalars c (.head _)
    rw [flatMap_cons] at parts
    rcases append_eq_append_iff.mp parts with ⟨m, rfl, codes_eq⟩ | ⟨inside, code_eq, req⟩
    · obtain ⟨u, v, rfl, rfl, rfl⟩ := ih (fun j mem => scalars j (.tail _ mem)) codes_eq
      exact ⟨c :: u, v, rfl, rfl, rfl⟩
    cases inside with
    | nil =>
      obtain ⟨u, v, rfl, empty, rfl⟩ :=
        ih (fun j mem => scalars j (.tail _ mem)) (show _ = [] ++ b :: r from req.symm)
      refine ⟨c :: u, v, rfl, ?_, rfl⟩
      rw [flatMap_cons, ← empty, code_eq, append_nil, append_nil]
    | cons a inside =>
      cases req
      have mem : b ∈ encode c := by simp [code_eq]
      have whole := ascii_of_mem_encode scalar mem
      have code_eq' : c = b.toNat := by omega
      rw [encode_of_isScalar scalar, encodeScalar, if_pos (by omega), code_eq',
        UInt8.ofNat_toNat] at code_eq
      obtain ⟨rfl, rfl⟩ : f = [] ∧ inside = [] := by
        cases f with
        | nil => exact ⟨rfl, (cons.inj code_eq).2.symm⟩
        | cons _ _ => simp at code_eq
      exact ⟨[], cs, by rw [code_eq']; rfl, rfl, rfl⟩

theorem split_ascii_front (scalars : ∀ c ∈ cs, isScalar c = true)
    (ascii : ∀ b ∈ f, b.toNat < 0x80) (parts : cs.flatMap encode = f ++ r) :
    ∃ v, cs = f.map UInt8.toNat ++ v ∧ r = v.flatMap encode := by
  induction f generalizing cs with
  | nil => exact ⟨cs, rfl, parts.symm⟩
  | cons b fr ih =>
    obtain ⟨u, v, rfl, empty, req⟩ :=
      split_ascii scalars (ascii b (.head _)) (show _ = [] ++ b :: (fr ++ r) from parts)
    obtain rfl : u = [] := by
      cases u with
      | nil => rfl
      | cons c _ =>
        have pos := length_encode_pos c
        have none := congrArg List.length empty
        simp at none
        omega
    obtain ⟨others, rfl, others_eq⟩ := ih (fun c mem => scalars c (by simp [mem]))
      (fun b mem => ascii b (.tail _ mem)) req.symm
    exact ⟨others, rfl, others_eq⟩

end Rematch.Utf8
