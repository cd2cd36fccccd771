import Mathlib.Algebra.Group.Nat.Defs
import Rematch.Proofs.Extension.Insertion
import Rematch.Proofs.Unicode.Folding

/-!
What scanning reads is well formed: code points are not too large, and sets are in order. A set in
brackets holds at least its first member.
-/

namespace Rematch

open List Bytes Scanner Unicode.CodeSet Utf8

namespace Bytes

theorem toNat_char (b : UInt8) : (char b).toNat = b.toNat := by
  have ok : b.toNat.isValidChar := .inl (by have := b.toNat_lt; omega)
  rw [char, Char.ofNat, dif_pos ok]
  rfl

theorem char_inj {b c : UInt8} : char b = char c ↔ b = c := by
  rw [← UInt8.toNat_inj, ← Char.toNat_inj, toNat_char, toNat_char]

end Bytes

namespace Scanner

open Unicode (CodeSet maxCode)
open Unicode.CodeSet (InOrder)

variable {w r : Bytes} {v : Nat} {cs : CodeSet} {fc : Bool}
variable {wh : Bytes} {d n p : Nat}

theorem code_le (scan : code w = .ok (v, r)) : v ≤ maxCode := by
  unfold code at scan
  split at scan
  · cases scan
    decide
  split at scan
  · next p wd dec =>
    cases scan
    have scalar := isScalar_iff.mp (encode_of_decode? dec).1
    unfold maxCode
    omega
  · simp at scan

theorem octal_lt (n v : Nat) (w : Bytes) : (octal n v w).1 < 8 ^ n * (v + 1) := by
  have grows (n v : Nat) : v < 8 ^ n * (v + 1) :=
    Nat.lt_of_lt_of_le (Nat.lt_succ_self v) (Nat.le_mul_of_pos_left _ (Nat.pow_pos (by decide)))
  induction n generalizing v w with
  | zero => exact grows 0 v
  | succ n ih =>
    cases w with
    | nil => exact grows _ v
    | cons b r =>
      unfold octal
      split
      · next d got =>
        have small : d ≤ 7 := by
          simp only [octalValue?, Bool.and_eq_true, decide_eq_true_eq, UInt8.le_iff_toNat_le,
            UInt8.reduceToNat, Option.ite_none_right_eq_some, Option.some.injEq] at got
          omega
        calc (octal n (8 * v + d) r).1 < 8 ^ n * (8 * v + d + 1) := ih _ _
          _ ≤ 8 ^ n * (8 * (v + 1)) := Nat.mul_le_mul_left _ (by omega)
          _ = 8 ^ (n + 1) * (v + 1) := by rw [Nat.pow_succ, Nat.mul_assoc]
      · exact grows _ v

theorem octal_le (small : d ≤ 7) (w : Bytes) : (octal 2 d w).1 ≤ maxCode := by
  have le := octal_lt 2 d w
  have wide : 8 ^ 2 * (d + 1) ≤ 8 ^ 2 * 8 := Nat.mul_le_mul_left _ (by omega)
  unfold maxCode
  omega

theorem bracedHex_le {u : Option Nat} (scan : bracedHex wh n u w = .ok (v, r))
    (small : ∀ ds ∈ u, ds ≤ maxCode) : v ≤ maxCode := by
  fun_induction bracedHex wh n u w with
  | case1 | case2 | case3 | case5 | case6 | case8 => simp [blame] at scan
  | case4 =>
    cases scan
    exact small _ rfl
  | case7 _ _ _ _ _ _ _ _ _ _ _ within ih =>
    refine ih scan fun ds eq => ?_
    cases Option.mem_def.mp eq
    exact within

theorem hexValue?_lt (got : Digits.hexValue? d = some n) : n < 16 := by
  unfold Digits.hexValue? at got
  split at got
  · have := Option.some.inj got
    omega
  split at got
  · have := Option.some.inj got
    omega
  split at got
  · have := Option.some.inj got
    omega
  · simp at got

theorem hexEscape_le (scan : hexEscape wh w = .ok (v, r)) : v ≤ maxCode := by
  unfold hexEscape at scan
  split at scan
  · simp [blame] at scan
  split at scan
  · simp at scan
  split at scan
  · exact bracedHex_le scan (by simp)
  split at scan
  · simp at scan
  split at scan
  · next high low fst snd =>
    cases scan
    have := hexValue?_lt fst
    have := hexValue?_lt snd
    unfold maxCode
    omega
  · simp [blame] at scan

theorem escape_le (scan : escape w = .ok (v, r)) : v ≤ maxCode := by
  have constant {n : Nat} {r' : Bytes} (eq : Except.ok (ε := SyntaxError) (n, r') = .ok (v, r))
      (small : n ≤ 0x7F) : v ≤ maxCode := by
    cases eq
    unfold maxCode
    omega
  have digits {d : Nat} {r' : Bytes} (small : d ≤ 7)
      (eq : Except.ok (ε := SyntaxError) (octal 2 d r') = .ok (v, r)) :
      v ≤ maxCode := by
    have le := octal_le small r'
    rw [Except.ok.inj eq] at le
    exact le
  unfold escape at scan
  split at scan
  · simp at scan
  split at scan
  · simp at scan
  next named after read =>
  split at scan
  · exact hexEscape_le scan
  iterate 6 exact constant scan (by omega)
  · exact digits (by omega) scan
  split at scan
  · exact digits (by omega) scan
  split at scan
  · next plain =>
    simp only [Bool.and_eq_true, decide_eq_true_eq] at plain
    exact constant scan (by omega)
  · simp [blame] at scan

theorem member_le (scan : member wh w = .ok (v, r)) : v ≤ maxCode := by
  unfold member at scan
  split at scan
  · simp at scan
  · exact escape_le scan
  · exact code_le scan

theorem inOrder_finishSet (fc negated : Bool) (ord : InOrder 0 cs) :
    InOrder 0 (finishSet fc negated cs) := by
  have folded : InOrder 0 (if fc then cs.foldCase else cs) := by
    split
    · exact inOrder_foldCase ord
    · exact ord
  unfold finishSet
  cases negated with
  | false => exact folded
  | true => exact inOrder_complement folded

theorem inOrder_letterSet? {c : Char} {negated : Bool}
    (got : letterSet? c = some (negated, cs)) : InOrder 0 cs := by
  unfold letterSet? at got
  split at got
  case h_7 => simp at got
  all_goals
    cases got
    decide

theorem inOrder_letterSet (scan : letterSet fc w = some (cs, r)) : InOrder 0 cs := by
  unfold letterSet at scan
  split at scan
  · obtain ⟨⟨negated, plain⟩, got, eq⟩ := Option.map_eq_some_iff.mp scan
    cases eq
    exact inOrder_finishSet fc negated (inOrder_letterSet? got)
  · simp at scan

theorem namedSets_checked : namedSets.all (fun e => decide (InOrder 0 e.2)) = true := by
  decide

theorem inOrder_namedSet (scan : namedSet fc w = .ok (some (cs, r))) : InOrder 0 cs := by
  unfold namedSet at scan
  split at scan
  · split at scan
    · simp at scan
    dsimp only at scan
    split at scan
    · next e _ plain got =>
      cases scan
      have checked := all_eq_true.mp namedSets_checked _ (mem_of_find?_eq_some got)
      exact inOrder_finishSet fc _ (of_decide_eq_true checked)
    · simp [blame] at scan
  · simp at scan

theorem inOrder_property (scan : property fc w = .ok (some (cs, r))) : InOrder 0 cs := by
  unfold property at scan
  split at scan
  · split at scan
    · split at scan
      · simp at scan
      dsimp only at scan
      split at scan
      · simp at scan
      · next plain got =>
        cases scan
        exact inOrder_finishSet fc _ (Unicode.inOrder_codes? got)
    · simp at scan
  · simp at scan

theorem memberRange_eq (scan : memberRange fc wh w = .ok (cs, r)) :
    ∃ lo v hi, member wh w = .ok (lo, v) ∧ cs = finishSet fc false [⟨lo, hi⟩] ∧ lo ≤ hi ∧
      hi ≤ maxCode := by
  unfold memberRange at scan
  split at scan
  · simp at scan
  next lo v fst =>
  have le := member_le fst
  split at scan
  · split at scan
    · cases scan
      exact ⟨lo, _, lo, fst, rfl, Nat.le_refl _, le⟩
    split at scan
    · simp at scan
    next hi _ last =>
    split at scan
    · simp [blame] at scan
    · next ord =>
      cases scan
      exact ⟨lo, _, hi, fst, rfl, Nat.not_lt.mp ord, member_le last⟩
  · cases scan
    exact ⟨lo, _, lo, fst, rfl, Nat.le_refl _, le⟩

theorem inOrder_setItem (scan : setItem fc wh w = .ok (cs, r)) : InOrder 0 cs := by
  unfold setItem at scan
  split at scan
  · simp at scan
  · next got =>
    cases scan
    exact inOrder_namedSet got
  split at scan
  · simp at scan
  · next got =>
    cases scan
    exact inOrder_property got
  split at scan
  · next got =>
    cases scan
    exact inOrder_letterSet got
  · obtain ⟨lo, v, hi, -, rfl, ord, le⟩ := memberRange_eq scan
    exact inOrder_finishSet fc false (inOrder_single ord le)

theorem setItems_joins {isFirst : Bool} {u : CodeSet}
    (scan : setItems fc wh n isFirst u w = .ok (cs, r)) (ord : InOrder 0 u) :
    InOrder 0 cs ∧ ∀ p, u.contains p = true → cs.contains p = true := by
  induction n generalizing isFirst u w with
  | zero => simp [setItems] at scan
  | succ fu ih =>
    unfold setItems at scan
    split at scan
    · cases scan
      exact ⟨ord, fun _ held => held⟩
    split at scan
    · simp at scan
    · next item v got =>
      have ord' := inOrder_setItem got
      obtain ⟨odd, kept⟩ := ih scan (inOrder_union ord ord')
      refine ⟨odd, fun p held => kept p ?_⟩
      rw [contains_union, held, Bool.true_or]

theorem inOrder_bracketSet (scan : bracketSet fc w = .ok (cs, r)) : InOrder 0 cs := by
  unfold bracketSet at scan
  dsimp only at scan
  split at scan
  · simp at scan
  · next got =>
    cases scan
    have ord := (setItems_joins got (by decide)).1
    split
    · exact inOrder_complement ord
    · exact ord

theorem code_encode (scalar : isScalar p = true) (v : Bytes) :
    code (encode p ++ v) = .ok (p, v) := by
  have dec := decode?_encode scalar v
  obtain ⟨b, bs, encode_eq⟩ := exists_cons_of_length_pos (length_encode_pos p)
  rw [encode_eq, cons_append] at dec ⊢
  simp [code, dec]

theorem contains_of_bracketSet (scalar : isScalar p = true) (large : 0x80 ≤ p) {v : Bytes}
    (scan : bracketSet false (0x5B :: (encode p ++ v)) = .ok (cs, r)) : cs.contains p = true := by
  have fst := code_encode scalar v
  obtain ⟨b, bs, encode_eq⟩ := exists_cons_of_length_pos (length_encode_pos p)
  have high : 0x80 ≤ b.toNat := by
    have side := ascii_of_mem_encode scalar (show b ∈ encode p by simp [encode_eq])
    omega
  have apart {d : UInt8} (low : d.toNat < 0x80) : b ≠ d := by
    rintro rfl
    omega
  rw [encode_eq, cons_append] at fst scan
  have pos : peek (b :: (bs ++ v)) ≠ '^' := by
    intro eq
    have low : b = 0x5E := char_inj.mp eq
    exact apart (by decide) low
  have plain (w : Bytes) : setItem false w (b :: (bs ++ v)) =
      memberRange false w (b :: (bs ++ v)) := by
    have noName : List.isPrefixOf (ofString "[:") (b :: (bs ++ v)) = false := by
      rw [show ofString "[:" = [0x5B, 0x3A] by decide +kernel]
      simp [List.isPrefixOf, (apart (by decide) : b ≠ 0x5B).symm]
    simp [setItem, namedSet, noName, property, letterSet, apart]
  simp only [bracketSet, drop_succ_cons, drop_zero, pos, if_false, setItems,
    Bool.not_true, Bool.false_and, Bool.false_eq_true, plain] at scan
  split at scan
  · simp at scan
  next inside _ read =>
  cases scan
  split at read
  · simp at read
  next item _ got =>
  obtain ⟨lo, _, hi, start, rfl, ord, le⟩ := memberRange_eq got
  have start_eq : member (0x5B :: b :: (bs ++ v)) (b :: (bs ++ v)) = .ok (p, v) := by
    rw [← fst]
    simp [member, apart]
  cases start_eq.symm.trans start
  have single := inOrder_single ord le
  change setItems _ _ _ _ (union [] [⟨p, hi⟩]) _ = _ at read
  refine (setItems_joins read (inOrder_union (by decide) single)).2 p ?_
  rw [contains_union]
  simp [Unicode.CodeSet.contains, Unicode.Span.contains, ord]

end Scanner

namespace Token

open Unicode (CodeSet maxCode)

variable {w r : Bytes} {cs : CodeSet}

/-- The code points of a token are not too large, and its set is in order. -/
def Proper : Token → Prop
  | .literal codes => ∀ code ∈ codes, code ≤ maxCode
  | .set codes => codes.InOrder 0
  | _ => True

variable {token : Token} {m : Mode}

theorem quotedCodes_le {n : Nat} {parts : List Nat} (scan : quotedCodes n w = .ok parts) :
    ∀ c ∈ parts, c ≤ maxCode := by
  fun_induction quotedCodes n w generalizing parts with
  | case1 | case2 =>
    cases scan
    simp
  | case3 => simp at scan
  | case4 _ _ _ c _ got ih =>
    obtain ⟨others, more, rfl⟩ := exists_of_map_eq_ok scan
    intro j mem
    rcases mem_cons.mp mem with rfl | mem
    · exact code_le got
    · exact ih more j mem

theorem proper_backslash (scan : backslash m w = .ok (token, r)) : token.Proper := by
  unfold backslash at scan
  split at scan
  case h_4 => simp at scan
  case h_5 =>
    obtain ⟨parts, got, eq⟩ := exists_of_map_eq_ok scan
    cases eq
    exact quotedCodes_le got
  case h_7 =>
    split at scan
    · simp at scan
    · next got =>
      cases scan
      exact inOrder_property got
    split at scan
    · next got =>
      cases scan
      exact inOrder_letterSet got
    · obtain ⟨⟨c, v⟩, got, eq⟩ := exists_of_map_eq_ok scan
      cases eq
      exact forall_mem_singleton.mpr (escape_le got)
  all_goals
    cases scan
    trivial

theorem proper_switches {wh : Bytes} {n : Nat} {isOn sawLetter : Bool}
    (scan : switches wh n m isOn sawLetter w = .ok (token, r)) : token.Proper := by
  fun_induction switches wh n m isOn sawLetter w with
  | case1 | case2 | case3 | case7 => simp [blame] at scan
  | case4 _ _ _ _ _ _ _ _ _ _ _ _ ih
  | case5 _ _ _ _ _ _ _ _ _ _ _ _ ih => exact ih scan
  | case6 =>
    cases scan
    split <;> trivial

theorem proper_specialGroup (scan : specialGroup m w = .ok (token, r)) : token.Proper := by
  have named {k : Nat} (scan : namedGroup k w = .ok (token, r)) : token.Proper := by
    unfold namedGroup at scan
    split at scan
    · split at scan <;> simp at scan
    dsimp only at scan
    split at scan
    · simp at scan
    split at scan
    · cases scan
      trivial
    · simp at scan
  unfold specialGroup at scan
  split at scan
  · exact named scan
  split at scan
  · exact named scan
  · exact proper_switches scan

theorem proper_repeated {k : Repetition} (scan : repeated m k w = (token, r)) : token.Proper := by
  unfold repeated at scan
  split at scan <;>
  · cases scan
    trivial

theorem proper_scan (scanned : scan m w = .ok (token, r)) : token.Proper := by
  unfold scan at scanned
  dsimp only at scanned
  split at scanned
  case h_1 =>
    split at scanned
    · exact proper_specialGroup scanned
    · cases scanned
      trivial
  case h_6 =>
    cases scanned
    split <;> trivial
  case h_7 =>
    obtain ⟨_, got, eq⟩ := exists_of_map_eq_ok scanned
    cases eq
    exact inOrder_bracketSet got
  case h_8 | h_9 | h_10 => exact proper_repeated (Except.ok.inj scanned)
  case h_11 =>
    unfold brace at scanned
    split at scanned
    · cases scanned
      exact forall_mem_singleton.mpr (by decide)
    split at scanned
    · simp [blame] at scanned
    · exact proper_repeated (Except.ok.inj scanned)
  case h_12 => exact proper_backslash scanned
  case h_13 =>
    obtain ⟨⟨c, v⟩, got, eq⟩ := exists_of_map_eq_ok scanned
    cases eq
    exact forall_mem_singleton.mpr (code_le got)
  all_goals
    cases scanned
    trivial

theorem inOrder_scan (scanned : scan m w = .ok (.set cs, r)) : cs.InOrder 0 := proper_scan scanned

theorem scan_code {c : Nat} (scalar : isScalar c = true) {b : UInt8}
    (beg : (encode c).head? = some b) (high : 0x5F ≤ b.toNat ∨ 0x41 ≤ b.toNat ∧ b.toNat ≤ 0x5A)
    (noBrace : b.toNat ≠ 0x7B) (noBar : b.toNat ≠ 0x7C) (m : Mode) (r : Bytes) :
    scan m (encode c ++ r) = .ok (.literal [c], r) := by
  have peeked : peek (encode c ++ r) = char b := by
    rw [← cons_head?_tail beg]
    rfl
  unfold scan
  rw [peeked, code_encode scalar r]
  have number := toNat_char b
  split
  case h_13 => rfl
  all_goals
    next mark =>
    rw [mark] at number
    have := number.symm
    simp at this
    omega

theorem scan_letter {c : UInt8} (isLetter : 0x41 ≤ c.toNat ∧ c.toNat ≤ 0x5A ∨
      0x61 ≤ c.toNat ∧ c.toNat ≤ 0x7A) (m : Mode) (r : Bytes) :
    scan m (c :: r) = .ok (.literal [c.toNat], r) := by
  have spelled : encode c.toNat = [c] := encode_ascii (by omega)
  have scanned := scan_code (isScalar_iff.mpr (by omega)) (show (encode c.toNat).head? =
    some c by rw [spelled]; rfl) (by omega) (by omega) (by omega) m r
  rw [spelled] at scanned
  exact scanned

theorem scan_openCapture (plain : peek r ≠ '?') (m : Mode) :
    scan m (0x28 :: r) = .ok (.openCapture "", r) := by
  change (if peek r = '?' then specialGroup m (0x28 :: r) else .ok (.openCapture "", r)) = _
  rw [if_neg plain]

theorem scan_openGroup (m : Mode) (r : Bytes) :
    scan m (0x28 :: 0x3F :: 0x3A :: r) = .ok (.openGroup m, r) := by
  change specialGroup m (0x28 :: 0x3F :: 0x3A :: r) = _
  rw [specialGroup, show ofString "(?P<" = [0x28, 0x3F, 0x50, 0x3C] by decide +kernel,
    show ofString "(?<" = [0x28, 0x3F, 0x3C] by decide +kernel]
  rfl

end Token

end Rematch
