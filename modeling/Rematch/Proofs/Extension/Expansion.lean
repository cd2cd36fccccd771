import Mathlib.Data.List.Chain
import Rematch.Proofs.Extension.Insertion

/-!
Expanding encoded patterns. Every extension has an escape of a fixed form, and with these escapes in
the place of the extensions a pattern is encoded as before. An escape may be longer or shorter than
the one that was written, but what the encoding looks for ahead does not depend on it: both begin
with a backslash, and after it there is no bracket, colon or backslash.
-/

namespace Rematch.Encoding

open List Bytes Codec

variable {p n : Place} {parts : List Part} {f r can : Bytes} {b c : UInt8}
  {k : ExtensionKind} {arg : Nat}

def categoryName (number : Nat) : Bytes :=
  ((Unicode.Category.ofNumber? number).map fun category => Bytes.ofString category.name).getD []

/-- The escape of a fixed form for an extension. -/
def canonical : ExtensionKind → Nat → Bytes
  | .category, number => 0x5C :: 0x70 :: 0x7B :: (categoryName number ++ [0x7D])
  | .notCategory, number => 0x5C :: 0x50 :: 0x7B :: (categoryName number ++ [0x7D])
  | .backreference, group => 0x5C :: (Nat.toDigits 10 group).map Bytes.ascii
  | .unknown _, _ => []

def expandCode (code : Nat) : Bytes :=
  match Codec.decode? code with
  | some (kind, arg) => canonical kind arg
  | none => Utf8.encode code

/-- Puts an escape in the place of every extension. -/
def expand (bytes : Bytes) : Bytes := (Utf8.codes bytes).flatMap expandCode

def Part.expanded : Part → Bytes
  | .kept bytes => bytes
  | .escape _ kind arg => canonical kind arg

theorem names_categoryName {n : Nat} (le : n < Unicode.Category.count) :
    Names (categoryName n) n := by
  have got : Unicode.Category.ofNumber? n = _ := getElem?_eq_getElem le
  exact ⟨_, got, by rw [categoryName, got]; rfl⟩

theorem digits_checked : (List.range 256).all (fun gr => gr == 0 ||
    match (Nat.toDigits 10 gr).map ascii with
    | [] => false
    | b :: ds => decide (0x31 ≤ b.toNat) && decide (b.toNat ≤ 0x39) &&
      (ds.all fun d => (Digits.decimalValue? d).isSome) &&
        Digits.decimalNumber (b :: ds) == gr) = true := by
  decide +kernel

theorem denotes_reference {gr : Nat} (pos : 0 < gr) (small : gr < 256) :
    Denotes (canonical .backreference gr) .backreference gr := by
  have checked := all_eq_true.mp digits_checked gr (mem_range.mpr small)
  rw [beq_eq_false_iff_ne.mpr (Nat.ne_of_gt pos), Bool.false_or] at checked
  unfold canonical
  split at checked
  · simp at checked
  · next b ds digits_eq =>
    simp only [Bool.and_eq_true, decide_eq_true_eq, all_eq_true, beq_iff_eq] at checked
    obtain ⟨⟨⟨least, greatest⟩, decimal⟩, number⟩ := checked
    have denotes :=
      Denotes.reference least greatest decimal (by rw [number]; exact Nat.le_of_lt_succ small)
    rwa [number, ← digits_eq] at denotes

theorem Denotes.canonical {t : Bytes} (denotes : Denotes t k arg) :
    Denotes (canonical k arg) k arg := by
  obtain ⟨-, small, ok⟩ := denotes.meaningful
  cases k with
  | category => exact .braced (.inl rfl) (names_categoryName (of_decide_eq_true ok))
  | notCategory => exact .braced (.inr rfl) (names_categoryName (of_decide_eq_true ok))
  | backreference => exact denotes_reference (of_decide_eq_true ok) small
  | unknown => simp [validArg] at ok

/-- What the encoding looks for ahead of a piece is the same in two texts. -/
structure Alike (rest can : Bytes) : Prop where
  head : can.head? = rest.head?
  unnamed : ∀ letter, letter = 0x70 ∨ letter = 0x50 → category? (0x5C :: letter :: rest) = none →
    category? (0x5C :: letter :: can) = none
  unclosed : rest.head? = some 0x3A → Bytes.indexOf? (Bytes.ofString ":]") (rest.drop 1) = none →
    Bytes.indexOf? (Bytes.ofString ":]") (can.drop 1) = none

theorem Scans.head? (scans : Scans p parts) :
    (parts.flatMap Part.expanded).head? = (parts.flatMap Part.source).head? := by
  cases scans with
  | nil => rfl
  | kept ne =>
    obtain ⟨b, m, rfl⟩ := exists_cons_of_ne_nil ne
    rfl
  | @escape _ t k arg parts denotes =>
    obtain ⟨m, text_eq, -⟩ := denotes.plain
    obtain ⟨m', canonical_eq, -⟩ := denotes.canonical.plain
    simp [Part.source, Part.expanded, text_eq, canonical_eq]

/-- A plain byte is a part by itself. -/
theorem Scans.plain (scans : Scans p parts) (plain : IsPlain b)
    (fst : (parts.flatMap Part.expanded).head? = some b) :
    ∃ others, parts = .kept [b] :: others ∧ Scans p others := by
  cases scans with
  | nil => simp at fst
  | @kept _ n f parts ne got rest =>
    obtain ⟨b', m, rfl⟩ := exists_cons_of_ne_nil ne
    obtain rfl : b' = b := Option.some.inj fst
    rw [cons_append, piece_plain plain.2] at got
    obtain ⟨rfl, rfl⟩ : m = [] ∧ p = n := by simpa using got
    exact ⟨parts, rfl, rest⟩
  | @escape _ t k arg parts denotes =>
    obtain ⟨m, canonical_eq, -⟩ := denotes.canonical.plain
    obtain rfl : 0x5C = b := by simpa [Part.expanded, canonical_eq] using fst
    exact absurd rfl plain.2.1

theorem Scans.plains {v : Bytes} (scans : Scans p parts) (plain : ∀ b ∈ f, IsPlain b)
    (expanded_eq : parts.flatMap Part.expanded = f ++ v) :
    ∃ others, parts.flatMap Part.source = f ++ others := by
  induction f generalizing parts with
  | nil => exact ⟨_, rfl⟩
  | cons b fr ih =>
    obtain ⟨others, rfl, rest⟩ := scans.plain (plain b (.head _)) (by rw [expanded_eq]; rfl)
    obtain ⟨others', source_eq⟩ := ih rest (fun d mem => plain d (.tail _ mem))
      (cons.inj expanded_eq).2
    exact ⟨others', congrArg (b :: ·) source_eq⟩

variable {bs m : Bytes}

theorem indexOf?_pair :
    indexOf? [b, c] bs = none ↔ bs.IsChain fun byte d => ¬(byte = b ∧ d = c) := by
  induction bs with
  | nil => simp [indexOf?]
  | cons byte r ih =>
    rw [isChain_cons, ← ih, indexOf?]
    cases r with
    | nil => simp [List.isPrefixOf, indexOf?]
    | cons d r =>
      simp only [List.isPrefixOf, Bool.and_true, Bool.and_eq_true, beq_iff_eq, head?_cons,
        Option.mem_some_iff, forall_eq']
      split
      · next eq => simp [eq.1, eq.2]
      · next apart =>
        rw [Option.map_eq_none_iff]
        exact ⟨fun none => ⟨fun eq => apart ⟨eq.1.symm, eq.2.symm⟩, none⟩, And.right⟩

theorem Scans.closed (scans : Scans p parts)
    (closed : (parts.flatMap Part.source).IsChain fun b d => ¬(b = 0x3A ∧ d = 0x5D)) :
    (parts.flatMap Part.expanded).IsChain fun b d => ¬(b = 0x3A ∧ d = 0x5D) := by
  induction scans with
  | nil => exact closed
  | kept _ _ rest ih =>
    simp only [flatMap_cons, Part.source, Part.expanded] at closed ⊢
    obtain ⟨fst, snd, border⟩ := isChain_append.mp closed
    exact isChain_append.mpr ⟨fst, ih snd, by rwa [rest.head?]⟩
  | @escape _ t k arg parts denotes _ _ ih =>
    simp only [flatMap_cons, Part.source, Part.expanded] at closed ⊢
    obtain ⟨-, snd, -⟩ := isChain_append.mp closed
    have noColon : ∀ b ∈ Encoding.canonical k arg, b ≠ (0x3A : UInt8) := by
      obtain ⟨m, canonical_eq, plain⟩ := denotes.canonical.plain
      rw [canonical_eq, forall_mem_cons]
      exact ⟨by decide, fun b mem => (plain b mem).2⟩
    refine isChain_append.mpr ⟨?_, ih snd, fun b last _ _ eq => ?_⟩
    · exact Pairwise.isChain (pairwise_of_forall_mem_list fun b mem _ _ eq => noColon b mem eq.1)
    · exact noColon b (mem_of_getLast? last) eq.1

theorem Scans.alike (scans : Scans p parts) :
    Alike (parts.flatMap Part.source) (parts.flatMap Part.expanded) where
  head := scans.head?
  unnamed c isProp none_eq := by
    refine Option.eq_none_iff_forall_ne_some.mpr fun ⟨bs, w⟩ got => ?_
    obtain ⟨t, v, k, n, text_eq, -, -, category, denotes⟩ := denotes_of_category? isProp got
    obtain ⟨c', m, rfl, -⟩ := denotes.begins category
    obtain ⟨_, eq, plain⟩ := denotes.plain
    obtain rfl := (cons.inj eq).2
    obtain ⟨rfl, expanded_eq⟩ : c = c' ∧ _ = m ++ v := by simpa using text_eq
    obtain ⟨others, source_eq⟩ := scans.plains (fun b mem => (plain b (.tail _ mem)).1) expanded_eq
    have named := denotes.category? category others
    rw [cons_append, cons_append, ← source_eq, none_eq] at named
    simp at named
  unclosed fst none_eq := by
    obtain ⟨others, rfl, rest⟩ :=
      scans.plain (show IsPlain 0x3A by decide) (by rw [scans.head?, fst])
    rw [show ofString ":]" = [0x3A, 0x5D] by decide +kernel, indexOf?_pair] at none_eq ⊢
    exact rest.closed none_eq

theorem indexOf?_append {needle : Bytes} {i : Nat} (got : indexOf? needle (f ++ r) = some i)
    (within : i + needle.length ≤ f.length) (can : Bytes) :
    indexOf? needle (f ++ can) = some i := by
  induction f generalizing i with
  | nil =>
    obtain ⟨rfl, rfl⟩ : i = 0 ∧ needle = [] := by simpa using within
    cases can <;> rfl
  | cons b fr ih =>
    have cut (bs : Bytes) : needle.isPrefixOf (b :: fr ++ bs) = true ↔ needle <+: b :: fr := by
      rw [ isPrefixOf_iff_prefix]
      exact ⟨fun long => prefix_of_prefix_length_le long (prefix_append _ _) (by omega),
        fun short => short.trans (prefix_append _ _)⟩
    rw [cons_append, indexOf?, ← cons_append] at got ⊢
    simp only [cut] at got ⊢
    split at got
    · next here => rw [if_pos here, got]
    · next apart =>
      obtain ⟨u, there, rfl⟩ := Option.map_eq_some_iff.mp got
      rw [if_neg apart, ih there (by rw [length_cons] at within; omega)]
      rfl

theorem keep_append {w : Nat} (eq : keep (f ++ r) w p = ⟨f, f.length, n⟩) (can : Bytes) :
    keep (f ++ can) w p = ⟨f, f.length, n⟩ := by
  obtain ⟨-, rfl, rfl⟩ := Piece.mk.inj eq
  rw [keep, take_left]

theorem Alike.nil (alike : Alike r can) (empty : r = []) : can = [] := by
  rw [← head?_eq_none_iff, alike.head, empty]
  rfl

theorem encoded_ne (known : k.isKnown = true) (small : arg < 256) (m : Bytes) :
    encoded k arg ≠ 0x5C :: m := by
  intro eq
  have bounds := isReserved_iff.mp
    (eq_encode_of_decode? (decode?_encode known small)).2.2
  have side := Utf8.ascii_of_mem_encode (Utf8.isScalar_iff.mpr (by omega))
    (show 0x5C ∈ Utf8.encode (Codec.encode k arg) by
      rw [show Utf8.encode _ = _ from eq]
      exact .head _)
  rw [show (0x5C : UInt8).toNat = 0x5C from rfl] at side
  omega

section

variable (alike : Alike r can)

include alike

theorem Alike.escape (ne : r ≠ [])
    (got : escape p (0x5C :: c :: m ++ r) c = .ok ⟨0x5C :: c :: m, (0x5C :: c :: m).length, n⟩) :
    escape p (0x5C :: c :: m ++ can) c = .ok ⟨0x5C :: c :: m, (0x5C :: c :: m).length, n⟩ := by
  unfold Encoding.escape at got ⊢
  split at got
  · next isQuote =>
    rw [if_pos isQuote]
    split at got
    · have length := (Piece.mk.inj (Except.ok.inj got)).2.1
      rw [length_append, Nat.add_eq_left, length_eq_zero_iff] at length
      exact absurd length ne
    · next length closing =>
      have eq := Except.ok.inj got
      have width := (Piece.mk.inj eq).2.1
      have closing' : indexOf? (ofString "\\E") (m ++ can) = some length := by
        refine indexOf?_append closing ?_ can
        rw [show (ofString "\\E").length = 2 by decide +kernel]
        simp only [length_cons] at width
        omega
      simp only [cons_append, drop_succ_cons, drop_zero, closing']
      exact congrArg _ (keep_append eq can)
  · next noQuote =>
    rw [if_neg noQuote]
    split at got
    · next isProp =>
      rw [if_pos isProp]
      split at got
      · next bs w category =>
        obtain ⟨t, v, k, number, -, -, rfl, -, denotes⟩ := denotes_of_category? isProp.1 category
        obtain ⟨known, small, -⟩ := denotes.meaningful
        exact absurd (Piece.mk.inj (Except.ok.inj got)).1 (encoded_ne known small _)
      · next unnamed =>
        have eq := Except.ok.inj got
        obtain rfl : m = [] := by simpa [keep, eq_comm] using (Piece.mk.inj eq).2.1
        have unnamed' := alike.unnamed c isProp.1 unnamed
        simp only [cons_append, nil_append, unnamed']
        exact congrArg _ (keep_append eq can)
    · next noProperty =>
      rw [if_neg noProperty]
      split at got
      · split at got
        · next number =>
          obtain ⟨_, _, -, -, -, -, -, small⟩ := groupNumber_eq_some (Nat.zero_le _) number
          exact absurd (Piece.mk.inj (Except.ok.inj got)).1
            (encoded_ne rfl (Nat.lt_succ_of_le small) _)
        · simp at got
      · next noDigit =>
        rw [if_neg noDigit]
        exact congrArg _ (keep_append (Except.ok.inj got) can)

theorem Alike.openSet (ne : f ≠ []) (eq : openSet (f ++ r) = ⟨f, f.length, n⟩) :
    openSet (f ++ can) = ⟨f, f.length, n⟩ := by
  have head {w : Nat} (within : w ≤ f.length) :
      ((f ++ can).drop w).head? = ((f ++ r).drop w).head? := by
    rw [drop_append_of_le_length within, drop_append_of_le_length within, head?_append,
      head?_append, alike.head]
  unfold Encoding.openSet at eq ⊢
  dsimp only at eq ⊢
  rw [head (length_pos_iff.mpr ne)]
  have width := (Piece.mk.inj eq).2.1
  rw [head (by rw [← width]; split <;> split <;> omega)]
  exact keep_append eq can

theorem Alike.named (inSet : p ≠ .outside)
    (got : Encoding.piece p (0x5B :: m ++ r) = .ok ⟨0x5B :: m, (0x5B :: m).length, n⟩) :
    Encoding.piece p (0x5B :: m ++ can) = .ok ⟨0x5B :: m, (0x5B :: m).length, n⟩ := by
  have head : (m ++ can).head? = (m ++ r).head? := by rw [head?_append, head?_append, alike.head]
  simp only [Encoding.piece, cons_append, inSet, if_false, head] at got ⊢
  split at got
  · next colon =>
    rw [if_pos colon]
    split at got
    · next open_eq =>
      have eq : keep (0x5B :: m ++ r) _ _ = _ := Except.ok.inj got
      obtain rfl : m = [] := by simpa [keep, eq_comm] using (Piece.mk.inj eq).2.1
      rw [nil_append] at colon open_eq ⊢
      rw [alike.unclosed colon open_eq]
      exact congrArg _ (keep_append eq can)
    · next len closing =>
      have eq : keep (0x5B :: m ++ r) _ _ = _ := Except.ok.inj got
      have width := (Piece.mk.inj eq).2.1
      rw [length_cons] at width
      have ne : 1 ≤ m.length := by omega
      rw [drop_append_of_le_length ne] at closing ⊢
      rw [indexOf?_append closing (by
        rw [show (ofString ":]").length = 2 by decide +kernel, length_drop]
        omega)]
      exact congrArg _ (keep_append eq can)
  · next noColon =>
    have eq : keep (0x5B :: m ++ r) _ _ = _ := Except.ok.inj got
    rw [if_neg noColon]
    exact congrArg _ (keep_append eq can)

/-- A piece that is kept is kept as well if the rest of the pattern is expanded. -/
theorem Alike.piece (ne : f ≠ []) (got : piece p (f ++ r) = .ok ⟨f, f.length, n⟩) :
    piece p (f ++ can) = .ok ⟨f, f.length, n⟩ := by
  by_cases empty : r = []
  · rw [alike.nil empty]
    rwa [empty] at got
  obtain ⟨b, m, rfl⟩ := exists_cons_of_ne_nil ne
  by_cases isEscape : b = 0x5C
  · subst isEscape
    cases m with
    | nil =>
      obtain ⟨c, tl, rfl⟩ := exists_cons_of_ne_nil empty
      exact absurd (escape_takes (show Encoding.escape p _ c = _ from got)).2 (by simp)
    | cons c m => exact alike.escape empty got
  by_cases isOpening : b = 0x5B
  · subst isOpening
    by_cases isOutside : p = .outside
    · subst isOutside
      exact congrArg _ (alike.openSet ne (Except.ok.inj got))
    · exact alike.named isOutside got
  by_cases isClosing : b = 0x5D
  · subst isClosing
    exact congrArg _ (keep_append (Except.ok.inj got) can)
  · have plain := And.intro isEscape (And.intro isOpening isClosing)
    rw [cons_append, piece_plain plain] at got ⊢
    exact got

end

theorem Scans.encodeRest (scans : Scans p parts) :
    encodeRest p (parts.flatMap Part.expanded) = .ok (parts.flatMap Part.target) := by
  induction scans with
  | nil => rfl
  | @kept pl n f parts ne got rest ih =>
    have eq := rest.alike.piece ne got
    rw [flatMap_cons, Part.expanded, encodeRest_of_piece (by simp [ne]) eq, drop_left, ih]
    rfl
  | @escape pl t k arg parts denotes allows rest ih =>
    have allows' : Allows pl k (parts.flatMap Part.expanded) := by rwa [Allows, rest.head?]
    have eq := denotes.canonical.piece allows'
    obtain ⟨m, canonical_eq, -⟩ := denotes.canonical.plain
    rw [flatMap_cons, Part.expanded, encodeRest_of_piece (by simp [canonical_eq]) eq,
      drop_left, ih]
    rfl

theorem expand_flatMap (faithful : ∀ part ∈ parts, part.Faithful) :
    expand (parts.flatMap Part.target) = parts.flatMap Part.expanded := by
  induction parts with
  | nil => rfl
  | cons part parts ih =>
    have rest := ih fun o mem => faithful o (.tail _ mem)
    rw [flatMap_cons, flatMap_cons, ← rest]
    cases part with
    | kept bs =>
      obtain ⟨cs, rfl, all⟩ := faithful _ (.head _)
      rw [expand, Part.target, Utf8.codes_flatMap_append fun c mem => (all c mem).1,
        flatMap_append]
      congr 1
      refine flatMap_congr fun c mem => ?_
      rw [expandCode, decode?, (all c mem).2]
      rfl
    | escape t k arg =>
      obtain ⟨known, small, -⟩ := (faithful _ (.head _) : Denotes t k arg).meaningful
      have dec := decode?_encode known small
      have bounds := isReserved_iff.mp (eq_encode_of_decode? dec).2.2
      have codes_eq := @Utf8.codes_flatMap_append [Codec.encode k arg]
        (by simpa using Utf8.isScalar_iff.mpr (by omega)) (parts.flatMap Part.target)
      rw [flatMap_singleton] at codes_eq
      rw [expand, Part.target, encoded, codes_eq, flatMap_append, flatMap_singleton, expandCode,
        dec]
      rfl

theorem hasReserved_of_holds (holds : Holds (fun c => isReserved c = false) bs) :
    hasReserved bs = false := by
  obtain ⟨cs, rfl, all⟩ := holds
  rw [hasReserved, Utf8.codes_flatMap fun c mem => (all c mem).1]
  exact any_eq_false.mpr fun c mem => by simp [(all c mem).2]

theorem Part.Faithful.holds {part : Part} (faithful : part.Faithful) :
    Holds (fun c => isReserved c = false) part.expanded := by
  cases part with
  | kept => exact faithful
  | escape t k arg =>
    obtain ⟨m, canonical_eq, plain⟩ := (show Denotes t k arg from faithful).canonical.plain
    have ascii : ∀ b ∈ canonical k arg, b.toNat < 0x80 := by
      rw [canonical_eq, forall_mem_cons]
      exact ⟨by decide, fun b mem => (plain b mem).1.1⟩
    refine ⟨(canonical k arg).map UInt8.toNat, (Utf8.flatMap_encode_ascii ascii).symm,
      fun c mem => ?_⟩
    obtain ⟨b, inText, rfl⟩ := mem_map.mp mem
    have small := ascii b inText
    refine ⟨Utf8.isScalar_iff.mpr (by omega), Bool.eq_false_iff.mpr (mt isReserved_iff.mp ?_)⟩
    omega

/-- The encoding loses nothing: a pattern consists of texts that are kept and of escapes whose code
points take their place, and with an escape of a fixed form in the place of every extension it is
encoded as before. -/
theorem encode_expand {pattern result : Bytes} (valid : Utf8.valid pattern = true)
    (encodes : encode pattern = .ok result) : encode (expand result) = .ok result ∧
      ∃ parts : List Part, (∀ part ∈ parts, part.Faithful) ∧ pattern = parts.flatMap Part.source ∧
        result = parts.flatMap Part.target ∧ expand result = parts.flatMap Part.expanded := by
  obtain ⟨parts, scans, rfl, rfl⟩ := exists_scans (encode_eq_ok encodes).2
  obtain ⟨whole, faithful, views⟩ := scans.exists_faithful
    (show Holds _ ([] ++ _) from holds_of_encode valid encodes)
  simp only [nil_append] at views
  have target_eq := views Part.target fun _ => rfl
  have expanded_eq := views Part.expanded fun _ => rfl
  have expand_eq : expand (parts.flatMap Part.target) = parts.flatMap Part.expanded := by
    rw [← target_eq, expand_flatMap faithful, expanded_eq]
  have unreserved : Codec.hasReserved (parts.flatMap Part.expanded) = false := by
    rw [← expanded_eq]
    exact hasReserved_of_holds (Holds.flatMap fun part listed => (faithful part listed).holds)
  refine ⟨?_, whole, faithful, (views Part.source fun _ => rfl).symm, target_eq.symm, ?_⟩
  · rw [expand_eq, encode, unreserved]
    exact scans.encodeRest
  · rw [expand_eq, expanded_eq]

theorem encode_uppercase : encode (Bytes.ofString "\\P\x7bLu\x7dé[^\\pL]\\1") =
    .ok (encoded .notCategory 12 ++ Bytes.ofString "é[^\\pL]" ++ encoded .backreference 1) := by
  have encodes : encode (Bytes.ofString "\\p\x7b^Lu\x7dé[^\\pL]\\1") =
      .ok (encoded .notCategory 12 ++ Bytes.ofString "é[^\\pL]" ++ encoded .backreference 1) := by
    decide +kernel
  have expands :
    expand (encoded .notCategory 12 ++ Bytes.ofString "é[^\\pL]" ++ encoded .backreference 1) =
      Bytes.ofString "\\P\x7bLu\x7dé[^\\pL]\\1" := by
    decide +kernel
  have valid : Utf8.valid (Bytes.ofString "\\p\x7b^Lu\x7dé[^\\pL]\\1") = true := by decide +kernel
  rw [← expands]
  exact (encode_expand valid encodes).1

end Rematch.Encoding
