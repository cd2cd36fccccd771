import Rematch.Extension.Encoding
import Rematch.Proofs.Text.Utf8

/-!
The escapes that stand for extensions. An escape names a category after a letter, or a group by its
number; the pieces of a pattern that are replaced are exactly these.
-/

namespace Rematch

open List Bytes Digits
open Unicode (Category)

theorem exists_of_map_eq_ok {ε α β : Type} {fn : α → β} {res : Except ε α} {v : β}
    (mapped : res.map fn = .ok v) : ∃ u, res = .ok u ∧ fn u = v := by
  cases res with
  | error => simp [Except.map] at mapped
  | ok u => exact ⟨u, rfl, Except.ok.inj mapped⟩

namespace Bytes

theorem toList_loop (bs : ByteArray) (i : Nat) (f : List UInt8) :
    ByteArray.toList.loop bs i f = f.reverse ++ bs.data.toList.drop i := by
  induction left : bs.size - i generalizing i f with
  | zero =>
    have outside : bs.data.toList.length ≤ i := by
      change bs.data.size ≤ i
      change bs.data.size - i = 0 at left
      omega
    rw [ByteArray.toList.loop, if_neg (by omega), drop_eq_nil_of_le outside, append_nil]
  | succ n ih =>
    have lt : i < bs.data.toList.length := by
      change i < bs.data.size
      change bs.data.size - i = n + 1 at left
      omega
    have here : bs.get! i = bs.data.toList.get ⟨i, lt⟩ := by
      have le : i < bs.data.size := lt
      change bs.data[i]! = _
      rw [getElem!_pos bs.data i le]
      rfl
    rw [ByteArray.toList.loop, if_pos (by omega), ih _ _ (by omega), here,
      drop_eq_getElem_cons lt]
    simp

theorem ofString_eq (t : String) : ofString t = t.toByteArray.data.toList := by
  rw [ofString, ByteArray.toList, toList_loop]
  rfl

theorem ofString_of_toString? {bs : Bytes} {t : String} (got : toString? bs = some t) :
    ofString t = bs := by
  unfold toString? String.fromUTF8? at got
  split at got
  · cases got
    rw [ofString_eq]
    rfl
  · simp at got

theorem toString?_ofString (t : String) : toString? (ofString t) = some t := by
  have bytes_eq : (⟨(ofString t).toArray⟩ : ByteArray) = t.toByteArray := by rw [ofString_eq]
  rw [toString?, bytes_eq, String.fromUTF8?]
  split
  · rfl
  · next invalid => exact False.elim (invalid t.isValidUTF8)

theorem indexOf?_of_not_mem {b : UInt8} {f : Bytes} (absent : b ∉ f) (r : Bytes) :
    indexOf? [b] (f ++ b :: r) = some f.length := by
  induction f with
  | nil => simp [indexOf?, List.isPrefixOf]
  | cons a fr ih =>
    obtain ⟨apart, absent'⟩ := not_or.mp (mt mem_cons.mpr absent)
    rw [cons_append, indexOf?, ih absent']
    simp [List.isPrefixOf, apart]

theorem indexOf?_eq_none {b : UInt8} {bs : Bytes} (absent : b ∉ bs) : indexOf? [b] bs = none := by
  induction bs with
  | nil => rfl
  | cons a r ih =>
    obtain ⟨apart, absent'⟩ := not_or.mp (mt mem_cons.mpr absent)
    rw [indexOf?, ih absent']
    simp [List.isPrefixOf, apart]

theorem indexOf?_bound {needle bs : Bytes} {i : Nat} (got : indexOf? needle bs = some i) :
    i + needle.length ≤ bs.length := by
  induction bs generalizing i with
  | nil =>
    unfold indexOf? at got
    split at got
    · next empty => simp [List.isEmpty_iff.mp empty, ← Option.some.inj got]
    · simp at got
  | cons b r ih =>
    unfold indexOf? at got
    split at got
    · next here =>
      rw [← Option.some.inj got, Nat.zero_add]
      exact ( isPrefixOf_iff_prefix.mp here).length_le
    · obtain ⟨u, there, rfl⟩ := Option.map_eq_some_iff.mp got
      have := ih there
      rw [length_cons]
      omega

end Bytes

namespace Encoding

variable {t r ds nm : Bytes} {k : ExtensionKind} {arg n : Nat} {p : Place} {b c : UInt8}

def IsLetter (byte : UInt8) : Prop :=
  0x41 ≤ byte.toNat ∧ byte.toNat ≤ 0x5A ∨ 0x61 ≤ byte.toNat ∧ byte.toNat ≤ 0x7A

instance (byte : UInt8) : Decidable (IsLetter byte) := inferInstanceAs (Decidable (_ ∨ _))

/-- A character of ASCII that begins and ends no class and no escape. -/
def IsPlain (byte : UInt8) : Prop :=
  byte.toNat < 0x80 ∧ byte ≠ 0x5C ∧ byte ≠ 0x5B ∧ byte ≠ 0x5D

instance (byte : UInt8) : Decidable (IsPlain byte) := inferInstanceAs (Decidable (_ ∧ _))

theorem IsLetter.ne (isLetter : IsLetter b) {m : UInt8} (noLetter : ¬IsLetter m) : b ≠ m := by
  rintro rfl
  exact noLetter isLetter

theorem IsLetter.isPlain (isLetter : IsLetter b) : IsPlain b := by
  refine ⟨?_, isLetter.ne (by decide), isLetter.ne (by decide), isLetter.ne (by decide)⟩
  unfold IsLetter at isLetter
  omega

/-- The name of the category with a number. -/
def Names (name : Bytes) (number : Nat) : Prop :=
  ∃ category, Category.ofNumber? number = some category ∧ name = Bytes.ofString category.name

theorem names_checked : (List.range Category.count).all (fun n =>
    (Category.ofNumber? n).all fun cat =>
      Category.numberOf? cat.name == some n &&
        (ofString cat.name).all fun b => decide (IsLetter b)) = true := by
  decide +kernel

theorem Names.checked (named : Names nm n) : n < Category.count ∧
    (toString? nm).bind Category.numberOf? = some n ∧ ∀ b ∈ nm, IsLetter b := by
  obtain ⟨cat, got, rfl⟩ := named
  have le : n < Category.count := (List.getElem?_eq_some_iff.mp got).1
  have checked := all_eq_true.mp names_checked n (mem_range.mpr le)
  rw [got, Option.all_some, Bool.and_eq_true, beq_iff_eq, all_eq_true] at checked
  refine ⟨le, ?_, fun b mem => of_decide_eq_true (checked.2 b mem)⟩
  rw [toString?_ofString, Option.bind_some, checked.1]

theorem names_of_numberOf? (got : (toString? nm).bind Category.numberOf? = some n) :
    Names nm n := by
  obtain ⟨string, string_eq, numbered⟩ := Option.bind_eq_some_iff.mp got
  obtain ⟨le, eq, -⟩ := findIdx?_eq_some_iff_getElem.mp numbered
  refine ⟨_, getElem?_eq_getElem le, ?_⟩
  rw [beq_iff_eq.mp eq, ofString_of_toString? string_eq]

/-- A capital letter negates a category, and so does a circumflex before its name. -/
def propertyKind (letter : UInt8) (inverted : Bool) : ExtensionKind :=
  if inverted != decide (letter = 0x50) then .notCategory else .category

theorem propertyKind_ne (c : UInt8) (inverted : Bool) :
    propertyKind c inverted ≠ .backreference := by
  unfold propertyKind
  split <;> simp

/-- A text is an escape that stands for an extension. -/
inductive Denotes : Bytes → ExtensionKind → Nat → Prop where
  | single {letter first number} (isProperty : letter = 0x70 ∨ letter = 0x50)
      (named : Names [first] number) :
      Denotes [0x5C, letter, first] (propertyKind letter false) number
  | braced {letter name number} (isProperty : letter = 0x70 ∨ letter = 0x50)
      (named : Names name number) :
      Denotes (0x5C :: letter :: 0x7B :: (name ++ [0x7D])) (propertyKind letter false) number
  | inverted {letter name number} (isProperty : letter = 0x70 ∨ letter = 0x50)
      (named : Names name number) :
      Denotes (0x5C :: letter :: 0x7B :: 0x5E :: (name ++ [0x7D])) (propertyKind letter true) number
  | reference {first} {digits} (least : 0x31 ≤ first.toNat) (greatest : first.toNat ≤ 0x39)
      (decimal : ∀ digit ∈ digits, (Digits.decimalValue? digit).isSome)
      (small : Digits.decimalNumber (first :: digits) ≤ maxGroup) :
      Denotes (0x5C :: first :: digits) .backreference (Digits.decimalNumber (first :: digits))

theorem decimalValue?_eq_some {d : Nat} (got : decimalValue? b = some d) :
    0x30 ≤ b.toNat ∧ b.toNat ≤ 0x39 ∧ d = b.toNat - 0x30 := by
  unfold decimalValue? at got
  split at got
  · next bounds =>
    simp only [Bool.and_eq_true, decide_eq_true_eq, UInt8.le_iff_toNat_le, UInt8.reduceToNat]
      at bounds
    exact ⟨bounds.1, bounds.2, (Option.some.inj got).symm⟩
  · simp at got

theorem decimalValue?_digit (least : 0x30 ≤ b.toNat) (greatest : b.toNat ≤ 0x39) :
    decimalValue? b = some (b.toNat - 0x30) := by
  rw [decimalValue?, if_pos]
  simp only [Bool.and_eq_true, decide_eq_true_eq, UInt8.le_iff_toNat_le, UInt8.reduceToNat]
  exact ⟨least, greatest⟩

theorem plain_digit (least : 0x30 ≤ b.toNat) (greatest : b.toNat ≤ 0x39) :
    IsPlain b ∧ b ≠ 0x3A := by
  have apart {m : UInt8} (large : 0x39 < m.toNat) : b ≠ m := by
    rintro rfl
    omega
  exact ⟨⟨by omega, apart (by decide), apart (by decide), apart (by decide)⟩, apart (by decide)⟩

/-- An escape consists of plain characters after its backslash. -/
theorem Denotes.plain (denotes : Denotes t k arg) :
    ∃ m, t = 0x5C :: m ∧ ∀ b ∈ m, IsPlain b ∧ b ≠ 0x3A := by
  have property {c : UInt8} (isProp : c = 0x70 ∨ c = 0x50) : IsPlain c ∧ c ≠ 0x3A := by
    rcases isProp with rfl | rfl <;> decide
  have letters {nm : Bytes} {n : Nat} (named : Names nm n) :
      ∀ b ∈ nm, IsPlain b ∧ b ≠ 0x3A := fun b mem =>
    have isLetter := named.checked.2.2 b mem
    ⟨isLetter.isPlain, isLetter.ne (by decide)⟩
  have marks : ∀ mk ∈ ([0x7B, 0x7D, 0x5E] : Bytes), IsPlain mk ∧ mk ≠ 0x3A := by decide +kernel
  cases denotes with
  | single isProp named =>
    refine ⟨_, rfl, fun b mem => ?_⟩
    rcases mem_cons.mp mem with rfl | mem
    · exact property isProp
    · exact letters named b mem
  | braced isProp named =>
    refine ⟨_, rfl, fun b mem => ?_⟩
    simp only [mem_cons, mem_append, not_mem_nil, or_false] at mem
    rcases mem with rfl | rfl | mem | rfl
    · exact property isProp
    · exact marks _ (by simp)
    · exact letters named b mem
    · exact marks _ (by simp)
  | inverted isProp named =>
    refine ⟨_, rfl, fun b mem => ?_⟩
    simp only [mem_cons, mem_append, not_mem_nil, or_false] at mem
    rcases mem with rfl | rfl | rfl | mem | rfl
    · exact property isProp
    · exact marks _ (by simp)
    · exact marks _ (by simp)
    · exact letters named b mem
    · exact marks _ (by simp)
  | reference least greatest decimal =>
    refine ⟨_, rfl, fun b mem => ?_⟩
    rcases mem_cons.mp mem with rfl | mem
    · exact plain_digit (by omega) greatest
    · obtain ⟨v, got⟩ := Option.isSome_iff_exists.mp (decimal b mem)
      obtain ⟨low, high, -⟩ := decimalValue?_eq_some got
      exact plain_digit low high

theorem category?_single {b : UInt8} (noBrace : b ≠ 0x7B) (r : Bytes) :
    category? (0x5C :: c :: b :: r) = ((toString? [b]).bind Category.numberOf?).map fun n =>
        (encoded (propertyKind c false) n, 3) := by
  simp [category?, noBrace, propertyKind]

theorem category?_braced (isProp : c = 0x70 ∨ c = 0x50) (closed : (0x7D : UInt8) ∉ nm) (r : Bytes) :
    category? (0x5C :: c :: 0x7B :: (nm ++ 0x7D :: r)) =
      ((toString? (if nm.head? = some 0x5E then nm.drop 1 else nm)).bind
        Category.numberOf?).map fun n =>
          (encoded (propertyKind c (decide (nm.head? = some 0x5E))) n, nm.length + 4) := by
  have closing : indexOf? [0x7D] (0x5C :: c :: 0x7B :: (nm ++ 0x7D :: r)) =
      some (nm.length + 3) := by
    have absent : (0x7D : UInt8) ∉ 0x5C :: c :: 0x7B :: nm := by
      simp only [mem_cons, not_or]
      refine ⟨by decide, ?_, by decide, closed⟩
      rcases isProp with rfl | rfl <;> decide
    exact indexOf?_of_not_mem absent r
  have name_eq : ((0x5C :: c :: 0x7B :: (nm ++ 0x7D :: r)).take (nm.length + 3)).drop 3 =
      nm := by simp
  simp only [category?, propertyKind, if_true, closing, Option.map_some, Option.bind_some, name_eq,
    decide_true, Bool.true_and, decide_eq_true_eq]

theorem Denotes.category? (denotes : Denotes t k arg) (category : k ≠ .backreference) (r : Bytes) :
    category? (t ++ r) = some (encoded k arg, t.length) := by
  cases denotes with
  | @single c b n _ named =>
    obtain ⟨-, known, letters⟩ := named.checked
    have noBrace : b ≠ 0x7B := (letters b (.head _)).ne (by decide)
    have got := @category?_single c b noBrace r
    rwa [known] at got
  | @braced c nm n isProp named =>
    obtain ⟨-, known, letters⟩ := named.checked
    have upright : nm.head? ≠ some 0x5E := fun head =>
      (letters _ (mem_of_head? head)).ne (by decide) rfl
    have closed : (0x7D : UInt8) ∉ nm := fun mem => (letters _ mem).ne (by decide) rfl
    have got := category?_braced isProp closed r
    rw [if_neg upright, known] at got
    simpa [upright] using got
  | @inverted c nm n isProp named =>
    obtain ⟨-, known, letters⟩ := named.checked
    have closed : (0x7D : UInt8) ∉ 0x5E :: nm := by
      simpa using fun mem => (letters _ mem).ne (by decide) rfl
    have got := category?_braced isProp closed r
    rw [head?_cons, if_pos rfl, drop_succ_cons, drop_zero, known] at got
    simpa using got
  | reference => exact absurd rfl category

theorem denotes_of_category? {bs : Bytes} {w : Nat} (isProp : c = 0x70 ∨ c = 0x50)
    (got : category? (0x5C :: c :: r) = some (bs, w)) :
    ∃ t v k n, 0x5C :: c :: r = t ++ v ∧ w = t.length ∧
      bs = encoded k n ∧ k ≠ .backreference ∧ Denotes t k n := by
  match r, got with
  | [], got => simp [category?] at got
  | b :: tl, got =>
  by_cases brace : b = 0x7B
  · subst brace
    by_cases closed : (0x7D : UInt8) ∈ tl
    · obtain ⟨nm, v, rfl, absent⟩ := eq_append_cons_of_mem closed
      rw [category?_braced isProp absent] at got
      obtain ⟨n, known, eq⟩ := Option.map_eq_some_iff.mp got
      cases eq
      have named := names_of_numberOf? known
      by_cases head : nm.head? = some 0x5E
      · rw [if_pos head] at named
        obtain ⟨nm, rfl⟩ := head?_eq_some_iff.mp head
        refine ⟨_, v, _, _, ?_, ?_, rfl, propertyKind_ne _ _, .inverted isProp named⟩
        · simp
        · simp
      · rw [if_neg head] at named
        refine ⟨_, v, _, _, ?_, ?_, by rw [decide_eq_false head], propertyKind_ne _ _,
          .braced isProp named⟩
        · simp
        · simp
    · have absent : (0x7D : UInt8) ∉ 0x5C :: c :: 0x7B :: tl := by
        rcases isProp with rfl | rfl <;> simpa using closed
      simp [category?, indexOf?_eq_none absent] at got
  · rw [category?_single brace] at got
    obtain ⟨n, known, eq⟩ := Option.map_eq_some_iff.mp got
    cases eq
    exact ⟨_, tl, _, _, rfl, rfl, rfl, propertyKind_ne _ _,
      .single isProp (names_of_numberOf? known)⟩

/-- The number that digits spell after others with a value. -/
def numberFrom (value : Nat) (digits : Bytes) : Nat :=
  digits.foldl (fun value byte => 10 * value + (Digits.decimalValue? byte).getD 0) value

theorem le_numberFrom (v : Nat) (ds : Bytes) : v ≤ numberFrom v ds := by
  induction ds generalizing v with
  | nil => exact Nat.le_refl _
  | cons d digits ih =>
    refine Nat.le_trans ?_ (ih _)
    dsimp only
    omega

theorem groupNumber_append {v n : Nat} (decimal : ∀ d ∈ ds, (decimalValue? d).isSome)
    (ends : ∀ b ∈ r.head?, decimalValue? b = none) (small : numberFrom v ds ≤ maxGroup) :
    groupNumber v n (ds ++ r) = (some (numberFrom v ds), n + ds.length) := by
  induction ds generalizing v n with
  | nil =>
    cases r with
    | nil => rfl
    | cons b tl =>
      rw [nil_append, groupNumber, ends b rfl]
      rfl
  | cons d digits ih =>
    obtain ⟨m, got⟩ := Option.isSome_iff_exists.mp (decimal d (.head _))
    have step : numberFrom v (d :: digits) = numberFrom (10 * v + m) digits := by
      rw [numberFrom, foldl_cons, got]
      rfl
    rw [step] at small ⊢
    have within := Nat.le_trans (le_numberFrom _ _) small
    rw [cons_append, groupNumber, got]
    dsimp only
    rw [if_neg (Nat.not_lt.mpr within), ih (fun o mem => decimal o (.tail _ mem)) small,
      length_cons, Nat.add_assoc, Nat.add_comm 1]

theorem groupNumber_eq_none {v n : Nat} (decimal : ∀ d ∈ ds, (decimalValue? d).isSome)
    (small : v ≤ maxGroup) (large : maxGroup < numberFrom v ds) :
    (groupNumber v n (ds ++ r)).1 = none := by
  induction ds generalizing v n with
  | nil => exact absurd large (Nat.not_lt.mpr small)
  | cons d digits ih =>
    obtain ⟨m, got⟩ := Option.isSome_iff_exists.mp (decimal d (.head _))
    rw [cons_append, groupNumber, got]
    dsimp only
    split
    · rfl
    · next within =>
      refine ih (fun o mem => decimal o (.tail _ mem)) (Nat.not_lt.mp within) ?_
      rwa [numberFrom, foldl_cons, got] at large

theorem groupNumber_eq_some {w : Bytes} {v n gr wd : Nat} (small : v ≤ maxGroup)
    (got : groupNumber v n w = (some gr, wd)) :
    ∃ ds r, w = ds ++ r ∧ wd = n + ds.length ∧ (∀ d ∈ ds, (decimalValue? d).isSome) ∧
      (∀ b ∈ r.head?, decimalValue? b = none) ∧ gr = numberFrom v ds ∧ gr ≤ maxGroup := by
  fun_induction groupNumber v n w with
  | case1 =>
    obtain ⟨eq, rfl⟩ := Prod.mk.inj got
    cases eq
    exact ⟨[], [], rfl, rfl, by simp, by simp, rfl, small⟩
  | case2 v n b tl noDigit =>
    obtain ⟨eq, rfl⟩ := Prod.mk.inj got
    cases eq
    exact ⟨[], _, rfl, rfl, by simp, by simpa using noDigit, rfl, small⟩
  | case3 => simp at got
  | case4 v n b tl digit decimal nx within ih =>
    obtain ⟨ds, r, rfl, rfl, all, ends, group_eq, below⟩ := ih (by omega) got
    refine ⟨b :: ds, r, rfl, by rw [length_cons]; omega, ?_, ends, ?_, below⟩
    · rw [forall_mem_cons]
      exact ⟨by rw [decimal]; rfl, all⟩
    · rw [group_eq, numberFrom, numberFrom, foldl_cons, decimal]
      rfl

/-- Whether an escape of a kind is replaced at a place: there are no backreferences in classes, and
a backreference takes all digits. -/
def Allows (place : Place) (kind : ExtensionKind) (rest : Bytes) : Prop :=
  if kind = .backreference then
    place = .outside ∧ ∀ byte ∈ rest.head?, Digits.decimalValue? byte = none
  else place ≠ .inNegatedSet

theorem Denotes.begins (denotes : Denotes t k arg) (category : k ≠ .backreference) :
    ∃ c m, t = 0x5C :: c :: m ∧ (c = 0x70 ∨ c = 0x50) := by
  cases denotes with
  | single isProp => exact ⟨_, _, rfl, isProp⟩
  | braced isProp => exact ⟨_, _, rfl, isProp⟩
  | inverted isProp => exact ⟨_, _, rfl, isProp⟩
  | reference => exact absurd rfl category

theorem escape_digit (least : 0x31 ≤ b.toNat) (greatest : b.toNat ≤ 0x39) (r : Bytes) :
    escape .outside (0x5C :: b :: r) b = match groupNumber 0 0 (b :: r) with
      | (some gr, ds) => .ok ⟨encoded .backreference gr, ds + 1, .outside⟩
      | (none, ds) => .error (.groupTooLarge ((0x5C :: b :: r).take (ds + 1))) := by
  have apart (m : UInt8) (large : 0x39 < m.toNat) : b ≠ m := by
    rintro rfl
    omega
  have bounds : 0x31 ≤ b ∧ b ≤ 0x39 :=
    ⟨UInt8.le_iff_toNat_le.mpr least, UInt8.le_iff_toNat_le.mpr greatest⟩
  rcases found : groupNumber 0 0 (b :: r) with ⟨_ | gr, ds⟩ <;>
    simp [escape, apart 0x51 (by decide), apart 0x70 (by decide), apart 0x50 (by decide), bounds,
      found]

/-- An escape is replaced where its kind is allowed. -/
theorem Denotes.piece (denotes : Denotes t k arg) (allows : Allows p k r) :
    piece p (t ++ r) = .ok ⟨encoded k arg, t.length, p⟩ := by
  unfold Allows at allows
  split at allows
  · next eq =>
    obtain ⟨rfl, ends⟩ := allows
    cases denotes with
    | single | braced | inverted => exact absurd eq (propertyKind_ne _ _)
    | @reference b ds least greatest decimal small =>
      have all : ∀ d ∈ b :: ds, (decimalValue? d).isSome := by
        rw [forall_mem_cons, decimalValue?_digit (by omega) greatest]
        exact ⟨rfl, decimal⟩
      have number : groupNumber 0 0 (b :: (ds ++ r)) = _ := groupNumber_append all ends small
      change escape .outside (0x5C :: b :: (ds ++ r)) b = _
      rw [escape_digit least greatest, number, Nat.zero_add]
      rfl
  · next category =>
    have got := denotes.category? category r
    obtain ⟨c, m, rfl, isProp⟩ := denotes.begins category
    have noQuote : c ≠ 0x51 := by rcases isProp with rfl | rfl <;> decide
    change escape p (0x5C :: c :: m ++ r) c = _
    simp only [escape, noQuote, false_and, if_false, isProp, allows, ne_eq, not_false_eq_true,
      and_self, if_true, got]

/-- Every piece takes something, and it keeps what it takes or replaces an escape. -/
inductive Piece.Takes (place : Place) (input : Bytes) (piece : Piece) : Prop where
  | kept (positive : 1 ≤ piece.width) (bound : piece.width ≤ input.length)
      (bytes_eq : piece.bytes = input.take piece.width)
  | replaced {text rest kind arg} (denotes : Denotes text kind arg)
      (allows : Allows place kind rest) (input_eq : input = text ++ rest)
      (piece_eq : piece = ⟨encoded kind arg, text.length, place⟩)

theorem takes_keep {w : Bytes} {wd : Nat} (pos : 1 ≤ wd) (le : wd ≤ w.length) (n : Place) :
    (keep w wd n).Takes p w :=
  .kept pos le rfl

theorem escape_takes {pc : Piece} (got : escape p (0x5C :: c :: r) c = .ok pc) :
    pc.Takes p (0x5C :: c :: r) ∧ 2 ≤ pc.width := by
  unfold escape at got
  split at got
  · split at got
    · cases got
      exact ⟨takes_keep (by simp) (Nat.le_refl _) _, by simp [keep]⟩
    · next len closing =>
      cases got
      have le := indexOf?_bound closing
      rw [show (ofString "\\E").length = 2 by decide +kernel] at le
      exact ⟨takes_keep (by omega) (by simpa using le) _, Nat.le_add_left 2 _⟩
  split at got
  · next isProp =>
    split at got
    · next bs w category =>
      cases got
      obtain ⟨t, v, k, n, input_eq, rfl, rfl, isCategory, denotes⟩ :=
        denotes_of_category? isProp.1 category
      refine ⟨.replaced denotes (by rw [Allows, if_neg isCategory]; exact isProp.2) input_eq rfl,
        ?_⟩
      obtain ⟨_, _, rfl, -⟩ := denotes.begins isCategory
      exact Nat.le_add_left 2 _
    · cases got
      exact ⟨takes_keep (by omega) (by simp) _, Nat.le_refl _⟩
  split at got
  · next isDigit =>
    obtain ⟨least, greatest, rfl⟩ := isDigit
    simp only [UInt8.le_iff_toNat_le, UInt8.reduceToNat] at least greatest
    split at got
    · next gr w number =>
      cases got
      obtain ⟨ds, after, input_eq, rfl, decimal, ends, rfl, below⟩ :=
        groupNumber_eq_some (Nat.zero_le _) number
      rw [drop_succ_cons, drop_zero] at input_eq
      cases ds with
      | nil =>
        have noDigit := ends c (by simp [← show c :: r = after from input_eq])
        rw [decimalValue?_digit (by omega) greatest] at noDigit
        simp at noDigit
      | cons b digits =>
        cases input_eq
        refine ⟨.replaced (.reference least greatest (forall_mem_cons.mp decimal).2 below) ?_ rfl
          ?_, ?_⟩
        · rw [Allows, if_pos rfl]
          exact ⟨rfl, ends⟩
        · rw [Nat.zero_add]
          rfl
        · simp
    · simp at got
  · cases got
    exact ⟨takes_keep (by omega) (by simp) _, Nat.le_refl _⟩

theorem openSet_takes (r : Bytes) : (openSet (0x5B :: r)).Takes p (0x5B :: r) := by
  refine takes_keep (by split <;> split <;> omega) ?_ _
  match r with
  | [] => simp
  | [b] => simp; split <;> split <;> simp_all
  | b :: c :: tl => split <;> split <;> simp

theorem piece_takes {w : Bytes} {pc : Piece} (ne : w ≠ []) (got : Encoding.piece p w = .ok pc) :
    pc.Takes p w := by
  unfold Encoding.piece at got
  split at got
  · exact (escape_takes got).1
  · split at got
    · cases got
      exact openSet_takes _
    split at got
    · split at got
      · cases got
        exact takes_keep (Nat.le_refl _) (by simp) _
      · next len closing =>
        cases got
        have le := indexOf?_bound closing
        rw [show (ofString ":]").length = 2 by decide +kernel, length_drop] at le
        exact takes_keep (by omega) (by rw [length_cons]; omega) _
    · cases got
      exact takes_keep (Nat.le_refl _) (by simp) _
  · cases got
    exact takes_keep (Nat.le_refl _) (by simp) _
  · cases got
    exact takes_keep (Nat.le_refl _) (length_pos_iff.mpr ne) _

theorem Piece.Takes.positive {w : Bytes} {pc : Piece} (takes : pc.Takes p w) : 1 ≤ pc.width := by
  cases takes with
  | kept pos => exact pos
  | replaced denotes allows input_eq piece_eq =>
    obtain ⟨m, rfl, -⟩ := denotes.plain
    rw [piece_eq]
    exact Nat.succ_pos _

end Encoding

end Rematch
