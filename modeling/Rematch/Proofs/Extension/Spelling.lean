import Rematch.Proofs.Extension.Classes
import Rematch.Proofs.Extension.Pieces
import Rematch.Proofs.Pattern.Codes

/-!
The parts of patterns that consist of letters, groups, alternatives, repetitions, categories,
backreferences, and classes of letters and categories, into which escapes of reserved code points
may be put. Every part is encoded by itself, and what takes its place is read as one token, which
shows no reserved code points but those that are written as escapes or stand in the encoded text.
-/

namespace Rematch

open List Digits Scanner Token Utf8 Bytes Codec
open Unicode (CodeSet)

namespace Encoding

def IsCategory (name : Bytes) : Prop :=
  ∃ category ∈ Unicode.Category.all, name = Bytes.ofString category.name

/-- An escape that stands for a category. -/
inductive CategoryEscape : Bytes → Prop where
  | single {letter first} (isProperty : letter = 0x70 ∨ letter = 0x50)
      (isCategory : IsCategory [first]) : CategoryEscape [0x5C, letter, first]
  | braced {letter name} (isProperty : letter = 0x70 ∨ letter = 0x50)
      (isCategory : IsCategory name) : CategoryEscape (0x5C :: letter :: 0x7B :: (name ++ [0x7D]))
  | inverted {letter name} (isProperty : letter = 0x70 ∨ letter = 0x50)
      (isCategory : IsCategory name) :
      CategoryEscape (0x5C :: letter :: 0x7B :: 0x5E :: (name ++ [0x7D]))

/-- What stands for one code point outside of classes and in them, with the reserved code points
that are written there. -/
inductive Item : Place → Bytes → List Nat → Prop where
  | letter {place byte} (isLetter : IsLetter byte) : Item place [byte] []
  | category {place text} (positive : place ≠ .inNegatedSet)
      (isCategory : CategoryEscape text) : Item place text []
  | reference {first} {digits} (least : 0x31 ≤ first.toNat)
      (greatest : first.toNat ≤ 0x39)
      (decimal : ∀ digit ∈ digits, (Digits.decimalValue? digit).isSome) :
      Item .outside (0x5C :: first :: digits) []
  | escape {place} {digits}
      (hexadecimal : ∀ digit ∈ digits, (Digits.hexValue? digit.toNat).isSome)
      (reserved : Codec.isReserved (Digits.hexNumber digits) = true) :
      Item place (0x5C :: 0x78 :: 0x7B :: (digits ++ [0x7D])) [Digits.hexNumber digits]

/-- The members of a class, of which there is at least one. -/
inductive Members : Bytes → List Nat → Prop where
  | item {text codes} (item : Item .inSet text codes) : Members text codes
  | range {first last} (isLetter : IsLetter first) (isLetter' : IsLetter last) :
      Members [first, 0x2D, last] []
  | append {text others codes more} (first : Members text codes)
      (rest : Members others more) : Members (text ++ others) (codes ++ more)

/-- What can be repeated, or the end of it. -/
inductive Atom : Bytes → List Nat → Prop where
  | item {text codes} (item : Item .outside text codes) : Atom text codes
  | set {text codes} (members : Members text codes) :
      Atom (0x5B :: (text ++ [0x5D])) codes
  | close : Atom [0x29] []

structure IsCount (digits : Bytes) : Prop where
  nonempty : digits ≠ []
  decimal : ∀ digit ∈ digits, (Digits.decimalValue? digit).isSome
  noZero : digits.head? = some 0x30 → digits.length = 1

/-- A mark that repeats what is in front of it. -/
inductive Mark : Bytes → Prop where
  | star : Mark [0x2A]
  | plus : Mark [0x2B]
  | quest : Mark [0x3F]
  | exactly {least} (isCount : IsCount least) : Mark (0x7B :: (least ++ [0x7D]))
  | atLeast {least} (isCount : IsCount least) : Mark (0x7B :: (least ++ [0x2C, 0x7D]))
  | between {least most} (isCount : IsCount least) (isCount' : IsCount most) :
      Mark (0x7B :: (least ++ 0x2C :: (most ++ [0x7D])))

/-- The begin of a group, with a name or with letters that switch something on or off. -/
inductive Opening : Bytes → Prop where
  | plain : Opening [0x28]
  | named {letters name} (style : letters = [] ∨ letters = [0x50])
      (alphanumeric : ∀ byte ∈ name, byte = 0x5F ∨ Scanner.isAlphanumeric byte.toNat = true) :
      Opening (0x28 :: 0x3F :: (letters ++ 0x3C :: (name ++ [0x3E])))
  | switching {letters} {last} (ends : last = 0x3A ∨ last = 0x29)
      (switches : ∀ byte ∈ letters, byte ∈ [0x69, 0x6D, 0x73, 0x55, 0x2D]) :
      Opening (0x28 :: 0x3F :: (letters ++ [last]))

/-- A pattern of letters, groups, alternatives, repetitions, categories, backreferences, and classes
of letters and categories, with the reserved code points that are written in it as escapes. -/
inductive Written : Bytes → List Nat → Prop where
  | nil : Written [] []
  | opening {text rest codes} (opening : Opening text)
      (written : Written rest codes) : Written (text ++ rest) codes
  | bar {rest codes} (written : Written rest codes) :
      Written (0x7C :: rest) codes
  | atom {text rest codes more} (atom : Atom text codes)
      (written : Written rest more) : Written (text ++ rest) (codes ++ more)
  | repeated {text sign rest codes more} (atom : Atom text codes)
      (mark : Mark sign) (written : Written rest more) :
      Written (text ++ (sign ++ rest)) (codes ++ more)
  | lazy {text sign rest codes more} (atom : Atom text codes)
      (mark : Mark sign) (written : Written rest more) :
      Written (text ++ (sign ++ 0x3F :: rest)) (codes ++ more)

/-- The text begins, and not with a mark or a digit that belongs to what is in front of it. -/
def Begins (text : Bytes) : Prop :=
  ∃ byte others, text = byte :: others ∧ byte ∉ [0x2D, 0x3F, 0x5D, 0x5E] ∧
    Digits.decimalValue? byte = none

theorem begins_cons {b : UInt8} (plain : 0x80 ≤ b.toNat ∨ IsLetter b) (r : Bytes) :
    Begins (b :: r) := by
  have marks : ∀ m ∈ ([0x2D, 0x3F, 0x5D, 0x5E] : Bytes), ¬(0x80 ≤ m.toNat ∨ IsLetter m) := by
    unfold IsLetter
    simp
  refine ⟨b, r, rfl, fun isMark => marks b isMark plain, ?_⟩
  unfold IsLetter at plain
  simp only [decimalValue?, UInt8.le_iff_toNat_le, UInt8.reduceToNat]
  rw [if_neg (by simp; omega)]

variable {t : Bytes}

theorem Begins.append (beg : Begins t) (r : Bytes) : Begins (t ++ r) := by
  obtain ⟨b, others, rfl, noMark⟩ := beg
  exact ⟨b, others ++ r, rfl, noMark⟩

theorem Begins.ne_nil (beg : Begins t) : t ≠ [] := by
  obtain ⟨b, others, rfl, -⟩ := beg
  simp

theorem Begins.head?_ne (beg : Begins t) {m : UInt8}
    (isMark : m ∈ [0x2D, 0x3F, 0x5D, 0x5E]) : t.head? ≠ some m := by
  obtain ⟨b, others, rfl, noMark, -⟩ := beg
  intro eq
  exact noMark (Option.some.inj eq ▸ isMark)

theorem CategoryEscape.denotes (escape : CategoryEscape t) :
    ∃ k n, k ≠ .backreference ∧ Denotes t k n := by
  have names {nm : Bytes} (isCategory : IsCategory nm) : ∃ n, Names nm n := by
    obtain ⟨cat, mem, rfl⟩ := isCategory
    obtain ⟨n, got⟩ := mem_iff_getElem?.mp mem
    exact ⟨n, cat, got, rfl⟩
  cases escape with
  | single isProp isCategory =>
    obtain ⟨n, named⟩ := names isCategory
    exact ⟨_, n, propertyKind_ne _ _, .single isProp named⟩
  | braced isProp isCategory =>
    obtain ⟨n, named⟩ := names isCategory
    exact ⟨_, n, propertyKind_ne _ _, .braced isProp named⟩
  | inverted isProp isCategory =>
    obtain ⟨n, named⟩ := names isCategory
    exact ⟨_, n, propertyKind_ne _ _, .inverted isProp named⟩

end Encoding

namespace Scanner

variable {b : UInt8} {w ds r : Bytes} {fc : Bool}

theorem code_ascii (ascii : b.toNat < 0x80) (r : Bytes) : code (b :: r) = .ok (b.toNat, r) := by
  have scalar : isScalar b.toNat = true := isScalar_iff.mpr (by omega)
  have read := code_encode scalar r
  rwa [encode_ascii ascii] at read

/-- The number that hexadecimal digits spell after others. -/
def hexFrom (value : Nat) (digits : Bytes) : Nat :=
  digits.foldl (fun value byte => 16 * value + (Digits.hexValue? byte.toNat).getD 0) value

theorem le_hexFrom (ds : Bytes) (v : Nat) : v ≤ hexFrom v ds := by
  induction ds generalizing v with
  | nil => exact Nat.le_refl _
  | cons d digits ih =>
    have next := ih (16 * v + (hexValue? d.toNat).getD 0)
    exact Nat.le_trans (by omega) next

theorem bracedHex_eq (hex : ∀ d ∈ ds, (hexValue? d.toNat).isSome)
    {u : Option Nat} (ne : u.isSome ∨ ds ≠ []) {n : Nat} (enough : ds.length < n)
    (small : hexFrom (u.getD 0) ds ≤ Unicode.maxCode) (r : Bytes) :
    bracedHex w n u (ds ++ 0x7D :: r) = .ok (hexFrom (u.getD 0) ds, r) := by
  induction ds generalizing u n with
  | nil =>
    obtain ⟨v, rfl⟩ := Option.isSome_iff_exists.mp (ne.resolve_right (by simp))
    obtain ⟨n, rfl⟩ := Nat.exists_eq_add_one.mpr enough
    rw [nil_append, bracedHex, code_ascii (by decide)]
    · rfl
    · simp
  | cons d digits ih =>
    obtain ⟨v, value_eq⟩ := Option.isSome_iff_exists.mp (hex d (.head _))
    obtain ⟨n, rfl⟩ := Nat.exists_eq_add_one.mpr (Nat.zero_lt_of_lt enough)
    have ascii : d.toNat < 0x80 ∧ d.toNat ≠ 0x7D := by
      unfold hexValue? at value_eq
      grind
    have digits_eq : hexFrom (u.getD 0) (d :: digits) = hexFrom (16 * u.getD 0 + v) digits := by
      rw [hexFrom, foldl_cons, value_eq]
      rfl
    rw [digits_eq] at small ⊢
    have next := Nat.le_trans (le_hexFrom digits _) small
    have others := @ih (fun o mem => hex o (.tail _ mem))
      (some (16 * u.getD 0 + v)) (.inl rfl) _ (Nat.lt_of_succ_lt_succ enough) small
    rw [cons_append, bracedHex, code_ascii ascii.1]
    · simp only [if_neg ascii.2, value_eq, if_pos next]
      exact others
    · simp

theorem escape_hex (hex : ∀ d ∈ ds, (hexValue? d.toNat).isSome) (ne : ds ≠ [])
    (small : hexNumber ds ≤ Unicode.maxCode) (r : Bytes) :
    escape (0x5C :: 0x78 :: 0x7B :: (ds ++ 0x7D :: r)) = .ok (hexNumber ds, r) := by
  have enough : ds.length < (ds ++ 0x7D :: r).length + 1 := by
    rw [length_append]
    omega
  simp only [escape, drop_succ_cons, drop_zero, hexEscape,
    code_ascii (show (0x78 : UInt8).toNat < 0x80 by decide),
    code_ascii (show (0x7B : UInt8).toNat < 0x80 by decide)]
  exact @bracedHex_eq _ ds hex none (.inr ne) _ enough small r

theorem namedSet_none (noBracket : w.head? ≠ some 0x5B) : namedSet fc w = .ok none := by
  have plain : List.isPrefixOf (ofString "[:") w = false := by
    rw [show ofString "[:" = [0x5B, 0x3A] by decide +kernel]
    cases w with
    | nil => rfl
    | cons b r =>
      have apart : (0x5B : UInt8) ≠ b := fun eq => noBracket (by rw [eq]; rfl)
      simp [List.isPrefixOf, apart]
  simp [namedSet, plain]

theorem memberRange_single {inp : Bytes} {v : Nat}
    (read : member w inp = .ok (v, r)) (noRange : r.head? ≠ some 0x2D) :
    memberRange fc w inp = .ok (finishSet fc false [⟨v, v⟩], r) := by
  unfold memberRange
  rw [read]
  dsimp only
  split
  · simp at noRange
  · rfl

theorem member_eq (noEscape : b ≠ 0x5C) : member w (b :: r) = code (b :: r) := by
  unfold member
  split
  · next eq => exact absurd eq (by simp)
  · next eq => exact absurd (cons.inj eq).1 noEscape
  · rfl

theorem setItem_code {wh : Bytes}
    (noBracket : w.head? ≠ some 0x5B) (noEscape : w.head? ≠ some 0x5C) :
    setItem fc wh w = memberRange fc wh w := by
  have noProperty : property fc w = .ok none := by
    unfold property
    split
    · simp at noEscape
    · rfl
  have noLetter : letterSet fc w = none := by
    unfold letterSet
    split
    · simp at noEscape
    · rfl
  simp [setItem, namedSet_none noBracket, noProperty, noLetter]

theorem setItem_hex (fc : Bool) (w r : Bytes) :
    setItem fc w (0x5C :: 0x78 :: r) = memberRange fc w (0x5C :: 0x78 :: r) := by
  simp only [setItem, namedSet_none (show (0x5C :: 0x78 :: r).head? ≠ some 0x5B by simp)]
  rfl

end Scanner

namespace Encoding

/-- A text that is read as one code point, outside of classes and in them. -/
structure Spells (text : Bytes) (code : Nat) : Prop where
  begins : Begins text
  scan : ∀ mode rest, Token.scan mode (text ++ rest) = .ok (.literal [code], rest)
  setItem : ∀ foldCase whole rest, rest.head? ≠ some 0x2D →
    Scanner.setItem foldCase whole (text ++ rest) =
      .ok (finishSet foldCase false [⟨code, code⟩], rest)

variable {c : Nat} {b z : UInt8} {others ds t r res f sign v ls : Bytes} {p : Place}
  {cs parts : List Nat}
  {m : Mode} {token : Token}

theorem spells_encode (scalar : isScalar c = true)
    (encode_eq : Utf8.encode c = b :: others) (plain : 0x80 ≤ b.toNat ∨ IsLetter b) :
    Spells (Utf8.encode c) c := by
  have noMark : b ≠ 0x5B ∧ b ≠ 0x5C := by
    rcases plain with high | isLetter
    · constructor <;>
      · rintro rfl
        simp at high
    · exact ⟨isLetter.isPlain.2.2.1, isLetter.isPlain.2.1⟩
  have beg := begins_cons plain others
  unfold IsLetter at plain
  refine ⟨encode_eq ▸ beg, ?_, ?_⟩
  · exact scan_code scalar (by rw [encode_eq]; rfl) (by omega) (by omega) (by omega)
  · intro fc w r noRange
    have begins : (Utf8.encode c ++ r).head? = some b := by
      rw [encode_eq]
      rfl
    rw [Scanner.setItem_code (by simp [begins, noMark]) (by simp [begins, noMark])]
    refine memberRange_single ?_ noRange
    have read := code_encode scalar r
    rw [encode_eq, cons_append] at read ⊢
    exact (member_eq noMark.2).trans read

theorem spells_escape (hex : ∀ d ∈ ds, (hexValue? d.toNat).isSome)
    (res : isReserved (hexNumber ds) = true) :
    Spells (0x5C :: 0x78 :: 0x7B :: (ds ++ [0x7D])) (hexNumber ds) := by
  have bounds := isReserved_iff.mp res
  have ne : ds ≠ [] := by
    rintro rfl
    exact absurd res (by decide)
  have small : hexNumber ds ≤ Unicode.maxCode := Nat.le_trans bounds.2 (by decide)
  refine ⟨⟨_, _, rfl, by decide⟩, fun m r => ?_, fun fc w r noRange => ?_⟩
  · have read := escape_hex hex ne small r
    simp only [cons_append, append_assoc, nil_append]
    change (Scanner.escape _).map _ = _
    rw [read]
    rfl
  · have read := Scanner.escape_hex hex ne small r
    simp only [cons_append, append_assoc, nil_append]
    rw [setItem_hex]
    exact memberRange_single read noRange

/-- A text that consists of the given code points. -/
structure Encodes (text : Bytes) (points : List Nat) : Prop where
  text_eq : text = points.flatMap Utf8.encode
  scalars : ∀ point ∈ points, Utf8.isScalar point = true

theorem encodes_ascii (ascii : ∀ b ∈ t, b.toNat < 0x80) :
    Encodes t (t.map (·.toNat)) where
  text_eq := (flatMap_encode_ascii ascii).symm
  scalars := by
    intro p mem
    obtain ⟨b, mb, rfl⟩ := mem_map.mp mem
    have := ascii b mb
    exact isScalar_iff.mpr (by omega)

theorem not_mem_ascii (ascii : ∀ b ∈ t, b.toNat < 0x80)
    (res : isReserved c = true) : c ∉ t.map (·.toNat) := by
  have high := (isReserved_iff.mp res).1
  intro mem
  obtain ⟨b, mb, rfl⟩ := mem_map.mp mem
  have := ascii b mb
  omega

theorem Encodes.append {t others : Bytes} {parts r : List Nat} (fst : Encodes t parts)
    (snd : Encodes others r) :
    Encodes (t ++ others) (parts ++ r) where
  text_eq := by rw [flatMap_append, ← fst.text_eq, ← snd.text_eq]
  scalars p mem := (mem_append.mp mem).elim (fst.scalars p) (snd.scalars p)

/-- A text that takes the place of a part of a pattern: it is read as one code point, and a reserved
code point is that one if it is written as an escape or stands in the text. -/
structure Replaces (front : Bytes) (code : Nat) (codes points : List Nat) : Prop where
  spells : Spells front code
  encodes : Encodes front points
  held : ∀ other, Codec.isReserved other = true → (other = code ↔ other ∈ codes ∨ other ∈ points)

theorem replaces_encode {c : Nat} (scalar : isScalar c = true) {b : UInt8} {others : Bytes}
    (encode_eq : Utf8.encode c = b :: others) (plain : 0x80 ≤ b.toNat ∨ IsLetter b) :
    Replaces (Utf8.encode c) c [] [c] where
  spells := spells_encode scalar encode_eq plain
  encodes := ⟨by simp, by simpa using scalar⟩
  held := by simp

theorem Inserts.replaces {bs : Bytes} (inserts : Inserts bs) : ∃ c, Replaces bs c [] [c] := by
  obtain ⟨c, meaningful, rfl⟩ := inserts
  have bounds := isReserved_iff.mp meaningful.isReserved
  have scalar : isScalar c = true := isScalar_iff.mpr (by omega)
  obtain ⟨b, others, encode_eq⟩ := exists_cons_of_length_pos (length_encode_pos c)
  have side := Utf8.ascii_of_mem_encode scalar (show b ∈ Utf8.encode c by simp [encode_eq])
  exact ⟨c, replaces_encode scalar encode_eq (.inl (by omega))⟩

theorem replaces_letter (isLetter : IsLetter b) : Replaces [b] b.toNat [] [b.toNat] := by
  have ascii := isLetter.isPlain.1
  have encode_eq := Utf8.encode_ascii ascii
  have replaces := replaces_encode (Utf8.isScalar_iff.mpr (by omega)) encode_eq (.inr isLetter)
  rwa [encode_eq] at replaces

theorem replaces_escape (hex : ∀ d ∈ ds, (hexValue? d.toNat).isSome)
    (res : isReserved (hexNumber ds) = true) :
    Replaces (0x5C :: 0x78 :: 0x7B :: (ds ++ [0x7D])) (hexNumber ds)
      [hexNumber ds] ((0x5C :: 0x78 :: 0x7B :: (ds ++ [0x7D])).map (·.toNat)) := by
  have ascii : ∀ b ∈ 0x5C :: 0x78 :: 0x7B :: (ds ++ [0x7D]), b.toNat < 0x80 := by
    intro b mem
    simp only [mem_cons, mem_append, not_mem_nil, or_false] at mem
    rcases mem with rfl | rfl | rfl | mem | rfl
    · decide
    · decide
    · decide
    · obtain ⟨v, value_eq⟩ := Option.isSome_iff_exists.mp (hex b mem)
      unfold hexValue? at value_eq
      grind
    · decide
  refine ⟨spells_escape hex res, encodes_ascii ascii, fun j res' => ?_⟩
  simp only [not_mem_ascii ascii res', mem_singleton, or_false]

theorem Denotes.encodeRest {k : ExtensionKind} {arg : Nat}
    (denotes : Denotes t k arg) (allows : Allows p k r) (enc : encodeRest p (t ++ r) = .ok res) :
    ∃ bs b, Inserts bs ∧ res = bs ++ b ∧ encodeRest p r = .ok b := by
  obtain ⟨m, text_eq, -⟩ := denotes.plain
  rw [encodeRest_of_piece (by simp [text_eq]) (denotes.piece allows), drop_left] at enc
  obtain ⟨b, back_eq, rfl⟩ := exists_of_map_eq_ok enc
  exact ⟨_, b, denotes.inserts, rfl, back_eq⟩

theorem encodeRest_reference (least : 0x31 ≤ b.toNat)
    (greatest : b.toNat ≤ 0x39) (decimal : ∀ d ∈ ds, (decimalValue? d).isSome)
    (ends : ∀ c ∈ r.head?, decimalValue? c = none)
    (enc : encodeRest .outside (0x5C :: b :: ds ++ r) = .ok res) :
    ∃ bs bk, Inserts bs ∧ res = bs ++ bk ∧ encodeRest .outside r = .ok bk := by
  by_cases small : decimalNumber (b :: ds) ≤ maxGroup
  · exact (Denotes.reference least greatest decimal small).encodeRest
      (by rw [Allows, if_pos rfl]; exact ⟨rfl, ends⟩) enc
  · have all : ∀ d ∈ b :: ds, (decimalValue? d).isSome := by
      rw [forall_mem_cons, decimalValue?_digit (by omega) greatest]
      exact ⟨rfl, decimal⟩
    have tooLarge : (groupNumber 0 0 (b :: ds ++ r)).1 = none :=
      groupNumber_eq_none all (Nat.zero_le _) (Nat.not_le.mp small)
    rw [encodeRest_eq (by simp), show piece .outside (0x5C :: b :: ds ++ r) =
      escape .outside (0x5C :: b :: (ds ++ r)) b from rfl,
      escape_digit least greatest] at enc
    rw [cons_append] at tooLarge
    split at enc
    · next number => simp [number] at tooLarge
    · simp [Except.bind] at enc

theorem encodeRest_kept (plain : ∀ c ∈ f, IsPlain c) (enc : encodeRest p (f ++ r) = .ok res) :
    ∃ b, res = f ++ b ∧ encodeRest p r = .ok b := by
  rw [encodeRest_plain fun c mem => (plain c mem).2] at enc
  obtain ⟨b, back_eq, rfl⟩ := exists_of_map_eq_ok enc
  exact ⟨b, rfl, back_eq⟩

theorem Item.exists_replaces (item : Item p t cs)
    (ends : p = .outside → ∀ byte ∈ r.head?, decimalValue? byte = none)
    (enc : encodeRest p (t ++ r) = .ok res) :
    ∃ f b c parts, Replaces f c cs parts ∧ res = f ++ b ∧ encodeRest p r = .ok b := by
  cases item with
  | @letter _ byte isLetter =>
    obtain ⟨b, rfl, back_eq⟩ := encodeRest_kept (by simpa using isLetter.isPlain) enc
    exact ⟨_, b, _, _, replaces_letter isLetter, rfl, back_eq⟩
  | category pos isCategory =>
    obtain ⟨k, n, category, denotes⟩ := isCategory.denotes
    obtain ⟨bs, b, inserts, rfl, back_eq⟩ :=
      denotes.encodeRest (by rwa [Allows, if_neg category]) enc
    obtain ⟨c, replaces⟩ := inserts.replaces
    exact ⟨bs, b, c, _, replaces, rfl, back_eq⟩
  | reference least greatest decimal =>
    obtain ⟨bs, b, inserts, rfl, back_eq⟩ :=
      encodeRest_reference least greatest decimal (ends rfl) enc
    obtain ⟨c, replaces⟩ := inserts.replaces
    exact ⟨bs, b, c, _, replaces, rfl, back_eq⟩
  | @escape _ ds hex reserved =>
    have piece_eq : piece p (0x5C :: 0x78 :: 0x7B :: (ds ++ [0x7D]) ++ r) =
        .ok ⟨[0x5C, 0x78], 2, p⟩ := rfl
    have plain : ∀ d ∈ 0x7B :: (ds ++ [0x7D]), d ≠ 0x5C ∧ d ≠ 0x5B ∧ d ≠ 0x5D := by
      intro d mem
      simp only [mem_cons, mem_append, not_mem_nil, or_false] at mem
      rcases mem with rfl | mem | rfl
      · decide
      · have isHex := hex d mem
        refine ⟨?_, ?_, ?_⟩ <;>
        · rintro rfl
          simp [hexValue?] at isHex
      · decide
    rw [encodeRest_of_piece (by simp) piece_eq] at enc
    change (encodeRest p (0x7B :: (ds ++ [0x7D]) ++ r)).map _ = _ at enc
    rw [encodeRest_plain plain, map_append_map] at enc
    obtain ⟨b, back_eq, rfl⟩ := exists_of_map_eq_ok enc
    exact ⟨_, b, _, _, replaces_escape hex reserved, rfl, back_eq⟩

theorem contains_finishSet (res : isReserved c = true) (fc : Bool) (cs : CodeSet) :
    (finishSet fc false cs).contains c = cs.contains c := by
  unfold finishSet
  cases fc
  · rfl
  · exact CodeSet.contains_foldCase_of_greatest_lt (greatestFolded_lt res)

/-- A text that is read as members of a class, of which the reserved ones are written as escapes or
stand in the text. -/
structure Lists (front : Bytes) (codes points : List Nat) : Prop where
  begins : Begins front
  encodes : Encodes front points
  read : ∀ {foldCase whole fuel isFirst before rest set after}, rest.head? ≠ some 0x2D →
    Scanner.setItems foldCase whole fuel isFirst before (front ++ rest) = .ok (set, after) →
    ∃ fuel joined, Scanner.setItems foldCase whole fuel false joined rest = .ok (set, after) ∧
      ∀ code, Codec.isReserved code = true → (CodeSet.contains joined code = true ↔
        before.contains code = true ∨ code ∈ codes ∨ code ∈ points)

theorem lists_single (beg : Begins f) (enc : Encodes f parts)
    (read : ∀ {fc w r set v}, r.head? ≠ some 0x2D → setItem fc w (f ++ r) = .ok (set, v) → v = r ∧
        ∀ c, isReserved c = true → (CodeSet.contains set c = true ↔
          c ∈ cs ∨ c ∈ parts)) : Lists f cs parts := by
  refine ⟨beg, enc, ?_⟩
  intro fc w n isFirst u r set v noRange scan
  cases n with
  | zero => simp [setItems] at scan
  | succ n =>
    have noEnd : ¬((!isFirst && (f ++ r).head? = some 0x5D) = true) := by
      intro ended
      exact (beg.append r).head?_ne (by simp) (of_decide_eq_true (Bool.and_eq_true_iff.mp ended).2)
    rw [setItems, if_neg noEnd] at scan
    split at scan
    · simp at scan
    next item b got =>
    obtain ⟨rfl, held⟩ := read noRange got
    refine ⟨n, _, scan, fun c res => ?_⟩
    rw [CodeSet.contains_union, Bool.or_eq_true, held c res]

theorem Replaces.lists (replaces : Replaces f c cs parts) : Lists f cs parts := by
  refine lists_single replaces.spells.begins replaces.encodes ?_
  intro fc w r set v noRange scan
  rw [replaces.spells.setItem fc w r noRange] at scan
  cases scan
  refine ⟨rfl, fun j res => ?_⟩
  rw [contains_finishSet res, ← replaces.held j res, CodeSet.contains_iff]
  simp only [mem_singleton, exists_eq_left]
  omega

theorem isPlain_range (isLetter : IsLetter b) (isLetter' : IsLetter z) :
    ∀ c ∈ [b, 0x2D, z], IsPlain c := by
  simp only [forall_mem_cons]
  exact ⟨isLetter.isPlain, by decide, isLetter'.isPlain, forall_mem_nil _⟩

theorem lists_range (isLetter : IsLetter b) (isLetter' : IsLetter z) :
    Lists [b, 0x2D, z] [] ([b, 0x2D, z].map (·.toNat)) := by
  have ascii := fun c mem => (isPlain_range isLetter isLetter' c mem).1
  obtain ⟨low, noEscape, noBracket, -⟩ := isLetter.isPlain
  obtain ⟨low', noEscape', -, noEnd⟩ := isLetter'.isPlain
  refine lists_single (begins_cons (.inr isLetter) _) (encodes_ascii ascii) ?_
  intro fc w r set v noRange scan
  rw [setItem_code (by simp [noBracket]) (by simp [noEscape])] at scan
  simp only [cons_append, nil_append, memberRange, member_eq noEscape,
    code_ascii low, noEnd, if_false, member_eq noEscape',
    code_ascii low'] at scan
  split at scan
  · simp [blame] at scan
  cases scan
  refine ⟨rfl, fun cd res => ?_⟩
  have high := (isReserved_iff.mp res).1
  rw [contains_finishSet res, CodeSet.contains_iff]
  simp only [not_mem_ascii ascii res, mem_cons, not_mem_nil, or_false, exists_eq_left,
    iff_false]
  omega

theorem Lists.append {m r : List Nat}
    (fst : Lists f cs parts) (snd : Lists others m r) :
    Lists (f ++ others) (cs ++ m) (parts ++ r) where
  begins := fst.begins.append others
  encodes := fst.encodes.append snd.encodes
  read := by
    intro fc w n isFirst u r' set v noRange scan
    have noRange' : (others ++ r').head? ≠ some 0x2D := (snd.begins.append r').head?_ne (by simp)
    rw [append_assoc] at scan
    obtain ⟨n, joined, scan, held⟩ := fst.read noRange' scan
    obtain ⟨n, joined', scan, held'⟩ := snd.read noRange scan
    refine ⟨n, joined', scan, fun c res => ?_⟩
    rw [held' c res, held c res]
    simp only [mem_append]
    tauto

theorem Members.exists_lists (mems : Members t cs) (enc : encodeRest .inSet (t ++ r) = .ok res) :
    ∃ f b parts, Lists f cs parts ∧ res = f ++ b ∧ encodeRest .inSet r = .ok b := by
  induction mems generalizing r res with
  | item item =>
    obtain ⟨f, b, c, parts, replaces, rfl, back_eq⟩ :=
      item.exists_replaces (fun outside => by cases outside) enc
    exact ⟨f, b, parts, replaces.lists, rfl, back_eq⟩
  | @range a z isLetter isLetter' =>
    obtain ⟨b, rfl, back_eq⟩ := encodeRest_kept (isPlain_range isLetter isLetter') enc
    exact ⟨_, b, _, lists_range isLetter isLetter', rfl, back_eq⟩
  | append _ _ fst snd =>
    rw [append_assoc] at enc
    obtain ⟨f, m, parts, lists, rfl, middle_eq⟩ := fst enc
    obtain ⟨f', b, parts', lists', rfl, back_eq⟩ := snd middle_eq
    exact ⟨f ++ f', b, parts ++ parts', lists.append lists', by simp, back_eq⟩

theorem Item.begins (item : Item p t cs) : Begins t := by
  cases item with
  | letter isLetter => exact begins_cons (.inr isLetter) []
  | category _ isCategory =>
    obtain ⟨_, _, -, denotes⟩ := isCategory.denotes
    obtain ⟨m, rfl, -⟩ := denotes.plain
    exact ⟨_, _, rfl, by decide, by decide⟩
  | reference | escape => exact ⟨_, _, rfl, by decide, by decide⟩

theorem Members.begins (mems : Members t cs) : Begins t := by
  induction mems with
  | item item => exact item.begins
  | range isLetter _ => exact begins_cons (.inr isLetter) _
  | append _ _ fst _ => exact fst.append _

def TokenHolds (code : Nat) : Token → Prop
  | .literal codes => code ∈ codes
  | .set codes => codes.contains code = true
  | .any | .anyButNewline => True
  | _ => False

/-- The first token of a text, which ends where the rest begins, shows the reserved code points that
are written as escapes or stand in the text. -/
structure Shows (front : Bytes) (codes points : List Nat) (rest : Bytes) : Prop where
  nonempty : front ≠ []
  encodes : Encodes front points
  scan : ∀ {mode token after}, Token.scan mode (front ++ rest) = .ok (token, after) → after = rest ∧
    ∀ code, Codec.isReserved code = true → (TokenHolds code token ↔ code ∈ codes ∨ code ∈ points)

theorem Replaces.shows
    (replaces : Replaces f c cs parts) (r : Bytes) : Shows f cs parts r where
  nonempty := replaces.spells.begins.ne_nil
  encodes := replaces.encodes
  scan := by
    intro m token v scanned
    rw [replaces.spells.scan] at scanned
    cases scanned
    refine ⟨rfl, fun j res => ?_⟩
    rw [TokenHolds, mem_singleton, replaces.held j res]

theorem shows_ascii (ne : f ≠ []) (ascii : ∀ b ∈ f, b.toNat < 0x80)
    (scan : ∀ {m token v}, Token.scan m (f ++ r) = .ok (token, v) →
      v = r ∧ ∀ c, ¬TokenHolds c token) :
    Shows f [] (f.map (·.toNat)) r where
  nonempty := ne
  encodes := encodes_ascii ascii
  scan := by
    intro m token v scanned
    obtain ⟨rfl, none⟩ := scan scanned
    refine ⟨rfl, fun c res => ?_⟩
    simp [none c, not_mem_ascii ascii res]

theorem Lists.shows (lists : Lists f cs parts) (r : Bytes) :
    Shows (0x5B :: (f ++ [0x5D])) cs (0x5B :: (parts ++ [0x5D])) r where
  nonempty := by simp
  encodes := by
    have opening : Encodes [0x5B] [0x5B] := ⟨by decide, by decide⟩
    have closing : Encodes [0x5D] [0x5D] := ⟨by decide, by decide⟩
    exact opening.append (lists.encodes.append closing)
  scan := by
    intro m token v scanned
    obtain ⟨⟨set, v'⟩, got, eq⟩ : ∃ res, bracketSet m.foldCase
        (0x5B :: (f ++ [0x5D]) ++ r) = .ok res ∧ (Token.set res.1, res.2) = (token, v) :=
      exists_of_map_eq_ok scanned
    cases eq
    have pos : ¬peek (f ++ 0x5D :: r) = '^' := by
      obtain ⟨b, others, rfl, noMark, -⟩ := lists.begins
      intro eq
      have : b = 0x5E := char_inj.mp eq
      exact noMark (by simp [this])
    simp only [bracketSet, cons_append, append_assoc, drop_succ_cons,
      drop_zero, nil_append, pos, if_false] at got
    split at got
    · simp at got
    next items =>
    cases got
    obtain ⟨n, joined, closed, held⟩ := lists.read (by simp) items
    cases n with
    | zero => simp [setItems] at closed
    | succ n =>
      cases closed
      refine ⟨rfl, fun c reserved => ?_⟩
      have high := (isReserved_iff.mp reserved).1
      rw [TokenHolds, held c reserved]
      simp only [CodeSet.contains_iff, not_mem_nil, false_and, exists_false, false_or,
        mem_cons, mem_append, or_false]
      have : c ≠ 0x5B ∧ c ≠ 0x5D := by omega
      simp [this]

theorem Atom.exists_shows (atom : Atom t cs) (ends : ∀ c ∈ r.head?, decimalValue? c = none)
    (enc : encodeRest .outside (t ++ r) = .ok res) :
    ∃ f b parts, (∀ r, Shows f cs parts r) ∧ Begins f ∧ res = f ++ b ∧
      encodeRest .outside r = .ok b := by
  cases atom with
  | item item =>
    obtain ⟨f, b, cd, parts, replaces, rfl, back_eq⟩ := item.exists_replaces (fun _ => ends) enc
    exact ⟨f, b, parts, replaces.shows, replaces.spells.begins, rfl, back_eq⟩
  | @set t _ mems =>
    have piece_eq : piece .outside (0x5B :: (t ++ [0x5D]) ++ r) = .ok ⟨[0x5B], 1, .inSet⟩ := by
      obtain ⟨c, others, rfl, noMark, -⟩ := mems.begins
      simp only [mem_cons, not_mem_nil, or_false, not_or] at noMark
      change Except.ok (openSet _) = _
      simp [openSet, keep, noMark]
    rw [encodeRest_of_piece (by simp) piece_eq] at enc
    obtain ⟨res, lt, rfl⟩ := exists_of_map_eq_ok enc
    simp only [cons_append, append_assoc, nil_append, drop_succ_cons,
      drop_zero] at lt
    obtain ⟨f, b, parts, lists, rfl, closed⟩ := mems.exists_lists lt
    have closing : piece .inSet (0x5D :: r) = .ok ⟨[0x5D], 1, .outside⟩ := rfl
    rw [encodeRest_of_piece (by simp) closing] at closed
    obtain ⟨b, back_eq, rfl⟩ := exists_of_map_eq_ok closed
    exact ⟨_, b, _, lists.shows, ⟨0x5B, _, rfl, by decide, by decide⟩, by simp, back_eq⟩
  | close =>
    have plain : ∀ c ∈ ([0x29] : Bytes), IsPlain c := by simp [IsPlain]
    obtain ⟨b, rfl, back_eq⟩ := encodeRest_kept plain enc
    refine ⟨[0x29], b, _, fun r => shows_ascii (by simp) (by simp) ?_,
      ⟨0x29, _, rfl, by decide, by decide⟩,
      rfl, back_eq⟩
    intro m token v scan
    cases scan
    exact ⟨rfl, fun cd => not_false⟩

theorem number?_eq (isCount : IsCount ds) {m : UInt8} (ends : decimalValue? m = none) (r : Bytes) :
    ∃ v, number? (ds ++ m :: r) = some (v, m :: r) := by
  have taken : (ds ++ m :: r).takeWhile (fun c => (decimalValue? c).isSome) =
      ds := by
    rw [takeWhile_append_of_pos isCount.decimal]
    simp [ends]
  unfold number?
  rw [taken]
  obtain ⟨b, others, rfl⟩ := exists_cons_of_ne_nil isCount.nonempty
  have noZero : ¬((b = 0x30 && !others.isEmpty) = true) := by
    intro zero
    obtain ⟨isZero, more⟩ := Bool.and_eq_true_iff.mp zero
    have single := isCount.noZero (by rw [of_decide_eq_true isZero]; rfl)
    simp_all
  simp only [noZero, Bool.false_eq_true, if_false, drop_left]
  exact ⟨_, rfl⟩

/-- A mark is a token of its own, if it does not take a question mark from what follows. -/
theorem Mark.scan {after : Bytes} (mark : Mark sign)
    (scan : Token.scan m (sign ++ r) = .ok (token, after)) :
    ∃ k, repeated m k r = (token, after) := by
  have counted {lo : Nat} {most : Option Nat} {body : Bytes}
      (count : count? body = some (lo, most, r))
      (braced : Token.brace m (0x7B :: body) = .ok (token, after)) :
      ∃ k, repeated m k r = (token, after) := by
    rw [Token.brace, drop_succ_cons, drop_zero, count] at braced
    dsimp only at braced
    split at braced
    · simp [blame] at braced
    · exact ⟨_, Except.ok.inj braced⟩
  have brace : decimalValue? 0x7D = none := by decide
  have comma : decimalValue? 0x2C = none := by decide
  cases mark with
  | star => exact ⟨_, Except.ok.inj scan⟩
  | plus => exact ⟨_, Except.ok.inj scan⟩
  | quest => exact ⟨_, Except.ok.inj scan⟩
  | exactly isCount =>
    simp only [cons_append, append_assoc, nil_append] at scan
    obtain ⟨v, number_eq⟩ := number?_eq isCount brace r
    exact @counted v (some v) _ (by simp [count?, number_eq]) scan
  | atLeast isCount =>
    simp only [cons_append, append_assoc, nil_append] at scan
    obtain ⟨v, number_eq⟩ := number?_eq isCount comma (0x7D :: r)
    exact @counted v none _ (by simp [count?, number_eq]) scan
  | @between least most isCount isCount' =>
    simp only [cons_append, append_assoc, nil_append] at scan
    obtain ⟨v, number_eq⟩ := number?_eq isCount comma (most ++ 0x7D :: r)
    obtain ⟨v', number_eq'⟩ := number?_eq isCount' brace r
    refine @counted v (some v') _ ?_ scan
    obtain ⟨b, others, rfl⟩ := exists_cons_of_ne_nil isCount'.nonempty
    have noBrace : b ≠ 0x7D := by
      rintro rfl
      exact absurd (isCount'.decimal _ (.head _)) (by decide)
    unfold count?
    rw [number_eq]
    simp only [Option.bind_eq_bind, Option.bind_some]
    split
    · next eq => exact absurd (cons.inj eq).1 (by decide)
    · next eq => exact absurd (cons.inj (cons.inj eq).2).1 noBrace
    · next eq =>
      obtain rfl := (cons.inj eq).2
      rw [number_eq']
      simp
    · next none => exact absurd rfl (none _)

theorem isPlain_of_decimal (decimal : (decimalValue? b).isSome) : IsPlain b := by
  obtain ⟨v, value_eq⟩ := Option.isSome_iff_exists.mp decimal
  obtain ⟨low, high, -⟩ := decimalValue?_eq_some value_eq
  exact (plain_digit low high).1

theorem IsCount.isPlain (isCount : IsCount ds) : ∀ b ∈ ds, IsPlain b :=
  fun b mem => isPlain_of_decimal (isCount.decimal b mem)

theorem Mark.isPlain (mark : Mark sign) : ∀ b ∈ sign, IsPlain b := by
  have marks : IsPlain 0x7B ∧ IsPlain 0x2C ∧ IsPlain 0x7D := by decide
  cases mark with
  | star | plus | quest => simp [IsPlain]
  | exactly isCount => simpa [or_imp, forall_and, marks] using isCount.isPlain
  | atLeast isCount => simpa [or_imp, forall_and, marks] using isCount.isPlain
  | between isCount isCount' =>
    simpa [or_imp, forall_and, marks] using And.intro isCount.isPlain isCount'.isPlain

theorem Mark.isPlain_lazy (mark : Mark sign) : ∀ b ∈ sign ++ [0x3F], IsPlain b :=
  forall_mem_append.mpr ⟨mark.isPlain, by simp [IsPlain]⟩

theorem Mark.ne_nil {sign : Bytes} (mark : Mark sign) : sign ≠ [] := by cases mark <;> simp

theorem repeated_cases {k : Repetition}
    (repeated : Token.repeated m k r = (token, v)) : (∀ c, ¬TokenHolds c token) ∧
      (r.head? ≠ some 0x3F → v = r) ∧ ∀ others, r = 0x3F :: others → v = others := by
  unfold Token.repeated at repeated
  split at repeated
  · next quest =>
    cases repeated
    refine ⟨fun c => not_false, fun calm => (calm ?_).elim, by rintro others rfl; rfl⟩
    cases r with
    | nil => exact absurd quest (by decide)
    | cons b tl => exact congrArg some (char_inj.mp quest)
  · next noQuest =>
    cases repeated
    refine ⟨fun c => not_false, fun _ => rfl, ?_⟩
    rintro others rfl
    exact absurd rfl noQuest

theorem Mark.shows (mark : Mark sign) (calm : r.head? ≠ some 0x3F) :
    Shows sign [] (sign.map (·.toNat)) r := by
  refine shows_ascii mark.ne_nil (fun b mem => (mark.isPlain b mem).1) fun scan => ?_
  obtain ⟨k, repeated⟩ := mark.scan scan
  obtain ⟨none, eq, -⟩ := repeated_cases repeated
  exact ⟨eq calm, none⟩

theorem Mark.shows_lazy (mark : Mark sign) (r : Bytes) :
    Shows (sign ++ [0x3F]) [] ((sign ++ [0x3F] : Bytes).map (·.toNat)) r := by
  refine shows_ascii (append_ne_nil_of_left_ne_nil mark.ne_nil _)
    (fun b mem => (mark.isPlain_lazy b mem).1) fun scan => ?_
  rw [append_assoc] at scan
  obtain ⟨k, repeated⟩ := mark.scan scan
  obtain ⟨none, -, eq⟩ := repeated_cases repeated
  exact ⟨eq r rfl, none⟩

theorem Opening.isPlain (opening : Opening t) : ∀ b ∈ t, IsPlain b := by
  have marks : IsPlain 0x28 ∧ IsPlain 0x3F ∧ IsPlain 0x3C ∧ IsPlain 0x3E := by decide
  cases opening with
  | plain => simp [IsPlain]
  | @named ls nm style alphanumeric =>
    have inLetters : ∀ b ∈ ls, IsPlain b := by rcases style with rfl | rfl <;> simp [IsPlain]
    have inName : ∀ b ∈ nm, IsPlain b := by
      intro b mem
      rcases alphanumeric b mem with rfl | isName
      · decide
      · refine ⟨?_, ?_, ?_, ?_⟩
        · simp only [isAlphanumeric, Bool.or_eq_true, Bool.and_eq_true, decide_eq_true_eq] at isName
          omega
        all_goals
          rintro rfl
          exact absurd isName (by decide)
    simpa [or_imp, forall_and, marks] using And.intro inLetters inName
  | @switching ls z ends switches =>
    have inLetters : ∀ b ∈ ([0x69, 0x6D, 0x73, 0x55, 0x2D] : Bytes), IsPlain b := by simp [IsPlain]
    have atEnd : IsPlain z := by rcases ends with rfl | rfl <;> decide
    have lt : ∀ b ∈ ls, IsPlain b := fun b mem => inLetters b (switches b mem)
    simpa [or_imp, forall_and, marks, atEnd] using lt

theorem switches_cases {w : Bytes} (ends : z = 0x3A ∨ z = 0x29)
    (flags : ∀ b ∈ ls, b ∈ [0x69, 0x6D, 0x73, 0x55, 0x2D]) {n : Nat} {m : Mode}
    {isOn sawLetter : Bool} (scan : switches w n m isOn sawLetter (ls ++ z :: r) =
      .ok (token, v)) : v = r ∧ ∀ cd, ¬TokenHolds cd token := by
  induction ls generalizing n m isOn sawLetter with
  | nil =>
    cases n with
    | zero => simp [switches, blame] at scan
    | succ n =>
      have ascii : z.toNat < 0x80 := by rcases ends with rfl | rfl <;> decide
      have noSwitch : switch? m (Char.ofNat z.toNat) isOn = none := by
        rcases ends with rfl | rfl <;> rfl
      have noMinus : Char.ofNat z.toNat ≠ '-' := by rcases ends with rfl | rfl <;> decide
      rw [nil_append, switches] at scan
      · simp only [code_ascii ascii, noSwitch, noMinus, false_and, if_false] at scan
        split at scan
        · cases scan
          refine ⟨rfl, fun cd => ?_⟩
          split <;> exact not_false
        · simp [blame] at scan
      · simp
  | cons c letters ih =>
    cases n with
    | zero => simp [switches, blame] at scan
    | succ n =>
      have others := @ih fun b mem => flags b (.tail _ mem)
      have ascii : c.toNat < 0x80 := by
        have all : ∀ b ∈ ([0x69, 0x6D, 0x73, 0x55, 0x2D] : Bytes), b.toNat < 0x80 := by simp
        exact all c (flags c (.head _))
      rw [cons_append, switches] at scan
      · simp only [code_ascii ascii] at scan
        split at scan
        · exact others scan
        split at scan
        · exact others scan
        split at scan
        · next isEnd =>
          have all : ∀ b ∈ ([0x69, 0x6D, 0x73, 0x55, 0x2D] : Bytes),
              ¬(Char.ofNat b.toNat = ':' ∨ Char.ofNat b.toNat = ')') := by simp
          exact absurd isEnd.1 (all c (flags c (.head _)))
        · simp [blame] at scan
      · simp

theorem namedGroup_cases {k : Nat} (noEnd : (0x3E : UInt8) ∉ f)
    (scan : namedGroup k (f ++ 0x3E :: r) = .ok (token, v)) : v = r ∧ ∀ c, ¬TokenHolds c token := by
  have cut : cut? [0x3E] (f ++ 0x3E :: r) = some (f, r) := by
    rw [cut?, indexOf?_of_not_mem noEnd]
    simp
  rw [namedGroup, cut] at scan
  dsimp only at scan
  split at scan
  · simp at scan
  split at scan
  · cases scan
    exact ⟨rfl, fun c => not_false⟩
  · simp at scan

theorem specialGroup_named (style : ls = [] ∨ ls = [0x50]) (m : Mode) (ne : r ≠ []) :
    ∃ k, specialGroup m (0x28 :: 0x3F :: (ls ++ 0x3C :: r)) =
      namedGroup k (0x28 :: 0x3F :: (ls ++ 0x3C :: r)) := by
  obtain ⟨b, tl, rfl⟩ := exists_cons_of_ne_nil ne
  rw [specialGroup, show ofString "(?P<" = [0x28, 0x3F, 0x50, 0x3C] by decide +kernel,
    show ofString "(?<" = [0x28, 0x3F, 0x3C] by decide +kernel]
  rcases style with rfl | rfl
  · rw [if_neg (by simp [List.isPrefixOf]), if_pos (by simp [List.isPrefixOf])]
    exact ⟨_, rfl⟩
  · rw [if_pos (by simp [List.isPrefixOf])]
    exact ⟨_, rfl⟩

theorem specialGroup_switches (noName : b ≠ 0x50 ∧ b ≠ 0x3C) (m : Mode) (r : Bytes) :
    specialGroup m (0x28 :: 0x3F :: b :: r) =
      switches (0x28 :: 0x3F :: b :: r) (r.length + 4) m true false (b :: r) := by
  rw [specialGroup, show ofString "(?P<" = [0x28, 0x3F, 0x50, 0x3C] by decide +kernel,
    show ofString "(?<" = [0x28, 0x3F, 0x3C] by decide +kernel,
    if_neg (by simp [List.isPrefixOf, noName.1.symm]),
      if_neg (by simp [List.isPrefixOf, noName.2.symm])]
  rfl

theorem Opening.shows (opening : Opening t) (calm : r.head? ≠ some 0x3F) :
    Shows t [] (t.map (·.toNat)) r := by
  refine shows_ascii ?_ (fun b mem => (opening.isPlain b mem).1) fun {m token v} scan => ?_
  · cases opening <;> simp
  cases opening with
  | plain =>
    have noQuest : peek r ≠ '?' := by
      cases r with
      | nil => decide
      | cons b tl => exact fun quest => calm (congrArg some (char_inj.mp quest))
    rw [cons_append, nil_append, scan_openCapture noQuest] at scan
    cases scan
    exact ⟨rfl, fun cd => not_false⟩
  | @named ls nm style alphanumeric =>
    have noEnd : (0x3E : UInt8) ∉ 0x28 :: 0x3F :: (ls ++ 0x3C :: nm) := by
      have : (0x3E : UInt8) ∉ nm := fun mem => absurd (alphanumeric _ mem) (by decide)
      rcases style with rfl | rfl <;> simpa using this
    simp only [cons_append, append_assoc, nil_append] at scan
    change specialGroup m _ = _ at scan
    obtain ⟨k, eq⟩ := specialGroup_named style m (show nm ++ 0x3E :: r ≠ [] by simp)
    rw [eq] at scan
    have whole : 0x28 :: 0x3F :: (ls ++ 0x3C :: (nm ++ 0x3E :: r)) =
        0x28 :: 0x3F :: (ls ++ 0x3C :: nm) ++ 0x3E :: r := by simp
    rw [whole] at scan
    exact namedGroup_cases noEnd scan
  | @switching ls z ends switches =>
    simp only [cons_append, append_assoc, nil_append] at scan
    change specialGroup m _ = _ at scan
    obtain ⟨b, tail, tail_eq, noName⟩ : ∃ b tail, ls ++ z :: r = b :: tail ∧
        b ≠ 0x50 ∧ b ≠ 0x3C := by
      cases ls with
      | nil => exact ⟨z, r, rfl, by rcases ends with rfl | rfl <;> decide⟩
      | cons c letters =>
        have all : ∀ b ∈ ([0x69, 0x6D, 0x73, 0x55, 0x2D] : Bytes), b ≠ 0x50 ∧ b ≠ 0x3C := by simp
        exact ⟨c, _, rfl, all c (switches c (.head _))⟩
    rw [tail_eq, specialGroup_switches noName, ← tail_eq] at scan
    exact switches_cases ends switches scan

end Encoding

end Rematch
