import Rematch.Proofs.Extension.Recovery
import Rematch.Proofs.Program.Agreement
import Rematch.Proofs.Unicode.CodeSets

/-!
Sets of code points with extensions among them. A step for a set is lowered to pieces of code points
in ascending order, and a piece of the reserved block is executed as extensions. A set thus takes
its members outside the block and those of the categories that it carries, and then tries the
backreferences. A set of the whole block carries nothing: it takes its members and nothing else.
-/

namespace Rematch

open List Codec ByteRange Utf8 Recovery Lowering Extension ByteTest
open Unicode (CodeSet Category)

namespace Unicode.CodeSet

/-- The first and the last code points of the spans, alternating. -/
def bounds (codes : CodeSet) : List Int :=
  codes.flatMap fun span => [(span.lo : Int), (span.hi : Int)]

def holdsBlock (codes : CodeSet) : Bool :=
  codes.any fun span => span.lo ≤ Codec.reservedLo && Codec.reservedHi ≤ span.hi

/-- Whether a set holds the code point of a category that has the given member, or of the negation
of one that has not. -/
def carriesCategory (codes : CodeSet) (code : Nat) : Bool :=
  (List.range Category.count).any fun number =>
    codes.contains (Codec.encode .category number) &&
        (Category.ofNumber? number).any (·.contains code) ||
      codes.contains (Codec.encode .notCategory number) &&
        (Category.ofNumber? number).any (!·.contains code)

/-- Whether a set takes a code point: as a member, or by a category that it carries. -/
def takes (codes : CodeSet) (code : Nat) : Bool :=
  if codes.holdsBlock then codes.contains code
  else codes.contains code && !Codec.isReserved code || codes.carriesCategory code

/-- Whether a set holds the code point of a backreference, as such. -/
def refers (codes : CodeSet) (group : Nat) : Bool :=
  !codes.holdsBlock && codes.contains (Codec.encode .backreference group)

variable {cs r : CodeSet} {cd m : Nat} {sp : Span}

theorem bounds_cons (sp : Span) (cs : CodeSet) :
    bounds (sp :: cs) = (sp.lo : Int) :: (sp.hi : Int) :: bounds cs := rfl

theorem InOrder.bounds_le (ord : InOrder m cs) :
    ∀ bd ∈ cs.bounds, (0 : Int) ≤ bd ∧ bd ≤ Unicode.maxCode := by
  intro bd mem
  obtain ⟨sp, inSet, isBound⟩ := mem_flatMap.mp mem
  obtain ⟨odd, small⟩ := (ord.proper sp inSet).2
  simp only [mem_cons, not_mem_nil, or_false] at isBound
  omega

theorem InOrder.le_of_contains (ord : InOrder m cs) (held : cs.contains cd = true) : m ≤ cd := by
  obtain ⟨sp, mem, above, -⟩ := contains_iff.mp held
  exact Nat.le_trans (ord.proper sp mem).1 above

theorem carriesCategory_iff : cs.carriesCategory cd = true ↔ ∃ n < Category.count,
      cs.contains (encode .category n) = true ∧ (Category.ofNumber? n).any (·.contains cd) = true ∨
        cs.contains (encode .notCategory n) = true ∧
          (Category.ofNumber? n).any (!·.contains cd) = true := by
  simp [carriesCategory]

theorem contains_of_holdsBlock (whole : cs.holdsBlock = true) (res : isReserved cd) :
    cs.contains cd = true := by
  obtain ⟨sp, mem, covers⟩ := any_eq_true.mp whole
  simp only [Bool.and_eq_true, decide_eq_true_eq] at covers
  rw [isReserved, Bool.and_eq_true, decide_eq_true_eq, decide_eq_true_eq] at res
  exact contains_iff.mpr ⟨sp, mem, by omega, by omega⟩

theorem InOrder.exists_span {lo hi : Nat} (inOrder : InOrder m cs) (ord : lo ≤ hi)
    (all : ∀ c, lo ≤ c → c ≤ hi → cs.contains c = true) : ∃ sp ∈ cs, sp.lo ≤ lo ∧ hi ≤ sp.hi := by
  induction cs generalizing m with
  | nil => exact nomatch all lo (Nat.le_refl _) ord
  | cons sp r ih =>
    obtain ⟨-, proper, later⟩ := inOrder_cons.mp inOrder
    have split (c : Nat) (above : lo ≤ c) (below : c ≤ hi) :
        (sp.lo ≤ c ∧ c ≤ sp.hi) ∨ contains r c = true := by
      have held := all c above below
      rwa [contains_cons, Bool.or_eq_true, Span.contains_iff] at held
    rcases Nat.lt_or_ge sp.hi lo with pre | reaches
    · obtain ⟨o, mem, holds⟩ := ih later fun c above below =>
        (split c above below).resolve_left (by omega)
      exact ⟨o, .tail _ mem, holds⟩
    · refine ⟨sp, .head _, ?_, ?_⟩
      · rcases split lo (Nat.le_refl _) ord with lt | beyond
        · exact lt.1
        · have := later.le_of_contains beyond
          omega
      · -- the gap after the span is not in the run
        by_contra longer
        rcases split (sp.hi + 1) (by omega) (by omega) with lt | beyond
        · omega
        · have := later.le_of_contains beyond
          omega

theorem holdsBlock_of_all (ord : InOrder m cs)
    (all : ∀ c, 0xF0000 ≤ c → c ≤ 0xF0FFF → cs.contains c = true) : cs.holdsBlock = true := by
  obtain ⟨sp, mem, covers⟩ := ord.exists_span (by decide) all
  refine any_eq_true.mpr ⟨sp, mem, ?_⟩
  rw [Bool.and_eq_true, decide_eq_true_eq, decide_eq_true_eq]
  exact covers

theorem inBounds_bounds (cs : CodeSet) (c : Nat) : inBounds cs.bounds c = cs.contains c := by
  induction cs with
  | nil => rfl
  | cons sp r ih =>
    rw [Bool.eq_iff_iff]
    simp [bounds_cons, inBounds, ih, contains_cons, Span.contains_iff]

theorem holdsBlock_cons : holdsBlock (sp :: r) = true ↔
    (sp.lo ≤ 0xF0000 ∧ 0xF0FFF ≤ sp.hi) ∨ r.holdsBlock = true := by
  rw [holdsBlock, any_cons, Bool.or_eq_true, Bool.and_eq_true, decide_eq_true_eq, decide_eq_true_eq]
  rfl

variable (ord : InOrder (sp.hi + 2) r) (res : isReserved cd = true)

include ord res

theorem InOrder.not_holdsBlock (early : cd ≤ sp.hi) : r.holdsBlock = false := by
  rw [Bool.eq_false_iff]
  intro whole
  have := ord.le_of_contains (contains_of_holdsBlock whole (show isReserved 0xF0000 by decide))
  rw [isReserved_iff] at res
  omega

theorem InOrder.not_covers (held : contains r cd = true) :
    ¬(sp.lo ≤ 0xF0000 ∧ 0xF0FFF ≤ sp.hi) := by
  have := ord.le_of_contains held
  rw [isReserved_iff] at res
  omega

end Unicode.CodeSet

section Lists

variable {α β γ : Type} {l : List α} {fn : α → Option β}

theorem findSome?_of_mapM {rs : List β} {further : β → Option γ} (got : l.mapM fn = some rs) :
    rs.findSome? further = l.findSome? fun v => (fn v).bind further := by
  have maps := congrArg (List.findSome? (·.bind further)) (mapM_eq_some.mp got)
  rw [findSome?_map, findSome?_map] at maps
  exact maps.symm

variable {holds : Prop}

theorem findSome?_none_or {res : Option β} (each : ∀ v ∈ l, fn v = none ∨ holds ∧ fn v = res) :
    l.findSome? fn = none ∨ holds ∧ l.findSome? fn = res := by
  by_cases got : ∃ v ∈ l, holds ∧ fn v = res
  · obtain ⟨v, mem, known, here⟩ := got
    exact .inr ⟨known, findSome?_eq_of_same
      (fun v mem => (each v mem).imp_right And.right) ⟨v, mem, here⟩⟩
  · refine .inl (findSome?_eq_none_iff.mpr fun v mem => ?_)
    exact (each v mem).resolve_right fun known => got ⟨v, mem, known⟩

theorem findSome?_eq_ite {res : Option β} [Decidable holds]
    (each : ∀ v ∈ l, fn v = none ∨ holds ∧ fn v = res) (got : holds → ∃ v ∈ l, fn v = res) :
    l.findSome? fn = if holds then res else none := by
  split
  · next known =>
    exact findSome?_eq_of_same (fun v mem => (each v mem).imp_right And.right) (got known)
  · next unknown => exact (findSome?_none_or each).resolve_right fun known => unknown known.1

theorem findSome?_filter_or {early : α → Bool}
    (front : l.Pairwise fun a b => early b = true → early a = true) :
    l.findSome? fn = ((l.filter early).findSome? fn).or ((l.filter (!early ·)).findSome? fn) := by
  induction l with
  | nil => rfl
  | cons v r ih =>
    obtain ⟨pre, front'⟩ := pairwise_cons.mp front
    cases isEarly : early v with
    | true =>
      rw [filter_cons_of_pos isEarly, filter_cons_of_neg (by simp [isEarly]),
        findSome?_cons_or, findSome?_cons_or, ih front', Option.or_assoc]
    | false =>
      have late : ∀ o ∈ v :: r, early o = false := by
        refine forall_mem_cons.mpr ⟨isEarly, fun o mem => ?_⟩
        rw [Bool.eq_false_iff]
        exact fun isEarly' => by simp [pre o mem isEarly'] at isEarly
      have none : (v :: r).filter early = [] :=
        filter_eq_nil_iff.mpr fun o mem => by simp [late o mem]
      have all : (v :: r).filter (!early ·) = v :: r :=
        filter_eq_self.mpr fun o mem => by simp [late o mem]
      rw [none, all]
      rfl

theorem findSome?_eq_or (early : α → Bool) {a b : Option β} {holds' : Prop} [Decidable holds]
    [Decidable holds'] (front : l.Pairwise fun one o => early o = true → early one = true)
    (each : ∀ v ∈ l, early v = true ∧ (fn v = none ∨ holds ∧ fn v = a) ∨
      early v = false ∧ (fn v = none ∨ holds' ∧ fn v = b))
    (got : holds → ∃ v ∈ l, early v = true ∧ fn v = a)
    (got' : holds' → ∃ v ∈ l, early v = false ∧ fn v = b) :
    l.findSome? fn = (if holds then a else none).or (if holds' then b else none) := by
  rw [findSome?_filter_or front]
  congr 1
  · refine findSome?_eq_ite (fun v mem => ?_) fun known => ?_
    · obtain ⟨inList, isEarly⟩ := mem_filter.mp mem
      exact ((each v inList).resolve_right fun late => by simp [late.1] at isEarly).2
    · obtain ⟨v, mem, isEarly, here⟩ := got known
      exact ⟨v, mem_filter.mpr ⟨mem, isEarly⟩, here⟩
  · refine findSome?_eq_ite (fun v mem => ?_) fun known => ?_
    · obtain ⟨inList, isLate⟩ := mem_filter.mp mem
      exact ((each v inList).resolve_left fun early => by simp [early.1] at isLate).2
    · obtain ⟨v, mem, isLate, here⟩ := got' known
      exact ⟨v, mem_filter.mpr ⟨mem, by simp [isLate]⟩, here⟩

end Lists

namespace ByteRange

variable {mb : Nat → Prop} {parts : List (Nat × Nat)} {p o : Nat × Nat} {cd : Nat}

theorem index_eq_of_ascending (ascending : parts.Pairwise fun a b => a.2 < b.1)
    {i i' : Nat} (there : parts[i]? = some p) (there' : parts[i']? = some o)
    (lt : p.1 ≤ cd ∧ cd ≤ p.2) (lt' : o.1 ≤ cd ∧ cd ≤ o.2) : i = i' := by
  obtain ⟨le, rfl⟩ := List.getElem?_eq_some_iff.mp there
  obtain ⟨le', rfl⟩ := List.getElem?_eq_some_iff.mp there'
  rcases Nat.lt_trichotomy i i' with pre | eq | after
  · have := pairwise_iff_getElem.mp ascending i i' le le' pre
    omega
  · exact eq
  · have := pairwise_iff_getElem.mp ascending i' i le' le after
    omega

theorem Partition.eq_of_mem (part : Partition mb parts) (mem : p ∈ parts) (mem' : o ∈ parts)
    (lt : p.1 ≤ cd ∧ cd ≤ p.2) (lt' : o.1 ≤ cd ∧ cd ≤ o.2) : p = o := by
  obtain ⟨i, there⟩ := mem_iff_getElem?.mp mem
  obtain ⟨i', there'⟩ := mem_iff_getElem?.mp mem'
  obtain rfl := index_eq_of_ascending part.ascending there there' lt lt'
  exact Option.some.inj (there.symm.trans there')

end ByteRange

variable {p : Nat × Nat}

/-- A piece lies in the reserved block, or before it, or after it, or holds all of it. -/
theorem ByteRange.IsPiece.block_cases (isPiece : IsPiece p) :
    (0xF0000 ≤ p.1 ∧ p.2 ≤ 0xF0FFF) ∨ p.2 < 0xF0000 ∨ 0xF0FFF < p.1 ∨
      (p.1 ≤ 0xF0000 ∧ 0xF0FFF ≤ p.2) := by
  have ord := isPiece.ordered
  rcases Nat.lt_or_ge p.2 0x10000 with short | long
  · omega
  · obtain ⟨-, box⟩ := isPiece.box long
    rcases box with eq | ⟨beg, ends, eq | ⟨beg', ends', -⟩⟩ <;> omega

namespace Codec

variable {cd n : Nat} {p : Nat × Nat}

/-- The extensions that a piece of code points is executed as, if each of them is one. -/
def extensions? (out : Int) (piece : Nat × Nat) : Option (List Extension) :=
  if 0xF0000 ≤ piece.1 ∧ piece.2 ≤ 0xF0FFF then
    (List.range' piece.1 (piece.2 + 1 - piece.1)).mapM (extension? out)
  else none

theorem of_extensions? {out : Int} {es : List Extension} (got : extensions? out p = some es) :
    es.Nodup ∧ ∀ ext ∈ es, ∃ c, (p.1 ≤ c ∧ c ≤ p.2) ∧ extension? out c = some ext := by
  unfold extensions? at got
  split at got
  · refine ⟨Nodup.of_map some ?_, forall_of_mapM got fun c mem ext dec =>
      ⟨c, by rw [mem_range'_1] at mem; omega, dec⟩⟩
    rw [← mapM_eq_some.mp got]
    refine Nodup.map_on (fun c mem j _ eq => ?_) nodup_range'
    obtain ⟨ext, -, dec⟩ := exists_of_mapM got c mem
    exact (of_extension? dec).1.trans (of_extension? (eq ▸ dec)).1.symm
  · simp at got

theorem exists_extensions (meaningful : ∀ c, p.1 ≤ c → c ≤ p.2 → Meaningful c) (out : Int) :
    ∃ es, (List.range' p.1 (p.2 + 1 - p.1)).mapM (extension? out) = some es := by
  refine exists_mapM fun c mem => ?_
  rw [mem_range'_1] at mem
  obtain ⟨k, arg, -, -, got⟩ := extension?_of_meaningful (meaningful c (by omega) (by omega)) out
  exact ⟨_, got⟩

theorem extension?_encode {k : ExtensionKind} {arg : Nat} (known : k.isKnown = true)
    (small : arg < 256) (out : Int) : extension? out (encode k arg) =
      if validArg k arg then some ⟨k, arg, out⟩ else none := by
  simp [extension?, decode?_encode known small]

/-- The code points that mean something are those of categories, of their negations, and of
backreferences. -/
theorem Meaningful.eq_encode (meaningful : Meaningful cd) :
    (∃ n < Category.count, cd = encode .category n) ∨
      (∃ n < Category.count, cd = encode .notCategory n) ∨
      ∃ gr, (0 < gr ∧ gr < 256) ∧ cd = encode .backreference gr := by
  obtain ⟨k, arg, dec, means⟩ := meaningful
  obtain ⟨code_eq, small, -⟩ := eq_encode_of_decode? dec
  cases k with
  | category => exact .inl ⟨arg, of_decide_eq_true means, code_eq⟩
  | notCategory => exact .inr (.inl ⟨arg, of_decide_eq_true means, code_eq⟩)
  | backreference => exact .inr (.inr ⟨arg, ⟨of_decide_eq_true means, small⟩, code_eq⟩)
  | unknown => simp [validArg] at means

theorem encode_category (le : n < Category.count) : encode .category n = 0xF0000 + n := by
  rw [encode_eq rfl (Nat.lt_of_lt_of_le le (by decide)), ExtensionKind.code, Nat.mul_zero,
    Nat.zero_add]

theorem encode_notCategory (le : n < Category.count) : encode .notCategory n = 0xF0100 + n := by
  rw [encode_eq rfl (Nat.lt_of_lt_of_le le (by decide)), ExtensionKind.code]
  omega

theorem encode_backreference {gr : Nat} (le : gr < 256) :
    encode .backreference gr = 0xF0200 + gr := by
  rw [encode_eq rfl le, ExtensionKind.code]
  omega

theorem Meaningful.eq_category (meaningful : Meaningful cd) (low : cd < 0xF0200) :
    ∃ n < Category.count, cd = encode .category n ∨ cd = encode .notCategory n := by
  rcases meaningful.eq_encode with
    ⟨n, le, rfl⟩ | ⟨n, le, rfl⟩ | ⟨gr, bounds, rfl⟩
  · exact ⟨n, le, .inl rfl⟩
  · exact ⟨n, le, .inr rfl⟩
  · rw [encode_backreference bounds.2] at low
    omega

theorem Meaningful.eq_backreference (meaningful : Meaningful cd) (high : 0xF0200 ≤ cd) :
    ∃ gr, (0 < gr ∧ gr < 256) ∧ cd = encode .backreference gr := by
  have few : Category.count < 256 := by decide
  rcases meaningful.eq_encode with ⟨n, le, rfl⟩ | ⟨n, le, rfl⟩ | got
  · rw [encode_category le] at high
    omega
  · rw [encode_notCategory le] at high
    omega
  · exact got

theorem not_meaningful : ¬Meaningful 0xF0200 := by
  intro meaningful
  obtain ⟨gr, bounds, eq⟩ := meaningful.eq_backreference (Nat.le_refl _)
  rw [encode_backreference bounds.2] at eq
  omega

end Codec

/-- No piece of the whole reserved block is executed as extensions: it is the block, and not every
code point of the block means something. -/
theorem ByteRange.Partition.extensions?_eq_none {m : Nat → Prop} {parts : List (Nat × Nat)}
    (part : Partition m parts) (whole : ∀ c, 0xF0000 ≤ c ∧ c ≤ 0xF0FFF → m c)
    (mem : p ∈ parts) (out : Int) : extensions? out p = none := by
  rw [extensions?]
  split
  · next lt =>
    have ord := (part.inside p mem).1
    obtain ⟨large, mem', covers⟩ := part.blocks 0xF0 (by decide) fun c above below =>
      whole c (by omega)
    obtain rfl := part.eq_of_mem mem mem' (show p.1 ≤ p.1 ∧ p.1 ≤ p.2 by omega) (by omega)
    cases got : (List.range' p.1 (p.2 + 1 - p.1)).mapM (extension? out) with
    | none => rfl
    | some es =>
      obtain ⟨ext, -, dec⟩ := exists_of_mapM got 0xF0300 (mem_range'_1.mpr (by omega))
      have no : extension? out 0xF0300 = none := rfl
      rw [no] at dec
      simp at dec
  · rfl

namespace Codec

variable {bs : List Int} {m lo hi : Int} {cd : Nat}

/-- Whether a member of an interval stands for an extension: it is reserved, and the interval does
not have the whole block. -/
def carriedIn (lo hi : Int) (code : Nat) : Bool :=
  lo ≤ code && code ≤ hi && isReserved code && !(lo ≤ 0xF0000 && 0xF0FFF ≤ hi)

def carried : List Int → Nat → Bool
  | lo :: hi :: rest, code => carriedIn lo hi code || carried rest code
  | _, _ => false

/-- Intervals follow each other, and each has the whole reserved block, or nothing of it without
meaning. -/
def Orderly (least : Int) : List Int → Prop
  | lo :: hi :: rest => (least ≤ lo ∧ lo ≤ hi ∧ hi ≤ Unicode.maxCode) ∧
      (lo ≤ 0xF0000 ∧ 0xF0FFF ≤ hi ∨
        ∀ code : Nat, isReserved code = true → lo ≤ code ∧ code ≤ hi → Meaningful code) ∧
      Orderly (hi + 1) rest
  | _ => True

/-- A piece is made of extensions, or of members of the intervals that are not. -/
def Pure (bounds : List Int) (piece : Nat × Nat) : Prop :=
  (0xF0000 ≤ piece.1 ∧ piece.2 ≤ 0xF0FFF) ∧
      (∀ code, piece.1 ≤ code ∧ code ≤ piece.2 → Meaningful code ∧ carried bounds code = true) ∨
    (∀ out, extensions? out piece = none) ∧ ∀ code, piece.1 ≤ code ∧ code ≤ piece.2 →
      ByteRange.inBounds bounds code = true ∧ carried bounds code = false

structure Pieces (least : Int) (bounds : List Int) (pieces : List (Nat × Nat)) : Prop where
  ascending : pieces.Pairwise fun first second => first.2 < second.1
  isPiece : ∀ piece ∈ pieces, ByteRange.IsPiece piece
  above : ∀ piece ∈ pieces, least ≤ piece.1
  side : ∀ piece ∈ pieces, Pure bounds piece
  whole : ∀ code, Utf8.isScalar code = true → ByteRange.inBounds bounds code = true →
    ∃ piece ∈ pieces, piece.1 ≤ code ∧ code ≤ piece.2

theorem carriedIn_iff : carriedIn lo hi cd = true ↔
    (lo ≤ cd ∧ cd ≤ hi) ∧ isReserved cd = true ∧ ¬(lo ≤ 0xF0000 ∧ 0xF0FFF ≤ hi) := by
  simp [carriedIn, and_assoc, imp_iff_not_or]

theorem of_carried (held : carried bs cd = true) :
    isReserved cd = true ∧ inBounds bs cd = true := by
  fun_induction carried bs cd with
  | case1 lo hi r c ih =>
    rw [Bool.or_eq_true] at held
    rcases held with here | there
    · obtain ⟨lt, res, -⟩ := carriedIn_iff.mp here
      exact ⟨res, by simp [inBounds, lt]⟩
    · exact ⟨(ih there).1, by simp [inBounds, (ih there).2]⟩
  | case2 => simp at held

theorem Orderly.le_of_inBounds (ord : Orderly m bs) (held : inBounds bs cd = true) : m ≤ cd := by
  induction bs using sequencesOfBounds?.induct generalizing m with
  | case1 lo hi r ih =>
    obtain ⟨bounds, -, later⟩ := ord
    simp only [inBounds, Bool.or_eq_true, Bool.and_eq_true, decide_eq_true_eq] at held
    rcases held with here | there
    · omega
    · have := ih later there
      omega
  | case2 => simp [inBounds] at held

variable {p : Nat × Nat}

theorem Pure.congr {bs' : List Int} (pure : Pure bs p) (eq : ∀ c, p.1 ≤ c ∧ c ≤ p.2 →
      inBounds bs c = inBounds bs' c ∧ carried bs c = carried bs' c) : Pure bs' p := by
  refine pure.imp (And.imp_right fun each c lt => ?_) (And.imp_right fun each c lt => ?_)
  · exact (eq c lt).2 ▸ each c lt
  · exact (eq c lt).1 ▸ (eq c lt).2 ▸ each c lt

theorem pure_of_interval {parts : List (Nat × Nat)}
    (part : ByteRange.Partition (ByteRange.Interval lo hi) parts) (mem : p ∈ parts)
    (proper : lo ≤ 0xF0000 ∧ 0xF0FFF ≤ hi ∨
      ∀ c : Nat, isReserved c = true → lo ≤ c ∧ c ≤ hi → Meaningful c) : Pure [lo, hi] p := by
  have isPiece := part.isPiece mem
  have within (c : Nat) (lt : p.1 ≤ c ∧ c ≤ p.2) : lo ≤ c ∧ c ≤ hi :=
    ((part.inside p mem).2 c lt.1 lt.2).2
  have mb {c : Nat} (lt : p.1 ≤ c ∧ c ≤ p.2) :
      inBounds [lo, hi] c = true := by simp [inBounds, within c lt]
  have carried_eq (c : Nat) : carried [lo, hi] c = carriedIn lo hi c := Bool.or_false _
  by_cases whole : lo ≤ 0xF0000 ∧ 0xF0FFF ≤ hi
  · refine .inr ⟨part.extensions?_eq_none (fun c res => ?_) mem,
      fun c lt => ⟨mb lt, by simp [carried_eq, Bool.eq_false_iff, carriedIn_iff, whole]⟩⟩
    exact ⟨isScalar_iff.mpr (by omega), by omega, by omega⟩
  have apart (outside : p.2 < 0xF0000 ∨ 0xF0FFF < p.1) : Pure [lo, hi] p := by
    refine .inr ⟨fun out => if_neg ?_, fun c lt => ⟨mb lt, ?_⟩⟩
    · have := isPiece.ordered
      omega
    · rw [carried_eq, Bool.eq_false_iff, ne_eq, carriedIn_iff, isReserved_iff]
      omega
  rcases isPiece.block_cases with lt | pre | after | covers
  · refine .inl ⟨lt, fun c inPiece => ?_⟩
    have reserved : isReserved c = true := isReserved_iff.mpr (by omega)
    exact ⟨proper.resolve_left whole c reserved (within c inPiece),
      carried_eq c ▸ carriedIn_iff.mpr ⟨within c inPiece, reserved, whole⟩⟩
  · exact apart (.inl pre)
  · exact apart (.inr after)
  · have fst := within p.1 ⟨Nat.le_refl _, isPiece.ordered⟩
    have last := within p.2 ⟨isPiece.ordered, Nat.le_refl _⟩
    omega

theorem Orderly.pieces (od : Orderly m bs) (nonneg : 0 ≤ m) :
    ∃ parts, sequencesOfBounds? bs = some (parts.map spelled) ∧ Pieces m bs parts := by
  induction bs using sequencesOfBounds?.induct generalizing m with
  | case1 lo hi r ih =>
    obtain ⟨bounds, proper, later⟩ := od
    have maxCode_eq : (Unicode.maxCode : Int) = 0x10FFFF := rfl
    obtain ⟨a, got, part⟩ := sequences?_partition
      (show 0 ≤ lo by omega) (show hi ≤ 0x10FFFF by omega)
    obtain ⟨others, got', pieces⟩ := ih later (by omega)
    have within {p : Nat × Nat} (mem : p ∈ a) {c : Nat}
        (lt : p.1 ≤ c ∧ c ≤ p.2) : lo ≤ c ∧ c ≤ hi :=
      ((part.inside p mem).2 c lt.1 lt.2).2
    have ends {p : Nat × Nat} (mem : p ∈ a) : lo ≤ p.1 ∧ p.2 ≤ hi := by
      have ord := (part.inside p mem).1
      exact ⟨(within mem ⟨Nat.le_refl _, ord⟩).1, (within mem ⟨ord, Nat.le_refl _⟩).2⟩
    refine ⟨a ++ others, ?_, ?_, ?_, ?_, ?_, ?_⟩
    · rw [sequencesOfBounds?, got, got', map_append]
      rfl
    · refine pairwise_append.mpr ⟨part.ascending, pieces.ascending, fun p mem o mem' => ?_⟩
      have := ends mem
      have := pieces.above o mem'
      omega
    · exact forall_mem_append.mpr ⟨fun p mem => part.isPiece mem, pieces.isPiece⟩
    · refine forall_mem_append.mpr ⟨fun p mem => ?_, fun p mem => ?_⟩
      · have := ends mem
        omega
      · have := pieces.above p mem
        omega
    · refine forall_mem_append.mpr ⟨fun p mem => ?_, fun p mem => ?_⟩
      · refine (pure_of_interval part mem proper).congr fun c lt => ?_
        have beyond : inBounds r c = false := by
          rw [Bool.eq_false_iff]
          intro held
          have := later.le_of_inBounds held
          have := within mem lt
          omega
        have none : carried r c = false :=
          Bool.eq_false_iff.mpr fun held => by simp [(of_carried held).2] at beyond
        simp [inBounds, carried, beyond, none]
      · refine (pieces.side p mem).congr fun c lt => ?_
        have := pieces.above p mem
        have beyond : ¬c ≤ hi := by omega
        simp [inBounds, carried, carriedIn, beyond]
    · intro c scalar held
      simp only [inBounds, Bool.or_eq_true, Bool.and_eq_true, decide_eq_true_eq] at held
      rcases held with here | there
      · obtain ⟨p, mem, lt⟩ := part.whole c ⟨scalar, here⟩
        exact ⟨p, mem_append_left _ mem, lt⟩
      · obtain ⟨p, mem, lt⟩ := pieces.whole c scalar there
        exact ⟨p, mem_append_right _ mem, lt⟩
  | case2 bounds other =>
    refine ⟨[], by unfold sequencesOfBounds?; split <;> simp_all, .nil, by simp, by simp, by simp,
      ?_⟩
    intro c _ held
    unfold inBounds at held
    split at held <;> simp_all

end Codec

namespace Unicode.CodeSet

variable {cs : CodeSet} {cd m : Nat}

variable (ord : InOrder m cs)

include ord

theorem InOrder.orderly
    (meaningful : cs.holdsBlock = false → ∀ c, cs.contains c = true → isReserved c = true →
      Codec.Meaningful c)
    {below : Int} (early : below ≤ m) :
    Codec.Orderly below cs.bounds := by
  induction cs generalizing m below with
  | nil => trivial
  | cons sp r ih =>
    obtain ⟨after, proper, later⟩ := inOrder_cons.mp ord
    have part (apart : ¬(sp.lo ≤ 0xF0000 ∧ 0xF0FFF ≤ sp.hi))
        (others : holdsBlock r = false) : holdsBlock (sp :: r) = false := by
      rw [Bool.eq_false_iff, ne_eq, holdsBlock_cons]
      simp [apart, others]
    have bounds := proper.1
    have := Int.ofNat_le.mpr proper.2
    refine ⟨by omega, ?_, ih later (fun others c held res => ?_) (by omega)⟩
    · by_cases covers : sp.lo ≤ 0xF0000 ∧ 0xF0FFF ≤ sp.hi
      · exact .inl (by omega)
      · refine .inr fun c res lt => ?_
        exact meaningful (part covers (later.not_holdsBlock res (by omega))) c
          (contains_iff.mpr ⟨sp, .head _, by omega, by omega⟩) res
    · exact meaningful (part (later.not_covers res held) others) c
        (by simp [contains_cons, held]) res

theorem InOrder.carried_bounds : carried cs.bounds cd = true ↔
      cs.holdsBlock = false ∧ cs.contains cd = true ∧ isReserved cd = true := by
  induction cs generalizing m with
  | nil => simp [bounds, carried, contains]
  | cons sp r ih =>
    obtain ⟨-, proper, later⟩ := inOrder_cons.mp ord
    rw [bounds_cons, carried, Bool.or_eq_true, carriedIn_iff, ih later, Bool.eq_false_iff,
      ne_eq, Bool.eq_false_iff, ne_eq, holdsBlock_cons, contains_cons, Bool.or_eq_true,
        Span.contains_iff]
    have noBlock := @InOrder.not_holdsBlock _ cd sp later
    have noCover := @InOrder.not_covers _ cd sp later
    constructor
    · rintro (⟨lt, res, apart⟩ | ⟨others, held, res⟩)
      · have := noBlock res (by omega)
        exact ⟨by simp [this]; omega, .inl (by omega), res⟩
      · exact ⟨by simp [others, noCover res held], .inr held, res⟩
    · rintro ⟨part, lt | held, res⟩
      · exact .inl ⟨by omega, res, by omega⟩
      · exact .inr ⟨fun others => part (.inr others), held, res⟩

theorem InOrder.takes_iff : cs.takes cd = true ↔
    (cs.contains cd = true ∧ carried cs.bounds cd = false) ∨
      cs.holdsBlock = false ∧ cs.carriesCategory cd = true := by
  rw [← Bool.not_eq_true (carried _ _), ord.carried_bounds, takes]
  cases cs.holdsBlock with
  | true => simp
  | false => simp; tauto

theorem InOrder.carried_backreference {gr : Nat} (small : gr < 256) :
    carried cs.bounds (encode .backreference gr) = true ↔ cs.refers gr = true := by
  have res : isReserved (encode .backreference gr) = true := by
    rw [encode_backreference small, isReserved_iff]
    omega
  simp [ord.carried_bounds, refers, res]

end Unicode.CodeSet

theorem Extension.evaluate?_ne_zero {ext : Extension} (forward : ext.kind ≠ .backreference)
    (t : Text) (k : Nat) (c : Captures) : ext.evaluate? t k c ≠ some 0 := by
  have move (n : Nat) (m : Bool) : matchCategory? (t.window k) n m ≠ some 0 := by
    intro got
    unfold matchCategory? at got
    split at got
    · next dec =>
      split at got
      · cases got
        obtain ⟨-, width, -⟩ := encode_of_decode? dec
        exact Nat.ne_of_lt (length_encode_pos _) width
      · simp at got
    · simp at got
  unfold evaluate?
  split
  · exact move _ _
  · exact move _ _
  · next reference => exact False.elim (forward reference)
  · simp

namespace Graph

variable {g : Graph} {q : Query} {b x pc k : Nat} {path : List Nat} {c : Captures} {p : Nat × Nat}
variable {cs : CodeSet} {ins : Inst}

/-- An automaton without exits to the outside, with the extensions found in it. -/
structure Recovered (graph : Graph) : Prop where
  valid : graph.Valid
  whole : Sealed graph.automaton.insts
  overlay_eq : graph.overlay = Recovery.overlay graph.automaton

theorem Recovered.of_validate {A : Automaton} (acc : A.validate = .ok ()) :
    Graph.validate ⟨A, Recovery.overlay A⟩ = .ok () ∧ Recovered ⟨A, Recovery.overlay A⟩ := by
  have whole := Recovery.sealed_of_validate acc
  have validated : Graph.validate ⟨A, Recovery.overlay A⟩ = .ok () := by
    simp [Graph.validate, acc, Recovery.overlayFault?_eq_none whole]
  exact ⟨validated, valid_of_validate validated, whole, rfl⟩

section

variable (recovered : g.Recovered) (here : g.automaton.insts[pc]? = some ins)

include recovered here

theorem Recovered.extensionsAt?_eq :
    g.extensionsAt? pc = (extensionsAt g.automaton ins).toOption := by
  rw [extensionsAt?, recovered.overlay_eq]
  exact overlay_find? recovered.whole here

theorem Recovered.extensionsAt?_eq_none (op : ins.op ≠ .byteRange) :
    g.extensionsAt? pc = none := by
  cases got : g.extensionsAt? pc with
  | none => rfl
  | some es =>
    have rng := (recovered.valid.extensions pc es got).1
    rw [inst_of_getElem? here] at rng
    exact False.elim (op rng)

end

theorem Recovered.extensionsAt?_head (recovered : g.Recovered) (isPiece : ByteRange.IsPiece p)
    (ch : Chain g.automaton.insts b x pc ((spelled p).map within)) :
    g.extensionsAt? pc = extensions? x p := by
  have ord := isPiece.ordered
  unfold extensions?
  split
  · next lt =>
    obtain ⟨ins, here, got⟩ := extensionsAt_reserved recovered.whole ord lt
      (isPiece.box (by omega)).2 ch
    rw [recovered.extensionsAt?_eq here, got]
    cases List.mapM (extension? x) (List.range' p.1 (p.2 + 1 - p.1)) <;> rfl
  · next outside =>
    obtain ⟨ins, here, got⟩ := extensionsAt_unreserved
      (isPiece.scalar _ (Nat.le_refl _) ord) (isPiece.scalar _ ord (Nat.le_refl _))
      outside ch
    rw [recovered.extensionsAt?_eq here, got]
    rfl

/-- What comes of a piece: of its extensions in order, or of its code points. -/
def tryPiece (graph : Graph) (query : Query) (exit offset : Nat) (captures : Captures)
    (piece : Nat × Nat) : Option Captures :=
  match Codec.extensions? exit piece with
  | some exts => exts.findSome? fun ext =>
    (ext.evaluate? query.text offset captures).bind fun count =>
      graph.attempt query [] ⟨ext.out.toNat, offset + count, captures⟩
  | none =>
    if Lowering.startsWith ((ByteRange.spelled piece).map ByteTest.within)
        (query.text.toList.drop offset) then
      graph.attempt query [] ⟨exit, offset + (ByteRange.spelled piece).length, captures⟩
    else none

theorem attempt_of_extensions {es : List Extension} (lt : pc < g.size)
    (got : g.extensionsAt? pc = some es)
    (moving : ∀ ext ∈ es, ext.evaluate? q.text k c ≠ some 0) (new : pc ∉ path) :
    g.attempt q path ⟨pc, k, c⟩ = es.findSome? fun ext =>
      (ext.evaluate? q.text k c).bind fun n =>
        g.attempt q [] ⟨ext.out.toNat, k + n, c⟩ := by
  rw [attempt_of_fresh lt new]
  simp only [branches, got]
  clear got
  induction es with
  | nil => rfl
  | cons ext r ih =>
    have others := ih fun o mem => moving o (.tail _ mem)
    rw [findSome?_cons_or, ← others]
    cases ev : ext.evaluate? q.text k c with
    | none =>
      have refused : ext.branch? q.text ⟨pc, k, c⟩ = none := by
        simp only [branch?, ev, Option.map_none]
      rw [filterMap_cons_none (f := fun ext : Extension => ext.branch? _ _) refused,
        Option.bind_none, Option.none_or]
    | some n =>
      have offered : ext.branch? q.text ⟨pc, k, c⟩ = some (.step ⟨ext.out.toNat, k + n, c⟩) := by
        simp only [branch?, ev, Option.map_some]
      have further : k + n ≠ k := by
        intro eq
        obtain rfl : n = 0 := by omega
        exact moving ext (.head _) ev
      rw [filterMap_cons_some (f := fun ext : Extension => ext.branch? _ _) offered,
        findSome?_cons_or, Option.bind_some]
      simp only [tryBranch, further, if_false]

theorem Recovered.unmarked_tail (recovered : g.Recovered) (isPiece : ByteRange.IsPiece p) :
    ∀ t ∈ ((spelled p).map within).tail, Lowering.Unmarked g t := by
  intro t mem i out here
  rw [← map_tail] at mem
  obtain ⟨range, inTail, rfl⟩ := mem_map.mp mem
  have apart := spelled_tail
    (isPiece.scalar _ (Nat.le_refl _) isPiece.ordered) range inTail
  have plain : isByte ((within range).inst out) 0xF3 = false := by
    rw [Bool.eq_false_iff]
    exact fun isLead => apart (isByte_iff.mp isLead).2.1
  rw [recovered.extensionsAt?_eq here, extensionsAt_of_not_lead plain]
  rfl

theorem Recovered.attempt_head (recovered : g.Recovered) (isPiece : ByteRange.IsPiece p)
    (ch : Chain g.automaton.insts b x pc ((spelled p).map within))
    (moving : ∀ es, g.extensionsAt? pc = some es → ∀ ext ∈ es, ext.evaluate? q.text k c ≠ some 0) :
    g.attempt q [] ⟨pc, k, c⟩ = g.tryPiece q x k c p := by
  have got := recovered.extensionsAt?_head isPiece ch
  unfold tryPiece
  cases exts_eq : extensions? x p with
  | some es =>
    obtain ⟨t, r, n, -, here⟩ := ch.first
    rw [exts_eq] at got
    exact attempt_of_extensions (Array.getElem?_eq_some_iff.mp here).1 got (moving es got)
      not_mem_nil
  | none =>
    rw [ch.attempt_eq (got.trans exts_eq) (recovered.unmarked_tail isPiece) not_mem_nil,
      length_map]

variable {parts : List (Nat × Nat)}

theorem Recovered.attempt_pieces (recovered : g.Recovered)
    (isPiece : ∀ p ∈ parts, ByteRange.IsPiece p)
    (reader : Lowering.Reader g.automaton.insts b x pc (parts.map fun p => (spelled p).map within))
    (new : pc ∉ path) (early : ∀ j ∈ path, j < b) (moving : ∀ pc es, g.extensionsAt? pc = some es →
      ∀ ext ∈ es, ext.evaluate? q.text k c ≠ some 0) :
    g.attempt q path ⟨pc, k, c⟩ = parts.findSome? (g.tryPiece q x k c) := by
  obtain ⟨hs, chains, tries⟩ :=
    reader.attempt_heads fun pc es got => (recovered.valid.extensions pc es got).1
  have paired := (forall₂_and_left _ _).mpr ⟨isPiece, (forall₂_map_right_iff.mp chains).flip⟩
  rw [tries q path k c new (fun j on after => absurd (early j on) (Nat.not_lt.mpr after)) moving]
  exact findSome?_of_forall₂ paired.flip fun h p ⟨isPiece, ch⟩ =>
    recovered.attempt_head isPiece ch (moving h)

/-- The search goes on at the exit of a step, after a number of bytes. -/
def goesOn (graph : Graph) (query : Query) (exit offset : Nat) (captures : Captures) (count : Nat) :
    Option Captures :=
  graph.attempt query [] ⟨exit, offset + count, captures⟩

/-- What comes of the extension that a code point stands for. -/
def tryCode (graph : Graph) (query : Query) (exit offset : Nat) (captures : Captures) (code : Nat) :
    Option Captures :=
  (Codec.extension? exit code).bind fun ext =>
    (ext.evaluate? query.text offset captures).bind fun count =>
      graph.attempt query [] ⟨ext.out.toNat, offset + count, captures⟩

theorem tryCode_encode {kd : ExtensionKind} {arg : Nat} (known : kd.isKnown = true)
    (small : arg < 256) (means : validArg kd arg = true) : g.tryCode q x k c (encode kd arg) =
      (evaluate? ⟨kd, arg, x⟩ q.text k c).bind (g.goesOn q x k c) := by
  rw [tryCode, extension?_encode known small, if_pos means]
  rfl

theorem tryPiece_reserved (lt : 0xF0000 ≤ p.1 ∧ p.2 ≤ 0xF0FFF)
    (meaningful : ∀ cd, p.1 ≤ cd → cd ≤ p.2 → Codec.Meaningful cd) : g.tryPiece q x k c p =
      (List.range' p.1 (p.2 + 1 - p.1)).findSome? (g.tryCode q x k c) := by
  obtain ⟨es, got⟩ := exists_extensions meaningful x
  rw [tryPiece, extensions?, if_pos lt, got]
  exact findSome?_of_mapM got

theorem exists_tryPiece_carrier {bs : List Int} {cr : Nat}
    (isPieces : Codec.Pieces 0 bs parts) (carried : Codec.carried bs cr = true) :
    ∃ p ∈ parts, (p.1 < 0xF0200 ↔ cr < 0xF0200) ∧
      (g.tryPiece q x k c p = none → g.tryCode q x k c cr = none) := by
  obtain ⟨res, held⟩ := of_carried carried
  rw [isReserved_iff] at res
  obtain ⟨p, mem, lt⟩ := isPieces.whole cr (isScalar_iff.mpr (by omega)) held
  obtain ⟨inBlock, means⟩ := (isPieces.side p mem).resolve_right fun plain => by
    simp [(plain.2 cr lt).2] at carried
  refine ⟨p, mem, ⟨fun low => ?_, Nat.lt_of_le_of_lt lt.1⟩, fun none => ?_⟩
  · by_contra high
    exact not_meaningful (means 0xF0200 (by omega)).1
  · rw [tryPiece_reserved inBlock fun cd above below => (means cd ⟨above, below⟩).1,
      findSome?_eq_none_iff] at none
    exact none cr (mem_range'_1.mpr (by omega))

section Next

variable {cd : Nat} {r : Bytes} (scalar : Utf8.isScalar cd = true)
  (next : q.text.toList.drop k = Utf8.encode cd ++ r)
variable {cs : CodeSet} {parts : List (Nat × Nat)} {gr n : Nat}

include scalar next

theorem tryPiece_plain (isPiece : ByteRange.IsPiece p) (plain : extensions? x p = none) :
    g.tryPiece q x k c p =
      if p.1 ≤ cd ∧ cd ≤ p.2 then
        g.goesOn q x k c (encode cd).length
      else none := by
  have starts : startsWith ((spelled p).map within)
      (encode cd ++ r) = true ↔ p.1 ≤ cd ∧ cd ≤ p.2 := by
    rw [startsWith_iff]
    constructor
    · rintro ⟨bs, others, parts, -, passes⟩
      obtain ⟨j, lt, rfl⟩ := (isPiece.exact bs).mp ((passes_within _ _).mp passes)
      obtain ⟨rfl, -⟩ := encode_append_inj scalar (isPiece.scalar j lt.1 lt.2) parts
      exact lt
    · intro lt
      have passes := (isPiece.exact (encode cd)).mpr ⟨cd, lt, rfl⟩
      exact ⟨_, r, rfl, by rw [length_map]; exact passes.length_eq.symm,
        (passes_within _ _).mpr passes⟩
  simp only [tryPiece, plain, next, starts]
  split
  · next lt =>
    have passes := (isPiece.exact (encode cd)).mpr ⟨cd, lt, rfl⟩
    rw [goesOn, ← passes.length_eq]
  · rfl

theorem decode?_window : decode? (q.text.window k) = some (cd, (encode cd).length) := by
  have window_eq : q.text.window k = encode cd ++ r.take (4 - (encode cd).length) := by
    have short := length_encode_le cd
    rw [Text.window, Array.toList_extract, extract_eq_take_drop, Nat.add_sub_cancel_left, next,
      take_append, take_of_length_le short]
  rw [window_eq]
  exact decode?_encode scalar _

theorem matchCategory?_next (n : Nat) (m : Bool) : matchCategory? (q.text.window k) n m =
      if (Category.ofNumber? n).any (·.contains cd = m) then
        some (encode cd).length
      else none := by
  rw [matchCategory?, decode?_window scalar next]
  cases Category.ofNumber? n <;> simp

theorem tryCode_category (le : n < Category.count) : g.tryCode q x k c (encode .category n) =
      if (Category.ofNumber? n).any (·.contains cd) then
        g.goesOn q x k c (Utf8.encode cd).length
      else none := by
  have means : validArg .category n = true := decide_eq_true le
  rw [tryCode_encode rfl (Nat.lt_of_lt_of_le le (by decide)) means]
  change (matchCategory? (q.text.window k) n true).bind _ = _
  rw [matchCategory?_next scalar next]
  simp only [Bool.decide_eq_true]
  split <;> rfl

theorem tryCode_notCategory (le : n < Category.count) : g.tryCode q x k c (encode .notCategory n) =
      if (Category.ofNumber? n).any (!·.contains cd) then
        g.goesOn q x k c (Utf8.encode cd).length
      else none := by
  have means : validArg .notCategory n = true := decide_eq_true le
  rw [tryCode_encode rfl (Nat.lt_of_lt_of_le le (by decide)) means]
  change (matchCategory? (q.text.window k) n false).bind _ = _
  rw [matchCategory?_next scalar next]
  simp only [Bool.decide_eq_false]
  split <;> rfl

section Pieces

variable (ord : cs.InOrder 0) (bs : 0 < gr ∧ gr < 256)
  (only : ∀ n, 0 < n ∧ n < 256 → cs.refers n = true → n = gr ∧ cd < 0xF0000)

include ord

theorem tryCode_low {cr : Nat} (carried : Codec.carried cs.bounds cr = true)
    (meaningful : Codec.Meaningful cr) (low : cr < 0xF0200) : g.tryCode q x k c cr = none ∨
      cs.takes cd = true ∧ g.tryCode q x k c cr = g.goesOn q x k c (encode cd).length := by
  obtain ⟨part, held, -⟩ := ord.carried_bounds.mp carried
  have takes (carries : cs.carriesCategory cd = true) : cs.takes cd = true :=
    ord.takes_iff.mpr (.inr ⟨part, carries⟩)
  obtain ⟨n, le, rfl | rfl⟩ := meaningful.eq_category low
  · rw [tryCode_category scalar next le]
    split
    · next known =>
      exact .inr ⟨takes (CodeSet.carriesCategory_iff.mpr ⟨n, le, .inl ⟨held, known⟩⟩), rfl⟩
    · exact .inl rfl
  · rw [tryCode_notCategory scalar next le]
    split
    · next known =>
      exact .inr ⟨takes (CodeSet.carriesCategory_iff.mpr ⟨n, le, .inr ⟨held, known⟩⟩), rfl⟩
    · exact .inl rfl

include bs only

/-- What comes of a piece. The categories are before U+F0200 and the backreference is after it, and
with a backreference in the set the next code point is before it. -/
theorem tryPiece_cases (isPieces : Codec.Pieces 0 cs.bounds parts) (mem : p ∈ parts) :
    (p.1 < 0xF0200 ∨ cs.refers gr = false) ∧ (g.tryPiece q x k c p = none ∨
          cs.takes cd = true ∧ g.tryPiece q x k c p = g.goesOn q x k c (Utf8.encode cd).length) ∨
      (0xF0200 ≤ p.1 ∧ cs.refers gr = true) ∧ (g.tryPiece q x k c p = none ∨
          g.tryPiece q x k c p = g.tryCode q x k c (encode .backreference gr)) := by
  have isPiece := isPieces.isPiece p mem
  rcases isPieces.side p mem with ⟨inBlock, means⟩ | ⟨plain, mems⟩
  · have inPiece {cr : Nat} (lt : cr ∈ List.range' p.1 (p.2 + 1 - p.1)) : p.1 ≤ cr ∧ cr ≤ p.2 := by
      rw [mem_range'_1] at lt
      omega
    rw [tryPiece_reserved inBlock fun code above below => (means code ⟨above, below⟩).1]
    by_cases low : p.1 < 0xF0200
    · refine .inl ⟨.inl low, findSome?_none_or fun cr mem => ?_⟩
      obtain ⟨meaningful, carried⟩ := means cr (inPiece mem)
      refine tryCode_low scalar next ord carried meaningful ?_
      by_contra high
      have inside := inPiece mem
      exact not_meaningful (means 0xF0200 (by omega)).1
    · have each (cr : Nat) (inside : p.1 ≤ cr ∧ cr ≤ p.2) :
          cs.refers gr = true ∧ cr = encode .backreference gr := by
        obtain ⟨meaningful, carried⟩ := means cr inside
        obtain ⟨n, bounds', rfl⟩ := meaningful.eq_backreference (by omega)
        have refers := (ord.carried_backreference bounds'.2).mp carried
        obtain ⟨rfl, -⟩ := only n bounds' refers
        exact ⟨refers, rfl⟩
      have fst := each p.1 ⟨Nat.le_refl _, isPiece.ordered⟩
      refine .inr ⟨⟨Nat.le_of_not_lt low, fst.1⟩, .inr (findSome?_eq_of_same ?_ ?_)⟩
      · exact fun cr mem => .inr (by rw [(each cr (inPiece mem)).2])
      · exact ⟨p.1, mem_range'_1.mpr (by have := isPiece.ordered; omega), by rw [fst.2]⟩
  · rw [tryPiece_plain scalar next isPiece (plain x)]
    by_cases late : 0xF0200 ≤ p.1 ∧ cs.refers gr = true
    · refine .inr ⟨late, .inl (if_neg ?_)⟩
      have := (only gr bs late.2).2
      omega
    · refine .inl ⟨(not_and_or.mp late).imp Nat.lt_of_not_le Bool.eq_false_iff.mpr, ?_⟩
      split
      · next inside =>
        obtain ⟨held, none⟩ := mems cd inside
        exact .inr ⟨ord.takes_iff.mpr (.inl ⟨CodeSet.inBounds_bounds cs cd ▸ held, none⟩), rfl⟩
      · exact .inl rfl

/-- A step for a set goes on after a code point that the set takes, and otherwise after what a
backreference in the set repeats. -/
theorem Recovered.attempt_takes (recovered : g.Recovered)
    (reads : ReadsBounds g.automaton.insts b x pc cs.bounds)
    (meaningful : cs.holdsBlock = false → ∀ code, cs.contains code = true →
      isReserved code = true → Codec.Meaningful code) (new : pc ∉ path) (early : ∀ j ∈ path, j < b)
    (moving : ∀ pc es, g.extensionsAt? pc = some es →
      ∀ ext ∈ es, ext.evaluate? q.text k c ≠ some 0) : g.attempt q path ⟨pc, k, c⟩ =
      (if cs.takes cd = true then
          g.goesOn q x k c (encode cd).length
        else none).or
      (if cs.refers gr = true then
          (matchBackreference? q.text k c gr).bind (g.goesOn q x k c)
        else none) := by
  obtain ⟨products, got, reader⟩ := reads
  obtain ⟨parts, got', isPieces⟩ := (ord.orderly meaningful (Int.le_refl 0)).pieces (Int.le_refl 0)
  cases got.symm.trans got'
  rw [map_map] at reader
  have means : validArg .backreference gr = true := decide_eq_true bs.1
  have reference := @tryCode_encode g q x k c _ _ rfl bs.2 means
  rw [recovered.attempt_pieces isPieces.isPiece reader new early moving]
  change _ = Option.or _ (if _ then
    Option.bind (evaluate? ⟨.backreference, gr, x⟩ _ _ _) _ else _)
  rw [← reference]
  refine findSome?_eq_or (fun p => p.1 < 0xF0200 || !cs.refers gr) ?_
    (fun p mem => ?_) (fun taken => ?_) fun refers => ?_
  · refine isPieces.ascending.imp_of_mem fun {a second} mem _ pre isEarly => ?_
    have := (isPieces.isPiece a mem).ordered
    simp only [Bool.or_eq_true, decide_eq_true_eq] at isEarly ⊢
    exact isEarly.imp_left fun _ => by omega
  · rcases tryPiece_cases scalar next ord bs only isPieces mem with
      ⟨isEarly, tries⟩ | ⟨⟨high, refers⟩, tries⟩
    · exact .inl ⟨by simpa using isEarly, tries⟩
    · exact .inr ⟨by simpa [refers] using high, tries.imp_right fun eq => ⟨refers, eq⟩⟩
  · rcases ord.takes_iff.mp taken with ⟨held, plain⟩ | ⟨part, carries⟩
    · obtain ⟨p, mem, lt⟩ := isPieces.whole cd scalar (CodeSet.inBounds_bounds cs cd ▸ held)
      obtain ⟨none, -⟩ := (isPieces.side p mem).resolve_left fun inBlock => by
        simp [(inBlock.2 cd lt).2] at plain
      refine ⟨p, mem, ?_, ?_⟩
      · cases refers : cs.refers gr with
        | false => simp
        | true =>
          have := (only gr bs refers).2
          simp only [Bool.not_true, Bool.or_false, decide_eq_true_eq]
          omega
      · rw [tryPiece_plain scalar next (isPieces.isPiece p mem) (none x), if_pos lt]
    · have viaCarrier {cr : Nat} (held : cs.contains cr = true) (res : 0xF0000 ≤ cr ∧ cr < 0xF0200)
          (matching : g.tryCode q x k c cr = g.goesOn q x k c (encode cd).length) :
          ∃ p ∈ parts, (decide (p.1 < 0xF0200) || !cs.refers gr) = true ∧
            g.tryPiece q x k c p = g.goesOn q x k c (encode cd).length := by
        obtain ⟨p, mem, side, tries⟩ := exists_tryPiece_carrier isPieces
          (ord.carried_bounds.mpr ⟨part, held, isReserved_iff.mpr (by omega)⟩)
        have low := side.mpr res.2
        refine ⟨p, mem, by simp [low], ?_⟩
        rcases tryPiece_cases scalar next ord bs only isPieces mem with
          ⟨-, none | ⟨-, eq⟩⟩ | ⟨high, -⟩
        · exact none.trans ((tries none).symm.trans matching)
        · exact eq
        · omega
      have few : Category.count < 256 := by decide
      obtain ⟨n, le, ⟨held, known⟩ | ⟨held, known⟩⟩ := CodeSet.carriesCategory_iff.mp carries
      · refine viaCarrier held ?_ (by rw [tryCode_category scalar next le, if_pos known])
        rw [encode_category le]
        omega
      · refine viaCarrier held ?_ (by rw [tryCode_notCategory scalar next le, if_pos known])
        rw [encode_notCategory le]
        omega
  · obtain ⟨p, mem, side, tries⟩ :=
      exists_tryPiece_carrier isPieces ((ord.carried_backreference bs.2).mpr refers)
    have high : ¬p.1 < 0xF0200 := by
      rw [side, encode_backreference bs.2]
      omega
    refine ⟨p, mem, by simp [refers, high], ?_⟩
    rcases tryPiece_cases scalar next ord bs only isPieces mem with
      ⟨low | none, -⟩ | ⟨-, none | eq⟩
    · exact absurd low high
    · simp [refers] at none
    · exact none.trans (tries none).symm
    · exact eq

end Pieces

end Next

end Graph

end Rematch
