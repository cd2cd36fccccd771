import Rematch.Proofs.Text.Utf8
import Rematch.Text.ByteRanges
import Mathlib.Algebra.Group.Nat.Defs
import Mathlib.Data.List.Forall2

/-!
Products of byte ranges are exact: the products that an interval is cut into contain the forms of
its scalar values and nothing else. A piece of an interval is a product because its digits to the
base 64 are independent of each other.
-/

namespace Rematch.ByteRange

open List Utf8

variable {pieces : List (Nat × Nat)} {k hi n lo : Nat}

def Matches (ranges : List ByteRange) (bytes : Bytes) : Prop :=
  List.Forall₂ (fun range byte => range.lo ≤ byte ∧ byte ≤ range.hi) ranges bytes

/-- The products contain the forms of the given codes and nothing else. -/
def Covers (products : List (List ByteRange)) (member : Nat → Prop) : Prop :=
  ∀ bytes, (∃ ranges ∈ products, Matches ranges bytes) ↔
    ∃ code, member code ∧ bytes = Utf8.encode code

namespace Covers

variable {products others : List (List ByteRange)} {m o : Nat → Prop}

theorem congr (covers : Covers products m) (eq : ∀ c, m c ↔ o c) : Covers products o := by
  intro bs
  simp [covers bs, eq]

theorem append (covers : Covers products m) (covers' : Covers others o) :
    Covers (products ++ others) fun c => m c ∨ o c := by
  intro bs
  simp only [mem_append, or_and_right, exists_or, covers bs, covers' bs]

theorem ne_nil (covers : Covers products m) {rs : List ByteRange} (mem : rs ∈ products) :
    rs ≠ [] := by
  rintro rfl
  obtain ⟨c, -, empty⟩ := (covers []).mp ⟨[], mem, .nil⟩
  have pos := length_encode_pos c
  rw [← empty] at pos
  exact Nat.lt_irrefl _ pos

end Covers

/-- The last `levels` digits to the base 64, and what stands before them, lie between those of the
bounds. -/
def Between : Nat → Nat → Nat → Nat → Prop
  | 0, lo, hi, code => lo ≤ code ∧ code ≤ hi
  | levels + 1, lo, hi, code =>
    (lo % 64 ≤ code % 64 ∧ code % 64 ≤ hi % 64) ∧ Between levels (lo / 64) (hi / 64) (code / 64)

/-- The bounds differ in one digit only, and all digits after it are free. -/
def Box : Nat → Nat → Nat → Prop
  | 0, _, _ => True
  | levels + 1, lo, hi =>
    lo / 64 = hi / 64 ∨ lo % 64 = 0 ∧ hi % 64 = 63 ∧ Box levels (lo / 64) (hi / 64)

theorem between_self (n m c : Nat) : Between n m m c ↔ c = m := by
  induction n generalizing m c with
  | zero =>
    simp only [Between]
    omega
  | succ n ih =>
    simp only [Between, ih]
    omega

theorem Box.between_iff (box : Box n lo hi) (c : Nat) : Between n lo hi c ↔ lo ≤ c ∧ c ≤ hi := by
  induction n generalizing lo hi c with
  | zero => rfl
  | succ lv ih =>
    rcases box with eq | ⟨fst, last, box⟩
    · simp only [Between, eq, between_self]
      omega
    · simp only [Between, ih box]
      omega

/-- The bytes of a code with `levels` continuation bytes after its lead byte. -/
def spread (mark : Nat) : Nat → Nat → Bytes
  | 0, code => [UInt8.ofNat (mark + code)]
  | levels + 1, code => spread mark levels (code / 64) ++ [Utf8.continuation code]

@[simp] theorem length_spread (m n c : Nat) : (spread m n c).length = n + 1 := by
  induction n generalizing c with
  | zero => rfl
  | succ n ih => simp [spread, ih]

variable {rs : List ByteRange} {bs : Bytes}

theorem matches_concat {z : ByteRange} : Matches (rs ++ [z]) bs ↔
      ∃ f b, bs = f ++ [b] ∧ Matches rs f ∧ z.lo ≤ b ∧ b ≤ z.hi := by
  constructor
  · intro got
    have front := forall₂_take_append bs rs [z] got.flip
    have rest := forall₂_drop_append bs rs [z] got.flip
    obtain ⟨b, none, lt, empty, pieces⟩ := forall₂_cons_left_iff.mp rest.flip
    obtain rfl := forall₂_nil_left_iff.mp empty
    exact ⟨_, b, by rw [← pieces, take_append_drop], front.flip, lt⟩
  · rintro ⟨f, b, rfl, got, lt⟩
    exact rel_append got (.cons lt .nil)

theorem matches_spread {m : Nat} (ord : lo ≤ hi) (fits : m + hi / 64 ^ n < 256) (bs : Bytes) :
    Matches (List.zipWith mk (spread m n lo) (spread m n hi)) bs ↔
      ∃ c, Between n lo hi c ∧ bs = spread m n c := by
  induction n generalizing lo hi bs with
  | zero =>
    rw [Nat.pow_zero, Nat.div_one] at fits
    have lower : (UInt8.ofNat (m + lo)).toNat = m + lo :=
      UInt8.toNat_ofNat_of_lt (by change _ < 256; omega)
    have upper : (UInt8.ofNat (m + hi)).toNat = m + hi := UInt8.toNat_ofNat_of_lt fits
    simp only [Matches, spread, zipWith_cons_cons, zipWith_nil_left, Between]
    constructor
    · intro got
      obtain ⟨b, r, lt, empty, rfl⟩ := forall₂_cons_left_iff.mp got
      obtain rfl := forall₂_nil_left_iff.mp empty
      simp only [UInt8.le_iff_toNat_le, lower, upper] at lt
      have byte_eq : b = UInt8.ofNat (m + (b.toNat - m)) := (ofNat_eq b (by omega)).symm
      exact ⟨b.toNat - m, by omega, by rw [← byte_eq]⟩
    · rintro ⟨c, between, rfl⟩
      have exact : (UInt8.ofNat (m + c)).toNat = m + c :=
        UInt8.toNat_ofNat_of_lt (by change _ < 256; omega)
      refine .cons ?_ .nil
      simp only [UInt8.le_iff_toNat_le, lower, upper, exact]
      omega
  | succ lv ih =>
    have narrow := ih (Nat.div_le_div_right ord) (by rwa [Nat.div_div_eq_div_mul, ← Nat.pow_succ'])
    simp only [spread]
    rw [zipWith_append (by simp), zipWith_cons_cons, zipWith_nil_left, matches_concat]
    simp only [narrow, UInt8.le_iff_toNat_le, toNat_continuation]
    constructor
    · rintro ⟨_, b, rfl, ⟨c, between, rfl⟩, lt⟩
      have quotient : (64 * c + (b.toNat - 0x80)) / 64 = c := by omega
      have digit : (64 * c + (b.toNat - 0x80)) % 64 = b.toNat - 0x80 := by omega
      refine ⟨64 * c + (b.toNat - 0x80), ⟨by omega, by rwa [quotient]⟩, ?_⟩
      rw [quotient, continuation, digit, ofNat_eq b (by omega)]
    · rintro ⟨c, ⟨digit, between⟩, rfl⟩
      refine ⟨_, _, rfl, ⟨c / 64, between, rfl⟩, ?_⟩
      rw [toNat_continuation]
      omega

/-- The codes from `first` to `last` are scalar values with `levels` continuation bytes. -/
structure Form (levels mark first last : Nat) : Prop where
  scalar : ∀ code, first ≤ code → code ≤ last → Utf8.isScalar code = true
  encode : ∀ code, first ≤ code → code ≤ last → Utf8.encode code = spread mark levels code
  fits : mark + last / 64 ^ levels < 256

theorem form_single : Form 0 0 0 0x7F where
  scalar c above below := isScalar_iff.mpr (by omega)
  encode c above below := by
    rw [encode_of_isScalar (isScalar_iff.mpr (by omega)), encodeScalar,
      if_pos (by omega), spread, Nat.zero_add]
  fits := by decide

theorem form_double : Form 1 0xC0 0x80 0x7FF where
  scalar c above below := isScalar_iff.mpr (by omega)
  encode c above below := by
    rw [encode_of_isScalar (isScalar_iff.mpr (by omega)), encodeScalar,
      if_neg (by omega), if_pos (by omega)]
    rfl
  fits := by decide

theorem form_triple {a z : Nat} (above : 0x800 ≤ a) (below : z ≤ 0xFFFF)
    (noSurrogates : z < 0xD800 ∨ 0xE000 ≤ a) : Form 2 0xE0 a z where
  scalar c _ _ := isScalar_iff.mpr (by omega)
  encode c _ _ := by
    rw [encode_of_isScalar (isScalar_iff.mpr (by omega)), encodeScalar,
      if_neg (by omega), if_neg (by omega), if_pos (by omega)]
    simp only [spread, Nat.div_div_eq_div_mul, cons_append, nil_append]
  fits := by omega

theorem form_quadruple : Form 3 0xF0 0x10000 0x10FFFF where
  scalar c above below := isScalar_iff.mpr (by omega)
  encode c above below := by
    rw [encode_of_isScalar (isScalar_iff.mpr (by omega)), encodeScalar,
      if_neg (by omega), if_neg (by omega), if_neg (by omega)]
    simp only [spread, Nat.div_div_eq_div_mul, cons_append, nil_append]
  fits := by decide

/-- The product between the forms of the first and the last code of a piece. -/
def spelled (piece : Nat × Nat) : List ByteRange :=
  List.zipWith mk (Utf8.encode piece.1) (Utf8.encode piece.2)

/-- The codes of the scalar values from `lo` to `hi`. -/
def Interval (lo hi : Int) (code : Nat) : Prop :=
  Utf8.isScalar code = true ∧ lo ≤ code ∧ code ≤ hi

/-- The products of pieces contain the forms of the given codes and nothing else. They come in
ascending order, and a block of 4096 codes with forms of four bytes is not cut. -/
structure Partition (member : Nat → Prop) (pieces : List (Nat × Nat)) : Prop where
  inside : ∀ piece ∈ pieces, piece.1 ≤ piece.2 ∧
    ∀ code, piece.1 ≤ code → code ≤ piece.2 → member code
  exact : ∀ piece ∈ pieces, ∀ bytes, Matches (spelled piece) bytes ↔
    ∃ code, (piece.1 ≤ code ∧ code ≤ piece.2) ∧ bytes = Utf8.encode code
  whole : ∀ code, member code → ∃ piece ∈ pieces, piece.1 ≤ code ∧ code ≤ piece.2
  ascending : pieces.Pairwise fun first second => first.2 < second.1
  boxes : ∀ piece ∈ pieces, 0x10000 ≤ piece.2 → 0x10000 ≤ piece.1 ∧ Box 3 piece.1 piece.2
  blocks : ∀ block, 0x10000 ≤ block * 4096 →
    (∀ code, block * 4096 ≤ code → code < (block + 1) * 4096 → member code) →
    ∃ piece ∈ pieces, piece.1 ≤ block * 4096 ∧ (block + 1) * 4096 ≤ piece.2 + 1

namespace Partition

variable {m : Nat → Prop} {pieces others : List (Nat × Nat)}

theorem empty (none : ∀ c, ¬m c) : Partition m [] where
  inside := by simp
  exact := by simp
  whole c isMember := False.elim (none c isMember)
  ascending := .nil
  boxes := by simp
  blocks k _ all := False.elim (none _ (all (k * 4096) (Nat.le_refl _) (by omega)))

/-- The parts of an interval with nothing but surrogates between them, where no block of 4096 codes
with forms of four bytes is cut. -/
theorem append {lo last first hi : Int} (fst : Partition (Interval lo last) pieces)
    (snd : Partition (Interval first hi) others) (before : last < hi) (after : lo < first)
    (gap : ∀ c : Nat, isScalar c = true → c ≤ last ∨ first ≤ c)
    (seam : ∀ k : Nat, 0x10000 ≤ k * 4096 → k * 4096 < first → first < (k + 1) * 4096 →
      k * 4096 < lo ∨ hi < (k + 1) * 4096 - 1) (order : last < first) :
    Partition (Interval lo hi) (pieces ++ others) where
  inside p mem := by
    rcases mem_append.mp mem with here | there
    · refine (fst.inside p here).imp_right fun all c above below => ?_
      obtain ⟨scalar, inside⟩ := all c above below
      exact ⟨scalar, by omega⟩
    · refine (snd.inside p there).imp_right fun all c above below => ?_
      obtain ⟨scalar, inside⟩ := all c above below
      exact ⟨scalar, by omega⟩
  exact p mem := (mem_append.mp mem).elim (fst.exact p) (snd.exact p)
  whole c isMember := by
    obtain ⟨scalar, inside⟩ := isMember
    rcases gap c scalar with early | late
    · obtain ⟨p, mem, holds⟩ := fst.whole c ⟨scalar, by omega⟩
      exact ⟨p, mem_append_left _ mem, holds⟩
    · obtain ⟨p, mem, holds⟩ := snd.whole c ⟨scalar, by omega⟩
      exact ⟨p, mem_append_right _ mem, holds⟩
  ascending := by
    refine pairwise_append.mpr ⟨fst.ascending, snd.ascending, ?_⟩
    intro p mem p' mem'
    obtain ⟨ord, all⟩ := fst.inside p mem
    obtain ⟨ord', all'⟩ := snd.inside p' mem'
    have := (all p.2 ord (Nat.le_refl _)).2
    have := (all' p'.1 (Nat.le_refl _) ord').2
    omega
  boxes p mem := (mem_append.mp mem).elim (fst.boxes p) (snd.boxes p)
  blocks k long all := by
    have lower := (all (k * 4096) (Nat.le_refl _) (by omega)).2
    have upper := (all (k * 4096 + 4095) (by omega) (by omega)).2
    by_cases late : first ≤ k * 4096
    · obtain ⟨p, mem, holds⟩ := snd.blocks k long fun c above below =>
        ⟨(all c above below).1, by omega, (all c above below).2.2⟩
      exact ⟨p, mem_append_right _ mem, holds⟩
    · have early : ((k + 1) * 4096 : Int) ≤ first := by
        by_contra cut
        have := seam k long (by omega) (by omega)
        omega
      obtain ⟨p, mem, holds⟩ := fst.blocks k long fun c above below => by
        obtain ⟨scalar, inside⟩ := all c above below
        exact ⟨scalar, inside.1, (gap c scalar).resolve_right (by omega)⟩
      exact ⟨p, mem_append_left _ mem, holds⟩

theorem covers (part : Partition m pieces) : Covers (pieces.map spelled) m := by
  intro bs
  simp only [mem_map, exists_exists_and_eq_and]
  constructor
  · rintro ⟨p, mem, matched⟩
    obtain ⟨c, ⟨above, below⟩, rfl⟩ := (part.exact p mem bs).mp matched
    exact ⟨c, (part.inside p mem).2 c above below, rfl⟩
  · rintro ⟨c, isMember, rfl⟩
    obtain ⟨p, mem, holds⟩ := part.whole c isMember
    exact ⟨p, mem, (part.exact p mem _).mpr ⟨c, holds, rfl⟩⟩

end Partition

/-- What a partition into scalar values says of one of its pieces. -/
structure IsPiece (piece : Nat × Nat) : Prop where
  ordered : piece.1 ≤ piece.2
  scalar : ∀ code, piece.1 ≤ code → code ≤ piece.2 → Utf8.isScalar code = true
  exact : ∀ bytes, Matches (spelled piece) bytes ↔
    ∃ code, (piece.1 ≤ code ∧ code ≤ piece.2) ∧ bytes = Utf8.encode code
  box : 0x10000 ≤ piece.2 → 0x10000 ≤ piece.1 ∧ Box 3 piece.1 piece.2

theorem Partition.isPiece {holds : Nat → Prop}
    (part : Partition (fun c => isScalar c = true ∧ holds c) pieces)
    {p : Nat × Nat} (mem : p ∈ pieces) : IsPiece p where
  ordered := (part.inside p mem).1
  scalar c above below := ((part.inside p mem).2 c above below).1
  exact := part.exact p mem
  box := part.boxes p mem

namespace Form

variable {n mk a z : Nat}

variable {p : Nat × Nat}

theorem product?_eq {lo hi : Int} (form : Form n mk a z) (above : a ≤ lo) (ord : lo ≤ hi)
    (below : hi ≤ z) : product? lo hi = some (spelled (lo.toNat, hi.toNat)) := by
  have scalar := isScalar_iff.mp (form.scalar lo.toNat (by omega) (by omega))
  rw [product?, spelled]
  split
  · have encoded (c : Int) (bounds : 0 ≤ c ∧ c ≤ 0x7F) : Utf8.encode c.toNat = [lowByte c] := by
      rw [form_single.encode c.toNat (by omega) (by omega), spread, Nat.zero_add, lowByte,
        Int.emod_eq_of_lt bounds.1 (by omega)]
    rw [encoded lo (by omega), encoded hi (by omega)]
    rfl
  · rw [if_pos (by omega), form.encode lo.toNat (by omega) (by omega),
      form.encode hi.toNat (by omega) (by omega), ← append_nil (spread mk n lo.toNat),
      zipWith_append (by simp), zipWith_nil_left]
    simp

theorem matches_spelled (form : Form n mk a z) (above : a ≤ p.1) (ord : p.1 ≤ p.2)
    (below : p.2 ≤ z) (box : Box n p.1 p.2) (bs : Bytes) :
    Matches (spelled p) bs ↔ ∃ cd, (p.1 ≤ cd ∧ cd ≤ p.2) ∧ bs = Utf8.encode cd := by
  rw [spelled, form.encode p.1 above (by omega), form.encode p.2 (by omega) below,
    matches_spread ord ?_]
  · simp only [box.between_iff]
    refine exists_congr fun cd => and_congr_right fun lt => ?_
    rw [form.encode cd (by omega) (by omega)]
  · have := form.fits
    have := Nat.div_le_div_right (c := 64 ^ n) below
    omega

theorem partition {lo hi : Int} (form : Form n mk a z)
    (deep : z < 0x10000 ∨ 0x10000 ≤ a ∧ n = 3) (above : a ≤ lo) (ord : lo ≤ hi) (below : hi ≤ z)
    (box : Box n lo.toNat hi.toNat) : Partition (Interval lo hi) [(lo.toNat, hi.toNat)] where
  inside p mem := by
    obtain rfl := mem_singleton.mp mem
    exact ⟨by omega, fun c above' below' => ⟨form.scalar c (by omega) (by omega), by omega⟩⟩
  exact p mem := by
    obtain rfl := mem_singleton.mp mem
    exact form.matches_spelled (by omega) (by omega) (by omega) box
  whole c isMember := by
    have := isMember.2
    exact ⟨_, mem_singleton.mpr rfl, by omega⟩
  ascending := pairwise_singleton _ _
  boxes p mem long := by
    obtain rfl := mem_singleton.mp mem
    obtain ⟨above', rfl⟩ := deep.resolve_left (by omega)
    exact ⟨by omega, box⟩
  blocks k _ all := by
    have lower := (all (k * 4096) (Nat.le_refl _) (by omega)).2
    have upper := (all (k * 4096 + 4095) (by omega) (by omega)).2
    exact ⟨_, mem_singleton.mpr rfl, by omega⟩

end Form

section Cut

variable {lo hi : Int}

theorem cutBlock?_eq_none {block : Int} {larger : List Int} :
    cutBlock? lo hi (block :: larger) = none ↔
      (lo / block = hi / block ∨ lo % block = 0 ∧ hi % block = block - 1) ∧
        cutBlock? lo hi larger = none := by
  rw [cutBlock?]
  split
  · simp [*]
  · split
    · simp [*]
    · split <;> simp_all

/-- An interval that is not cut has forms of one length, and all digits after the first in which its
ends differ are free. -/
theorem form_of_whole (nonneg : 0 ≤ lo) (ord : lo ≤ hi) (inRange : hi ≤ 0x10FFFF)
    (uncut : cut? lo hi = none) : ∃ n mk a z, Form n mk a z ∧
    (z < 0x10000 ∨ 0x10000 ≤ a ∧ n = 3) ∧ (a ≤ lo ∧ hi ≤ z) ∧ Box n lo.toNat hi.toNat := by
  unfold cut? at uncut
  iterate 4
    split at uncut
    · simp at uncut
  rw [Option.map_eq_none_iff, blocks] at uncut
  split at uncut
  · exact ⟨_, _, _, _, form_single, by omega, by omega, trivial⟩
  split at uncut
  · simp only [cutBlock?_eq_none] at uncut
    refine ⟨_, _, _, _, form_double, by omega, by omega, ?_⟩
    simp only [Box, and_true]
    omega
  split at uncut
  · simp only [cutBlock?_eq_none] at uncut
    refine ⟨_, _, _, _, form_triple (a := lo.toNat) (z := hi.toNat) (by omega) (by omega)
      (by omega),
      by omega, by omega, ?_⟩
    simp only [Box, and_true]
    omega
  · rw [if_pos (by omega)] at uncut
    simp only [cutBlock?_eq_none] at uncut
    refine ⟨_, _, _, _, form_quadruple, by omega, by omega, ?_⟩
    simp only [Box, and_true]
    omega

/-- Between the parts of an interval there are surrogates only, and a block of 4096 codes with forms
of four bytes that the cut goes through is not all in the interval. -/
theorem cut?_seam {parts : Int × Int} (cut : cut? lo hi = some parts) :
    (∀ c : Nat, isScalar c = true → c ≤ parts.1 ∨ parts.2 ≤ c) ∧ parts.1 < parts.2 ∧
    ∀ k : Nat, 0x10000 ≤ k * 4096 → k * 4096 < parts.2 → parts.2 < (k + 1) * 4096 →
      k * 4096 < lo ∨ hi < (k + 1) * 4096 - 1 := by
  unfold cut? at cut
  split at cut
  · cases cut
    refine ⟨fun c scalar => ?_, by omega, fun k => by omega⟩
    have := isScalar_iff.mp scalar
    omega
  iterate 3
    split at cut
    · cases cut
      exact ⟨fun c _ => by omega, by omega, fun k => by omega⟩
  obtain ⟨first, cutBlock, rfl⟩ := Option.map_eq_some_iff.mp cut
  refine ⟨fun c _ => by dsimp only; omega, by dsimp only; omega, fun k long before after => ?_⟩
  obtain ⟨block, mem, -, ⟨inside, rfl⟩ | ⟨inside, rfl⟩⟩ := cutBlock?_eq_some cutBlock <;>
    rcases mem_blocks mem with rfl | rfl | rfl <;> omega

end Cut

theorem sequences?_partition {lo hi : Int} (nonneg : 0 ≤ lo) (inRange : hi ≤ 0x10FFFF) :
    ∃ pieces, sequences? lo hi = some (pieces.map spelled) ∧ Partition (Interval lo hi) pieces := by
  fun_induction sequences? lo hi with
  | case1 lo hi empty => exact ⟨[], rfl, .empty fun c isMember => by have := isMember.2; omega⟩
  | case2 lo hi ord uncut =>
    obtain ⟨n, mk, a, z, form, deep, bounds, box⟩ :=
      form_of_whole nonneg (by omega) inRange uncut
    refine ⟨[(lo.toNat, hi.toNat)], ?_,
      form.partition deep bounds.1 (by omega) bounds.2 box⟩
    rw [form.product?_eq bounds.1 (by omega) bounds.2]
    rfl
  | case3 lo hi ord parts cut ih ih' =>
    obtain ⟨before, after⟩ := cut?_bounds (by omega) cut
    obtain ⟨gap, order, seam⟩ := cut?_seam cut
    obtain ⟨pieces, got, part⟩ := ih nonneg (by omega)
    obtain ⟨others, got', part'⟩ := ih' (by omega) inRange
    exact ⟨pieces ++ others, by simp [got, got'], part.append part' before after gap seam order⟩

/-- Whether a code lies in one of the intervals that alternating first and last codes bound. -/
def inBounds : List Int → Nat → Bool
  | lo :: hi :: rest, code => lo ≤ code && code ≤ hi || inBounds rest code
  | _, _ => false

theorem sequencesOfBounds?_covers {bs : List Int} (inRange : ∀ m ∈ bs, 0 ≤ m ∧ m ≤ 0x10FFFF) :
    ∃ products, sequencesOfBounds? bs = some products ∧
      (Covers products fun c => isScalar c = true ∧ inBounds bs c = true) ∧
      ∀ product ∈ products, ∃ p, IsPiece p ∧ product = spelled p := by
  fun_induction sequencesOfBounds? bs with
  | case1 lo hi r ih =>
    obtain ⟨pieces, got, part⟩ :=
      sequences?_partition (inRange lo (by simp)).1 (inRange hi (by simp)).2
    obtain ⟨others, got', covers', isPiece⟩ := ih fun m mem => inRange m (by simp [mem])
    refine ⟨pieces.map spelled ++ others, by simp [got, got'],
      (part.covers.append covers').congr ?_, fun product mem => ?_⟩
    · intro c
      simp only [Interval, inBounds, Bool.or_eq_true, Bool.and_eq_true, decide_eq_true_eq,
        ← and_or_left]
    · rcases mem_append.mp mem with here | there
      · obtain ⟨p, inPieces, rfl⟩ := mem_map.mp here
        exact ⟨p, part.isPiece inPieces, rfl⟩
      · exact isPiece product there
  | case2 bs short =>
    have none (c : Nat) : inBounds bs c = false := by
      unfold inBounds
      split
      · next _ lo hi r => exact False.elim (short lo hi r rfl)
      · rfl
    exact ⟨[], rfl, fun bytes => by simp [none], by simp⟩

theorem lo_le_hi_of_matches (matched : Matches rs bs) : ∀ range ∈ rs, range.lo ≤ range.hi := by
  induction matched with
  | nil => simp
  | cons lt _ ih =>
    simp only [forall_mem_cons]
    exact ⟨UInt8.le_trans lt.1 lt.2, ih⟩

/-- An interval of code points is cut into products of one to four byte ranges, none of them empty.
They contain the forms of the scalar values of the interval and nothing else, no byte string is in
two of them, and they come in the order of the code points. -/
theorem sequences?_exact {lo hi : Int} (nonneg : 0 ≤ lo) (inRange : hi ≤ 0x10FFFF) :
    ∃ products, sequences? lo hi = some products ∧
      (∀ ranges ∈ products, (1 ≤ ranges.length ∧ ranges.length ≤ 4) ∧
        ∀ range ∈ ranges, range.lo ≤ range.hi) ∧
      (∀ bytes, (∃ ranges ∈ products, Matches ranges bytes) ↔
        ∃ code : Nat, (Utf8.isScalar code = true ∧ lo ≤ code ∧ code ≤ hi) ∧
        bytes = Utf8.encode code) ∧
      products.Pairwise fun first second =>
        (∀ bytes, Matches first bytes → ¬Matches second bytes) ∧
          ∀ code code', Utf8.isScalar code = true → Utf8.isScalar code' = true →
            Matches first (Utf8.encode code) → Matches second (Utf8.encode code') →
            code < code' := by
  obtain ⟨pieces, found, partition⟩ := sequences?_partition nonneg inRange
  -- a code is in the piece whose product its form is in, as forms of scalar values differ
  have inside {piece : Nat × Nat} (listed : piece ∈ pieces) {code : Nat}
      (scalar : Utf8.isScalar code = true) (matched : Matches (spelled piece) (Utf8.encode code)) :
      piece.1 ≤ code ∧ code ≤ piece.2 := by
    obtain ⟨other, bounds, same⟩ := (partition.exact piece listed _).mp matched
    have scalar' := (partition.isPiece listed).scalar other bounds.1 bounds.2
    rwa [(Utf8.encode_append_inj scalar scalar' (congrArg (· ++ []) same)).1]
  refine ⟨pieces.map spelled, found, fun ranges listed => ?_, partition.covers, ?_⟩
  · obtain ⟨piece, inPieces, rfl⟩ := mem_map.mp listed
    have first := (partition.exact piece inPieces _).mpr
      ⟨piece.1, ⟨Nat.le_refl _, (partition.inside piece inPieces).1⟩, rfl⟩
    rw [Forall₂.length_eq first]
    exact ⟨⟨Utf8.length_encode_pos _, Utf8.length_encode_le _⟩, lo_le_hi_of_matches first⟩
  · refine pairwise_map.mpr
      (partition.ascending.imp_of_mem fun {first second} here there before => ?_)
    refine ⟨fun bytes matched matched' => ?_, fun code code' scalar scalar' matched matched' => ?_⟩
    · obtain ⟨code, bounds, rfl⟩ := (partition.exact first here bytes).mp matched
      have := inside there ((partition.isPiece here).scalar code bounds.1 bounds.2) matched'
      omega
    · have := inside here scalar matched
      have := inside there scalar' matched'
      omega

/-- The code points around the surrogates take three products, the second of which begins with the
first code point after them. -/
theorem sequences?_gap :
    ∃ products, sequences? 0xD7FF 0xE040 = some products ∧ products.length = 3 ∧
    ∃ ranges ∈ products, Matches ranges [0xEE, 0x80, 0x80] := by
  obtain ⟨products, found, -, covers, -⟩ :=
    sequences?_exact (show (0 : Int) ≤ 0xD7FF by decide) (show (0xE040 : Int) ≤ 0x10FFFF by decide)
  have length : (sequences? 0xD7FF 0xE040).map List.length = some 3 := by decide +kernel
  rw [found] at length
  exact ⟨products, found, Option.some.inj length, (covers _).mpr ⟨0xE000, by decide, by decide⟩⟩

end Rematch.ByteRange
