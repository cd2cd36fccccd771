import Rematch.Text.Utf8

/-!
Byte ranges of code point intervals. An interval is cut into pieces whose UTF-8 forms are exactly
the products of one byte range for each position; surrogates are left out, and the pieces come in
ascending order.
-/

namespace Rematch

structure ByteRange where
  lo : UInt8
  hi : UInt8
  deriving DecidableEq

namespace ByteRange

/-- The sizes of the payload blocks that continuation bytes count, in forms of the length of that of
a code. -/
def blocks (code : Int) : List Int :=
  if code < 0x80 then []
  else if code < 0x800 then [64]
  else if code < 0x10000 then [64, 4096]
  else if code ≤ 0x10FFFF then [64, 4096, 262144]
  else []

/-- The first code of the second part of an interval that begins or ends inside one of the blocks,
and is not all in it. -/
def cutBlock? (lo hi : Int) : List Int → Option Int
  | [] => none
  | block :: larger =>
    if lo / block = hi / block then cutBlock? lo hi larger
    else if lo % block ≠ 0 then some ((lo / block + 1) * block)
    else if hi % block ≠ block - 1 then some (hi / block * block)
    else cutBlock? lo hi larger

/-- The last code of the first part and the first code of the second part of an interval that is not
one product. -/
def cut? (lo hi : Int) : Option (Int × Int) :=
  if lo ≤ 0xDFFF ∧ 0xD800 ≤ hi then some (0xD7FF, 0xE000)
  else if lo ≤ 0x7F ∧ 0x7F < hi then some (0x7F, 0x80)
  else if lo ≤ 0x7FF ∧ 0x7FF < hi then some (0x7FF, 0x800)
  else if lo ≤ 0xFFFF ∧ 0xFFFF < hi then some (0xFFFF, 0x10000)
  else (cutBlock? lo hi (blocks lo)).map fun first => (first - 1, first)

theorem mem_blocks {code block : Int} (mem : block ∈ blocks code) :
    block = 64 ∨ block = 4096 ∨ block = 262144 := by
  grind [blocks]

theorem cutBlock?_eq_some {sizes : List Int} {lo hi first : Int}
    (cut : cutBlock? lo hi sizes = some first) :
    ∃ block ∈ sizes, lo / block ≠ hi / block ∧
      (lo % block ≠ 0 ∧ first = (lo / block + 1) * block ∨
        hi % block ≠ block - 1 ∧ first = hi / block * block) := by
  fun_induction cutBlock? lo hi sizes with
  | case1 => simp at cut
  | case2 _ _ _ ih | case5 _ _ _ _ _ ih =>
    obtain ⟨block, mem, cuts⟩ := ih cut
    exact ⟨block, .tail _ mem, cuts⟩
  | case3 block _ apart inside =>
    exact ⟨block, .head _, apart, .inl ⟨inside, by simpa using cut.symm⟩⟩
  | case4 block _ apart _ inside =>
    exact ⟨block, .head _, apart, .inr ⟨inside, by simpa using cut.symm⟩⟩

theorem cut?_bounds {lo hi : Int} {parts : Int × Int} (le : lo ≤ hi)
    (cut : cut? lo hi = some parts) : parts.1 < hi ∧ lo < parts.2 := by
  unfold cut? at cut
  iterate 4
    split at cut
    · cases cut
      dsimp only
      omega
  obtain ⟨first, cutBlock, rfl⟩ := Option.map_eq_some_iff.mp cut
  obtain ⟨block, mem, apart, ⟨-, rfl⟩ | ⟨-, rfl⟩⟩ := cutBlock?_eq_some cutBlock <;>
    rcases mem_blocks mem with rfl | rfl | rfl <;> dsimp only <;> omega

/-- The byte of a code below 128; a negative code keeps its low eight bits. -/
def lowByte (code : Int) : UInt8 := UInt8.ofNat (code % 256).toNat

/-- The byte ranges between the UTF-8 forms of the ends of a piece; `none` if it begins beyond the
last code point. -/
def product? (lo hi : Int) : Option (List ByteRange) :=
  if hi < 0x80 then some [⟨lowByte lo, lowByte hi⟩]
  else if lo ≤ 0x10FFFF then
    some (List.zipWith ByteRange.mk (Utf8.encode lo.toNat) (Utf8.encode hi.toNat ++ [0]))
  else none

/-- The byte ranges of the interval from `lo` to `hi`; `none` if it has codes beyond the last code
point that no byte range can hold. -/
def sequences? (lo hi : Int) : Option (List (List ByteRange)) :=
  if hi < lo then some []
  else
    match _cut : cut? lo hi with
    | none => (product? lo hi).map ([·])
    | some parts => do
      let first ← sequences? lo parts.1
      let second ← sequences? parts.2 hi
      return first ++ second
termination_by (hi + 1 - lo).toNat
decreasing_by
  all_goals
    have bounds := cut?_bounds (by omega) _cut
    omega

/-- The byte ranges of a list of alternating first and last codes; an odd one at the end is
ignored. -/
def sequencesOfBounds? : List Int → Option (List (List ByteRange))
  | lo :: hi :: rest => do
    let first ← sequences? lo hi
    let others ← sequencesOfBounds? rest
    return first ++ others
  | _ => some []

end ByteRange

end Rematch
