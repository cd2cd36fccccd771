import Rematch.Proofs.Extension.Pieces
import Rematch.Proofs.Extension.Repeats
import Rematch.Proofs.Pattern.Compiled
import Rematch.Proofs.Pattern.Words
import Rematch.Proofs.Regex.Search

/-!
A backreference or something else. What is an alternative to a backreference is merged with it into
one set, and where the set takes the next code point, that is preferred to the repeated group,
however the two were ordered.
-/

namespace Rematch

open List ByteRange Rematch.Expr Compilation
open Unicode (CodeSet)

namespace Unicode.CodeSet

variable {first b : CodeSet}

section

variable (ord : InOrder 0 first) (ord' : InOrder 0 b)
  (eq : ∀ c, first.contains c = true ↔ b.contains c = true)

include ord ord' eq

theorem holdsBlock_congr :
    first.holdsBlock = b.holdsBlock := by
  rw [Bool.eq_iff_iff]
  constructor
  · intro whole
    exact holdsBlock_of_all ord' fun c above below => (eq c).mp
      (contains_of_holdsBlock whole (Codec.isReserved_iff.mpr ⟨above, below⟩))
  · intro whole
    exact holdsBlock_of_all ord fun c above below => (eq c).mpr
      (contains_of_holdsBlock whole (Codec.isReserved_iff.mpr ⟨above, below⟩))

theorem takes_congr : first.takes = b.takes := by
  funext c
  have eq' : first.contains = b.contains := funext fun c => Bool.eq_iff_iff.mpr (eq c)
  rw [takes, takes, holdsBlock_congr ord ord' eq, carriesCategory, carriesCategory, eq']

end

def orReference (codes : CodeSet) : CodeSet :=
  codes.union (ofCodes [Codec.encode .backreference 1])

theorem inOrder_orReference (ord : InOrder 0 first) : InOrder 0 first.orReference :=
  inOrder_union ord (inOrder_ofCodes (by decide))

theorem contains_orReference {c : Nat} : first.orReference.contains c = true ↔
      first.contains c = true ∨ c = Codec.encode .backreference 1 := by
  rw [orReference, contains_union, Bool.or_eq_true, contains_ofCodes, mem_singleton]

end Unicode.CodeSet

namespace Lowering

variable {b : UInt8}

theorem sequencesOfBounds?_ascii (low : b.toNat < 0x80) :
    sequencesOfBounds? [(b.toNat : Int), (b.toNat : Int)] = some [[⟨b, b⟩]] := by
  have code_eq : lowByte b.toNat = b := by
    rw [lowByte, Int.emod_eq_of_lt (by omega) (by omega)]
    simp
  have sequences_eq : sequences? b.toNat b.toNat = some [[⟨b, b⟩]] := by
    have uncut : cut? b.toNat b.toNat = none := by grind [cut?, blocks, cutBlock?]
    rw [sequences?, if_neg (Int.lt_irrefl _)]
    split
    · rw [product?, if_pos (by omega), code_eq]
      rfl
    · next cut => simp [uncut] at cut
  rw [sequencesOfBounds?, sequences_eq]
  rfl

theorem ReadsBounds.letter {I : Array Inst} {base pc : Nat} {out : Int}
    (low : b.toNat < 0x80) (reads : ReadsBounds I base out pc [(b.toNat : Int), (b.toNat : Int)]) :
    I[pc]? = some ((ByteTest.within ⟨b, b⟩).inst out) := by
  obtain ⟨products, got, reader⟩ := reads
  rw [sequencesOfBounds?_ascii low] at got
  cases got
  cases reader with
  | chain ch =>
    cases ch with
    | last here => exact here
    | more _ _ rest => cases rest
  | choice _ _ _ _ several => exact False.elim (several rfl)

end Lowering

namespace Encoding

/-- The pattern of a word in a group, and then the group again or an alternative. -/
def wordOr (word alternative : Bytes) : Bytes :=
  Bytes.ofString "(" ++ word ++ Bytes.ofString ")(?:\\1|" ++ alternative ++ Bytes.ofString ")"

theorem encode_wordOr {w alt encoded tl : Bytes}
    (letters : ∀ c ∈ w, 0x61 ≤ c.toNat ∧ c.toNat ≤ 0x7A)
    (tail_eq : encodeRest .outside (alt ++ [0x29]) = .ok tl)
    (enc : encode (wordOr w alt) = .ok encoded) :
    encoded = 0x28 :: (w ++ 0x29 :: 0x28 :: 0x3F :: 0x3A ::
      (Utf8.encode (Codec.encode .backreference 1) ++ 0x7C :: tl)) := by
  have pattern_eq : wordOr w alt = (0x28 :: w ++ [0x29, 0x28, 0x3F, 0x3A]) ++
      0x5C :: 0x31 :: 0x7C :: (alt ++ [0x29]) := by
    rw [wordOr, show Bytes.ofString "(" = [0x28] by decide +kernel,
      show Bytes.ofString ")(?:\\1|" = [0x29, 0x28, 0x3F, 0x3A, 0x5C, 0x31, 0x7C] by decide +kernel,
      show Bytes.ofString ")" = [0x29] by decide +kernel]
    simp
  have plain : ∀ b ∈ (0x28 :: w ++ [0x29, 0x28, 0x3F, 0x3A] : Bytes),
      b ≠ 0x5C ∧ b ≠ 0x5B ∧ b ≠ 0x5D := by
    intro b mem
    simp only [cons_append, mem_cons, mem_append, not_mem_nil, or_false] at mem
    rcases mem with rfl | inWord | rfl | rfl | rfl | rfl
    · decide
    · have bounds := letters b inWord
      refine ⟨?_, ?_, ?_⟩ <;> rintro rfl <;> exact absurd bounds (by decide)
    all_goals decide
  have reference (r : Bytes) : piece .outside (0x5C :: 0x31 :: 0x7C :: r) =
      .ok ⟨Utf8.encode (Codec.encode .backreference 1), 2, .outside⟩ := rfl
  have bar : encodeRest .outside (0x7C :: (alt ++ [0x29])) = .ok (0x7C :: tl) := by
    have kept := @encodeRest_plain .outside (alt ++ [0x29]) [0x7C] (by simp)
    rw [tail_eq] at kept
    exact kept
  obtain ⟨-, enc⟩ := encode_eq_ok enc
  rw [pattern_eq, encodeRest_plain plain, encodeRest_of_piece (by simp) (reference _)] at enc
  change ((encodeRest .outside (0x7C :: (alt ++ [0x29]))).map _).map _ = _ at enc
  rw [bar] at enc
  rw [← Except.ok.inj enc]
  simp

end Encoding

/-- The alternative is read as one code point of a set. -/
def IsUnit (alternative : Bytes) (units : CodeSet) : Prop :=
  ∃ encoded token, Encoding.encodeRest .outside (alternative ++ [0x29]) = .ok encoded ∧
    Token.scan {} encoded = .ok (token, [0x29]) ∧ token.unitSet? = some units

variable {us : CodeSet}

theorem Token.inOrder_unitSet? {token : Token} (proper : token.Proper)
    (unit : token.unitSet? = some us) : us.InOrder 0 := by
  unfold unitSet? at unit
  split at unit
  · cases unit
    exact CodeSet.inOrder_single (Nat.le_refl _) (proper _ (.head _))
  · cases unit
    exact proper
  · cases unit
    decide
  · cases unit
    decide
  · simp at unit

theorem CompiledPattern.repeats {w alt : Bytes} {compiled : CompiledPattern}
    (got : compile (Encoding.wordOr w alt) = .ok compiled)
    (wf : Utf8.valid (Encoding.wordOr w alt) = true) (ne : w ≠ [])
    (letters : ∀ c ∈ w, 0x61 ≤ c.toNat ∧ c.toNat ≤ 0x7A) (isUnit : IsUnit alt us) :
    compiled.analyze = .ok compiled.toGraph.summary ∧ ∃ cs, compiled.toGraph.Repeats w cs ∧
      ∀ j, cs.contains j = true ↔ us.orReference.contains j = true := by
  obtain ⟨tl, token, tail_eq, scan, unitSet⟩ := isUnit
  have unitsInOrder := Token.inOrder_unitSet? (Token.proper_scan scan) unitSet
  obtain ⟨enc, e, made⟩ := exists_made got
  obtain rfl := Encoding.encode_wordOr letters tail_eq made.encode_eq
  have res : Codec.isReserved (Codec.encode .backreference 1) = true := by decide
  obtain ⟨u, cs, rfl, stands, ord, mems⟩ := parse_repeatedWord ne letters
    res scan unitSet unitsInOrder made.parse_eq
  have low : ∀ c ∈ w, c.toNat < 0x80 := fun c mem => by
    have := letters c mem
    omega
  have simplified : (repeatedWord w u).simplify = repeatedWord w u := by
    simp [repeatedWord, simplify, simplifyAll, stands.simplify_eq]
  have names_eq : compiled.names = ["", ""] := by
    rw [made.names_eq, simplified]
    cases stands <;> rfl
  have length_eq : (w.map (·.toNat)).length = w.length := length_map _
  have ne' : w.map (·.toNat) ≠ [] := by simpa using ne
  have small : ∀ cd ∈ w.map (·.toNat), cd ≤ Unicode.maxCode := by
    intro cd mem
    obtain ⟨c, inWord, rfl⟩ := mem_map.mp mem
    exact Nat.le_trans (Nat.le_of_lt (low c inWord)) (by decide)
  obtain ⟨sl, program_eq⟩ := compile_word stands ne'
  change (repeatedWord w u).compile = _ at program_eq
  rw [← simplified, length_eq] at program_eq
  have size := length_wordSteps (w.map (·.toNat))
    (u.unitStep.leadTo (w.length + 4) false)
  have letter := @wordSteps_letter (w.map (·.toNat))
  have after := wordSteps_after (w.map (·.toNat))
    (u.unitStep.leadTo (w.length + 4) false)
  have fits := fits_wordSteps small
    (stands.fits ord (show w.length + 4 < (w.map (·.toNat)).length + 5 by omega))
  rw [length_eq] at size after fits
  have programFits : (repeatedWord w u).simplify.compile.WellFormed := by
    rw [program_eq]
    refine ⟨?_, fun sp mem => ?_⟩
    · simp only [size_toArray, size]
      omega
    · rw [size_toArray, size]
      exact fits sp (by simpa using mem)
  obtain ⟨analyzed, recovered, start, lowered⟩ := made.lowered programFits
  rw [program_eq] at start lowered
  simp only [size_toArray, size, getElem?_toArray] at lowered
  refine ⟨analyzed, cs, ⟨recovered, low, ne, start, (lowered 1 _ rfl).control _ rfl, ?_,
    (lowered _ _ (after 0)).control _ rfl, ord, ?_, (lowered _ _ (after 2)).control _ rfl, ?_,
    (mems _).mpr (.inl rfl), ?_⟩, ?_⟩
  · intro i b got
    have got' : (w.map (·.toNat))[i]? = some b.toNat := by rw [getElem?_map, got, Option.map_some]
    exact ((lowered _ _ (letter got' _)).intervals (i + 3) _ rfl rfl).letter
      (low b (mem_of_getElem? got))
  · exact (lowered _ _ (after 1)).intervals _ _ (stands.next? _) (stands.intervals? _)
  · intro part cd held res
    refine made.meaningful wf ?_ res
    have mem := stands.mem_reservedCodes part held res
    simp [repeatedWord, reservedCodes, reservedCodesOf, mem]
  · intro pc es got ext mem reference
    obtain ⟨⟨pos, -⟩, few⟩ := made.arg_bounds recovered got mem reference
    rw [names_eq, length_cons, length_singleton] at few
    omega
  · intro j
    rw [mems, CodeSet.contains_orReference, or_comm]

theorem Graph.take_closed {q : Query} (room : 4 ≤ q.slots) (w : Bytes) (z : Int) :
    ((closed q w).setIfInBounds 1 z).toList.take 4 = [0, z, 0, (w.length : Int)] := by
  obtain ⟨m, slots_eq⟩ := Nat.exists_eq_add_of_le' room
  simp [closed, opened, Query.blank, slots_eq, replicate_succ]

namespace Regex

variable {options : Options} {re : Regex} {compiled : CompiledPattern} {w : Bytes}
  {first : UInt8}

theorem search_repeats {cs : CodeSet} (made : compile options = .ok re)
    (unb : options.maxThreads = 0) (acc : CompiledPattern.compile options.pattern = .ok compiled)
    (repeats : compiled.toGraph.Repeats w cs) (beg : w.head? = some first) {sl : Nat}
    (enough : 4 ≤ sl) : (re.search (w ++ w).toArray .start sl).result?.map (·.toList.take 4) =
      if cs.takes first.toNat then some [0, (w.length + 1 : Int), 0, (w.length : Int)]
      else if cs.holdsBlock then none
      else some [0, (2 * w.length : Int), 0, (w.length : Int)] := by
  have room : 4 ≤ (re.asks (w ++ w).toArray .start sl).slots :=
    Nat.le_trans enough (Nat.le_max_left _ _)
  have anc : (re.asks (w ++ w).toArray .start sl).anchorsStart = true :=
    show Nat.testBit 1 0 = true by decide
  have anywhere (k : Nat) : (re.asks (w ++ w).toArray .start sl).mayMatchAt k = true :=
    show (!(Nat.testBit 1 1 && _)) = true by rw [show Nat.testBit 1 1 = false by decide]; rfl
  rw [search_eq_backtrack made unb acc (repeats.steady room anc),
    repeats.backtrack_eq rfl room anc anywhere beg]
  split
  · rw [Option.map_some, Graph.take_closed room]
  split
  · rfl
  · rw [Option.map_some, Graph.take_closed room]

/-- After a captured word, an alternative that takes the next code point is preferred to the group
again; if it does not, the group is found again unless the alternative fills the reserved block.
Native code is taken for `Native.Compiled.runner`. -/
theorem search_wordOr {word alternative : Bytes} {units : CodeSet}
    (pattern_eq : options.pattern = Encoding.wordOr word alternative)
    (letters : ∀ letter ∈ word, 0x61 ≤ letter.toNat ∧ letter.toNat ≤ 0x7A)
    (begins : word.head? = some first) (wellFormed : Utf8.valid options.pattern = true)
    (unbounded : options.maxThreads = 0)
    (accepted : CompiledPattern.compile options.pattern = .ok compiled)
    (isUnit : IsUnit alternative units) :
    ∃ regex, compile options = .ok regex ∧ ∀ slots, 4 ≤ slots →
      (regex.search (word ++ word).toArray .start slots).result?.map (·.toList.take 4) =
        if units.orReference.takes first.toNat then
          some [0, (word.length + 1 : Int), 0, (word.length : Int)]
        else if units.orReference.holdsBlock then none
        else some [0, (2 * word.length : Int), 0, (word.length : Int)] := by
  have nonempty : word ≠ [] := by
    rintro rfl
    simp at begins
  obtain ⟨analyzed, codes, repeats, members⟩ :=
    CompiledPattern.repeats (pattern_eq ▸ accepted) (pattern_eq ▸ wellFormed) nonempty letters
      isUnit
  obtain ⟨_, token, -, scanned, unitSet⟩ := isUnit
  have inOrder := CodeSet.inOrder_orReference
    (Token.inOrder_unitSet? (Token.proper_scan scanned) unitSet)
  obtain ⟨regex, made⟩ := exists_regex wellFormed unbounded accepted analyzed
  refine ⟨regex, made, fun slots enough => ?_⟩
  rw [search_repeats made unbounded accepted repeats begins enough,
    CodeSet.takes_congr repeats.inOrder inOrder members,
    CodeSet.holdsBlock_congr repeats.inOrder inOrder members]

/-- Two letters, and then the two letters again or a digit. -/
def againOrDigit : Options := { pattern := Bytes.ofString "(ab)(?:\\1|[0-9])" }

/-- Where the alternative does not take the next letter, the group is found again. -/
theorem search_againOrDigit : ∃ regex, compile againOrDigit = .ok regex ∧
    (regex.search [0x61, 0x62, 0x61, 0x62].toArray .start 4).result?.map (·.toList.take 4) =
      some [0, 4, 0, 2] := by
  have pattern_eq : againOrDigit.pattern =
      Encoding.wordOr [0x61, 0x62] (Bytes.ofString "[0-9]") := by decide +kernel
  have encode_eq : Encoding.encode againOrDigit.pattern = .ok [0x28, 0x61, 0x62, 0x29, 0x28, 0x3F,
      0x3A, 0xF3, 0xB0, 0x88, 0x81, 0x7C, 0x5B, 0x30, 0x2D, 0x39, 0x5D, 0x29] := by decide +kernel
  have parse_eq :
    Expr.parse [0x28, 0x61, 0x62, 0x29, 0x28, 0x3F, 0x3A, 0xF3, 0xB0, 0x88, 0x81, 0x7C,
      0x5B, 0x30, 0x2D, 0x39, 0x5D, 0x29] = .ok (Expr.repeatedWord [0x61, 0x62]
        (.set [⟨0x30, 0x39⟩, ⟨0xF0201, 0xF0201⟩])) := by with_unfolding_all rfl
  obtain ⟨compiled, accepted⟩ :=
    CompiledPattern.exists_compile encode_eq parse_eq (by decide +kernel) (by decide +kernel)
  have isUnit : IsUnit (Bytes.ofString "[0-9]") [⟨0x30, 0x39⟩] :=
    ⟨[0x5B, 0x30, 0x2D, 0x39, 0x5D, 0x29],
      .set [⟨0x30, 0x39⟩], by decide +kernel, by with_unfolding_all rfl, rfl⟩
  obtain ⟨regex, made, searches⟩ :=
    search_wordOr pattern_eq (by decide +kernel) rfl (by decide +kernel) rfl
    accepted isUnit
  exact ⟨regex, made, (searches 4 (by decide)).trans (by decide +kernel)⟩

/-- Two letters, and then the two letters again or the first of them. -/
def againOrFirst : Options := { pattern := Bytes.ofString "(ab)(?:\\1|a)" }

set_option maxRecDepth 4000 in
/-- Where the alternative takes the next letter, it is preferred to the group, which comes first. -/
theorem search_againOrFirst : ∃ regex, compile againOrFirst = .ok regex ∧
    (regex.search [0x61, 0x62, 0x61, 0x62].toArray .start 4).result?.map (·.toList.take 4) =
      some [0, 3, 0, 2] := by
  have pattern_eq : againOrFirst.pattern = Encoding.wordOr [0x61, 0x62] [0x61] := by decide +kernel
  have encode_eq : Encoding.encode againOrFirst.pattern = .ok [0x28, 0x61, 0x62, 0x29, 0x28, 0x3F,
      0x3A, 0xF3, 0xB0, 0x88, 0x81, 0x7C, 0x61, 0x29] := by decide +kernel
  have parse_eq :
    Expr.parse [0x28, 0x61, 0x62, 0x29, 0x28, 0x3F, 0x3A, 0xF3, 0xB0, 0x88, 0x81, 0x7C,
      0x61, 0x29] = .ok (Expr.repeatedWord [0x61, 0x62]
        (.set [⟨0x61, 0x61⟩, ⟨0xF0201, 0xF0201⟩])) := by with_unfolding_all rfl
  obtain ⟨compiled, accepted⟩ :=
    CompiledPattern.exists_compile encode_eq parse_eq (by decide +kernel) (by decide +kernel)
  have isUnit : IsUnit [0x61] [⟨0x61, 0x61⟩] :=
    ⟨[0x61, 0x29], .literal [0x61], by decide +kernel, by with_unfolding_all rfl, rfl⟩
  have wellFormed : Utf8.valid againOrFirst.pattern = true := by decide +kernel
  obtain ⟨analyzed, codes, repeats, members⟩ := CompiledPattern.repeats (pattern_eq ▸ accepted)
    (pattern_eq ▸ wellFormed) (by decide) (by decide) isUnit
  obtain ⟨regex, made⟩ := exists_regex wellFormed rfl accepted analyzed
  have held : codes.contains 0x61 = true :=
    (members _).mpr (CodeSet.contains_orReference.mpr (.inl (by decide)))
  have taken : codes.takes 0x61 = true := by
    unfold CodeSet.takes
    split
    · exact held
    · simp [held, Codec.isReserved, Codec.reservedLo]
  refine ⟨regex, made, ?_⟩
  have found := search_repeats made rfl accepted repeats rfl (Nat.le_refl 4)
  rw [show (0x61 : UInt8).toNat = 0x61 from rfl, taken] at found
  exact found

end Regex

end Rematch
