import Rematch.Proofs.Extension.Parts
import Rematch.Proofs.Pattern.Compiled
import Rematch.Proofs.Pattern.Units
import Rematch.Proofs.Regex.Search

/-!
Classes with categories in them. A class keeps the members of its categories as long as its other
items do not fill the reserved block; if they do, the categories are lost.
-/

namespace Rematch

open List
open Unicode (CodeSet Category)

namespace Encoding

def categoryClass (category : Category) (items : Bytes) : Bytes :=
  Bytes.ofString "[\\p\x7b" ++ Bytes.ofString category.name ++ Bytes.ofString "\x7d" ++ items ++
    Bytes.ofString "]"

theorem encode_categoryClass {cat : Category} {n : Nat} {items enc : Bytes}
    (got : Category.ofNumber? n = some cat) (encodes : encode (categoryClass cat items) = .ok enc) :
    ∃ v, enc = 0x5B :: (Utf8.encode (Codec.encode .category n) ++ v) := by
  have denotes :
    Denotes (0x5C :: 0x70 :: 0x7B :: (Bytes.ofString cat.name ++ [0x7D])) .category n :=
    .braced (.inl rfl) ⟨cat, got, rfl⟩
  have pattern_eq : categoryClass cat items =
      0x5B ::
        (0x5C :: 0x70 :: 0x7B :: (Bytes.ofString cat.name ++ [0x7D]) ++ (items ++ [0x5D])) := by
    rw [categoryClass, show Bytes.ofString "[\\p\x7b" = [0x5B, 0x5C, 0x70, 0x7B] by decide +kernel,
      show Bytes.ofString "\x7d" = [0x7D] by decide +kernel,
      show Bytes.ofString "]" = [0x5D] by decide +kernel]
    simp
  have rest := (encode_eq_ok encodes).2
  rw [pattern_eq, encodeRest_of_piece (by simp)
    (show piece .outside _ = .ok ⟨[0x5B], 1, .inSet⟩ from rfl)] at rest
  obtain ⟨others, others_eq, rfl⟩ := exists_of_map_eq_ok rest
  rw [drop_succ_cons, drop_zero, encodeRest_of_piece (by simp)
    (denotes.piece (show Allows .inSet .category _ by simp [Allows]))] at others_eq
  obtain ⟨v, -, rfl⟩ := exists_of_map_eq_ok others_eq
  exact ⟨v, rfl⟩

end Encoding

def IsSet (pattern : Bytes) (codes : CodeSet) : Prop :=
  ∃ encoded, Encoding.encode pattern = .ok encoded ∧ Token.scan {} encoded = .ok (.set codes, [])

/-- The automaton of a pattern of one set, as far as searches depend on it. -/
structure Graph.ReadsSet (graph : Graph) (codes : CodeSet) : Prop where
  recovered : graph.Recovered
  inOrder : codes.InOrder 0
  noBackrefs : graph.NoBackreferences
  start : graph.automaton.start = 1
  reads : Lowering.ReadsBounds graph.automaton.insts 3 2 1 codes.bounds
  accepts : graph.automaton.insts[2]? = some { op := .accept }
  meaningful : codes.holdsBlock = false → ∀ code, codes.contains code = true →
    Codec.isReserved code = true → Codec.Meaningful code

theorem CompiledPattern.readsSet {pat : Bytes} {compiled : CompiledPattern} {cs : CodeSet}
    (got : compile pat = .ok compiled) (wf : Utf8.valid pat = true) (isSet : IsSet pat cs) {c : Nat}
    (carried : cs.contains c = true) (res : Codec.isReserved c = true) :
    compiled.analyze = .ok compiled.toGraph.summary ∧ compiled.toGraph.ReadsSet cs := by
  obtain ⟨enc, e, made⟩ := exists_made got
  obtain ⟨enc', encode_eq, scan⟩ := isSet
  cases made.encode_eq.symm.trans encode_eq
  have ord := Token.inOrder_scan scan
  have ne : enc ≠ [] := by
    rintro rfl
    cases scan
  have stands : e.Stands cs := by
    rw [Expr.parse_of_set ne scan made.parse_eq]
    have once := Expr.Stands.set.toLiteral ord carried res {}
    have twice := once.toLiteral ord carried res {}
    exact twice.nameSet.toLiteral ord carried res {}
  have program_eq : e.simplify.compile = ⟨#[.fail, e.unitStep.leadTo 2 false, .accept], 1, 2⟩ := by
    rw [stands.simplify_eq, stands.compile_eq]
  have programFits : e.simplify.compile.WellFormed := by
    rw [program_eq]
    refine ⟨by simp, fun sp mem => ?_⟩
    simp only [Array.mem_def, mem_cons, not_mem_nil, or_false] at mem
    rcases mem with rfl | rfl | rfl
    · trivial
    · exact stands.fits ord (by simp)
    · trivial
  obtain ⟨analyzed, recovered, start, lowered⟩ := made.lowered programFits
  rw [program_eq] at start lowered
  refine ⟨analyzed, recovered, ord, ?_, start, ?_, ?_, ?_⟩
  · intro pc es got ext mem reference
    obtain ⟨⟨pos, -⟩, small⟩ := made.arg_bounds recovered got mem reference
    rw [made.names_eq, stands.simplify_eq, stands.groupNames_eq] at small
    simp only [length_singleton] at small
    omega
  · exact (lowered 1 _ rfl).intervals 2 _ (stands.next? 2) (stands.intervals? 2)
  · exact (lowered 2 _ rfl).control _ rfl
  · intro part cd held res
    exact made.meaningful wf (stands.mem_reservedCodes part held res) res

namespace Graph.ReadsSet

variable {g : Graph} {codes : CodeSet} (readsSet : g.ReadsSet codes)

include readsSet

theorem not_refers {n : Nat} (bounds : 0 < n ∧ n < 256) : ¬codes.refers n = true := by
  intro refers
  obtain ⟨h, es, got, mem⟩ := readsSet.recovered.exists_backreference (show 2 < 3 by decide)
    readsSet.inOrder readsSet.reads readsSet.meaningful bounds refers
  exact readsSet.noBackrefs h es got _ mem rfl

theorem backtrack_eq {q : Query} {c : Nat} (scalar : Utf8.isScalar c = true)
    (text_eq : q.text = (Utf8.encode c).toArray) (anc : q.anchorsStart = true) : g.backtrack q =
      if codes.takes c then
        some ((q.blank 0).setIfInBounds 1 (Utf8.encode c).length)
      else none := by
  have spelled : q.text.toList.drop 0 = Utf8.encode c ++ [] := by simp [text_eq]
  have ends : q.mayMatchAt (0 + (Utf8.encode c).length) = true := by
    simp [Query.mayMatchAt, text_eq]
  have plain := readsSet.recovered.extensionsAt?_eq_none readsSet.accepts (by simp)
  have taken := readsSet.recovered.attempt_takes scalar spelled readsSet.inOrder
    (show 0 < 1 ∧ 1 < 256 by decide)
    (fun n bounds refers => False.elim (readsSet.not_refers bounds refers))
    readsSet.reads readsSet.meaningful
    not_mem_nil (fun _ on => False.elim (not_mem_nil on))
    (fun pc es got ext mem =>
      Extension.evaluate?_ne_zero (readsSet.noBackrefs pc es got ext mem) _ _ (q.blank 0))
  rw [Graph.backtrack, if_pos anc, range_one, findSome?_singleton, Graph.origin,
    readsSet.start, Int.toNat_one, taken, if_neg (readsSet.not_refers (by decide)), Graph.goesOn,
    Lowering.attempt_of_accept readsSet.accepts rfl plain not_mem_nil, if_pos ends]
  simp

end Graph.ReadsSet

namespace Regex

variable {options : Options} {compiled : CompiledPattern} {codes : CodeSet}

theorem search_set (wf : Utf8.valid options.pattern = true) (unb : options.maxThreads = 0)
    (acc : CompiledPattern.compile options.pattern = .ok compiled)
    (isSet : IsSet options.pattern codes) {cr : Nat} (carried : codes.contains cr = true)
    (res : Codec.isReserved cr = true) :
    ∃ re, compile options = .ok re ∧ ∀ c sl, Utf8.isScalar c = true →
      (re.search (Utf8.encode c).toArray .both sl).result?.isSome = codes.takes c := by
  obtain ⟨analyzed, readsSet⟩ := CompiledPattern.readsSet acc wf isSet carried res
  obtain ⟨re, made⟩ := exists_regex wf unb acc analyzed
  refine ⟨re, made, fun c sl scalar => ?_⟩
  have anc : (re.asks (Utf8.encode c).toArray .both sl).anchorsStart = true :=
    show Nat.testBit 3 0 = true by decide
  rw [search_eq_backtrack made unb acc (readsSet.noBackrefs.steady _),
    readsSet.backtrack_eq scalar rfl anc]
  cases codes.takes c <;> rfl

/-- A class of a category and further items matches a member of the category exactly if the items do
not fill the reserved block or the items have the member too. Native code is taken for
`Native.Compiled.runner`. -/
theorem search_categoryClass {category : Category} (listed : category ∈ Category.all)
    {items : Bytes}
    (pattern_eq : options.pattern = Encoding.categoryClass category items)
    (wellFormed : Utf8.valid options.pattern = true) (unbounded : options.maxThreads = 0)
    (accepted : CompiledPattern.compile options.pattern = .ok compiled)
    (isSet : IsSet options.pattern codes) :
    ∃ regex, compile options = .ok regex ∧
      ∀ code slots, Utf8.isScalar code = true → category.contains code = true →
        ((regex.search (Utf8.encode code).toArray .both slots).result?.isSome = true ↔
          codes.holdsBlock = false ∨ codes.contains code = true) := by
  obtain ⟨number, found⟩ := mem_iff_getElem?.mp listed
  have bound : number < Category.count := (List.getElem?_eq_some_iff.mp found).1
  have carrier_eq := Codec.encode_category bound
  have small : Category.count ≤ 0x100 := by decide
  have reserved : Codec.isReserved (Codec.encode .category number) = true := by
    rw [carrier_eq, Codec.isReserved_iff]
    omega
  have carried : codes.contains (Codec.encode .category number) = true := by
    obtain ⟨encoded, encode_eq, scanned⟩ := isSet
    rw [pattern_eq] at encode_eq
    obtain ⟨after, rfl⟩ := Encoding.encode_categoryClass found encode_eq
    obtain ⟨⟨codes', rest⟩, bracketed, same⟩ := exists_of_map_eq_ok scanned
    simp only [Prod.mk.injEq, Token.set.injEq] at same
    obtain ⟨rfl, rfl⟩ := same
    rw [carrier_eq] at bracketed ⊢
    exact Scanner.contains_of_bracketSet (Utf8.isScalar_iff.mpr (by omega)) (by omega) bracketed
  obtain ⟨regex, made, searches⟩ := search_set wellFormed unbounded accepted isSet carried reserved
  refine ⟨regex, made, fun code slots scalar member => ?_⟩
  rw [searches code slots scalar, CodeSet.takes]
  cases part : codes.holdsBlock with
  | true => simp
  | false =>
    have carries : codes.carriesCategory code = true :=
      CodeSet.carriesCategory_iff.mpr
        ⟨number, bound, .inl ⟨carried, by simp [Category.ofNumber?, found, member]⟩⟩
    simp [carries]

def spacedDigits : Options := { pattern := Bytes.ofString "[\\p\x7bNd\x7d\\w\\p\x7bZs\x7d]" }

/-- The digits are kept beside words and blanks. -/
theorem search_spacedDigits : ∃ regex, compile spacedDigits = .ok regex ∧
    (regex.search (Utf8.encode 0x663).toArray .both 2).result?.isSome = true := by
  have pattern_eq : spacedDigits.pattern =
      Encoding.categoryClass ⟨"Nd", [.decimalNumber]⟩ (Bytes.ofString "\\w\\p\x7bZs\x7d") := by
    decide +kernel
  have encode_eq : Encoding.encode spacedDigits.pattern =
      .ok [0x5B, 0xF3, 0xB0, 0x80, 0x92, 0x5C, 0x77, 0xF3, 0xB0, 0x80, 0xA5, 0x5D] := by
    decide +kernel
  have parse_eq : Expr.parse
      [0x5B, 0xF3, 0xB0, 0x80, 0x92, 0x5C, 0x77, 0xF3, 0xB0, 0x80, 0xA5, 0x5D] =
        .ok (.set [⟨0x30, 0x39⟩, ⟨0x41, 0x5A⟩, ⟨0x5F, 0x5F⟩, ⟨0x61, 0x7A⟩, ⟨0xF0012, 0xF0012⟩,
          ⟨0xF0025, 0xF0025⟩]) := by with_unfolding_all rfl
  have isSet : IsSet spacedDigits.pattern [⟨0x30, 0x39⟩, ⟨0x41, 0x5A⟩, ⟨0x5F, 0x5F⟩, ⟨0x61, 0x7A⟩,
      ⟨0xF0012, 0xF0012⟩, ⟨0xF0025, 0xF0025⟩] := ⟨_, encode_eq, by with_unfolding_all rfl⟩
  obtain ⟨compiled, accepted⟩ :=
    CompiledPattern.exists_compile encode_eq parse_eq (by decide +kernel) (by decide +kernel)
  have listed : Category.all[18]? = some ⟨"Nd", [.decimalNumber]⟩ := rfl
  obtain ⟨regex, made, searches⟩ := search_categoryClass (mem_of_getElem? listed) pattern_eq
    (by decide +kernel) rfl accepted isSet
  exact ⟨regex, made, (searches 0x663 2 (by decide) (by decide +kernel)).mpr (.inl (by decide))⟩

def digitsOrNot : Options := { pattern := Bytes.ofString "[\\p\x7bNd\x7d\\D]" }

/-- The digits are lost where the other items fill the reserved block. -/
theorem search_digitsOrNot : (⟨"Nd", [.decimalNumber]⟩ : Category).contains 0x35 = true ∧
    ∃ regex, compile digitsOrNot = .ok regex ∧
      (regex.search (Utf8.encode 0x35).toArray .both 2).result? = none := by
  have encode_eq : Encoding.encode digitsOrNot.pattern =
      .ok [0x5B, 0xF3, 0xB0, 0x80, 0x92, 0x5C, 0x44, 0x5D] := by decide +kernel
  have parse_eq : Expr.parse [0x5B, 0xF3, 0xB0, 0x80, 0x92, 0x5C, 0x44, 0x5D] =
      .ok (.set [⟨0, 0x2F⟩, ⟨0x3A, 0x10FFFF⟩]) := by with_unfolding_all rfl
  have isSet : IsSet digitsOrNot.pattern [⟨0, 0x2F⟩, ⟨0x3A, 0x10FFFF⟩] :=
    ⟨_, encode_eq, by with_unfolding_all rfl⟩
  obtain ⟨compiled, accepted⟩ :=
    CompiledPattern.exists_compile encode_eq parse_eq (by decide +kernel) (by decide +kernel)
  have carried : CodeSet.contains [⟨0, 0x2F⟩, ⟨0x3A, 0x10FFFF⟩] 0xF0012 = true := by decide
  obtain ⟨regex, made, searches⟩ :=
    search_set (by decide +kernel) rfl accepted isSet carried (by decide)
  have lost : (regex.search (Utf8.encode 0x35).toArray .both 2).result?.isSome = false :=
    (searches 0x35 2 (by decide)).trans (by decide)
  exact ⟨by decide +kernel, regex, made, by simpa using lost⟩

end Regex

end Rematch
