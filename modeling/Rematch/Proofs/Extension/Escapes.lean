import Rematch.Proofs.Extension.Spelling

/-!
Escapes of reserved code points. In a pattern of letters, groups, alternatives, repetitions,
categories, backreferences, and classes of letters and categories, nothing but an escape can write a
reserved code point. The pattern is refused if one of those that are written is not inserted for an
extension, unless the whole reserved block is written and inserted.
-/

namespace Rematch

open List

namespace Encoding

variable {t : Bytes} {cs : List Nat} {c : Nat}

theorem adds_iff (res : Codec.isReserved c = true) (p : Parser) (token : Token) :
    Parser.Adds (fun _ => False) (Expr.HoldsCode c) p token ↔ TokenHolds c token := by
  cases token with
  | literal cs => simp [Parser.Adds, TokenHolds, Expr.holdsCode_literalIn res]
  | set | any | anyButNewline | assertion | openCapture | openGroup | close | bar | switchMode
  | repetition => simp [Parser.Adds, TokenHolds, Parser.leaf?]

/-- Whether a reserved code point is on a stack. -/
abbrev OnStack (code : Nat) (stack : List StackItem) : Prop :=
  Parser.StackHolds (fun _ => False) (Expr.HoldsCode code) stack

/-- Reading a text adds to the stack the reserved code points that are written as escapes or stand
in the text. -/
def Reads (text : Bytes) (codes : List Nat) : Prop :=
  ∀ {pattern fuel repetition parser final}, text.length ≤ fuel →
    Parser.readTokens pattern fuel repetition parser text = .ok final →
    ∀ code, Codec.isReserved code = true →
      (OnStack code final.stack ↔ OnStack code parser.stack ∨ code ∈ codes ∨ code ∈ Utf8.codes text)

theorem reads_nil : Reads [] [] := by
  intro pat n rep p f _ read c _
  obtain rfl : f = p := by cases n <;> exact (Except.ok.inj read).symm
  simp [Utf8.codes, Utf8.codesFrom]

theorem Shows.reads {f r : Bytes} {parts m : List Nat} (shows : Shows f cs parts r)
    (reads : Reads r m) :
    Reads (f ++ r) (cs ++ m) := by
  intro pat n rep p fi enough read c res
  have pos := length_pos_iff.mpr shows.nonempty
  rw [length_append] at enough
  obtain ⟨n, rfl⟩ := Nat.exists_eq_add_one.mpr (show 0 < n by omega)
  obtain ⟨token, v, nx, _, scan, acc, others⟩ := Parser.readTokens_cases
    (append_ne_nil_of_left_ne_nil shows.nonempty _) read
  obtain ⟨rfl, held⟩ := shows.scan scan
  have traced := (Parser.accepts_of_accept acc).holds_iff (Expr.traces_holdsCode res)
  rw [adds_iff res, held c res] at traced
  rw [reads (by omega) others c res, OnStack, traced, shows.encodes.text_eq,
    Utf8.codes_flatMap_append shows.encodes.scalars]
  simp only [mem_append]
  tauto

theorem Atom.begins (atom : Atom t cs) : Begins t := by
  cases atom with
  | item item => exact item.begins
  | set | close => exact ⟨_, _, rfl, by decide, by decide⟩

theorem Opening.begins (opening : Opening t) : Begins t := by
  cases opening <;> exact ⟨_, _, rfl, by decide, by decide⟩

theorem Written.noDigit (wr : Written t cs) : ∀ b ∈ t.head?, Digits.decimalValue? b = none := by
  have head {tx : Bytes} (beg : Begins tx) : ∀ b ∈ tx.head?, Digits.decimalValue? b = none := by
    obtain ⟨b, others, rfl, -, noDigit⟩ := beg
    rintro _ ⟨⟩
    exact noDigit
  cases wr with
  | nil => simp
  | opening opening => exact head (opening.begins.append _)
  | bar => exact head ⟨_, _, rfl, by decide, by decide⟩
  | atom atom => exact head (atom.begins.append _)
  | repeated atom => exact head (atom.begins.append _)
  | lazy atom => exact head (atom.begins.append _)

theorem Mark.noDigit {sign : Bytes} (mark : Mark sign) (r : Bytes) :
    ∀ b ∈ (sign ++ r).head?, Digits.decimalValue? b = none := by
  cases mark <;>
  · rintro _ ⟨⟩
    decide

/-- The encoded pattern is read as far as its reserved code points go: they are those that are
written as escapes and those that were inserted. -/
theorem Written.reads {res : Bytes} (wr : Written t cs) (enc : encodeRest .outside t = .ok res) :
    Reads res cs ∧ res.head? ≠ some 0x3F := by
  have calm {f : Bytes} (beg : Begins f) (r : Bytes) : (f ++ r).head? ≠ some 0x3F :=
    (beg.append r).head?_ne (by simp)
  induction wr generalizing res with
  | nil =>
    cases enc
    exact ⟨reads_nil, by simp⟩
  | opening opening _ ih =>
    obtain ⟨b, rfl, back_eq⟩ := encodeRest_kept opening.isPlain enc
    obtain ⟨reads, calmRest⟩ := ih back_eq
    exact ⟨(opening.shows calmRest).reads reads, calm opening.begins _⟩
  | bar _ ih =>
    have plain : ∀ c ∈ ([0x7C] : Bytes), IsPlain c := by simp [IsPlain]
    obtain ⟨b, rfl, back_eq⟩ := encodeRest_kept plain enc
    obtain ⟨reads, calmRest⟩ := ih back_eq
    refine ⟨Shows.reads (shows_ascii (by simp) (fun c mem => (plain c mem).1) ?_) reads, by simp⟩
    intro m token v scan
    cases scan
    exact ⟨rfl, fun cd => not_false⟩
  | atom atom wr ih =>
    obtain ⟨f, b, parts, shows, beg, rfl, back_eq⟩ := atom.exists_shows wr.noDigit enc
    obtain ⟨reads, calmRest⟩ := ih back_eq
    exact ⟨(shows _).reads reads, calm beg _⟩
  | repeated atom mark wr ih =>
    obtain ⟨f, _, parts, shows, beg, rfl, marked⟩ := atom.exists_shows (mark.noDigit _) enc
    obtain ⟨b, rfl, back_eq⟩ := encodeRest_kept mark.isPlain marked
    obtain ⟨reads, calmRest⟩ := ih back_eq
    exact ⟨(shows _).reads ((mark.shows calmRest).reads reads), calm beg _⟩
  | @lazy _ sign r _ _ atom mark wr ih =>
    obtain ⟨f, _, parts, shows, beg, rfl, marked⟩ := atom.exists_shows (mark.noDigit _) enc
    rw [show sign ++ 0x3F :: r = (sign ++ [0x3F]) ++ r by simp] at marked
    obtain ⟨b, rfl, back_eq⟩ := encodeRest_kept mark.isPlain_lazy marked
    obtain ⟨reads, calmRest⟩ := ih back_eq
    exact ⟨(shows _).reads ((mark.shows_lazy _).reads reads), calm beg _⟩

theorem Item.reserved {p : Place} (item : Item p t cs) : ∀ c ∈ cs, Codec.isReserved c = true := by
  cases item with
  | letter | category | reference => simp
  | escape _ res => simpa using res

theorem Members.reserved (mems : Members t cs) : ∀ c ∈ cs, Codec.isReserved c = true := by
  induction mems with
  | item item => exact item.reserved
  | range => simp
  | append _ _ fst snd =>
    intro c mem
    exact (mem_append.mp mem).elim (fst c) (snd c)

theorem Written.reserved (wr : Written t cs) : ∀ c ∈ cs, Codec.isReserved c = true := by
  have ofAtom {tx : Bytes} {codes : List Nat} (atom : Atom tx codes) :
      ∀ c ∈ codes, Codec.isReserved c = true := by
    cases atom with
    | item item => exact item.reserved
    | set mems => exact mems.reserved
    | close => simp
  induction wr with
  | nil => simp
  | opening _ _ ih | bar _ ih => exact ih
  | atom atom _ ih | repeated atom _ _ ih
  | lazy atom _ _ ih =>
    intro c mem
    exact (mem_append.mp mem).elim (ofAtom atom c) (ih c)

theorem Written.holdsCode_iff {pat enc : Bytes} {e : Expr}
    (wr : Written pat cs) (encode_eq : encode pat = .ok enc)
    (parse_eq : Expr.parse enc = .ok e) (res : Codec.isReserved c = true) :
    e.HoldsCode c ↔ c ∈ cs ∨ c ∈ Utf8.codes enc := by
  obtain ⟨p, f, read, fin, stack_eq⟩ := Parser.parse_eq_ok parse_eq
  have reads := (wr.reads (encode_eq_ok encode_eq).2).1 (Nat.le_refl _) read c res
  have gained := (Parser.finishGroup_gains fin).holds_iff (Expr.traces_holdsCode res)
  have top : OnStack c f.stack ↔ e.HoldsCode c := by
    simp [OnStack, Parser.StackHolds, stack_eq, Parser.ItemHolds]
  have start : ¬OnStack c ({} : Parser).stack := by simp [OnStack, Parser.StackHolds]
  rw [← top, OnStack, gained]
  simpa [start] using reads

end Encoding

namespace CompiledPattern

open Encoding

/-- A pattern in which a reserved code point is written as an escape is refused, unless the code
point is one of those that are inserted, or every reserved code point is written or inserted. This
says nothing of an escape of an inserted code point, which may or may not be found out: a class
takes both for one member, and elsewhere they are counted. -/
theorem compile_of_escapes {pattern : Bytes} {codes : List Nat} (written : Written pattern codes)
    {code : Nat} (escaped : code ∈ codes)
    (notInserted : ∀ encoded, encode pattern = .ok encoded → code ∉ Utf8.codes encoded)
    {missing : Nat} (reserved : Codec.isReserved missing = true) (absent : missing ∉ codes)
    (absent' : ∀ encoded, encode pattern = .ok encoded → missing ∉ Utf8.codes encoded) :
    ∀ compiled, compile pattern ≠ .ok compiled := by
  intro compiled accepted
  obtain ⟨encoded, expr, made⟩ := exists_made accepted
  have codeReserved := written.reserved code escaped
  have held := (written.holdsCode_iff made.encode_eq made.parse_eq codeReserved).mpr (.inl escaped)
  have part : ¬expr.HoldsCode missing := by
    rw [written.holdsCode_iff made.encode_eq made.parse_eq reserved]
    exact not_or.mpr ⟨absent, absent' encoded made.encode_eq⟩
  have listed := Expr.mem_reservedCodes codeReserved reserved expr held part
  exact notInserted encoded made.encode_eq
    (mem_codes_of_surplusCode? made.balanced listed codeReserved)

/-- A pattern with an escape as an alternative to a class. -/
def escapedChoice : Bytes := Bytes.ofString "(\\x\x7bF0123\x7d|[k\\PL])*\\1"

theorem written_escapedChoice : Written escapedChoice [0xF0123] := by
  have text_eq :
    escapedChoice = [0x28] ++ ((0x5C :: 0x78 :: 0x7B :: ([0x46, 0x30, 0x31, 0x32, 0x33] ++
      [0x7D])) ++ (0x7C :: ((0x5B :: (([0x6B] ++ [0x5C, 0x50, 0x4C]) ++ [0x5D])) ++
        ([0x29] ++ ([0x2A] ++ ((0x5C :: 0x31 :: []) ++ [])))))) := by decide +kernel
  have mems : Members ([0x6B] ++ [0x5C, 0x50, 0x4C]) ([] ++ []) := by
    refine .append (.item (.letter (.inr (by decide))))
      (.item (.category (by decide) (.single (.inr rfl) ?_)))
    exact ⟨Unicode.Category.all[6], getElem_mem _, by decide +kernel⟩
  rw [text_eq]
  exact .opening .plain
    (.atom (.item (.escape (by decide +kernel) (by decide))) (.bar (.atom (.set mems)
    (.repeated .close .star (.atom (.item (.reference (by decide) (by decide) (by simp))) .nil)))))

theorem compile_escapedChoice : Written escapedChoice [0xF0123] ∧
    ∀ compiled, compile escapedChoice ≠ .ok compiled := by
  have encode_eq : encode escapedChoice = .ok [0x28, 0x5C, 0x78, 0x7B, 0x46, 0x30, 0x31, 0x32, 0x33,
      0x7D, 0x7C, 0x5B, 0x6B, 0xF3, 0xB0, 0x84, 0x86, 0x5D, 0x29, 0x2A, 0xF3, 0xB0, 0x88,
        0x81] := by
    decide +kernel
  refine ⟨written_escapedChoice, compile_of_escapes written_escapedChoice (.head _) ?_
    (show Codec.isReserved 0xF0000 = true by decide) (by decide) ?_⟩ <;>
  · intro encoded found
    cases encode_eq.symm.trans found
    decide +kernel

/-- A class of a category and the escape of its own code point. -/
def escapedCategory : Bytes := Bytes.ofString "[\\pL\\x\x7bF0006\x7d]"

/-- In a class the escape of a code point cannot be told from the category that it is inserted
for. -/
theorem compile_escapedCategory : Written escapedCategory [0xF0006] ∧
    ∃ compiled, compile escapedCategory = .ok compiled := by
  have text_eq : escapedCategory = (0x5B :: (([0x5C, 0x70, 0x4C] ++ (0x5C :: 0x78 :: 0x7B ::
      ([0x46, 0x30, 0x30, 0x30, 0x36] ++ [0x7D]))) ++ [0x5D])) ++ [] := by decide +kernel
  have members : Members ([0x5C, 0x70, 0x4C] ++ (0x5C :: 0x78 :: 0x7B ::
      ([0x46, 0x30, 0x30, 0x30, 0x36] ++ [0x7D]))) ([] ++ [0xF0006]) := by
    refine .append (.item (.category (by decide) (.single (.inl rfl) ?_)))
      (.item (.escape (by decide +kernel) (by decide)))
    exact ⟨Unicode.Category.all[6], getElem_mem _, by decide +kernel⟩
  refine ⟨text_eq ▸ .atom (.set members) .nil, ?_⟩
  have encode_eq :
    encode escapedCategory = .ok [0x5B, 0xF3, 0xB0, 0x80, 0x86, 0x5C, 0x78, 0x7B, 0x46, 0x30,
      0x30, 0x30, 0x36, 0x7D, 0x5D] := by decide +kernel
  have parse_eq :
    Expr.parse [0x5B, 0xF3, 0xB0, 0x80, 0x86, 0x5C, 0x78, 0x7B, 0x46, 0x30, 0x30, 0x30, 0x36,
      0x7D, 0x5D] = .ok (.literal [0xF0006] {}) := by with_unfolding_all rfl
  exact exists_compile encode_eq parse_eq (by decide +kernel) (by decide +kernel)

end CompiledPattern

end Rematch
