import Rematch.Proofs.Extension.Alignment
import Rematch.Proofs.Pattern.Groups
import Rematch.Regex.Groups

/-!
Spans of groups. Along a path, a group that is open has begun, and any other group is unset or ends
after it begins, so that every group of a match is unset or a span inside the match.
-/

namespace Rematch

open Lowering (Chain Reader ByteTest TestsForms ReadsForms)

def Step.write (offset : Nat) (captures : Captures) : Step → Captures
  | .capture slot _ => captures.setIfInBounds slot offset
  | _ => captures

namespace Captures

variable {occurs : Nat → Prop} {groups : List Nat} {first offset : Nat} {captures : Captures}

/-- The match begins at an offset, groups that do not occur are unset, open groups have begun, and
the others are unset or span some part of the text from there. -/
structure Spans (occurs : Nat → Prop) (groups : List Nat) (first offset : Nat)
    (captures : Captures) :
    Prop where
  le : first ≤ offset
  start : ∀ value : Int, captures[0]? = some value → value = first
  unset : ∀ (slot : Nat) (value : Int), 1 < slot → ¬occurs (slot / 2) → captures[slot]? =
    some value → value = -1
  opened : ∀ group ∈ groups, ∀ value : Int, captures[2 * group]? = some value →
    first ≤ value ∧ value ≤ offset
  closed : ∀ group ∉ groups, 0 < group → ∀ value last : Int, captures[2 * group]? = some value →
    captures[2 * group + 1]? = some last →
    value = -1 ∧ last = -1 ∨ first ≤ value ∧ value ≤ last ∧ last ≤ offset

variable (spans : captures.Spans occurs groups first offset)

include spans

theorem Spans.mono {l : Nat} (le : offset ≤ l) :
    captures.Spans occurs groups first l where
  __ := spans
  le := Nat.le_trans spans.le le
  opened gr mem v got := by
    have bounds := spans.opened gr mem v got
    omega
  closed gr other pos v z got got' := by
    have bounds := spans.closed gr other pos v z got got'
    omega

theorem Spans.write {step : Step} (brackets : step.Brackets occurs groups)
    (positive : ∀ group, occurs group → 0 < group) :
    (step.write offset captures).Spans occurs (step.opens groups) first offset := by
  cases step with
  | capture slot out =>
    obtain ⟨known, last⟩ := brackets
    have written {other : Nat} {value : Int}
        (found : (captures.setIfInBounds slot offset)[other]? = some value) :
        other = slot ∧ value = offset ∨ other ≠ slot ∧ captures[other]? = some value := by
      rw [Array.getElem?_setIfInBounds] at found
      split at found
      · next same =>
        split at found
        · exact .inl ⟨same.symm, (Option.some.inj found).symm⟩
        · simp at found
      · next other => exact .inr ⟨Ne.symm other, found⟩
    have large := positive _ known
    have le := spans.le
    refine ⟨le, fun value found => ?_, fun other value far none found => ?_, ?_, ?_⟩
    · rcases written found with ⟨same, -⟩ | ⟨-, found⟩
      · omega
      · exact spans.start value found
    · rcases written found with ⟨rfl, -⟩ | ⟨-, found⟩
      · exact absurd known none
      · exact spans.unset other value far none found
    · intro group listed value found
      rcases written found with ⟨-, rfl⟩ | ⟨other, found⟩
      · omega
      refine spans.opened group ?_ value found
      dsimp only [Step.opens] at listed
      split at listed
      · exact (List.mem_cons.mp listed).resolve_left (by omega)
      · exact List.mem_of_mem_tail listed
    · intro group unlisted above value end_ found found'
      dsimp only [Step.opens] at unlisted
      split at unlisted
      · rw [List.mem_cons, not_or] at unlisted
        rcases written found with ⟨same, -⟩ | ⟨-, found⟩
        · omega
        rcases written found' with ⟨same, -⟩ | ⟨-, found'⟩
        · omega
        exact spans.closed group unlisted.2 above value end_ found found'
      · obtain ⟨rest, rfl⟩ := List.head?_eq_some_iff.mp (last (by omega))
        rw [List.tail_cons] at unlisted
        rcases written found with ⟨same, -⟩ | ⟨-, found⟩
        · omega
        rcases written found' with ⟨same, rfl⟩ | ⟨other, found'⟩
        · have bounds := spans.opened group (by simp; omega) value found
          omega
        · exact spans.closed group (by simp [unlisted]; omega) above value end_ found found'
  | _ => exact spans

end Captures

theorem Query.blank_spans (q : Query) (occurs : Nat → Prop) (k : Nat) :
    (q.blank k).Spans occurs [] k k := by
  have unset {sl : Nat} {v : Int} (pos : 0 < sl) (got : (q.blank k)[sl]? = some v) : v = -1 := by
    rw [blank, Array.getElem?_setIfInBounds_ne pos.ne, Array.getElem?_replicate] at got
    split at got
    · exact (Option.some.inj got).symm
    · simp at got
  refine ⟨Nat.le_refl _, fun v got => ?_, fun sl v far _ => unset (by omega), by simp,
    fun gr _ pos v z got got' => .inl ⟨unset (by omega) got, unset (by omega) got'⟩⟩
  rw [blank, Array.getElem?_setIfInBounds_self] at got
  split at got
  · exact (Option.some.inj got).symm
  · simp at got

namespace Graph

variable {g : Graph} {q : Query} {out : Nat} {first b : Point}

theorem Recovered.moves_of_control (recovered : g.Recovered) {sp : Step} {x : Inst}
    (control : sp.control? = some x) (here : g.automaton.insts[first.pc]? = some x)
    (size : first.captures.size = q.slots) (move : g.Moves q first b) :
    (∃ snd, sp.exit? snd = some b.pc) ∧ b.captures = sp.write first.offset first.captures := by
  have inst_eq := Lowering.inst_of_getElem? here
  cases sp <;> simp only [Step.control?, Option.some.injEq, reduceCtorEq] at control <;> subst
    control
  all_goals
    have plain := recovered.extensionsAt?_eq_none here (by simp)
    cases move.way with
    | extension got => simp [plain] at got
    | byte _ other => simp [inst_eq] at other
    | capture _ other =>
      rw [inst_eq] at other ⊢
      first | exact ⟨⟨false, rfl⟩, rfl⟩ | simp at other
    | out1 _ other =>
      rw [inst_eq] at other ⊢
      first | exact ⟨⟨true, rfl⟩, rfl⟩ | simp at other
    | out _ hasExit _ unasked =>
      rw [inst_eq] at hasExit unasked ⊢
      first
        | exact ⟨⟨false, rfl⟩, rfl⟩
        | exact ⟨⟨false, rfl⟩,
            (Array.setIfInBounds_eq_of_size_le (size.le.trans (unasked rfl))).symm⟩
        | simp [Opcode.hasExit] at hasExit

section Program

variable {occurs : Nat → Prop} {l : Nat → List Nat} {n : Compilation.Steps}
  (recovered : g.Recovered) (brk : Compilation.Bracketed occurs l n [])
  (lowered : ∀ pc sp, n[pc]? = some sp → Lowering.Lowered g.automaton.insts n.size pc sp)
  (pos : ∀ gr, occurs gr → 0 < gr) {i : Nat}

include brk lowered

theorem control_or_toward {pc : Nat} {sp : Step} (got : n[pc]? = some sp) :
    (∃ x, sp.control? = some x ∧ g.automaton.insts[pc]? = some x) ∨
      ∃ out < n.size, l out = l pc ∧ g.Toward n.size out pc := by
  have wr := lowered _ _ got
  have fits := (brk.sound got).1
  cases control : sp.control? with
  | some x => exact .inl ⟨x, rfl, wr.control x control⟩
  | none =>
    cases next : sp.next? with
    | some out =>
      obtain ⟨exit, kept⟩ : sp.exit? false = some out ∧ sp.opens (l pc) = l pc := by
        cases sp <;> simp_all [Step.next?, Step.exit?, Step.opens]
      exact .inr ⟨out, fits.exit_lt exit,
        ((brk.leads got exit).resolve_left (by simp)).trans kept, ⟨pc, wr.forms out next, .refl⟩⟩
    | none => cases sp <;> simp [Step.control?, Step.next?, Step.Fits] at control next fits

include recovered pos

variable (lt : g.automaton.start.toNat < n.size) (beg : l g.automaton.start.toNat = [])
  (path : g.Path q (g.origin q i) b)

include lt beg path

theorem Path.spans : ∃ out < n.size, (b.pc = out ∨ g.Toward n.size out b.pc) ∧
      b.captures.Spans occurs (l out) i b.offset := by
  induction path with
  | refl =>
    refine ⟨_, lt, .inl rfl, ?_⟩
    rw [beg]
    exact q.blank_spans occurs i
  | @tail m z pre move ih =>
    obtain ⟨out, inside, place, spans⟩ := ih
    have le := Path.le_offset (.single move)
    have reading {out' : Nat} (inside : out' < n.size) (eq : l out' = l out)
        (toward : g.Toward n.size out' m.pc) :
        ∃ out < n.size, (z.pc = out ∨ g.Toward n.size out z.pc) ∧
          z.captures.Spans occurs (l out) i z.offset := by
      obtain ⟨kept, place⟩ := toward.moves inside recovered move
      exact ⟨out', inside, place.imp_right And.right, by rw [kept, eq]; exact spans.mono le⟩
    rcases place with rfl | toward
    · have got := Array.getElem?_eq_getElem inside
      rcases control_or_toward brk lowered got with ⟨x, control, here⟩ | ⟨out, inside, eq, toward⟩
      · have size : m.captures.size = q.slots :=
          (Path.size_captures pre).trans (by simp [origin, Query.blank])
        obtain ⟨⟨snd, exit⟩, wr⟩ := recovered.moves_of_control control here size move
        obtain ⟨fits, brackets⟩ := brk.sound got
        refine ⟨_, fits.exit_lt exit, .inl rfl, ?_⟩
        rw [wr, (brk.leads got exit).resolve_left (by simp)]
        exact (spans.write brackets pos).mono le
      · exact reading inside eq toward
    · exact reading inside rfl toward

theorem Accepts.spans (accepts : g.Accepts q b) : b.captures.Spans occurs [] i b.offset := by
  have op := accepts.way.2.1
  obtain ⟨out, inside, rfl | toward, spans⟩ := path.spans recovered brk lowered pos lt beg
  · have got := Array.getElem?_eq_getElem inside
    rcases control_or_toward brk lowered got with ⟨x, control, here⟩ | ⟨_, early, _, toward⟩
    · rw [Lowering.inst_of_getElem? here] at op
      have brackets := (brk.sound got).2
      generalize n[b.pc] = sp at control brackets
      obtain rfl : sp = .accept := by
        cases sp <;> simp only [Step.control?, Option.some.injEq, reduceCtorEq] at control <;>
          simp [← control] at op ⊢
      rwa [show l b.pc = [] from brackets] at spans
    · exact absurd op (toward.op_ne_accept early)
  · exact absurd op (toward.op_ne_accept inside)

end Program

end Graph

theorem CompiledPattern.Made.group_bounds {pat enc : Bytes} {ex : Expr}
    {compiled : CompiledPattern} (made : Made pat enc ex compiled) :
    ∀ e ∈ ex.simplify.groups, 0 < e.1 ∧ e.1 < compiled.names.length := by
  intro e mem
  have kept := (Expr.mem_groups_simplify ex).mp mem
  rw [made.names_eq, Expr.length_groupNames_simplify]
  refine ⟨?_, Nat.lt_succ_of_le (Expr.foldr_max_le_iff.mp (Nat.le_refl ex.lastKept) _
    (List.mem_map_of_mem kept))⟩
  obtain ⟨i, -, number⟩ := Token.mem_numbered.mp
    ((Expr.mem_groups_iff made.parse_eq e).mp (Expr.keptGroups_subset ex kept))
  omega

namespace Regex

variable {options : Options} {regex : Regex} {t : Text} {an : Anchor}
variable {captures : Captures} {sl : List Int}

/-- Searches a text and says whether there is a match; if so, the captures are written over the
slots. -/
def fill (regex : Regex) (text : Text) (anchor : Anchor) (slots : List Int) : Bool × List Int :=
  match (regex.search text anchor (2 * (slots.length / 2))).result? with
  | some captures => (true, captures.writeOver slots)
  | none => (false, slots)

theorem fill_of_search (re : Regex) (t : Text) (an : Anchor)
    (got : (re.search t an (2 * (sl.length / 2))).result? = some captures) :
    re.fill t an sl = (true, captures.writeOver sl) := by
  rw [fill, got]

theorem spans_of_reports {pattern : Bytes} {compiled : CompiledPattern}
    (found : CompiledPattern.compile pattern = .ok compiled) {q : Query}
    (reports : compiled.toGraph.Reports q captures) :
    captures.size = q.slots ∧ ∃ first last : Nat, last ≤ q.text.size ∧
      (q.anchorsStart = true → first = 0) ∧ q.mayMatchAt last = true ∧
      (∀ value : Int, captures[1]? = some value → value = last) ∧
      captures.Spans (fun group => 0 < group ∧ group < compiled.names.length) [] first last := by
  obtain ⟨encoded, expr, made⟩ := CompiledPattern.exists_made found
  obtain ⟨-, recovered, start_eq, lowered⟩ := made.lowered (Expr.wellFormed_of_parse made.parse_eq)
  obtain ⟨label, start, bracketed, same, inside, begins⟩ :=
    @Expr.exists_bracketed _ (fun group => 0 < group ∧ group < compiled.names.length)
      (Expr.proper_of_parse made.parse_eq).simplify made.group_bounds
  obtain ⟨last, ⟨first, inText, anchored, path⟩, accepts, rfl⟩ := reports
  rw [same] at start_eq
  have spans := accepts.spans recovered bracketed lowered (fun _ known => known.1)
    (by rw [start_eq]; exact inside) (by rw [start_eq]; exact begins) path
  have kept {slot : Nat} (other : slot ≠ 1) :
      (last.captures.setIfInBounds 1 last.offset)[slot]? = last.captures[slot]? :=
    Array.getElem?_setIfInBounds_ne other.symm
  refine ⟨?_, first, last.offset, path.offset_le inText, anchored, accepts.way.2.2,
    fun value ended => ?_,
    spans.le, ?_, ?_, by simp, ?_⟩
  · rw [Array.size_setIfInBounds, path.size_captures]
    simp [Graph.origin, Query.blank]
  · rw [Array.getElem?_setIfInBounds_self] at ended
    split at ended
    · exact (Option.some.inj ended).symm
    · simp at ended
  · rw [kept (by omega)]
    exact spans.start
  · intro slot value far
    rw [kept (by omega)]
    exact spans.unset slot value far
  · intro group none positive
    rw [kept (by omega), kept (by omega)]
    exact spans.closed group none positive

theorem getElem?_writeOver (c : Captures) {k : Nat} (paired : k < 2 * (sl.length / 2)) :
    (c.writeOver sl)[k]? = some (c.getD k (-1)) := by
  simp [Captures.writeOver, List.getElem?_append, paired]

/-- The slots hold a match from `first` to `last`, a span of the text that begins or ends where it
has to, and every group is unset or a span inside the match. -/
structure Spanned (text : Text) (anchor : Anchor) (filled : List Int) (first last : Nat) :
    Prop where
  le : first ≤ last
  inText : last ≤ text.size
  atBegin : anchor ≠ .none → first = 0
  atEnd : anchor = .both → last = text.size
  whole : 1 < filled.length → filled[0]? = some (first : Int) ∧ filled[1]? = some (last : Int)
  groups : ∀ group, 0 < group → 2 * group + 1 < filled.length → ∃ value end_ : Int,
    filled[2 * group]? = some value ∧ filled[2 * group + 1]? = some end_ ∧
      (value = -1 ∧ end_ = -1 ∨ first ≤ value ∧ value ≤ end_ ∧ end_ ≤ last)

/-- Whatever is asked for, a match is a span with spans of groups inside. Native code is taken for
`Native.Compiled.runner`. -/
theorem fill_spans (made : compile options = .ok regex) (text : Text) (anchor : Anchor)
    (slots : List Int) (found : (regex.fill text anchor slots).1 = true) :
    ∃ first last, Spanned text anchor (regex.fill text anchor slots).2 first last := by
  cases searched : (regex.search text anchor (2 * (slots.length / 2))).result? with
  | none => simp [fill, searched] at found
  | some captures =>
  simp only [fill_of_search regex text anchor searched]
  obtain ⟨compiled, compiled_eq, runs, -⟩ := exists_runs made
  obtain ⟨size, first, last, inText, anchored, ends, ended, spans⟩ :=
    spans_of_reports compiled_eq (runs.reports searched)
  have length_eq : (captures.writeOver slots).length = slots.length := by
    simp [Captures.writeOver]
    omega
  have written {slot : Nat} (paired : slot < 2 * (slots.length / 2)) :
      ∃ value, captures[slot]? = some value ∧ (captures.writeOver slots)[slot]? = some value := by
    have inside : slot < captures.size := by
      rw [size, asks]
      exact lt_max_of_lt_left paired
    exact ⟨_,
      Array.getElem?_eq_getElem inside, by simp [getElem?_writeOver captures paired, inside]⟩
  refine ⟨first, last, spans.le, inText, fun some => anchored ?_, ?_, fun enough => ?_,
    fun group positive enough => ?_⟩
  · cases anchor <;> simp_all [asks, Query.anchorsStart, Anchor.flags]
  · rintro rfl
    simp only [asks, Query.mayMatchAt, Anchor.flags, show Nat.testBit 3 1 = true by decide,
      Bool.true_and, Bool.not_eq_true'] at ends
    exact Nat.le_antisymm inText (Nat.le_of_not_lt (of_decide_eq_false ends))
  · obtain ⟨value, there, filled⟩ := written (show 0 < _ by omega)
    obtain ⟨value', there', filled'⟩ := written (show 1 < _ by omega)
    exact ⟨by rw [filled, spans.start value there], by rw [filled', ended value' there']⟩
  · obtain ⟨value, there, filled⟩ := written (show 2 * group < _ by omega)
    obtain ⟨end_, there', filled'⟩ := written (show 2 * group + 1 < _ by omega)
    exact ⟨value, end_, filled, filled',
      spans.closed group (by simp) positive value end_ there there'⟩

theorem exists_interpreted (wf : Utf8.valid options.pattern = true) (unb : options.maxThreads = 0)
    (interpreted : options.native = false) {enc : Bytes} {e : Expr}
    (encode_eq : Encoding.encode options.pattern = .ok enc) (parse_eq : Expr.parse enc = .ok e)
    (inserted : e.reservedCodes.Sublist ((Utf8.codes enc).filter Codec.isReserved))
    {fits : Regex → Bool} (computed : ((CompiledPattern.ofExpr e).toOption.any fun compiled =>
      compiled.analyze.toOption.any fun an =>
        fits ⟨options.pattern, an, compiled.names, 0, .interpreter .disabled⟩) = true) :
    ∃ re, compile options = .ok re ∧ fits re = true := by
  rw [← CompiledPattern.compile_eq encode_eq parse_eq
    (surplusCode?_eq_none_iff.mpr fun _ _ => inserted.countP_le)] at computed
  cases acc : CompiledPattern.compile options.pattern with
  | error refusal => simp [acc, Except.toOption] at computed
  | ok compiled =>
  cases analyzed : compiled.analyze with
  | error refusal => simp [acc, analyzed, Except.toOption] at computed
  | ok an =>
    refine ⟨_, compile_interpreted wf unb interpreted acc analyzed, ?_⟩
    simpa [acc, analyzed, Except.toOption] using computed

def anyNumber : Options := { pattern := Bytes.ofString "(a)*", native := false }

/-- The group spans the last letter, and a slot without a partner stays as it is. -/
theorem fill_anyNumber : ∃ regex, compile anyNumber = .ok regex ∧
    regex.fill #[0x61, 0x61] .both [7, 7, 7, 7, 7] = (true, [0, 2, 1, 2, 7]) ∧
    ∃ first last, Spanned #[0x61, 0x61] .both [0, 2, 1, 2, 7] first last := by
  have encode_eq : Encoding.encode anyNumber.pattern = .ok anyNumber.pattern := by decide +kernel
  have parse_eq : Expr.parse anyNumber.pattern =
      .ok (.repetition .star false (.capture 1 "" (.literal [0x61] {}))) := by
        with_unfolding_all rfl
  obtain ⟨regex, made, filled⟩ :=
    @exists_interpreted anyNumber (by decide +kernel) rfl rfl _ _ encode_eq
    parse_eq (by decide +kernel)
    (fun regex => regex.fill #[0x61, 0x61] .both [7, 7, 7, 7, 7] = (true, [0, 2, 1, 2, 7]))
    (by decide +kernel)
  have filled := of_decide_eq_true filled
  have spanned := fill_spans made #[0x61, 0x61] .both [7, 7, 7, 7, 7] (by rw [filled])
  rw [filled] at spanned
  exact ⟨regex, made, filled, spanned⟩

end Regex

end Rematch
