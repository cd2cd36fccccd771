import Rematch.Proofs.Extension.Parts
import Rematch.Proofs.Pattern.Compiled
import Rematch.Proofs.Pattern.Bracketing
import Rematch.Proofs.Regex.Search
import Rematch.Proofs.Text.Boundaries

/-!
Paths through the automaton of a pattern and the code points of the text. A path that begins at a
boundary stands at boundaries only, but where it reads the form of a code point; one that begins
inside a code point reads nothing and stays there.
-/

namespace Rematch

open List Lowering

variable {text : Text} {stops : Nat → Prop} {c : Captures} {k : Nat}

def Captures.Among (stops : Nat → Prop) (captures : Captures) : Prop :=
  ∀ (slot : Nat) (value : Int), captures[slot]? = some value → 0 ≤ value → stops value.toNat

theorem Captures.Among.set (among : c.Among stops) (sl : Nat) (stop : stops k) :
    Captures.Among stops (c.setIfInBounds sl k) := by
  intro j v got nonneg
  rw [Array.getElem?_setIfInBounds] at got
  split at got
  · split at got
    · cases got
      simpa using stop
    · simp at got
  · exact among j v got nonneg

theorem Query.blank_among (q : Query) (stop : stops k) : Captures.Among stops (q.blank k) := by
  refine Captures.Among.set (fun sl v got nonneg => ?_) 0 stop
  obtain ⟨_, rfl⟩ := Array.getElem?_eq_some_iff.mp got
  simp at nonneg

theorem Text.Closed.evaluate? {ext : Extension} {n : Nat} (closed : text.Closed stops)
    (among : c.Among stops) (stop : stops k) (ev : ext.evaluate? text k c = some n) :
    stops (k + n) := by
  have category {m : Nat} {mb : Bool}
      (matched : Extension.matchCategory? (text.window k) m mb = some n) :
      stops (k + n) := by
    unfold Extension.matchCategory? at matched
    split at matched
    · next dec =>
      split at matched
      · cases matched
        obtain ⟨scalar, rfl, parts⟩ := Utf8.encode_of_decode? dec
        rw [Text.window, Array.toList_extract, extract_eq_take_drop, Nat.add_sub_cancel_left]
          at parts
        obtain ⟨r, drop_eq⟩ : Utf8.encode _ <+: text.toList.drop k :=
          IsPrefix.trans ⟨_, parts.symm⟩ ( take_prefix _ _)
        exact closed.reads stop scalar drop_eq.symm
      · simp at matched
    · simp at matched
  unfold Extension.evaluate? at ev
  split at ev
  · exact category ev
  · exact category ev
  · unfold Extension.matchBackreference? at ev
    split at ev
    · simp at ev
    next a z span =>
    split at ev
    · cases ev
      exact stop
    next apart =>
    split at ev
    · simp at ev
    next short =>
    split at ev
    · next eq =>
      cases ev
      unfold Extension.capturedSpan? at span
      split at span
      · next begin_ end_ opened closed_ =>
        split at span
        · simp at span
        next proper =>
        cases span
        have bytes := congrArg Array.toList eq
        simp only [Array.toList_extract, extract_eq_take_drop, Nat.add_sub_cancel_left] at bytes
        refine closed.repeats (among _ _ opened (by omega)) (among _ _ closed_ (by omega))
          (by omega)
          stop ?_
        rw [bytes]
        exact take_prefix _ _
      · simp at span
    · simp at ev
  · simp at ev

namespace Graph

variable {g : Graph} {q : Query} {base : Nat} {a b : Point}

/-- The first `base` instructions lead to each other: without consuming anything, or by way of other
instructions that read the form of a scalar value. -/
structure Stepwise (graph : Graph) (base : Nat) : Prop where
  recovered : graph.Recovered
  start_lt : graph.automaton.start.toNat < base
  steps : ∀ pc < base,
    (∃ inst, graph.automaton.insts[pc]? = some inst ∧ inst.op ≠ .byteRange ∧ inst.Inside base) ∨
      ∃ out < base, ReadsForms graph.automaton.insts base out pc

/-- Where a path stands: at one of the offsets, or after some bytes of the form of a scalar value
that it reads from there. -/
inductive Stands (graph : Graph) (base : Nat) (text : Text) (stops : Nat → Prop) :
    Nat → Nat → Prop where
  | step {pc offset} (early : pc < base) (stop : stops offset) :
      Stands graph base text stops pc offset
  | reads {pc offset out} (early : out < base)
      (reads : ReadsForms graph.automaton.insts base out pc) (stop : stops offset) :
      Stands graph base text stops pc offset
  | inside {pc offset out front back seen} (early : out < base)
      (begun : front ≠ []) (forms : TestsForms (front ++ back))
      (chain : Chain graph.automaton.insts base out pc back) (stop : stops offset)
      (passes : Passes front seen) (read : seen <+: text.toList.drop offset) :
      Stands graph base text stops pc (offset + seen.length)

theorem Stands.of_byte (closed : q.text.Closed stops) {pc out : Nat} {f bk : List ByteTest}
    {seen : Bytes} {b : UInt8} (early : out < base) (forms : TestsForms (f ++ bk))
    (ch : Chain g.automaton.insts base out pc bk) (stop : stops k) (passes : Passes f seen)
    (read : seen <+: q.text.toList.drop k) (next : q.text[k + seen.length]? = some b)
    (acc : (g.inst pc).accepts b = true) :
    g.Stands base q.text stops (g.inst pc).out.toNat (k + seen.length + 1) := by
  have read' : seen ++ [b] <+: q.text.toList.drop k := by
    obtain ⟨r, parts⟩ := read
    rw [← Array.getElem?_toList, ← getElem?_drop, ← parts,
      getElem?_append_right (Nat.le_refl _), Nat.sub_self] at next
    obtain ⟨others, rfl⟩ := head?_eq_some_iff.mp (head?_eq_getElem? ▸ next)
    exact ⟨others, by rw [← parts]; simp⟩
  have length_eq : k + seen.length + 1 = k + (seen ++ [b]).length := by simp [Nat.add_assoc]
  rw [length_eq]
  cases ch with
  | @last _ t here =>
    rw [inst_of_getElem? here] at acc ⊢
    have passed : Passes (f ++ [t]) (seen ++ [b]) := rel_append passes (.cons acc .nil)
    obtain ⟨c, scalar, bytes_eq⟩ := forms.exists_code passed
    obtain ⟨r, parts⟩ := read'
    refine .step (by simpa [ByteTest.inst] using early) ?_
    rw [bytes_eq] at parts ⊢
    exact closed.reads stop scalar parts.symm
  | @more _ next t ts here app rest =>
    rw [inst_of_getElem? here] at acc ⊢
    have passed : Passes (f ++ [t]) (seen ++ [b]) := rel_append passes (.cons acc .nil)
    exact .inside early (by simp) (by simpa using forms) rest stop passed read'

theorem Stands.of_head (recovered : g.Recovered) (closed : q.text.Closed stops)
    {out : Nat} {ts : List ByteTest} (early : out < base) (forms : TestsForms ts)
    (ch : Chain g.automaton.insts base out a.pc ts) (stop : stops a.offset)
    (among : a.captures.Among stops) (move : g.Moves q a b) :
    g.Stands base q.text stops b.pc b.offset := by
  obtain ⟨t, r, x, -, here⟩ := ch.first
  have op : (g.inst a.pc).op = .byteRange := by rw [inst_of_getElem? here]; rfl
  cases move.way with
  | extension got mem ev =>
    refine .step ?_ (closed.evaluate? among stop ev)
    rw [recovered.out_of_extension forms ch got mem]
    exact early
  | byte _ _ read acc =>
    exact @Stands.of_byte _ _ _ _ _ closed _ _ [] _ [] _ early forms ch stop .nil nil_prefix
      read acc
  | capture _ other | out1 _ other => simp [op] at other
  | out _ _ other => exact absurd op other

theorem Stands.of_control (recovered : g.Recovered) {x : Inst}
    (here : g.automaton.insts[a.pc]? = some x)
    (op : x.op ≠ .byteRange) (lt : x.Inside base) (stop : stops a.offset) (move : g.Moves q a b) :
    g.Stands base q.text stops b.pc b.offset := by
  have inst_eq := inst_of_getElem? here
  have plain := recovered.extensionsAt?_eq_none here op
  cases move.way with
  | extension got => simp [plain] at got
  | byte _ other => exact absurd (inst_eq ▸ other) op
  | capture _ other =>
    rw [inst_eq] at other ⊢
    have out := lt.out (by rw [other]; rfl)
    exact .step (by dsimp only; omega) stop
  | out _ hasExit =>
    rw [inst_eq] at hasExit ⊢
    have out := lt.out hasExit
    exact .step (by dsimp only; omega) stop
  | out1 _ alt =>
    rw [inst_eq] at alt ⊢
    have out := lt.out1 alt
    exact .step (by dsimp only; omega) stop

theorem Stands.of_reader (recovered : g.Recovered) (closed : q.text.Closed stops) {out : Nat}
    {ts : List (List ByteTest)} (early : out < base)
    (reader : Reader g.automaton.insts base out a.pc ts) (forms : ∀ t ∈ ts, TestsForms t)
    (stop : stops a.offset) (among : a.captures.Among stops) (move : g.Moves q a b) :
    g.Stands base q.text stops b.pc b.offset := by
  cases reader with
  | fail here => exact False.elim (recovered.not_moves_of_fail here move)
  | chain ch => exact .of_head recovered closed early (forms _ (.head _)) ch stop among move
  | pair here _ _ ch ch' =>
    obtain ⟨kept, -, place⟩ := recovered.moves_of_alt here move
    rw [kept]
    rcases place with place | place
    · rw [place]
      exact .reads early ⟨_, .chain ch, by simpa using forms _ (.head _)⟩ stop
    · rw [place]
      exact .reads early ⟨_, .chain ch', by simpa using forms _ (.tail _ (.head _))⟩ stop
  | choice here _ _ _ _ ch others =>
    obtain ⟨kept, -, place⟩ := recovered.moves_of_alt here move
    rw [kept]
    rcases place with place | place
    · rw [place]
      exact .reads early ⟨_, .chain ch, by simpa using forms _ (.head _)⟩ stop
    · rw [place]
      exact .reads early ⟨_, others, fun t mem => forms t (.tail _ mem)⟩ stop

variable (stepwise : g.Stepwise base) (closed : q.text.Closed stops)

include stepwise closed

theorem Stands.moves (stands : g.Stands base q.text stops a.pc a.offset)
    (among : a.captures.Among stops) (move : g.Moves q a b) :
    g.Stands base q.text stops b.pc b.offset := by
  have recovered := stepwise.recovered
  generalize pc_eq : a.pc = pc at stands
  generalize offset_eq : a.offset = k at stands
  cases stands with
  | step early stop =>
    subst pc_eq offset_eq
    rcases stepwise.steps _ early with ⟨x, here, op, lt⟩ | ⟨out, early', ts, reader, forms⟩
    · exact .of_control recovered here op lt stop move
    · exact .of_reader recovered closed early' reader forms stop among move
  | reads early reads stop =>
    subst pc_eq offset_eq
    obtain ⟨ts, reader, forms⟩ := reads
    exact .of_reader recovered closed early reader forms stop among move
  | inside early begun forms ch stop passes read =>
    subst pc_eq
    obtain ⟨t, r, ex, -, here⟩ := ch.first
    have op : (g.inst a.pc).op = .byteRange := by rw [inst_of_getElem? here]; rfl
    cases move.way with
    | extension got => simp [recovered.extensionsAt?_inside begun forms ch] at got
    | byte _ _ next acc =>
      rw [offset_eq] at next ⊢
      exact .of_byte closed early forms ch stop passes read next acc
    | capture _ other | out1 _ other => simp [op] at other
    | out _ _ other => exact absurd op other

omit stepwise closed in
theorem Stands.stop (stands : g.Stands base q.text stops a.pc a.offset)
    (op : (g.inst a.pc).op ≠ .byteRange) : stops a.offset := by
  generalize pc_eq : a.pc = pc at stands
  generalize offset_eq : a.offset = k at stands
  cases stands with
  | step _ stop | reads _ _ stop => exact offset_eq ▸ stop
  | inside _ _ _ ch =>
    obtain ⟨t, r, x, -, here⟩ := ch.first
    rw [pc_eq, inst_of_getElem? here] at op
    exact absurd rfl op

theorem Path.stands (path : g.Path q a b) (stands : g.Stands base q.text stops a.pc a.offset)
    (among : a.captures.Among stops) :
    g.Stands base q.text stops b.pc b.offset ∧ b.captures.Among stops := by
  induction path with
  | refl => exact ⟨stands, among⟩
  | tail _ move ih =>
    obtain ⟨stands, among⟩ := ih
    refine ⟨stands.moves stepwise closed among move, ?_⟩
    rcases move.captures with eq | ⟨op, -, eq⟩
    · rw [eq]
      exact among
    · rw [eq]
      exact among.set _ (stands.stop (by simp [op]))

theorem Accepts.among {i : Nat} (stop : stops i) {z : Point}
    (path : g.Path q (g.origin q i) z) (accepts : g.Accepts q z) :
    stops z.offset ∧ Captures.Among stops (z.captures.setIfInBounds 1 z.offset) := by
  obtain ⟨stands, among⟩ := path.stands stepwise closed
    (.step stepwise.start_lt stop) (q.blank_among stop)
  have ended : stops z.offset := stands.stop (by simp [accepts.way.2.1])
  exact ⟨ended, among.set 1 ended⟩

/-- Some instruction asks for the absence of a word boundary. -/
def AsksNoWordBoundary (graph : Graph) : Prop :=
  ∃ pc, (graph.inst pc).op = .emptyWidth ∧ (graph.inst pc).arg &&& Condition.noWordBoundary ≠ 0

omit stepwise closed in
theorem satisfied_of_noWordBoundary {required : Nat}
    (indifferent : required &&& Condition.noWordBoundary = 0)
    (satisfied : Condition.satisfied required Condition.noWordBoundary = true) (holding : Nat) :
    Condition.satisfied required holding = true := by
  have low : required % 256 &&& Condition.noWordBoundary = 0 := by
    have both := Nat.and_mod_two_pow (a := required) (b := Condition.noWordBoundary) (n := 8)
    rw [indifferent] at both
    exact both.symm
  rw [Condition.satisfied, low, beq_iff_eq] at satisfied
  rw [Condition.satisfied, ← satisfied, Nat.zero_and]
  rfl

section Inside

variable (noBackrefs : g.NoBackreferences) (indifferent : ¬g.AsksNoWordBoundary)
  {m : Nat} (ok : Utf8.valid q.text.toList = true) (inText : m ≤ q.text.size)
  (within : ¬q.text.IsBoundary m)

omit closed
include noBackrefs indifferent ok inText within

omit stepwise in
theorem exists_move_of_inside {pc : Nat} {c : Captures} (move : g.Moves q ⟨pc, m, c⟩ b)
    (kept : b.offset = m) (o : Captures) : ∃ changed, g.Moves q ⟨pc, 0, o⟩ ⟨b.pc, 0, changed⟩ := by
  cases move.way with
  | @extension es ext n got mem ev =>
    obtain rfl : n = 0 := by simpa using kept
    exact absurd ev (Extension.evaluate?_ne_zero (noBackrefs pc es got ext mem) _ _ _)
  | byte => simp at kept
  | capture plain op asked => exact ⟨_, Way.moves (.capture plain op asked)⟩
  | out1 plain op => exact ⟨o, Way.moves (.out1 plain op)⟩
  | out plain hasExit op unasked satisfied =>
    refine ⟨o, Way.moves (.out plain hasExit op unasked fun isEmptyWidth => ?_)⟩
    have held := satisfied isEmptyWidth
    rw [Condition.holdingAt_of_not_isBoundary ok inText within] at held
    refine satisfied_of_noWordBoundary ?_ held _
    by_contra asks
    exact indifferent ⟨pc, isEmptyWidth, asks⟩

theorem isSome_attempt_of_inside {p : List Nat} {pc : Nat} {c : Captures}
    (stands : g.Stands base q.text (· = m) pc m) (among : c.Among (· = m)) (o : Captures)
    (got : (g.attempt q p ⟨pc, m, c⟩).isSome = true) :
    (g.attempt q p ⟨pc, 0, o⟩).isSome = true := by
  have closed := Text.closed_of_not_isBoundary ok within
  induction size : g.fresh p using Nat.strong_induction_on generalizing p pc c o with
  | _ _ ih =>
    obtain ⟨new, lt, branch, offered, succeeds⟩ := isSome_attempt_iff.mp got
    refine isSome_attempt_iff.mpr ⟨new, lt, ?_⟩
    cases branch with
    | accept =>
      obtain ⟨plain, op, allowed⟩ := Accepts.way offered
      have early : m < q.text.size := by
        refine Nat.lt_of_le_of_ne inText ?_
        rintro rfl
        exact within (Text.isBoundary_size ok)
      have allowed' : q.mayMatchAt 0 = true := by
        simp only [Query.mayMatchAt, early, decide_true, Bool.and_true,
          Bool.not_eq_true'] at allowed
        simp [Query.mayMatchAt, allowed]
      exact ⟨.accept, by simp [branches, plain, op, allowed'], rfl⟩
    | step n =>
      have stands' := stands.moves stepwise closed among offered
      obtain ⟨-, among'⟩ := Path.stands stepwise closed (.single offered) stands among
      simp only [tryBranch] at succeeds
      split at succeeds
      · next kept =>
        obtain ⟨changed, move⟩ := exists_move_of_inside noBackrefs indifferent ok inText within
          offered kept o
        refine ⟨_, move, ?_⟩
        obtain ⟨pc', k', c'⟩ := n
        obtain rfl : k' = m := kept
        simp only [tryBranch, if_true]
        exact ih _ (size ▸ fresh_cons_lt lt new) stands' among' changed succeeds rfl
      · next moved =>
        -- a byte was read, so that nothing can be accepted any more
        obtain ⟨res, attempted⟩ := Option.isSome_iff_exists.mp succeeds
        obtain ⟨z, ahead, accepts, -⟩ := path_of_attempt attempted
        obtain ⟨stands'', -⟩ := ahead.stands stepwise closed stands' among'
        have ended := stands''.stop (by simp [accepts.way.2.1])
        have further := ahead.le_offset
        rcases Moves.offset offered with kept | ⟨beyond, -⟩
        · exact absurd kept moved
        · dsimp only at beyond ended
          omega

end Inside

end Graph

theorem CompiledPattern.Made.stepwise {pat enc : Bytes} {e : Expr}
    {compiled : CompiledPattern} (made : Made pat enc e compiled) :
    compiled.toGraph.Stepwise e.simplify.compile.steps.size := by
  have wf := Expr.wellFormed_of_parse made.parse_eq
  obtain ⟨-, recovered, start_eq, lowered⟩ := made.lowered wf
  refine ⟨recovered, ?_, fun pc early => ?_⟩
  · have start := wf.start
    rw [start_eq]
    omega
  · have got := Array.getElem?_eq_getElem early
    have fits := wf.fits _ (Array.getElem_mem early)
    have wr := lowered pc _ got
    generalize e.simplify.compile.steps[pc] = sp at fits wr
    cases control : sp.control? with
    | some x =>
      obtain ⟨lt, op⟩ := inside_control control fits
      exact .inl ⟨x, wr.control x control, op, lt⟩
    | none =>
      cases next : sp.next? with
      | some out => exact .inr ⟨out, fits.next?_lt next, wr.forms out next⟩
      | none => cases sp <;> simp [Step.control?, Step.next?, Step.Fits] at control next fits

namespace Regex

variable {options : Options} {regex : Regex}

/-- Without a bound on the number of threads, backreferences and tests for the absence of a word
boundary, a match is found between code points. -/
theorem among_of_search (made : compile options = .ok regex) (unb : options.maxThreads = 0)
    (noBackrefs : regex.analysis.toGraph.NoBackreferences)
    (indifferent : ¬regex.analysis.toGraph.AsksNoWordBoundary) (ok : Utf8.valid text.toList = true)
    {an : Anchor} {sl : Nat} {c : Captures} (got : (regex.search text an sl).result? = some c) :
    c.Among text.IsBoundary := by
  obtain ⟨compiled, compiled_eq, runs, -⟩ := exists_runs made
  obtain ⟨enc, e, way⟩ := CompiledPattern.exists_made compiled_eq
  have stepwise := way.stepwise
  rw [runs.analysis_eq] at noBackrefs indifferent
  rw [search_eq_backtrack made unb compiled_eq (noBackrefs.steady _)] at got
  obtain ⟨a, inText, -, attempted, failed⟩ := Graph.exists_of_backtrack got
  by_cases boundary : text.IsBoundary a
  · obtain ⟨z, path, accepts, rfl⟩ := Graph.path_of_attempt attempted
    exact (accepts.among stepwise (Text.closed_isBoundary ok) boundary path).2
  · have earlier := Graph.isSome_attempt_of_inside stepwise noBackrefs indifferent ok inText
      boundary (.step stepwise.start_lt rfl) (Query.blank_among _ rfl)
      ((regex.asks text an sl).blank 0) (Option.isSome_of_eq_some attempted)
    have pos : 0 < a := by
      refine Nat.pos_of_ne_zero ?_
      rintro rfl
      exact boundary (Text.isBoundary_zero text)
    have none := failed 0 pos
    rw [Graph.origin] at none
    rw [none] at earlier
    simp at earlier

/-- All captured offsets are boundaries, or the match is an empty one inside a code point, which
only an unanchored search reports, and only for want of threads, after a backreference or where the
absence of a word boundary is asked for. Native code is taken for `Native.Compiled.runner`. -/
theorem search_boundaries (made : compile options = .ok regex)
    (valid : Utf8.valid text.toList = true) (anchor : Anchor) (slots : Nat) {captures : Captures}
    (found : (regex.search text anchor slots).result? = some captures) :
    captures.Among text.IsBoundary ∨
      anchor = .none ∧ (∃ middle, ¬text.IsBoundary middle ∧ captures.Among (· = middle)) ∧
        (options.maxThreads ≠ 0 ∨ ¬regex.analysis.toGraph.NoBackreferences ∨
          regex.analysis.toGraph.AsksNoWordBoundary) := by
  by_cases exceptional : options.maxThreads ≠ 0 ∨ ¬regex.analysis.toGraph.NoBackreferences ∨
      regex.analysis.toGraph.AsksNoWordBoundary
  · obtain ⟨compiled, compiled_eq, runs, -⟩ := exists_runs made
    obtain ⟨encoded, expr, way⟩ := CompiledPattern.exists_made compiled_eq
    obtain ⟨last, ⟨first, inText, anchored, path⟩, accepts, rfl⟩ := runs.reports found
    by_cases boundary : text.IsBoundary first
    · exact .inl (accepts.among way.stepwise (Text.closed_isBoundary valid) boundary path).2
    · refine .inr ⟨?_, ⟨first, boundary, ?_⟩, exceptional⟩
      · cases anchor with
        | none => rfl
        | start | both =>
          obtain rfl := anchored (by simp [Query.anchorsStart, asks, Anchor.flags])
          exact absurd (Text.isBoundary_zero text) boundary
      · exact (accepts.among way.stepwise (Text.closed_of_not_isBoundary valid boundary) rfl path).2
  · rw [not_or, not_or, not_not, not_not] at exceptional
    obtain ⟨unbounded, noBackrefs, indifferent⟩ := exceptional
    exact .inl (among_of_search made unbounded noBackrefs indifferent valid found)

theorem compile_interpreted (wf : Utf8.valid options.pattern = true)
    (unb : options.maxThreads = 0) (interpreted : options.native = false)
    {compiled : CompiledPattern} (acc : CompiledPattern.compile options.pattern = .ok compiled)
    {an : Analysis} (analyzed : compiled.analyze = .ok an) :
    compile options = .ok ⟨options.pattern, an, compiled.names, 0, .interpreter .disabled⟩ := by
  have faultless : options.fault? = none := by simp [Options.fault?, wf, unb]
  simp [compile, faultless, acc, analyzed, unb, interpreted, Engine.choose]

def accented : Options := { pattern := Bytes.ofString "é", native := false }

/-- An accented letter is found between code points. -/
theorem search_accented : ∃ regex, compile accented = .ok regex ∧
    Utf8.valid [0x61, 0xC3, 0xA9] = true ∧
    (regex.search #[0x61, 0xC3, 0xA9] .none 2).result? = some #[1, 3] ∧
    Captures.Among (Text.IsBoundary #[0x61, 0xC3, 0xA9]) #[1, 3] := by
  have encode_eq : Encoding.encode accented.pattern = .ok [0xC3, 0xA9] := by decide +kernel
  have parse_eq : Expr.parse [0xC3, 0xA9] = .ok (.literal [0xE9] {}) := by with_unfolding_all rfl
  have accepted : CompiledPattern.compile accented.pattern = .ok
      { automaton :=
          { insts := #[{ op := .fail }, { op := .byteRange, lo := 0xC3, hi := 0xC3, out := 3 },
              { op := .accept }, { op := .byteRange, lo := 0xA9, hi := 0xA9, out := 2 }]
            start := 1
            slots := 2 }
        overlay := []
        names := [""] } := by
    rw [CompiledPattern.compile_eq encode_eq parse_eq (by decide +kernel)]
    with_unfolding_all rfl
  have made := compile_interpreted (by decide +kernel) rfl rfl accepted rfl
  have valid : Utf8.valid [0x61, 0xC3, 0xA9] = true := by decide
  refine ⟨_, made, valid, by decide +kernel, ?_⟩
  refine (search_boundaries made valid .none 2 (by decide +kernel)).resolve_right ?_
  rintro ⟨-, ⟨middle, -, among⟩, -⟩
  have begins := among 0 1 rfl (by decide)
  have ends := among 1 3 rfl (by decide)
  omega

def awayFromWords : Options := { pattern := Bytes.ofString "\\B", native := false }

/-- Inside an accented letter, there is no word boundary: that is where the search ends. -/
theorem search_awayFromWords : ∃ regex, compile awayFromWords = .ok regex ∧
    (regex.search #[0x61, 0xC3, 0xA9] .none 2).result? = some #[2, 2] ∧
    ¬Text.IsBoundary #[0x61, 0xC3, 0xA9] 2 := by
  have encode_eq : Encoding.encode awayFromWords.pattern = .ok [0x5C, 0x42] := by decide +kernel
  have parse_eq : Expr.parse [0x5C, 0x42] = .ok (.assertion Condition.noWordBoundary) := by
    with_unfolding_all rfl
  have accepted : CompiledPattern.compile awayFromWords.pattern = .ok
      { automaton :=
          { insts :=
            #[{ op := .fail }, { op := .emptyWidth, arg := 32, out := 2 }, { op := .accept }]
            start := 1
            slots := 2 }
        overlay := []
        names := [""] } := by
    rw [CompiledPattern.compile_eq encode_eq parse_eq (by decide +kernel)]
    rfl
  exact ⟨_, compile_interpreted (by decide +kernel) rfl rfl accepted rfl, by decide +kernel,
    by decide +kernel⟩

end Regex

end Rematch
