import Rematch.Proofs.Extension.Sets
import Rematch.Proofs.Matching.Path

/-!
The instructions of a lowered step, and the extensions among them. They lead to each other or to the
exit of the step, and capture nothing. Of a class of code points in which no part of the reserved
block is without meaning, exactly the extensions that it encodes are found there, each once and
leading to the exit, and the other members are still read byte by byte.
-/

namespace Rematch

open List Codec Lowering

namespace Graph

variable {g : Graph} {q : Query} {b out pc : Nat} {a second : Point}

section

variable (recovered : g.Recovered)
include recovered

theorem Recovered.extensionsAt?_fork (fork : Fork g.automaton.insts b pc) :
    g.extensionsAt? pc = none := by
  rcases fork with here | ⟨_, _, -, here⟩ <;> exact recovered.extensionsAt?_eq_none here (by simp)

theorem Recovered.extensionsAt?_letter {u : Nat}
    (ch : Chain g.automaton.insts b out pc [letterTest u]) : g.extensionsAt? pc = none := by
  obtain ⟨t, r, n, tests_eq, here⟩ := ch.first
  cases tests_eq
  rw [recovered.extensionsAt?_eq here, Recovery.extensionsAt_of_not_lead
    (by simp [Recovery.isByte, letterTest, ByteTest.inst])]
  rfl

theorem Recovered.out_of_extension {ts : List ByteTest} (forms : TestsForms ts)
    (ch : Chain g.automaton.insts b out pc ts) {es : List Extension} {ext : Extension}
    (got : g.extensionsAt? pc = some es) (mem : ext ∈ es) : ext.out = out := by
  cases forms with
  | piece isPiece =>
    rw [recovered.extensionsAt?_head isPiece ch] at got
    obtain ⟨c, -, dec⟩ := (of_extensions? got).2 ext mem
    exact (of_extension? dec).2.2
  | letter => simp [recovered.extensionsAt?_letter ch] at got

theorem Recovered.extensionsAt?_inside {f bk : List ByteTest} (begun : f ≠ [])
    (forms : TestsForms (f ++ bk)) (ch : Chain g.automaton.insts b out pc bk) :
    g.extensionsAt? pc = none := by
  obtain ⟨t, r, n, rfl, here⟩ := ch.first
  obtain ⟨h, tl, rfl⟩ := exists_cons_of_ne_nil begun
  generalize tests_eq : (h :: tl) ++ t :: r = ts at forms
  have mem : t ∈ ts.tail := by simp [← tests_eq]
  cases forms with
  | piece isPiece => exact recovered.unmarked_tail isPiece t mem pc n here
  | letter => simp at mem

theorem Recovered.moves_of_alt {x x' : Nat}
    (here : g.automaton.insts[a.pc]? = some { op := .alt, out := x, out1 := x' })
    (move : g.Moves q a second) :
    second.offset = a.offset ∧ second.captures = a.captures ∧ (second.pc = x ∨ second.pc = x') := by
  have inst_eq := inst_of_getElem? here
  cases move.way with
  | extension got => simp [recovered.extensionsAt?_eq_none here (by simp)] at got
  | byte _ other | capture _ other => simp [inst_eq] at other
  | out => exact ⟨rfl, rfl, .inl (by simp [inst_eq])⟩
  | out1 => exact ⟨rfl, rfl, .inr (by simp [inst_eq])⟩

theorem Recovered.not_moves_of_fail (here : g.automaton.insts[a.pc]? = some { op := .fail }) :
    ¬g.Moves q a second := by
  intro move
  have inst_eq := inst_of_getElem? here
  cases move.way with
  | extension got => simp [recovered.extensionsAt?_eq_none here (by simp)] at got
  | byte _ other | capture _ other | out1 _ other => simp [inst_eq] at other
  | out _ hasExit => simp [inst_eq, Opcode.hasExit] at hasExit

end

/-- The form of a scalar value, or the rest of it, is read from an instruction on, and then the step
`out` follows. -/
def Toward (graph : Graph) (base out pc : Nat) : Prop :=
  ∃ start, ReadsForms graph.automaton.insts base out start ∧
    Part graph.automaton.insts base start pc

theorem Toward.cases (toward : g.Toward b out pc) (early : out < b) :
    Fork g.automaton.insts b pc ∨ ∃ f bk, TestsForms (f ++ bk) ∧
      Chain g.automaton.insts b out pc bk := by
  obtain ⟨i, ⟨ts, reader, forms⟩, part⟩ := toward
  obtain ⟨hs, parts⟩ := reader.hasParts (Int.ofNat_lt.mpr early)
  exact (parts.nodes pc part).imp_right fun ⟨f, bk, mem, ch, _⟩ => ⟨f, bk, forms _ mem, ch⟩

theorem Toward.op_ne_accept (toward : g.Toward b out pc) (early : out < b) :
    (g.inst pc).op ≠ .accept := by
  rcases toward.cases early with (here | ⟨_, _, -, here⟩) | ⟨f, bk, -, ch⟩
  · simp [inst_of_getElem? here]
  · simp [inst_of_getElem? here]
  · obtain ⟨t, r, x, -, here⟩ := ch.first
    simp [inst_of_getElem? here, ByteTest.inst]

theorem Toward.moves (toward : g.Toward b out a.pc) (early : out < b)
    (recovered : g.Recovered) (move : g.Moves q a second) : second.captures = a.captures ∧
      (second.pc = out ∨ b ≤ second.pc ∧ g.Toward b out second.pc) := by
  have further {n : Nat} (precedes : Precedes g.automaton.insts b a.pc n) :
      b ≤ n ∧ g.Toward b out n := by
    obtain ⟨i, reads, part⟩ := toward
    exact ⟨precedes.1, i, reads, part.tail precedes⟩
  rcases toward.cases early with (here | ⟨_, _, app, here⟩) | ⟨f, bk, forms, ch⟩
  · exact False.elim (recovered.not_moves_of_fail here move)
  · obtain ⟨-, kept, rfl | rfl⟩ := recovered.moves_of_alt here move
    · exact ⟨kept, .inr (further ⟨app.1, _, here, .inr ⟨rfl, .inl rfl⟩⟩)⟩
    · exact ⟨kept, .inr (further ⟨app.2, _, here, .inr ⟨rfl, .inr rfl⟩⟩)⟩
  · obtain ⟨t, r, x, -, here⟩ := ch.first
    have op : (g.inst a.pc).op = .byteRange := by rw [inst_of_getElem? here]; rfl
    cases move.way with
    | extension got mem =>
      refine ⟨rfl, .inl ?_⟩
      cases f with
      | nil => simp [recovered.out_of_extension forms ch got mem]
      | cons => simp [recovered.extensionsAt?_inside (by simp) forms ch] at got
    | byte =>
      refine ⟨rfl, ?_⟩
      cases ch with
      | last here => exact .inl (by simp [inst_of_getElem? here, ByteTest.inst])
      | more here app _ =>
        rw [inst_of_getElem? here]
        exact .inr (further ⟨app, _, here, .inl ⟨rfl, rfl⟩⟩)
    | capture _ other | out1 _ other => simp [op] at other
    | out _ _ other => exact absurd op other

end Graph

namespace Graph

variable {g : Graph} {b out pc : Nat} {bs : List Int} {bytes : Bytes}

/-- Some path from an instruction to `out` consumes the given bytes and comes only by instructions
from `base` on, and by none that is executed as extensions. -/
inductive Keeps (graph : Graph) (base out : Nat) : Nat → Bytes → Prop where
  | last {pc : Nat} {bytes : Bytes} (plain : graph.extensionsAt? pc = none)
      (edge : graph.automaton.Edge pc bytes out) : Keeps graph base out pc bytes
  | more {pc next : Nat} {bytes rest : Bytes} (plain : graph.extensionsAt? pc = none)
      (edge : graph.automaton.Edge pc bytes next) (appended : base ≤ next)
      (ahead : Keeps graph base out next rest) : Keeps graph base out pc (bytes ++ rest)

/-- The instructions from `pc` on have the extensions of the intervals, each once and leading to
`out`, and consume the forms of the other members. -/
structure Carries (graph : Graph) (base out pc : Nat) (bounds : List Int) : Prop where
  encoded : ∀ node exts, Part graph.automaton.insts base pc node →
    graph.extensionsAt? node = some exts → exts.Nodup ∧ ∀ ext ∈ exts, ext.out = out ∧
      ∃ code, Codec.carried bounds code = true ∧ Codec.extension? out code = some ext
  once : ∀ node node' exts exts', Part graph.automaton.insts base pc node →
    Part graph.automaton.insts base pc node' → graph.extensionsAt? node = some exts →
    graph.extensionsAt? node' = some exts' → (∃ ext ∈ exts, ext ∈ exts') → node = node'
  found : ∀ code, Codec.carried bounds code = true → ∃ node exts ext,
    Part graph.automaton.insts base pc node ∧ graph.extensionsAt? node = some exts ∧ ext ∈ exts ∧
      Codec.extension? out code = some ext
  kept : ∀ code, Utf8.isScalar code = true → ByteRange.inBounds bounds code = true →
    Codec.carried bounds code = false → graph.Keeps base out pc (Utf8.encode code)

theorem Keeps.of_chain {ts : List ByteTest} (ch : Chain g.automaton.insts b out pc ts)
    (passes : Passes ts bytes) (plain : g.extensionsAt? pc = none)
    (unmarked : ∀ t ∈ ts.tail, Lowering.Unmarked g t) : g.Keeps b out pc bytes := by
  induction ch generalizing bytes with
  | last here =>
    obtain ⟨c, none, acc, empty, rfl⟩ := forall₂_cons_left_iff.mp passes
    obtain rfl := forall₂_nil_left_iff.mp empty
    exact .last plain (by simpa [ByteTest.inst] using .byte here rfl acc)
  | more here app rest ih =>
    obtain ⟨c, others, acc, later, rfl⟩ := forall₂_cons_left_iff.mp passes
    obtain ⟨t, tl, n, rfl, there⟩ := rest.first
    have ahead := ih later (unmarked t (.head _) _ _ there) fun t mem => unmarked t (.tail _ mem)
    exact .more plain (by simpa [ByteTest.inst] using .byte here rfl acc) app ahead

theorem Keeps.of_chooses (recovered : g.Recovered) {h : Nat}
    (chooses : Chooses g.automaton.insts b pc h) (keeps : g.Keeps b out h bytes) :
    g.Keeps b out pc bytes := by
  induction chooses using Relation.ReflTransGen.head_induction_on with
  | refl => exact keeps
  | head step _ ih =>
    obtain ⟨app, x, here, op, leads⟩ := step
    have plain := recovered.extensionsAt?_eq_none here (by simp [op])
    rcases leads with leads | leads
    · have edge := Automaton.Edge.first here op
      rw [leads, Int.toNat_natCast] at edge
      exact .more plain edge app ih
    · have edge := Automaton.Edge.second here op
      rw [leads, Int.toNat_natCast] at edge
      exact .more plain edge app ih

section Pieces

variable {hs : List Nat} {pieces : List (Nat × Nat)} (recovered : g.Recovered)
  (isPieces : Codec.Pieces 0 bs pieces)
  (parts : HasParts g.automaton.insts b out pc hs
    (pieces.map fun p => (ByteRange.spelled p).map ByteTest.within))

include recovered isPieces parts

/-- Where there are extensions, a piece begins, and they are those of the piece. -/
theorem exists_piece_of_extensionsAt? {n : Nat} {es : List Extension}
    (part : Part g.automaton.insts b pc n) (got : g.extensionsAt? n = some es) :
    ∃ (i : Nat) (p : Nat × Nat), hs[i]? = some n ∧ pieces[i]? = some p ∧
      extensions? out p = some es := by
  rcases parts.nodes n part with fork | ⟨f, bk, mem, ch, eq⟩
  · simp [recovered.extensionsAt?_fork fork] at got
  obtain ⟨p, inPieces, tests_eq⟩ := mem_map.mp mem
  have forms : TestsForms (f ++ bk) := tests_eq ▸ .piece (isPieces.isPiece p inPieces)
  cases f with
  | cons => simp [recovered.extensionsAt?_inside (by simp) forms ch] at got
  | nil =>
    obtain ⟨i, le, rfl⟩ := mem_iff_getElem.mp (eq rfl)
    have chains := forall₂_map_right_iff.mp parts.chains
    have le' : i < pieces.length := chains.length_eq ▸ le
    refine ⟨i, pieces[i], getElem?_eq_getElem le, getElem?_eq_getElem le', ?_⟩
    exact (recovered.extensionsAt?_head (isPieces.isPiece _ (getElem_mem le'))
      (chains.get le le').2).symm.trans got

theorem exists_head {p : Nat × Nat} (mem : p ∈ pieces) :
    ∃ h, Chooses g.automaton.insts b pc h ∧ Chain g.automaton.insts b out h
        ((ByteRange.spelled p).map ByteTest.within) ∧ g.extensionsAt? h = extensions? out p := by
  obtain ⟨i, le, rfl⟩ := mem_iff_getElem.mp mem
  have chains := forall₂_map_right_iff.mp parts.chains
  obtain ⟨chooses, ch⟩ := chains.get (chains.length_eq ▸ le) le
  exact ⟨_, chooses, ch, recovered.extensionsAt?_head (isPieces.isPiece _ mem) ch⟩

theorem carries_of_pieces : g.Carries b out pc bs where
  encoded n es part got := by
    obtain ⟨i, p, -, there, exts_eq⟩ :=
      exists_piece_of_extensionsAt? recovered isPieces parts part got
    obtain ⟨nodup, codes⟩ := of_extensions? exts_eq
    refine ⟨nodup, fun ext mem => ?_⟩
    obtain ⟨c, lt, dec⟩ := codes ext mem
    refine ⟨(of_extension? dec).2.2, c, ?_, dec⟩
    rcases isPieces.side p (mem_of_getElem? there) with ⟨-, means⟩ | ⟨none, -⟩
    · exact (means c lt).2
    · simp [none] at exts_eq
  once n n' es es' part part' got got' common := by
    obtain ⟨ext, mem, mem'⟩ := common
    obtain ⟨i, p, here, there, exts_eq⟩ :=
      exists_piece_of_extensionsAt? recovered isPieces parts part got
    obtain ⟨i', p', here', there', exts_eq'⟩ :=
      exists_piece_of_extensionsAt? recovered isPieces parts part' got'
    obtain ⟨c, lt, dec⟩ := (of_extensions? exts_eq).2 ext mem
    obtain ⟨c', lt', dec'⟩ := (of_extensions? exts_eq').2 ext mem'
    obtain rfl : c = c' := (of_extension? dec).1.trans (of_extension? dec').1.symm
    obtain rfl := ByteRange.index_eq_of_ascending isPieces.ascending there there' lt lt'
    exact Option.some.inj (here.symm.trans here')
  found c held := by
    obtain ⟨res, inBounds⟩ := of_carried held
    rw [isReserved_iff] at res
    obtain ⟨p, mem, lt⟩ := isPieces.whole c (Utf8.isScalar_iff.mpr (by omega)) inBounds
    rcases isPieces.side p mem with ⟨inBlock, means⟩ | ⟨-, plain⟩
    · obtain ⟨h, chooses, -, head_eq⟩ := exists_head recovered isPieces parts mem
      obtain ⟨es, exts_eq⟩ := exists_extensions
        (fun c above below => (means c ⟨above, below⟩).1) out
      obtain ⟨ext, inExts, got⟩ := exists_of_mapM exts_eq c (mem_range'_1.mpr (by omega))
      rw [extensions?, if_pos inBlock, exts_eq] at head_eq
      exact ⟨h, es, ext, chooses.part, head_eq, inExts, got⟩
    · simp [(plain c lt).2] at held
  kept c scalar inBounds plain := by
    obtain ⟨p, mem, lt⟩ := isPieces.whole c scalar inBounds
    rcases isPieces.side p mem with ⟨-, means⟩ | ⟨none, -⟩
    · simp [(means c lt).2] at plain
    · obtain ⟨h, chooses, ch, head_eq⟩ := exists_head recovered isPieces parts mem
      have isPiece := isPieces.isPiece p mem
      refine .of_chooses recovered chooses (.of_chain ch ((passes_within _ _).mpr ?_)
        (head_eq.trans (none out)) (recovered.unmarked_tail isPiece))
      exact (isPiece.exact _).mpr ⟨c, lt, rfl⟩

end Pieces

variable (recovered : g.Recovered) (early : out < b)

include recovered early

theorem Recovered.carries (ord : Codec.Orderly 0 bs)
    (reads : Lowering.ReadsBounds g.automaton.insts b out pc bs) :
    g.Carries b out pc bs := by
  obtain ⟨products, products_eq, reader⟩ := reads
  obtain ⟨pieces, pieces_eq, isPieces⟩ := ord.pieces (Int.le_refl 0)
  cases products_eq.symm.trans pieces_eq
  rw [map_map] at reader
  obtain ⟨hs, parts⟩ := reader.hasParts (Int.ofNat_lt.mpr early)
  exact carries_of_pieces recovered isPieces parts

theorem Recovered.exists_backreference {cs : Unicode.CodeSet} (ord : cs.InOrder 0)
    (reads : Lowering.ReadsBounds g.automaton.insts b out pc cs.bounds)
    (meaningful : cs.holdsBlock = false → ∀ c, cs.contains c = true → isReserved c = true →
      Codec.Meaningful c)
    {n : Nat} (bounds : 0 < n ∧ n < 256) (refers : cs.refers n = true) :
    ∃ h es, g.extensionsAt? h = some es ∧ ⟨.backreference, n, out⟩ ∈ es := by
  obtain ⟨nd, es, ext, -, got, mem, ext_eq⟩ :=
    (recovered.carries early (ord.orderly meaningful (Int.le_refl 0)) reads).found _
      ((ord.carried_backreference bounds.2).mpr refers)
  have means : validArg .backreference n = true := decide_eq_true bounds.1
  rw [extension?_encode rfl bounds.2, if_pos means] at ext_eq
  cases ext_eq
  exact ⟨nd, es, got, mem⟩

theorem Recovered.carries_letter {u : Nat}
    (reads : Lowering.ReadsLetter g.automaton.insts b out pc u) :
    g.Carries b out pc (([u, u + 0x20].map Int.ofNat).flatMap fun c => [c, c]) := by
  obtain ⟨letter, reader⟩ := reads
  obtain ⟨hs, parts⟩ := reader.hasParts (Int.ofNat_lt.mpr early)
  have plain {n : Nat} (part : Part g.automaton.insts b pc n) : g.extensionsAt? n = none := by
    rcases parts.nodes n part with fork | ⟨f, bk, mem, ch, -⟩
    · exact recovered.extensionsAt?_fork fork
    have tests_eq := mem_singleton.mp mem
    cases f with
    | nil =>
      obtain rfl : bk = _ := tests_eq
      exact recovered.extensionsAt?_letter ch
    | cons t f =>
      have forms : TestsForms ((t :: f) ++ bk) := tests_eq ▸ .letter letter
      exact recovered.extensionsAt?_inside (by simp) forms ch
  have mems (cd : Nat) (held : ByteRange.inBounds
      (([u, u + 0x20].map Int.ofNat).flatMap fun c => [c, c]) cd = true) :
      [u, u + 0x20].contains cd = true := inBounds_flatMap _ cd ▸ held
  refine ⟨fun n es part got => ?_, fun n _ es _ part _ got => ?_, fun cd held => ?_,
    fun cd scalar held _ => ?_⟩
  · simp [plain part] at got
  · simp [plain part] at got
  · obtain ⟨res, inBounds⟩ := of_carried held
    have mb : cd = u ∨ cd = u + 0x20 := by simpa using mems cd inBounds
    rw [isReserved_iff] at res
    omega
  · cases parts.chains with | cons fst _ =>
    exact .of_chooses recovered fst.1 (.of_chain fst.2 ((passes_letterTest letter _).mpr
      ⟨cd, ⟨scalar, mems cd held⟩, rfl⟩) (plain fst.1.part) (by simp))

end Graph

theorem Codec.orderly_of_ascending {cs : List Nat} {m : Int} (small : ∀ c ∈ cs, c < 0xF0000)
    (ascending : cs.Pairwise (· < ·)) (above : ∀ c ∈ cs, m ≤ c) :
    Orderly m ((cs.map Int.ofNat).flatMap fun cd => [cd, cd]) := by
  induction cs generalizing m with
  | nil => trivial
  | cons c r ih =>
    obtain ⟨pre, ascending⟩ := pairwise_cons.mp ascending
    have maxCode_eq : (Unicode.maxCode : Int) = 0x10FFFF := rfl
    have low := small c (.head _)
    refine ⟨⟨above c (.head _), Int.le_refl _, ?_⟩, .inr fun j res lt => ?_,
      ih (fun j mem => small j (.tail _ mem)) ascending fun j mem => ?_⟩
    · simp only [Int.ofNat_eq_natCast]
      omega
    · rw [isReserved_iff] at res
      simp only [Int.ofNat_eq_natCast] at lt
      omega
    · have := pre j mem
      simp only [Int.ofNat_eq_natCast]
      omega

/-- The code points of a step are written as intervals in order, or as a single one. -/
def Step.Orderly : Step → Prop
  | .codes [bound] true _ => Codec.Orderly 0 [bound, bound]
  | step => Codec.Orderly 0 step.ranges

variable {sp : Step}

theorem Step.Orderly.ranges (ord : sp.Orderly) : Codec.Orderly 0 sp.ranges := by
  unfold Step.Orderly at ord
  split at ord
  · next m out =>
    have nonneg : 0 ≤ m := ord.1.1
    rw [Step.ranges, orbit, if_pos nonneg]
    rcases Unicode.CaseFolding.orbitOf_ascending m.toNat with alone | ⟨small, ascending⟩
    · rw [alone]
      simpa [Int.toNat_of_nonneg nonneg] using ord
    · exact orderly_of_ascending small ascending fun _ _ => Int.natCast_nonneg _
  · exact ord

theorem Lowering.Lowered.next?_of_part {I : Array Inst} {b pc n : Nat} {x : Inst}
    (lowered : Lowered I b pc sp) (part : Part I b pc n)
    (here : I[n]? = some x) (op : x.op = .byteRange) : ∃ out, sp.next? = some out := by
  cases control : sp.control? with
  | none =>
    have fits := lowered.fits
    cases sp <;> simp [Step.control?, Step.next?, Step.Fits] at control fits ⊢
  | some written =>
    -- a control step leads to other steps only
    obtain ⟨lt, other⟩ := inside_control control lowered.fits
    have there := lowered.control _ control
    rcases part.cases_head with rfl | ⟨nx, ⟨app, x', got, leads⟩, -⟩
    · cases here.symm.trans there
      exact absurd op other
    cases there.symm.trans got
    rcases leads with ⟨op', -⟩ | ⟨op', leads⟩
    · exact absurd op' other
    · have fst := lt.out (by simp [op', Opcode.hasExit])
      have snd := lt.out1 (.inl op')
      omega

/-- Extensions survive lowering. They are found only in the parts of steps that consume a code
point, and of such a step exactly those that its intervals encode without the whole reserved block,
each once and leading to where the step goes on; every other code point that it takes is consumed
byte by byte. -/
theorem Program.WellFormed.overlay_lower {program : Program} (wellFormed : program.WellFormed)
    (orderly : ∀ step ∈ program.steps, step.Orderly) :
    ∃ automaton overlay, program.lower = .ok automaton ∧
      Recovery.overlay? automaton = some overlay ∧
      (∀ index exts, (index, exts) ∈ overlay → ∃ (pc : Nat) (step : Step) (out node : Nat),
        program.steps[pc]? = some step ∧ step.next? = some out ∧ index = node ∧
          Part automaton.insts program.steps.size pc node) ∧
      ∀ (pc : Nat) (step : Step) (out : Nat), program.steps[pc]? = some step →
        step.next? = some out →
        Graph.Carries ⟨automaton, overlay⟩ program.steps.size out pc step.ranges := by
  obtain ⟨insts, lower_eq, room, accepted, lowered, covers⟩ := wellFormed.lower_eq
  obtain ⟨-, recovered⟩ := Graph.Recovered.of_validate accepted
  obtain ⟨overlay, overlay_eq, mem⟩ := Recovery.mem_overlay? recovered.whole
  rw [Recovery.overlay, overlay_eq, Option.getD_some] at recovered
  refine ⟨_, overlay, lower_eq, overlay_eq, fun index exts listed => ?_,
    fun pc step out found next => ?_⟩
  · obtain ⟨inst, there, encodes⟩ := (mem index exts).mp listed
    obtain ⟨node, rfl, here⟩ := Recovery.getElem?_of_inst? there
    have bound := (Array.getElem?_eq_some_iff.mp here).1
    obtain ⟨pc, inside, part⟩ : ∃ pc < program.steps.size,
      Part insts program.steps.size pc node := by
      by_cases early : node < program.steps.size
      · exact ⟨node, early, .refl⟩
      · exact covers node (by omega) bound
    have found := Array.getElem?_eq_getElem inside
    obtain ⟨out, next⟩ :=
      (lowered pc _ found).next?_of_part part here (Recovery.isByte_iff.mp encodes.1).1
    exact ⟨pc, _, out, node, found, next, rfl, part⟩
  · have early := (lowered pc step found).fits.next?_lt next
    rcases (lowered pc step found).code out next with reads | ⟨-, _, reads, same⟩
    · exact recovered.carries early (orderly step (Array.mem_of_getElem? found)).ranges reads
    · rw [same]
      exact recovered.carries_letter early reads

/-- A letter, or one of two categories. -/
def lettered : Program where
  steps := #[.codes [0x61, 0x61, 0xF0000, 0xF0001] false 1, .accept]
  start := 0
  slots := 2

theorem lettered_overlay : ∃ automaton overlay, lettered.lower = .ok automaton ∧
    Recovery.overlay? automaton = some overlay ∧
    Graph.Carries ⟨automaton, overlay⟩ 2 1 0 [0x61, 0x61, 0xF0000, 0xF0001] := by
  have wellFormed : lettered.WellFormed := ⟨by decide, by decide⟩
  have orderly : ∀ step ∈ lettered.steps, step.Orderly := by
    intro step listed
    rcases mem_pair.mp (Array.mem_toList_iff.mpr listed) with rfl | rfl
    · refine ⟨by decide, .inr fun code reserved inside => ?_, by decide,
        .inr fun code _ inside => ?_, trivial⟩
      · rw [Codec.isReserved_iff] at reserved
        omega
      · obtain rfl | rfl : code = 0xF0000 ∨ code = 0xF0001 := by omega
        · exact ⟨.category, 0, rfl, rfl⟩
        · exact ⟨.category, 1, rfl, rfl⟩
    · trivial
  obtain ⟨automaton, overlay, lower_eq, overlay_eq, -, carries⟩ := wellFormed.overlay_lower orderly
  exact ⟨automaton, overlay, lower_eq, overlay_eq, carries 0 _ 1 rfl rfl⟩

end Rematch
