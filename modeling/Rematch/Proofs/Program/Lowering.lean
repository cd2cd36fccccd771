import Rematch.Proofs.Program.Interpretation
import Rematch.Proofs.Program.Shape
import Rematch.Proofs.Unicode.Folding

/-!
Lowering succeeds on every well-formed program, keeps its control steps, and makes every other step
read the UTF-8 forms of the code points that it admits.
-/

namespace Rematch

open List Automaton ByteRange Lowering Step

namespace Lowering

/-- A byte string passes a list of tests, one for each byte. -/
def Passes (tests : List ByteTest) (bytes : Bytes) : Prop :=
  List.Forall₂ (fun test byte => test.accepts byte = true) tests bytes

/-- The instruction at `pc` reads the forms of the given scalar values and leads to `out`. -/
def ReadsCodes (insts : Array Inst) (base : Nat) (out : Int) (pc : Nat) (member : Nat → Bool) :
    Prop :=
  ∃ tests, Reader insts base out pc tests ∧ ∀ bytes, (∃ test ∈ tests, Passes test bytes) ↔
    ∃ code, (Utf8.isScalar code = true ∧ member code = true) ∧ bytes = Utf8.encode code

def letterTest (upper : Nat) : ByteTest :=
  ⟨⟨UInt8.ofNat (upper + 0x20), UInt8.ofNat (upper + 0x20)⟩, true⟩

/-- A list of tests for the forms of scalar values: of those of a piece, or of a letter of ASCII in
either case. -/
inductive TestsForms : List ByteTest → Prop where
  | piece {piece} (isPiece : ByteRange.IsPiece piece) :
      TestsForms ((ByteRange.spelled piece).map ByteTest.within)
  | letter {upper} (letter : 0x41 ≤ upper ∧ upper ≤ 0x5A) : TestsForms [letterTest upper]

/-- The instruction at `pc` reads a letter of ASCII in either case, and leads to `out`. -/
def ReadsLetter (insts : Array Inst) (base : Nat) (out : Int) (pc upper : Nat) : Prop :=
  (0x41 ≤ upper ∧ upper ≤ 0x5A) ∧ Reader insts base out pc [[letterTest upper]]

/-- The instruction at `pc` reads forms of scalar values and leads to `out`. -/
def ReadsForms (insts : Array Inst) (base : Nat) (out : Int) (pc : Nat) : Prop :=
  ∃ tests, Reader insts base out pc tests ∧ ∀ test ∈ tests, TestsForms test

variable {I : Array Inst} {b pc : Nat} {out : Int}

theorem passes_within (rs : List ByteRange) (bs : Bytes) :
    Passes (rs.map ByteTest.within) bs ↔ ByteRange.Matches rs bs := by
  simp [Passes, ByteRange.Matches, forall₂_map_left_iff, ByteTest.accepts, ByteTest.within,
    ByteTest.inst, Inst.accepts]

/-- The instruction at `pc` tries the products of the given intervals in order, and leads to
`out`. -/
def ReadsBounds (insts : Array Inst) (base : Nat) (out : Int) (pc : Nat) (bounds : List Int) :
    Prop :=
  ∃ products, ByteRange.sequencesOfBounds? bounds = some products ∧
    Reader insts base out pc (products.map (List.map ByteTest.within))

/-- A step was written: the instruction at `pc`, and what comes after it and all steps. -/
structure Written (insts : Array Inst) (base pc : Nat) (insts' : Array Inst) : Prop
    extends Writes insts pc insts' where
  whole : Sealed insts'
  covers : ∀ node, insts.size ≤ node → node < insts'.size → Part insts' base pc node

variable {x : Inst} {bs : List Int} {u : Nat} {sp : Step} {A : Automaton}

theorem Written.set (whole : Sealed I) (lt : x.Inside I.size) :
    Written I b pc (I.setIfInBounds pc x) where
  toWrites := .set _ _ _
  whole := whole.setIfInBounds lt
  covers n above below := by
    rw [Array.size_setIfInBounds] at below
    omega

theorem bounds?_reads (inRange : ∀ m ∈ bs, 0 ≤ m ∧ m ≤ Unicode.maxCode)
    (whole : Sealed I) (lt : 0 ≤ out ∧ out < b) (room : b ≤ I.size) (pre : pc < b) :
    ∃ I', bounds? I pc bs out = some I' ∧ Written I b pc I' ∧ ReadsBounds I' b out pc bs := by
  obtain ⟨products, got, forms, -⟩ := sequencesOfBounds?_covers inRange
  obtain ⟨reader, covers⟩ := @products_reader I b pc out products
    (fun _ mem => forms.ne_nil mem) room pre
  exact ⟨Lowering.products I pc out products, by simp [bounds?, got],
    ⟨products_writes _ _ _ _, products_sealed whole ⟨lt.1, by omega⟩ pc _, covers⟩, products, got,
    reader⟩

section

variable (reads : ReadsBounds I b out pc bs) (inRange : ∀ m ∈ bs, 0 ≤ m ∧ m ≤ Unicode.maxCode)

include reads inRange

theorem ReadsBounds.readsCodes : ReadsCodes I b out pc (inBounds bs) := by
  obtain ⟨products, got, reader⟩ := reads
  obtain ⟨products', got', covers, -⟩ := sequencesOfBounds?_covers inRange
  cases got.symm.trans got'
  refine ⟨_, reader, fun bytes => ?_⟩
  rw [← covers bytes]
  simp [passes_within]

theorem ReadsBounds.readsForms : ReadsForms I b out pc := by
  obtain ⟨products, got, reader⟩ := reads
  obtain ⟨products', got', -, isPiece⟩ := sequencesOfBounds?_covers inRange
  cases got.symm.trans got'
  refine ⟨_, reader, fun t mem => ?_⟩
  obtain ⟨product, inProducts, rfl⟩ := mem_map.mp mem
  obtain ⟨p, proper, rfl⟩ := isPiece product inProducts
  exact .piece proper

end

theorem inBounds_flatMap (cs : List Nat) (c : Nat) :
    inBounds ((cs.map Int.ofNat).flatMap fun cd => [cd, cd]) c = cs.contains c := by
  induction cs with
  | nil => rfl
  | cons h r ih =>
    simp only [map_cons, flatMap_cons, cons_append, nil_append,
      inBounds, ih, contains_cons]
    congr 1
    rw [Bool.eq_iff_iff]
    simp only [Int.ofNat_eq_natCast, Bool.and_eq_true, decide_eq_true_eq, beq_iff_eq]
    omega

theorem accepts_letterTest {b : UInt8} (letter : 0x41 ≤ u ∧ u ≤ 0x5A) :
    (letterTest u).accepts b = true ↔ b.toNat = u ∨ b.toNat = u + 0x20 := by
  have lower : (UInt8.ofNat (u + 0x20)).toNat = u + 0x20 :=
    UInt8.toNat_ofNat_of_lt (by change _ < 256; omega)
  simp only [letterTest, ByteTest.accepts, ByteTest.inst, Inst.accepts, if_true, Bool.and_eq_true,
    decide_eq_true_eq, UInt8.le_iff_toNat_le, lower]
  unfold Inst.lowerCase
  split
  · next range =>
    simp only [Bool.and_eq_true, decide_eq_true_eq, UInt8.le_iff_toNat_le] at range
    rw [UInt8.toNat_add]
    simp only [UInt8.reduceToNat] at range ⊢
    omega
  · next range =>
    simp only [Bool.and_eq_true, decide_eq_true_eq, UInt8.le_iff_toNat_le] at range
    simp only [UInt8.reduceToNat] at range
    omega

theorem passes_letterTest (letter : 0x41 ≤ u ∧ u ≤ 0x5A) (bs : Bytes) : Passes [letterTest u] bs ↔
      ∃ c, (Utf8.isScalar c = true ∧ [u, u + 0x20].contains c = true) ∧ bs = Utf8.encode c := by
  have encode (c : Nat) (ascii : c < 0x80) : Utf8.encode c = [UInt8.ofNat c] := by
    rw [form_single.encode c (by omega) (by omega), spread, Nat.zero_add]
  constructor
  · intro passed
    obtain ⟨b, none, acc, empty, rfl⟩ := forall₂_cons_left_iff.mp passed
    obtain rfl := forall₂_nil_left_iff.mp empty
    have eq := (accepts_letterTest letter).mp acc
    refine ⟨b.toNat, ⟨Utf8.isScalar_iff.mpr (by omega), by simpa using eq⟩, ?_⟩
    rw [encode b.toNat (by omega), UInt8.ofNat_toNat]
  · rintro ⟨c, ⟨-, mem⟩, rfl⟩
    have eq : c = u ∨ c = u + 0x20 := by simpa using mem
    have toNat : (UInt8.ofNat c).toNat = c := UInt8.toNat_ofNat_of_lt (by change _ < 256; omega)
    rw [encode c (by omega)]
    exact .cons ((accepts_letterTest letter).mpr (by rwa [toNat])) .nil

theorem letter_reader (letter : 0x41 ≤ u ∧ u ≤ 0x5A) (room : pc < I.size) :
    Reader (I.setIfInBounds pc
        { op := .byteRange, lo := lowByte ((u + 0x20 : Nat) : Int),
          hi := lowByte ((u + 0x20 : Nat) : Int), fold := true, out })
      b out pc [[letterTest u]] := by
  have byte_eq : lowByte ((u + 0x20 : Nat) : Int) = UInt8.ofNat (u + 0x20) := by
    rw [lowByte, Int.emod_eq_of_lt (by omega) (by omega), Int.toNat_natCast]
  rw [byte_eq]
  exact .chain (.last (Array.getElem?_setIfInBounds_self_of_lt room))

theorem TestsForms.exists_code {ts : List ByteTest} {bs : Bytes} (forms : TestsForms ts)
    (passes : Passes ts bs) : ∃ c, Utf8.isScalar c = true ∧ bs = Utf8.encode c := by
  cases forms with
  | piece isPiece =>
    obtain ⟨c, ⟨above, below⟩, eq⟩ := (isPiece.exact bs).mp ((passes_within _ _).mp passes)
    exact ⟨c, isPiece.scalar c above below, eq⟩
  | letter letter =>
    obtain ⟨c, ⟨scalar, -⟩, eq⟩ := (passes_letterTest letter bs).mp passes
    exact ⟨c, scalar, eq⟩

theorem folded?_reads {c : Int}
    (inRange : ∀ m ∈ (orbit c).flatMap fun c => [c, c],
      0 ≤ m ∧ m ≤ Unicode.maxCode)
    (whole : Sealed I) (lt : 0 ≤ out ∧ out < b) (room : b ≤ I.size)
    (pre : pc < b) :
    ∃ I', folded? I pc c out = some I' ∧ Written I b pc I' ∧
      (ReadsBounds I' b out pc ((orbit c).flatMap fun c => [c, c]) ∨
        ∃ u, ReadsLetter I' b out pc u ∧
          orbit c = [u, u + 0x20].map Int.ofNat) := by
  obtain ⟨I', got, wr, reads⟩ := bounds?_reads inRange whole lt room pre
  unfold folded?
  split
  · next upper lower pair =>
    split
    · next ascii =>
      unfold orbit at pair
      split at pair
      · obtain ⟨u, r, mems, rfl, tail⟩ := map_eq_cons_iff.mp pair
        obtain ⟨lower, none, rfl, rfl, empty⟩ := map_eq_cons_iff.mp tail
        obtain rfl := map_eq_nil_iff.mp empty
        simp only [Int.ofNat_eq_natCast] at ascii
        obtain ⟨above, below, rfl⟩ := Unicode.CaseFolding.orbitOf_pair mems (by omega) (by omega)
        have lt' : 0 ≤ out ∧ out < I.size := by omega
        refine ⟨_, rfl, .set whole ⟨fun _ => lt', by simp, by simp⟩, .inr ⟨u, ⟨⟨above, below⟩,
          letter_reader ⟨above, below⟩ (Nat.lt_of_lt_of_le pre room)⟩, ?_⟩⟩
        rw [orbit, if_pos ‹_›, mems]
      · simp at pair
    · rw [pair] at got
      exact ⟨I', got, wr, .inl reads⟩
  · exact ⟨I', got, wr, .inl reads⟩

/-- The instruction at `pc` does what the step does. -/
structure Lowered (insts : Array Inst) (base pc : Nat) (step : Step) : Prop where
  fits : step.Fits base
  control : ∀ inst, step.control? = some inst → insts[pc]? = some inst
  code : ∀ out : Nat, step.next? = some out → ReadsBounds insts base out pc step.ranges ∨
    step.intervals? = none ∧ ∃ upper, ReadsLetter insts base out pc upper ∧
      step.ranges = ([upper, upper + 0x20].map Int.ofNat).flatMap fun code => [code, code]

theorem ReadsCodes.congr {m o : Nat → Bool} (reads : ReadsCodes I b out pc m)
    (eq : ∀ c, Utf8.isScalar c = true → m c = o c) : ReadsCodes I b out pc o := by
  obtain ⟨ts, reader, covers⟩ := reads
  refine ⟨ts, reader, fun bs => (covers bs).trans ?_⟩
  refine exists_congr fun c => and_congr_left fun _ => and_congr_right fun scalar => ?_
  rw [eq c scalar]

theorem inside_control (control : sp.control? = some x) (fits : sp.Fits b) :
    x.Inside b ∧ x.op ≠ .byteRange := by
  cases sp <;> simp only [control?, Option.some.injEq, reduceCtorEq] at control <;>
    subst control <;> simp only [Step.Fits] at fits <;>
    refine ⟨⟨?_, ?_, ?_⟩, ?_⟩ <;> simp [Opcode.hasExit, fits]

theorem inBounds_same (m : Int) (c : Nat) : inBounds [m, m] c = (m == c) := by
  rw [Bool.eq_iff_iff]
  simp only [inBounds, Bool.or_false, Bool.and_eq_true, decide_eq_true_eq, beq_iff_eq]
  omega

theorem ranges_le (fits : sp.Fits b) : ∀ m ∈ sp.ranges, 0 ≤ m ∧ m ≤ Unicode.maxCode := by
  cases sp with
  | codes bs fold x =>
    have inRange := fits.2
    match bs, fold with
    | [c], true =>
      intro m mem
      obtain ⟨code_nonneg, code_le⟩ := inRange c (.head _)
      obtain ⟨mb, got, bound_eq⟩ := mem_flatMap.mp mem
      rw [orbit, if_pos code_nonneg] at got
      obtain ⟨member, inOrbit, rfl⟩ := mem_map.mp got
      obtain rfl : m = member := by simpa using bound_eq
      have le := Unicode.CaseFolding.orbitOf_le (show c.toNat ≤ Unicode.maxCode by omega) inOrbit
      omega
    | [c], false => simpa [Step.ranges, Step.intervals?] using inRange
    | [], true | [], false | _ :: _ :: _, true | _ :: _ :: _, false => exact inRange
  | code parts x =>
    match parts with
    | [] => exact False.elim (fits.2.1 rfl)
    | c :: r => simpa [Step.ranges, Step.intervals?] using fits.2.2 c (.head _)
  | anyCode | anyCodeButNewline => simp [Step.ranges, Step.intervals?, Unicode.maxCode]
  | _ => simp [Step.ranges, Step.intervals?]

theorem inBounds_ranges (fits : sp.Fits b) {x : Nat}
    (next : sp.next? = some x) {c : Nat} (scalar : Utf8.isScalar c = true) :
    inBounds sp.ranges c = sp.admits c := by
  have maxCode_eq : (Unicode.maxCode : Int) = 0x10FFFF := rfl
  rw [Utf8.isScalar_iff] at scalar
  cases sp with
  | codes bs fold x =>
    match bs, fold with
    | [m], true =>
      rw [Step.ranges, orbit, if_pos (fits.2 m (.head _)).1]
      exact inBounds_flatMap _ c
    | [m], false => exact inBounds_same m c
    | [], true | [], false | _ :: _ :: _, true | _ :: _ :: _, false => rfl
  | code parts x =>
    match parts with
    | [] => exact False.elim (fits.2.1 rfl)
    | p :: r => exact inBounds_same p c
  | anyCode x =>
    simp only [Step.ranges, Step.intervals?, Option.getD_some, ByteRange.inBounds, Step.admits,
      Bool.or_false, Bool.and_eq_true, decide_eq_true_eq]
    omega
  | anyCodeButNewline x =>
    rw [Bool.eq_iff_iff]
    simp only [Step.ranges, Step.intervals?, Option.getD_some, ByteRange.inBounds, Step.admits,
      Bool.or_false, Bool.and_eq_true, Bool.or_eq_true, decide_eq_true_eq, bne_iff_ne]
    omega
  | _ => simp [Step.next?] at next

namespace Lowered

variable {sp : Step} (lowered : Lowered I b pc sp)

include lowered

theorem intervals (out : Nat) (bs : List Int) (next : sp.next? = some out)
    (mem : sp.intervals? = some bs) : ReadsBounds I b out pc bs := by
  rcases lowered.code out next with reads | ⟨none, -⟩
  · unfold Step.ranges at reads
    split at reads
    · simp [Step.intervals?] at mem
    · simpa [mem] using reads
  · simp [none] at mem

theorem reads (out : Nat) (next : sp.next? = some out) : ReadsCodes I b out pc sp.admits := by
  suffices reads : ReadsCodes I b out pc (inBounds sp.ranges) from
    reads.congr fun c scalar => inBounds_ranges lowered.fits next scalar
  rcases lowered.code out next with reads | ⟨-, u, ⟨letter, reader⟩, ranges_eq⟩
  · exact reads.readsCodes (ranges_le lowered.fits)
  · refine ⟨_, reader, fun bs => ?_⟩
    rw [ranges_eq]
    simp only [inBounds_flatMap, ← passes_letterTest letter, mem_singleton, exists_eq_left]

theorem forms (out : Nat) (next : sp.next? = some out) : ReadsForms I b out pc := by
  rcases lowered.code out next with reads | ⟨-, u, ⟨letter, reader⟩, -⟩
  · exact reads.readsForms (ranges_le lowered.fits)
  · exact ⟨_, reader, by simpa using .letter letter⟩

theorem of_writes {I' : Array Inst} {j : Nat} (writes : Writes I j I')
    (apart : pc ≠ j) (pre : j < b) : Lowered I' b pc sp := by
  have kept (i : Nat) (x : Inst) (place : i = pc ∨ b ≤ i)
      (got : I[i]? = some x) : I'[i]? = some x := by
    obtain ⟨le, -⟩ := Array.getElem?_eq_some_iff.mp got
    rw [writes.kept i le (by omega), got]
  refine ⟨lowered.fits, fun x control => kept pc x (.inl rfl) (lowered.control x control),
    fun out next => (lowered.code out next).imp ?_ (And.imp_right ?_)⟩
  · rintro ⟨products, got, reader⟩
    exact ⟨products, got, reader.mono kept⟩
  · rintro ⟨u, ⟨letter, reader⟩, ranges_eq⟩
    exact ⟨u, ⟨letter, reader.mono kept⟩, ranges_eq⟩

end Lowered

theorem control_lowered (control : sp.control? = some x)
    (fits : sp.Fits b) (whole : Sealed I) (room : b ≤ I.size) (pre : pc < b) :
    ∃ I', step I pc sp = .ok I' ∧ Written I b pc I' ∧ Lowered I' b pc sp := by
  obtain ⟨lt, -⟩ := inside_control control fits
  obtain ⟨noNext, step_eq⟩ : sp.next? = none ∧
      step I pc sp = .ok (I.setIfInBounds pc x) := by
    cases sp <;> simp only [control?, Option.some.injEq, reduceCtorEq] at control <;>
      subst control <;> exact ⟨rfl, rfl⟩
  refine ⟨_, step_eq, .set whole (lt.mono room), fits, fun o eq => ?_, by simp [noNext]⟩
  rw [control] at eq
  rw [Array.getElem?_setIfInBounds_self_of_lt (Nat.lt_of_lt_of_le pre room), eq]

theorem step_lowered (fits : sp.Fits b) (whole : Sealed I) (room : b ≤ I.size) (pre : pc < b) :
    ∃ I', step I pc sp = .ok I' ∧ Written I b pc I' ∧ Lowered I' b pc sp := by
  -- all but a folded code are read as intervals of codes
  have intervals {x : Nat} (next : sp.next? = some x)
      (step_eq : step I pc sp = step.orMalformed (bounds? I pc sp.ranges x)) :
      ∃ I', step I pc sp = .ok I' ∧ Written I b pc I' ∧ Lowered I' b pc sp := by
    have lt := fits.next?_lt next
    obtain ⟨I', got, wr, reads⟩ :=
      bounds?_reads (ranges_le fits) whole ⟨Int.natCast_nonneg x, by omega⟩ room pre
    refine ⟨I', by rw [step_eq, got]; rfl, wr, fits, fun ins control => ?_, ?_⟩
    · cases sp <;> simp [Step.next?, Step.control?] at next control
    · intro out eq
      rw [next] at eq
      cases eq
      exact .inl reads
  cases sp with
  | alt | altMatch | capture | emptyWidth | accept | fail | nop =>
    exact control_lowered rfl fits whole room pre
  | unsupported => exact False.elim fits
  | codes bs fold x =>
    rcases bs with - | ⟨c, - | _⟩
    · cases fold <;> exact intervals rfl rfl
    · cases fold with
      | false => exact intervals rfl rfl
      | true =>
        obtain ⟨I', got, wr, reads⟩ := folded?_reads (ranges_le fits) whole
          (show (0 : Int) ≤ x ∧ (x : Int) < b by have := fits.1; omega) room pre
        refine ⟨I', by rw [step, got]; rfl, wr, fits, by simp [control?], ?_⟩
        rintro _ ⟨⟩
        refine reads.imp_right ?_
        rintro ⟨u, letter, orbit_eq⟩
        exact ⟨rfl, u, letter, by rw [Step.ranges, orbit_eq]⟩
    · cases fold <;> exact intervals rfl rfl
  | code parts x =>
    cases parts with
    | nil => exact False.elim (fits.2.1 rfl)
    | cons => exact intervals rfl rfl
  | anyCode | anyCodeButNewline => exact intervals rfl rfl

theorem stepsFrom_lowered {k : List Step} (fits : ∀ sp ∈ k, sp.Fits b)
    (whole : Sealed I) (room : b ≤ I.size) (last : pc + k.length ≤ b) :
    ∃ I', stepsFrom I pc k = .ok I' ∧ b ≤ I'.size ∧ Sealed I' ∧
      (∀ i sp, k[i]? = some sp → Lowered I' b (pc + i) sp) ∧
      (∀ n, I.size ≤ n → n < I'.size → ∃ i < k.length, Part I' b (pc + i) n) ∧
      ∀ i < pc, ∀ sp, Lowered I b i sp → Lowered I' b i sp ∧ ∀ n, Part I b i n → Part I' b i n := by
  induction k generalizing I pc with
  | nil => exact ⟨I, rfl, room, whole, by simp, fun n above below => by omega,
      fun _ _ _ lowered => ⟨lowered, fun _ => id⟩⟩
  | cons a r ih =>
    rw [length_cons] at last
    have pre : pc < b := by omega
    obtain ⟨m, first_eq, wr, lowered⟩ := step_lowered (fits a (.head _)) whole room pre
    obtain ⟨I', req, room', whole', others, covers, kept⟩ :=
      ih (fun sp mem => fits sp (.tail _ mem)) wr.whole
        (Nat.le_trans room wr.size_le) (show pc + 1 + r.length ≤ b by omega)
    obtain ⟨lowered', parts⟩ := kept pc (Nat.lt_succ_self _) a lowered
    refine ⟨I', by simp [stepsFrom, first_eq, req], room', whole', ?_, ?_, ?_⟩
    · intro i sp got
      cases i with
      | zero =>
        obtain rfl : a = sp := by simpa using got
        exact lowered'
      | succ i =>
        have later := others i sp (by simpa using got)
        rwa [Nat.add_assoc, Nat.add_comm 1] at later
    · intro n above below
      by_cases early : n < m.size
      · exact ⟨0, by simp, parts n (wr.covers n above early)⟩
      · obtain ⟨i, le, part⟩ := covers n (by omega) below
        exact ⟨i + 1, by simpa using le, by rwa [Nat.add_comm i, ← Nat.add_assoc]⟩
    · intro i earlier sp was
      have apart : i ≠ pc := by omega
      obtain ⟨is, parts⟩ := kept i (by omega) sp (was.of_writes wr.toWrites apart pre)
      refine ⟨is, fun n part => parts n (part.mono fun j x place got => ?_)⟩
      obtain ⟨le, -⟩ := Array.getElem?_eq_some_iff.mp got
      rw [wr.kept j le (by omega), got]

theorem faultAt?_eq_none (lt : x.Inside A.insts.size) : A.faultAt? pc x = none := by
  have exit (hasExit : x.op.hasExit = true) : A.inside x.out = true := by
    simpa [inside] using lt.out hasExit
  have secondExit (alt : x.op = .alt ∨ x.op = .altMatch) : A.inside x.out1 = true := by
    simpa [inside] using lt.out1 alt
  have known := lt.known
  unfold faultAt?
  cases op : x.op <;> simp_all [Opcode.hasExit]

theorem firstFault?_eq_none {I : List Inst} (lt : ∀ x ∈ I, x.Inside A.insts.size) :
    A.firstFault? pc I = none := by
  induction I generalizing pc with
  | nil => rfl
  | cons x r ih =>
    rw [firstFault?, faultAt?_eq_none (lt x (.head _))]
    exact ih fun o mem => lt o (.tail _ mem)

theorem Sealed.validate (whole : Sealed A.insts) (start : 0 ≤ A.start ∧ A.start < A.insts.size) :
    A.validate = .ok () := by
  have ne : A.insts.isEmpty = false := by
    rw [Array.isEmpty_eq_false_iff, ← Array.size_pos_iff]
    omega
  have faultless : A.firstFault? 0 A.insts.toList = none := by
    refine firstFault?_eq_none fun x mem => ?_
    obtain ⟨i, got⟩ := mem_iff_getElem?.mp mem
    exact whole i x (by simpa using got)
  simp [Automaton.validate, ne, faultless, Automaton.inside, start]

end Lowering

namespace Program

theorem WellFormed.lower_eq {P : Program} (wf : P.WellFormed) :
    ∃ I, P.lower = .ok ⟨I, P.start, max P.slots 2⟩ ∧ P.steps.size ≤ I.size ∧
      validate ⟨I, P.start, max P.slots 2⟩ = .ok () ∧
      (∀ pc sp, P.steps[pc]? = some sp → Lowering.Lowered I P.steps.size pc sp) ∧
      ∀ n, P.steps.size ≤ n → n < I.size →
        ∃ pc < P.steps.size, Lowering.Part I P.steps.size pc n := by
  have blank : Lowering.Sealed (Array.replicate P.steps.size {}) := by
    intro i x got
    obtain ⟨le, rfl⟩ := Array.getElem?_eq_some_iff.mp got
    rw [Array.getElem_replicate]
    exact Inst.inside_fail _
  obtain ⟨I, got, room, whole, lowered, covers, -⟩ :=
    stepsFrom_lowered
      (fun sp mem => wf.fits sp (Array.mem_toList_iff.mp mem)) blank (by simp)
      (show 0 + P.steps.toList.length ≤ P.steps.size by simp)
  have start := wf.start
  have acc : validate ⟨I, P.start, max P.slots 2⟩ = .ok () :=
    Lowering.Sealed.validate whole (by dsimp only; omega)
  refine ⟨I, ?_, room, acc, fun pc sp got => ?_, by simpa using covers⟩
  · have ne : P.steps.isEmpty = false := by
      rw [Array.isEmpty_eq_false_iff, ← Array.size_pos_iff]
      omega
    simp [lower, ne, got, acc]
  · simpa using lowered pc sp (by simpa using got)

end Program

namespace Automaton

/-- An instruction leads to another and consumes the given bytes. -/
inductive Edge (automaton : Automaton) : Nat → Bytes → Nat → Prop where
  | first {pc inst} (here : automaton.insts[pc]? = some inst)
      (op : inst.op = .alt) : Edge automaton pc [] inst.out.toNat
  | second {pc inst} (here : automaton.insts[pc]? = some inst)
      (op : inst.op = .alt) : Edge automaton pc [] inst.out1.toNat
  | byte {pc inst byte} (here : automaton.insts[pc]? = some inst)
      (op : inst.op = .byteRange) (accepted : inst.accepts byte = true) :
      Edge automaton pc [byte] inst.out.toNat

/-- Some path from an instruction to `out` consumes the given bytes and comes by instructions from
`base` on only. -/
inductive Consumes (automaton : Automaton) (base out : Nat) : Nat → Bytes → Prop where
  | last {pc bytes} (edge : automaton.Edge pc bytes out) :
      Consumes automaton base out pc bytes
  | more {pc next bytes rest} (edge : automaton.Edge pc bytes next)
      (appended : base ≤ next) (ahead : Consumes automaton base out next rest) :
      Consumes automaton base out pc (bytes ++ rest)

end Automaton

namespace Lowering

variable {A : Automaton} {base b x pc : Nat} {bs : Bytes}

theorem edge_of_byteRange {n : Nat} {x : Inst} (here : A.insts[pc]? = some x)
    (op : x.op = .byteRange) (edge : A.Edge pc bs n) :
    n = x.out.toNat ∧ ∃ b, bs = [b] ∧ x.accepts b = true := by
  cases edge with
  | first got alt | second got alt =>
    cases here.symm.trans got
    simp [op] at alt
  | byte got _ acc =>
    cases here.symm.trans got
    exact ⟨rfl, _, rfl, acc⟩

theorem edge_of_alt {n a b : Nat}
    (here : A.insts[pc]? = some { op := .alt, out := a, out1 := b }) (edge : A.Edge pc bs n) :
    bs = [] ∧ (n = a ∨ n = b) := by
  cases edge with
  | first got alt =>
    cases here.symm.trans got
    exact ⟨rfl, .inl rfl⟩
  | second got alt =>
    cases here.symm.trans got
    exact ⟨rfl, .inr rfl⟩
  | byte got op _ =>
    cases here.symm.trans got
    simp at op

theorem Chain.consumes_iff {ts : List ByteTest} (early : x < base)
    (ch : Chain A.insts base x pc ts) (bs : Bytes) : A.Consumes base x pc bs ↔ Passes ts bs := by
  induction ch generalizing bs with
  | @last pc t here =>
    have out_toNat : (t.inst x).out.toNat = x := Int.toNat_natCast x
    constructor
    · intro consumes
      cases consumes with
      | last edge =>
        obtain ⟨-, b, rfl, acc⟩ := edge_of_byteRange here rfl edge
        exact .cons acc .nil
      | more edge app ahead =>
        obtain ⟨rfl, -⟩ := edge_of_byteRange here rfl edge
        omega
    · intro passes
      obtain ⟨b, none, acc, empty, rfl⟩ := forall₂_cons_left_iff.mp passes
      obtain rfl := forall₂_nil_left_iff.mp empty
      exact .last (out_toNat ▸ .byte here rfl acc)
  | @more pc n t ts here app rest ih =>
    have out_toNat : (t.inst n).out.toNat = n := Int.toNat_natCast n
    constructor
    · intro consumes
      cases consumes with
      | last edge =>
        obtain ⟨eq, -⟩ := edge_of_byteRange here rfl edge
        omega
      | more edge app ahead =>
        obtain ⟨rfl, b, rfl, acc⟩ := edge_of_byteRange here rfl edge
        exact .cons acc ((ih _).mp ahead)
    · intro passes
      obtain ⟨b, others, acc, later, rfl⟩ := forall₂_cons_left_iff.mp passes
      have edge : A.Edge pc [b] n := out_toNat ▸ .byte here rfl acc
      exact .more edge app ((ih _).mpr later)

theorem consumes_alt {a b : Nat} (early : x < base)
    (here : A.insts[pc]? = some { op := .alt, out := a, out1 := b })
    (app : base ≤ a) (app' : base ≤ b) (bs : Bytes) :
    A.Consumes base x pc bs ↔ A.Consumes base x a bs ∨ A.Consumes base x b bs := by
  constructor
  · intro consumes
    cases consumes with
    | last edge =>
      obtain ⟨-, eq⟩ := edge_of_alt here edge
      omega
    | more edge _ ahead =>
      obtain ⟨rfl, rfl | rfl⟩ := edge_of_alt here edge
      · exact .inl ahead
      · exact .inr ahead
  · rintro (ahead | ahead)
    · exact .more (.first here rfl) app ahead
    · exact .more (.second here rfl) app' ahead

theorem Reader.consumes_iff {ts : List (List ByteTest)} (early : x < b)
    (reader : Reader A.insts b x pc ts) (bs : Bytes) :
    A.Consumes b x pc bs ↔ ∃ t ∈ ts, Passes t bs := by
  induction reader generalizing bs with
  | fail here =>
    simp only [not_mem_nil, false_and, exists_false, iff_false]
    intro consumes
    cases consumes with
    | last edge | more edge =>
      cases edge with
      | first got op | second got op | byte got op =>
        cases here.symm.trans got
        simp at op
  | chain ch => simp [ch.consumes_iff early]
  | pair here app app' ch ch' =>
    simp [consumes_alt early here app app', ch.consumes_iff early, ch'.consumes_iff early]
  | choice here app _ app' _ ch _ ih =>
    simp [consumes_alt early here app app', ch.consumes_iff early, ih]

end Lowering

end Rematch
