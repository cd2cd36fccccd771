import Rematch.Proofs.Matching.Preference
import Rematch.Proofs.Program.Lowering

/-!
A program and its automaton search alike. At the begin of a code point the automaton is at a step of
the program; what lowering appended takes it to the next step at the end of the code point, or
nowhere. The path since the last code point is the same on both sides, so branches are cut alike.
-/

namespace Rematch

open List Rematch.Graph Utf8

namespace Condition

def Side (byte : UInt8) (code : Nat) : Prop :=
  code < 0x80 ∧ byte.toNat = code ∨ 0x80 ≤ code ∧ 0x80 ≤ byte.toNat

variable {b : UInt8}

theorem Side.isNewline {c : Nat} (side : Side b c) : (b == 0x0A) = true ↔ c = 0x0A := by
  unfold Side at side
  simp only [beq_iff_eq, ← UInt8.toNat_inj, UInt8.reduceToNat]
  omega

theorem Side.isWord {c : Nat} (side : Side b c) : isWordByte b = isWordCode c := by
  unfold Side at side
  rw [Bool.eq_iff_iff]
  simp only [isWordByte, isWordCode, Bool.or_eq_true, Bool.and_eq_true, decide_eq_true_eq,
    beq_iff_eq, UInt8.le_iff_toNat_le, ← UInt8.toNat_inj, UInt8.reduceToNat]
  omega

theorem between_eq {u v : Option UInt8} {codeBefore codeAfter : Option Nat}
    (sameBefore : Option.Rel Side u codeBefore) (sameAfter : Option.Rel Side v codeAfter) :
    between u v = betweenCodes codeBefore codeAfter := by
  have opening_eq : opening u = openingCode codeBefore := by
    cases sameBefore with
    | none => rfl
    | some side => simp [opening, openingCode, side.isNewline]
  have closing_eq : closing v = closingCode codeAfter := by
    cases sameAfter with
    | none => rfl
    | some side => simp [closing, closingCode, side.isNewline]
  have word_eq {b : Option UInt8} {c : Option Nat} (eq : Option.Rel Side b c) :
      isWordSide b = c.any isWordCode := by
    cases eq with
    | none => rfl
    | some side => exact side.isWord
  rw [between, betweenCodes, opening_eq, closing_eq, word_eq sameBefore, word_eq sameAfter]

end Condition

namespace Lowering

variable {g : Graph} {q : Query} {b ex pc k : Nat} {p : List Nat} {c : Captures}
variable {x : Inst} {ts : List ByteTest} {α β : Type}

/-- Whether a byte string begins with bytes that pass the tests. -/
def startsWith : List ByteTest → Bytes → Bool
  | [], _ => true
  | test :: tests, byte :: bytes => test.accepts byte && startsWith tests bytes
  | _ :: _, [] => false

theorem startsWith_iff (ts : List ByteTest) (bs : Bytes) :
    startsWith ts bs = true ↔ ∃ f r, bs = f ++ r ∧ f.length = ts.length ∧ Passes ts f := by
  induction ts generalizing bs with
  | nil =>
    simp only [startsWith, true_iff]
    exact ⟨[], bs, rfl, rfl, .nil⟩
  | cons t ts ih =>
    cases bs with
    | nil =>
      simp only [startsWith, Bool.false_eq_true, false_iff]
      rintro ⟨f, r, parts, length, -⟩
      simp only [nil_eq, append_eq_nil_iff] at parts
      simp [parts.1] at length
    | cons b bytes =>
      simp only [startsWith, Bool.and_eq_true, ih]
      constructor
      · rintro ⟨passed, f, r, rfl, length, passes⟩
        exact ⟨b :: f, r, rfl, by simp [length], .cons passed passes⟩
      · rintro ⟨f, r, parts, length, passes⟩
        obtain ⟨a, others, passed, later, rfl⟩ := forall₂_cons_left_iff.mp passes
        cases parts
        exact ⟨passed, others, r, rfl, by simpa using length, later⟩

theorem startsWith_drop (te : ByteTest) (ts : List ByteTest) (t : Text) (k : Nat) :
    startsWith (te :: ts) (t.toList.drop k) =
      ((t[k]?).any te.accepts && startsWith ts (t.toList.drop (k + 1))) := by
  rw [← Array.getElem?_toList]
  rcases Nat.lt_or_ge k t.toList.length with lt | outside
  · rw [drop_eq_getElem_cons lt, startsWith, getElem?_eq_getElem lt]
    rfl
  · rw [drop_eq_nil_of_le outside, getElem?_eq_none outside]
    rfl

section

variable (here : g.automaton.insts[pc]? = some x)
include here

theorem inst_of_getElem? : g.inst pc = x := by
  rw [inst, Array.getD_eq_getD_getElem?, here]
  rfl

theorem attempt_of_byteRange
    (op : x.op = .byteRange) (plain : g.extensionsAt? pc = none) (new : pc ∉ p) :
    g.attempt q p ⟨pc, k, c⟩ =
      if (q.text[k]?).any x.accepts then
        g.attempt q [] ⟨x.out.toNat, k + 1, c⟩
      else none := by
  obtain ⟨lt, -⟩ := Array.getElem?_eq_some_iff.mp here
  rw [attempt_of_fresh lt new]
  simp only [branches, plain, inst_of_getElem? here, op]
  split
  · simp [tryBranch]
  · rfl

theorem attempt_of_alt (op : x.op = .alt ∨ x.op = .altMatch) (plain : g.extensionsAt? pc = none)
    (new : pc ∉ p) : g.attempt q p ⟨pc, k, c⟩ = (g.attempt q (pc :: p) ⟨x.out.toNat, k, c⟩).or
        (g.attempt q (pc :: p) ⟨x.out1.toNat, k, c⟩) := by
  obtain ⟨lt, -⟩ := Array.getElem?_eq_some_iff.mp here
  rw [attempt_of_fresh lt new]
  rcases op with op | op <;>
    simp [branches, plain, inst_of_getElem? here, op, tryBranch, findSome?_cons_or]

theorem attempt_of_capture (op : x.op = .capture) (plain : g.extensionsAt? pc = none) (new : pc ∉ p)
    (tracked : x.arg < q.slots) : g.attempt q p ⟨pc, k, c⟩ =
      g.attempt q (pc :: p) ⟨x.out.toNat, k, c.setIfInBounds x.arg k⟩ := by
  obtain ⟨lt, -⟩ := Array.getElem?_eq_some_iff.mp here
  rw [attempt_of_fresh lt new]
  simp [branches, plain, inst_of_getElem? here, op, tracked, tryBranch]

theorem attempt_of_accept (op : x.op = .accept) (plain : g.extensionsAt? pc = none) (new : pc ∉ p) :
    g.attempt q p ⟨pc, k, c⟩ = if q.mayMatchAt k then some (c.setIfInBounds 1 k) else none := by
  obtain ⟨lt, -⟩ := Array.getElem?_eq_some_iff.mp here
  rw [attempt_of_fresh lt new]
  simp only [branches, plain, inst_of_getElem? here, op]
  split <;> simp [tryBranch]

end

def Unmarked (graph : Graph) (test : ByteTest) : Prop :=
  ∀ (index : Nat) (out : Int), graph.automaton.insts[index]? = some (test.inst out) →
    graph.extensionsAt? index = none

theorem Chain.attempt_eq (ch : Chain g.automaton.insts b ex pc ts)
    (plain : g.extensionsAt? pc = none) (unmarked : ∀ t ∈ ts.tail, Unmarked g t) (new : pc ∉ p) :
    g.attempt q p ⟨pc, k, c⟩ =
      if startsWith ts (q.text.toList.drop k) then
        g.attempt q [] ⟨ex, k + ts.length, c⟩
      else none := by
  induction ch generalizing k p with
  | @last pc t here =>
    rw [attempt_of_byteRange here rfl plain new, startsWith_drop, ByteTest.accepts_inst,
      startsWith, Bool.and_true]
    rfl
  | @more pc n t tests here app rest ih =>
    obtain ⟨second, others, out, rfl, there⟩ := rest.first
    rw [attempt_of_byteRange here rfl plain new, startsWith_drop, ByteTest.accepts_inst]
    change (if _ then g.attempt q [] ⟨n, k + 1, c⟩ else none) = _
    have length_eq : k + (t :: second :: others).length = k + 1 + (second :: others).length := by
      simp only [length_cons]
      omega
    rw [ih (unmarked second (.head _) n out there)
      (fun t mem => unmarked t (.tail _ mem)) not_mem_nil, length_eq]
    cases (q.text[k]?).any t.accepts <;> rfl

theorem Chain.attempt_nil (ch : Chain g.automaton.insts b ex pc ts)
    (moving : ∀ es, g.extensionsAt? pc = some es →
      ∀ ext ∈ es, ext.evaluate? q.text k c ≠ some 0) (new : pc ∉ p) :
    g.attempt q p ⟨pc, k, c⟩ = g.attempt q [] ⟨pc, k, c⟩ := by
  obtain ⟨t, -, nx, -, here⟩ := ch.first
  refine attempt_congr_of_stays (by simp [new]) fun pt move eq => ?_
  unfold Graph.Moves branches at move
  cases got : g.extensionsAt? pc with
  | some es =>
    simp only [got] at move
    obtain ⟨ext, mem, branch⟩ := mem_filterMap.mp move
    obtain ⟨n, ev, point_eq⟩ := Option.map_eq_some_iff.mp branch
    cases point_eq
    obtain rfl : n = 0 := by simpa using eq
    exact False.elim (moving es got ext mem ev)
  | none =>
    simp only [got, inst_of_getElem? here, ByteTest.inst] at move
    split at move
    · obtain rfl : pt = _ := by simpa using move
      simp at eq
    · simp at move

theorem Reader.attempt_heads {ts : List (List ByteTest)}
    (reader : Reader g.automaton.insts b ex pc ts)
    (marked : ∀ pc es, g.extensionsAt? pc = some es → (g.inst pc).op = .byteRange) :
    ∃ hs, List.Forall₂ (Chain g.automaton.insts b ex) hs ts ∧
      ∀ (q : Query) (p : List Nat) (k : Nat) (c : Captures), pc ∉ p →
        (∀ j ∈ p, b ≤ j → j < pc ∧ (g.inst j).op = .alt) →
        (∀ pc es, g.extensionsAt? pc = some es → ∀ ext ∈ es, ext.evaluate? q.text k c ≠ some 0) →
        g.attempt q p ⟨pc, k, c⟩ = hs.findSome? fun h => g.attempt q [] ⟨h, k, c⟩ := by
  have plain {pc : Nat} {x : Inst} (here : g.automaton.insts[pc]? = some x)
      (op : x.op ≠ .byteRange) : g.extensionsAt? pc = none := by
    cases got : g.extensionsAt? pc with
    | none => rfl
    | some es =>
      have rng := marked pc es got
      rw [inst_of_getElem? here] at rng
      exact False.elim (op rng)
  -- a chain starts at a byte range, which cannot be on the path
  have offPath {pc h : Nat} {p : List Nat} {x : Inst} {t : List ByteTest}
      (here : g.automaton.insts[pc]? = some x) (alt : x.op = .alt)
      (rungs : ∀ j ∈ p, b ≤ j → j < pc ∧ (g.inst j).op = .alt)
      (app : b ≤ h) (ch : Chain g.automaton.insts b ex h t) :
      h ∉ pc :: p := by
    obtain ⟨a, -, n, -, got⟩ := ch.first
    intro on
    rcases mem_cons.mp on with rfl | earlier
    · cases here.symm.trans got
      simp [ByteTest.inst] at alt
    · have alt' := (rungs h earlier app).2
      rw [inst_of_getElem? got] at alt'
      simp [ByteTest.inst] at alt'
  induction reader with
  | fail here =>
    refine ⟨[], .nil, fun q p k c new _ _ => ?_⟩
    obtain ⟨lt, -⟩ := Array.getElem?_eq_some_iff.mp here
    rw [attempt_of_fresh lt new]
    simp [branches, plain here, inst_of_getElem? here]
  | @chain pc t ch =>
    refine ⟨[pc], .cons ch .nil, fun q p k c new _ moving => ?_⟩
    rw [ch.attempt_nil (moving pc) new, findSome?_singleton]
  | @pair pc first second t t' here app app' ch ch' =>
    refine ⟨[first, second], .cons ch (.cons ch' .nil), ?_⟩
    intro q p k c new rungs moving
    rw [attempt_of_alt here (.inl rfl) (plain here (by simp)) new, Int.toNat_natCast,
      Int.toNat_natCast, ch.attempt_nil (moving _) (offPath here rfl rungs app ch),
      ch'.attempt_nil (moving _) (offPath here rfl rungs app' ch'), findSome?_cons_or,
      findSome?_singleton]
  | @choice pc h nx t r here app further app' _ ch others ih =>
    obtain ⟨hs, chains, tries⟩ := ih
    refine ⟨h :: hs, .cons ch chains, fun q p k c new rungs moving => ?_⟩
    have new' : nx ∉ pc :: p := by
      intro on
      rcases mem_cons.mp on with rfl | earlier
      · exact Nat.lt_irrefl _ further
      · exact Nat.lt_asymm further (rungs nx earlier app').1
    have rungs' (j : Nat) (on : j ∈ pc :: p) (after : b ≤ j) : j < nx ∧ (g.inst j).op = .alt := by
      rcases mem_cons.mp on with rfl | earlier
      · exact ⟨further, by rw [inst_of_getElem? here]⟩
      · exact ⟨Nat.lt_trans (rungs j earlier after).1 further, (rungs j earlier after).2⟩
    rw [attempt_of_alt here (.inl rfl) (plain here (by simp)) new, Int.toNat_natCast,
      Int.toNat_natCast, ch.attempt_nil (moving _) (offPath here rfl rungs app ch),
      tries q _ k c new' rungs' moving, findSome?_cons_or]

theorem findSome?_of_forall₂ {γ : Type} {relation : α → β → Prop} {l : List α} {l' : List β}
    {a : α → Option γ} {b : β → Option γ} (paired : List.Forall₂ relation l l')
    (eq : ∀ v v', relation v v' → a v = b v') : l.findSome? a = l'.findSome? b := by
  induction paired with
  | nil => rfl
  | cons related _ ih => rw [findSome?_cons_or, findSome?_cons_or, eq _ _ related, ih]

/-- Without extensions, a reader takes the search to its exit by the first chain whose tests the
text passes and from whose end a match is found. -/
theorem Reader.attempt_eq (plain : ∀ pc, g.extensionsAt? pc = none) {ts : List (List ByteTest)}
    (reader : Reader g.automaton.insts b ex pc ts) (new : pc ∉ p)
    (rungs : ∀ j ∈ p, b ≤ j → j < pc ∧ (g.inst j).op = .alt) :
    g.attempt q p ⟨pc, k, c⟩ = ts.findSome? fun t =>
      if startsWith t (q.text.toList.drop k) then
        g.attempt q [] ⟨ex, k + t.length, c⟩
      else none := by
  obtain ⟨hs, chains, tries⟩ := reader.attempt_heads fun pc es got => by simp [plain pc] at got
  rw [tries q p k c new rungs fun pc es got => by simp [plain pc] at got]
  refine findSome?_of_forall₂ chains fun h t ch => ?_
  exact ch.attempt_eq (plain h) (fun _ _ i _ _ => plain i) not_mem_nil

theorem findSome?_eq_of_same {l : List α} {fn : α → Option β} {res : Option β}
    (eq : ∀ v ∈ l, fn v = none ∨ fn v = res) (got : ∃ v ∈ l, fn v = res) :
    l.findSome? fn = res := by
  induction l with
  | nil => simp at got
  | cons h r ih =>
    rw [findSome?_cons_or]
    by_cases later : ∃ v ∈ r, fn v = res
    · rw [ih (fun v mem => eq v (.tail _ mem)) later]
      rcases eq h (.head _) with none | here
      · rw [none, Option.none_or]
      · rw [here, Option.or_self]
    · have others : r.findSome? fn = none := by
        rw [findSome?_eq_none_iff]
        intro v mem
        exact (eq v (.tail _ mem)).resolve_right fun here => later ⟨v, mem, here⟩
      obtain ⟨v, mem, here⟩ := got
      rcases mem_cons.mp mem with rfl | inRest
      · rw [here, others, Option.or_none]
      · exact False.elim (later ⟨v, inRest, here⟩)

end Lowering

/-- Where a program stands in a text: between two of its code points. -/
structure Reading.In (text : Text) (reading : Reading) (front : List Nat) : Prop where
  text_eq : text.toList = (front ++ reading.after).flatMap Utf8.encode
  scalars : ∀ code ∈ front ++ reading.after, Utf8.isScalar code = true
  offset_eq : reading.offset = (front.flatMap Utf8.encode).length
  before_eq : reading.before = front.getLast?

namespace Reading.In

variable {t : Text} {rd : Reading} {f : List Nat}

section

variable (place : rd.In t f)
include place

theorem drop_eq : t.toList.drop rd.offset = rd.after.flatMap encode := by
  rw [place.text_eq, place.offset_eq, flatMap_append, drop_left]

theorem before_side : Option.Rel Condition.Side
      (if rd.offset = 0 then none else t[rd.offset - 1]?) rd.before := by
  rw [place.before_eq]
  rcases eq_nil_or_concat f with rfl | ⟨init, c, rfl⟩
  · simp only [place.offset_eq, flatMap_nil, length_nil, if_true, getLast?_nil]
    exact .none
  · have scalar := place.scalars c (by simp)
    obtain ⟨bs, b, encode_eq⟩ := (eq_nil_or_concat (encode c)).resolve_left
      (ne_nil_of_length_pos (length_encode_pos c))
    have offset_eq : rd.offset = ((init.flatMap encode) ++ bs).length + 1 := by
      simp [place.offset_eq, encode_eq, Nat.add_assoc]
    have got : t[rd.offset - 1]? = some b := by
      rw [← Array.getElem?_toList, place.text_eq, offset_eq]
      simp [encode_eq]
    rw [if_neg (by omega), got, concat_eq_append, getLast?_concat]
    exact .some (ascii_of_mem_encode scalar (by simp [encode_eq]))

theorem after_side : Option.Rel Condition.Side t[rd.offset]? rd.after.head? := by
  have got : t[rd.offset]? = (rd.after.flatMap encode).head? := by
    rw [← place.drop_eq, head?_drop, Array.getElem?_toList]
  rw [got]
  cases after_eq : rd.after with
  | nil => exact .none
  | cons c r =>
    have scalar := place.scalars c (by simp [after_eq])
    obtain ⟨b, bs, encode_eq⟩ := exists_cons_of_length_pos (length_encode_pos c)
    rw [flatMap_cons, encode_eq]
    exact .some (ascii_of_mem_encode scalar (by simp [encode_eq]))

theorem lt_size_iff : rd.offset < t.size ↔ rd.after ≠ [] := by
  have length_eq := congrArg List.length place.drop_eq
  rw [length_drop, Array.length_toList] at length_eq
  cases after_eq : rd.after with
  | nil =>
    rw [after_eq, flatMap_nil, length_nil] at length_eq
    simp only [ne_eq, not_true_eq_false, iff_false]
    omega
  | cons c r =>
    have pos := length_encode_pos c
    rw [after_eq, flatMap_cons, length_append] at length_eq
    simp only [ne_eq, reduceCtorEq, not_false_eq_true, iff_true]
    omega

theorem holding_eq : Condition.holdingAt t rd.offset = rd.holding :=
  Condition.between_eq place.before_side place.after_side

theorem next {c : Nat} {v : List Nat} (after_eq : rd.after = c :: v) :
    Reading.In t ⟨some c, v, rd.offset + (encode c).length⟩ (f ++ [c]) where
  text_eq := by rw [place.text_eq, after_eq]; simp
  scalars := by have := place.scalars; rw [after_eq] at this; simpa using this
  offset_eq := by simp [place.offset_eq]
  before_eq := by simp

end

end Reading.In

namespace Lowering

variable {g : Graph} {q : Query} {b ex pc : Nat} {p : List Nat}
  {c : Captures} {rd : Reading} {f : List Nat} {m : Nat → Bool}

theorem next_of_startsWith {ts : List (List ByteTest)} (covers : ∀ bs, (∃ t ∈ ts, Passes t bs) ↔
      ∃ c, (isScalar c = true ∧ m c = true) ∧ bs = encode c) {cs : List Nat}
    (scalars : ∀ c ∈ cs, isScalar c = true) {t : List ByteTest} (mem : t ∈ ts)
    (starts : startsWith t (cs.flatMap encode) = true) :
    ∃ c r, cs = c :: r ∧ m c = true ∧ t.length = (encode c).length := by
  obtain ⟨bs, others, parts, length, passes⟩ := (startsWith_iff _ _).mp starts
  obtain ⟨c, ⟨scalar, isMember⟩, rfl⟩ := (covers bs).mp ⟨t, mem, passes⟩
  cases cs with
  | nil =>
    have pos := length_encode_pos c
    have empty := congrArg List.length parts
    simp at empty
    omega
  | cons n r =>
    rw [flatMap_cons] at parts
    obtain ⟨rfl, -⟩ := encode_append_inj (scalars n (.head _)) scalar parts
    exact ⟨_, r, rfl, isMember, length.symm⟩

theorem ReadsCodes.attempt_eq (plain : ∀ pc, g.extensionsAt? pc = none)
    (reads : ReadsCodes g.automaton.insts b ex pc m)
    (place : rd.In q.text f) (new : pc ∉ p) (early : ∀ j ∈ p, j < b) :
    g.attempt q p ⟨pc, rd.offset, c⟩ = (rd.after.head?.filter m).bind fun cd =>
        g.attempt q [] ⟨ex, rd.offset + (encode cd).length, c⟩ := by
  obtain ⟨ts, reader, covers⟩ := reads
  have scalars (cd : Nat) (mem : cd ∈ rd.after) := place.scalars cd (mem_append_right _ mem)
  rw [reader.attempt_eq plain new fun j on after =>
    absurd (early j on) (Nat.not_lt.mpr after), place.drop_eq]
  cases next : rd.after.head?.filter m with
  | none =>
    rw [Option.bind_none, findSome?_eq_none_iff]
    intro t mem
    refine if_neg fun starts => ?_
    obtain ⟨cd, r, after_eq, isMember, -⟩ := next_of_startsWith covers scalars mem starts
    simp [after_eq, isMember] at next
  | some cd =>
    obtain ⟨head, isMember⟩ := Option.filter_eq_some_iff.mp next
    obtain ⟨r, after_eq⟩ := head?_eq_some_iff.mp head
    have length_eq {t : List ByteTest} (mem : t ∈ ts)
        (starts : startsWith t (rd.after.flatMap encode) = true) :
        t.length = (encode cd).length := by
      obtain ⟨j, _, eq, -, length⟩ := next_of_startsWith covers scalars mem starts
      cases after_eq.symm.trans eq
      exact length
    obtain ⟨t, mem, passes⟩ := (covers (encode cd)).mpr
      ⟨cd, ⟨scalars cd (by simp [after_eq]), isMember⟩, rfl⟩
    have starts : startsWith t (rd.after.flatMap encode) = true := by
      rw [after_eq, flatMap_cons]
      exact (startsWith_iff _ _).mpr ⟨_, _, rfl, passes.length_eq.symm, passes⟩
    rw [Option.bind_some]
    refine findSome?_eq_of_same (fun o mem => ?_) ⟨t, mem, ?_⟩
    · split
      · next starts => exact .inr (by rw [length_eq mem starts])
      · exact .inl rfl
    · rw [if_pos starts, length_eq mem starts]

end Lowering

namespace Program

variable {g : Graph} {P : Program} {q : Query}

theorem attempt_eq (wf : P.WellFormed) (plain : ∀ pc, g.extensionsAt? pc = none)
    (lowered : ∀ pc sp, P.steps[pc]? = some sp →
      Lowering.Lowered g.automaton.insts P.steps.size pc sp) {p : List Nat} {rd : Reading}
    {f : List Nat} {pc : Nat} {c : Captures} (place : rd.In q.text f) (lt : pc < P.steps.size)
    (early : ∀ j ∈ p, j < P.steps.size) :
    P.attempt q.slots (q.flags.testBit 1) p rd pc c = g.attempt q p ⟨pc, rd.offset, c⟩ := by
  induction left : rd.after.length using Nat.strong_induction_on generalizing p rd f pc c with
  | _ _ shorter =>
  induction size : (Finset.range P.steps.size \ p.toFinset).card using
    Nat.strong_induction_on generalizing p pc c with
  | _ _ ih =>
    by_cases on : pc ∈ p
    · rw [attempt_of_cut (.inl on), attempt_of_mem on]
    obtain ⟨sp, got⟩ : ∃ sp, P.steps[pc]? = some sp := ⟨_, Array.getElem?_eq_getElem lt⟩
    have control := (lowered pc sp got).control
    have reads := (lowered pc sp got).reads
    have fits := wf.fits sp (Array.mem_of_getElem? got)
    have eq {n : Nat} {c : Captures} (lt' : n < P.steps.size) :
        P.attempt q.slots (q.flags.testBit 1) (pc :: p) rd n c =
          g.attempt q (pc :: p) ⟨n, rd.offset, c⟩ :=
      ih _ (size ▸ card_range_sdiff_cons_lt lt on) lt' (by simpa [lt] using early) rfl
    have consumed {out : Nat} (next : sp.next? = some out) (lt' : out < P.steps.size) :
        P.attempt q.slots (q.flags.testBit 1) p rd pc c =
          g.attempt q p ⟨pc, rd.offset, c⟩ := by
      rw [attempt_of_next got next on, (reads out next).attempt_eq plain place on early]
      cases head : rd.after.head?.filter sp.admits with
      | none => rfl
      | some cd =>
        obtain ⟨r, after_eq⟩ := head?_eq_some_iff.mp (Option.filter_eq_some_iff.mp head).1
        have further := place.next after_eq
        rw [after_eq, tail_cons, Option.bind_some, Option.bind_some]
        exact shorter r.length (by simp [← left, after_eq]) further lt' (by simp) rfl
    have plainly {x : Inst} (here : g.automaton.insts[pc]? = some x) :
        g.attempt q p ⟨pc, rd.offset, c⟩ =
          (g.branches q ⟨pc, rd.offset, c⟩).findSome? (g.tryBranch q p ⟨pc, rd.offset, c⟩) :=
      attempt_of_fresh (Array.getElem?_eq_some_iff.mp here).1 on
    have cut : ¬(pc ∈ p ∨ P.steps.size ≤ pc) := by simp [on, lt]
    have step_eq : P.steps.getD pc .fail = sp := by
      rw [Array.getD_eq_getD_getElem?, got]
      rfl
    cases sp with
    | codes | code | anyCode | anyCodeButNewline => exact consumed rfl (fits.next?_lt rfl)
    | unsupported => exact False.elim fits
    | alt out out1 | altMatch out out1 =>
      rw [attempt, dif_neg cut, step_eq,
        Lowering.attempt_of_alt (control _ rfl) (by simp) (plain pc) on, Int.toNat_natCast,
        Int.toNat_natCast]
      simp [eq fits.1, eq fits.2]
    | capture sl out =>
      have here := control _ rfl
      rw [attempt, dif_neg cut, step_eq]
      simp only [plainly here, branches, plain, Lowering.inst_of_getElem? here, eq fits]
      split <;> simp [tryBranch]
    | emptyWidth conditions out =>
      have here := control _ rfl
      rw [attempt, dif_neg cut, step_eq]
      simp only [plainly here, branches, plain, Lowering.inst_of_getElem? here, eq fits,
        place.holding_eq]
      split <;> simp [tryBranch]
    | nop out =>
      have here := control _ rfl
      rw [attempt, dif_neg cut, step_eq]
      simp [plainly here, branches, plain, Lowering.inst_of_getElem? here, eq fits,
        tryBranch]
    | accept =>
      have here := control _ rfl
      have atEnd : decide (rd.offset < q.text.size) = !rd.after.isEmpty := by
        rw [Bool.eq_iff_iff]
        simp [place.lt_size_iff]
      rw [attempt, dif_neg cut, step_eq]
      simp only [plainly here, branches, plain, Lowering.inst_of_getElem? here,
        Query.mayMatchAt, atEnd]
      cases q.flags.testBit 1 && !rd.after.isEmpty <;> simp [tryBranch]
    | fail =>
      have here := control _ rfl
      rw [attempt, dif_neg cut, step_eq]
      simp [plainly here, branches, plain, Lowering.inst_of_getElem? here, Step.admits]
      split <;> rfl

theorem backtrack_eq (wf : P.WellFormed)
    (start : g.automaton.start = P.start) (plain : ∀ pc, g.extensionsAt? pc = none)
    (lowered : ∀ pc sp, P.steps[pc]? = some sp →
      Lowering.Lowered g.automaton.insts P.steps.size pc sp) (anc : q.anchorsStart = true)
    (ok : valid q.text.toList = true) :
    g.backtrack q = P.search q.slots (q.flags.testBit 1) (codes q.text.toList) := by
  obtain ⟨text_eq, scalars⟩ := eq_flatMap_of_valid ok
  have atStart : Reading.In q.text ⟨none, codes q.text.toList, 0⟩ [] := ⟨text_eq, scalars, rfl, rfl⟩
  have lt : P.start.toNat < P.steps.size := by
    have := wf.start
    omega
  rw [search, attempt_eq wf plain lowered atStart lt (by simp), backtrack,
    if_pos anc, range_one, findSome?_singleton, origin, start, Query.blank]
  rfl

/-- A well-formed program is lowered to an automaton with the same meaning. Steps that consume
nothing keep their place. The bytes that lead from any other step to its exit, by way of what was
appended, are the forms of the code points that it admits. At the begin of a well-formed text both
find the same match. -/
theorem lower_preserves_meaning {program : Program} (wellFormed : program.WellFormed) :
    ∃ automaton analysis, program.lower = .ok automaton ∧
      Graph.analyze ⟨automaton, []⟩ = .ok analysis ∧
      automaton.start = program.start ∧ automaton.slots = max program.slots 2 ∧
      (∀ (pc : Nat) (step : Step) (inst : Inst), program.steps[pc]? = some step →
        step.control? = some inst → automaton.insts[pc]? = some inst) ∧
      (∀ (pc : Nat) (step : Step) (out : Nat), program.steps[pc]? = some step →
        step.next? = some out →
        ∀ bytes, automaton.Consumes program.steps.size out pc bytes ↔
          ∃ code, (Utf8.isScalar code = true ∧ step.admits code = true) ∧
            bytes = Utf8.encode code) ∧
      ∀ (text : Text) (flags slots : Nat), Utf8.valid text.toList = true →
        flags.testBit 0 = true →
        (∃ final, ((Scheduler.new automaton.size 0).init text analysis.start flags slots).dispatch
          analysis.interpreter 0 = (false, final)) ∧
        ∀ final, Scheduler.Finishes analysis.interpreter
            ((Scheduler.new automaton.size 0).init text analysis.start flags slots) final →
          final.result? =
            program.search (max slots 2) (flags.testBit 1) (Utf8.codes text.toList) := by
  obtain ⟨insts, lower_eq, -, validated, lowered, -⟩ := wellFormed.lower_eq
  have accepted : Graph.analyze ⟨⟨insts, program.start, max program.slots 2⟩, []⟩ =
      .ok (Graph.summary ⟨⟨insts, program.start, max program.slots 2⟩, []⟩) := by
    simp [Graph.analyze, Graph.validate, validated, Graph.overlayFault?, Except.map]
  refine ⟨_, _, lower_eq, accepted, rfl, rfl, ?_, ?_, ?_⟩
  · intro pc step inst found control
    exact (lowered pc step found).control inst control
  · intro pc step out found next bytes
    obtain ⟨tests, reader, covers⟩ := (lowered pc step found).reads out next
    have fits := wellFormed.fits step (Array.mem_of_getElem? found)
    exact (reader.consumes_iff (fits.next?_lt next) bytes).trans (covers bytes)
  · intro text flags slots valid anchored
    have graphValid := (Graph.analyze_eq_ok accepted).1
    refine ⟨Scheduler.dispatch_zero .., ?_⟩
    intro final finishes
    rw [Graph.backtrack_of_finishes graphValid (fun _ _ found => by cases found) finishes]
    exact backtrack_eq wellFormed rfl (fun _ => rfl) lowered anchored valid

/-- The program of a letter in any case in a group and no word boundary, or of any code point. -/
def kelvin : Program where
  steps := #[.alt 1 5, .capture 2 2, .codes [0x6B] true 3, .capture 3 4,
    .emptyWidth Condition.noWordBoundary 6, .codes [0, Unicode.maxCode] false 6, .accept]
  start := 0
  slots := 4

/-- The letter is read in a form of three bytes, and the byte after it is no word byte. -/
theorem search_kelvin : kelvin.WellFormed ∧ (∃ automaton, kelvin.lower = .ok automaton ∧
      automaton.Consumes 7 3 2 [0xE2, 0x84, 0xAA]) ∧
    kelvin.search 4 false [0x212A, 0xE9] = some #[0, 3, 0, 3] := by
  have wellFormed : kelvin.WellFormed := ⟨by decide, by decide⟩
  have result : (match kelvin.lower with
      | .ok automaton => (((Scheduler.new automaton.size 0).init #[0xE2, 0x84, 0xAA, 0xC3, 0xA9]
          (Graph.summary ⟨automaton, []⟩).start 1 4).dispatch
          (Graph.summary ⟨automaton, []⟩).interpreter 0).2.result?
      | .error _ => none) = some #[0, 3, 0, 3] := by decide +kernel
  obtain ⟨automaton, analysis, lower_eq, accepted, -, -, -, consumes, searches⟩ :=
    lower_preserves_meaning wellFormed
  obtain ⟨-, rfl⟩ := Graph.analyze_eq_ok accepted
  have read := (consumes 2 (.codes [0x6B] true 3) 3 rfl rfl [0xE2, 0x84, 0xAA]).mpr
    ⟨0x212A, by decide +kernel, by decide⟩
  obtain ⟨⟨final, finished⟩, same⟩ :=
    searches #[0xE2, 0x84, 0xAA, 0xC3, 0xA9] 1 4 (by decide) (by decide)
  rw [lower_eq] at result
  simp only [finished] at result
  exact ⟨wellFormed, ⟨automaton, lower_eq, read⟩, (same final (.done finished)).symm.trans result⟩

end Program

end Rematch
