import Rematch.Proofs.Automaton.Edges
import Rematch.Proofs.Threads.Reuse

/-!
Paths through an automaton, one instruction at a time. `Graph.branches` says what an instruction
offers next, in priority order; nothing is skipped or fused. A path carries its captures along.
-/

namespace Rematch

open List

/-- A point of a path: an instruction, an offset and the captures so far. -/
structure Point where
  pc : Nat
  offset : Nat
  captures : Captures
  deriving DecidableEq

/-- What an instruction offers: to go on at another point, or to accept. -/
inductive Branch where
  | step (next : Point)
  | accept
  deriving DecidableEq

namespace Extension

/-- Where an extension leads from a point, if it matches there. -/
def branch? (ext : Extension) (text : Text) (point : Point) : Option Branch :=
  (ext.evaluate? text point.offset point.captures).map fun count =>
    .step ⟨ext.out.toNat, point.offset + count, point.captures⟩

end Extension

namespace Graph

/-- What the instruction at a point offers, in priority order. -/
def branches (graph : Graph) (query : Query) (point : Point) : List Branch :=
  match graph.extensionsAt? point.pc with
  | some exts => exts.filterMap fun ext => ext.branch? query.text point
  | none =>
    let inst := graph.inst point.pc
    let out : Branch := .step { point with pc := inst.out.toNat }
    match inst.op with
    | .alt | .altMatch => [out, .step { point with pc := inst.out1.toNat }]
    | .byteRange =>
      if (query.text[point.offset]?).any inst.accepts then
        [.step ⟨inst.out.toNat, point.offset + 1, point.captures⟩]
      else []
    | .capture =>
      if inst.arg < query.slots then
        [.step ⟨inst.out.toNat, point.offset,
          point.captures.setIfInBounds inst.arg point.offset⟩]
      else [out]
    | .emptyWidth =>
      if Condition.satisfied inst.arg (Condition.holdingAt query.text point.offset) then [out]
      else []
    | .nop => [out]
    | .accept => if query.mayMatchAt point.offset then [.accept] else []
    | .fail | .unknown _ => []

def Moves (graph : Graph) (query : Query) (first second : Point) : Prop :=
  .step second ∈ graph.branches query first

def Path (graph : Graph) (query : Query) : Point → Point → Prop :=
  Relation.ReflTransGen (graph.Moves query)

def Accepts (graph : Graph) (query : Query) (point : Point) : Prop :=
  .accept ∈ graph.branches query point

instance (graph : Graph) (query : Query) (first second : Point) :
    Decidable (graph.Moves query first second) :=
  inferInstanceAs (Decidable (_ ∈ _))

instance (graph : Graph) (query : Query) (point : Point) :
    Decidable (graph.Accepts query point) :=
  inferInstanceAs (Decidable (_ ∈ _))

def origin (graph : Graph) (query : Query) (offset : Nat) : Point :=
  ⟨graph.automaton.start.toNat, offset, query.blank offset⟩

end Graph

namespace Extension

variable {w : Bytes}

theorem width_le_length {c wd : Nat} (dec : Utf8.decode? w = some (c, wd)) : wd ≤ w.length := by
  unfold Utf8.decode? at dec
  split at dec
  · simp at dec
  · repeat' split at dec
    all_goals simp_all <;> omega

theorem matchCategory?_le {m n : Nat} {mb : Bool}
    (matched : matchCategory? w m mb = some n) : n ≤ w.length := by
  unfold matchCategory? at matched
  split at matched
  · next cat c wd _ dec =>
    split at matched
    · rw [← Option.some.inj matched]
      exact width_le_length dec
    · simp at matched
  · simp at matched

theorem window_length_le (t : Text) (k : Nat) : (t.window k).length ≤ t.size - k := by
  simp only [Text.window, Array.length_toList, Array.size_extract]
  omega

theorem evaluate?_le {ext : Extension} {t : Text} {k n : Nat} {c : Captures}
    (ev : ext.evaluate? t k c = some n) (some_bytes : 0 < n) : k + n ≤ t.size := by
  have window := window_length_le t k
  unfold evaluate? at ev
  split at ev
  · have le := matchCategory?_le ev
    omega
  · have le := matchCategory?_le ev
    omega
  · unfold matchBackreference? at ev
    split at ev
    · simp at ev
    · repeat' split at ev
      all_goals simp_all
  · simp at ev

end Extension

namespace Graph

variable {g : Graph} {q : Query} {a b : Point}

/-- How an instruction leads from a point to the next. -/
inductive Way (graph : Graph) (query : Query) (first : Point) : Point → Prop where
  | extension {exts ext count}
      (found : graph.extensionsAt? first.pc = some exts) (listed : ext ∈ exts)
      (evaluated : ext.evaluate? query.text first.offset first.captures = some count) :
      Way graph query first ⟨ext.out.toNat, first.offset + count, first.captures⟩
  | byte {byte} (plain : graph.extensionsAt? first.pc = none)
      (op : (graph.inst first.pc).op = .byteRange) (read : query.text[first.offset]? = some byte)
      (accepted : (graph.inst first.pc).accepts byte = true) :
      Way graph query first ⟨(graph.inst first.pc).out.toNat, first.offset + 1, first.captures⟩
  | capture (plain : graph.extensionsAt? first.pc = none)
      (op : (graph.inst first.pc).op = .capture) (asked : (graph.inst first.pc).arg < query.slots) :
      Way graph query first ⟨(graph.inst first.pc).out.toNat, first.offset,
        first.captures.setIfInBounds (graph.inst first.pc).arg first.offset⟩
  | out (plain : graph.extensionsAt? first.pc = none)
      (hasExit : (graph.inst first.pc).op.hasExit = true)
      (op : (graph.inst first.pc).op ≠ .byteRange)
      (unasked : (graph.inst first.pc).op = .capture → query.slots ≤ (graph.inst first.pc).arg)
      (satisfied : (graph.inst first.pc).op = .emptyWidth →
        Condition.satisfied (graph.inst first.pc).arg
          (Condition.holdingAt query.text first.offset) = true) :
      Way graph query first { first with pc := (graph.inst first.pc).out.toNat }
  | out1 (plain : graph.extensionsAt? first.pc = none)
      (op : (graph.inst first.pc).op = .alt ∨ (graph.inst first.pc).op = .altMatch) :
      Way graph query first { first with pc := (graph.inst first.pc).out1.toNat }

theorem Moves.way (move : g.Moves q a b) : g.Way q a b := by
  unfold Moves branches at move
  cases plain : g.extensionsAt? a.pc with
  | some es =>
    simp only [plain] at move
    obtain ⟨ext, mem, branch⟩ := mem_filterMap.mp move
    obtain ⟨n, ev, eq⟩ := Option.map_eq_some_iff.mp branch
    cases eq
    exact .extension plain mem ev
  | none =>
    simp only [plain] at move
    cases op : (g.inst a.pc).op with
    | byteRange =>
      simp only [op] at move
      split at move
      · next acc =>
        cases mem_singleton.mp move
        obtain ⟨c, read, accepts⟩ := (Option.any_eq_true _ _).mp acc
        exact .byte plain op read accepts
      · simp at move
    | alt | altMatch =>
      simp only [op, mem_cons, Branch.step.injEq, not_mem_nil, or_false] at move
      rcases move with rfl | rfl
      · exact .out plain (by rw [op]; rfl) (by simp [op]) (by simp [op]) (by simp [op])
      · exact .out1 plain (by simp [op])
    | capture =>
      simp only [op] at move
      split at move
      · next asked =>
        cases mem_singleton.mp move
        exact .capture plain op asked
      · next unasked =>
        cases mem_singleton.mp move
        exact .out plain (by rw [op]; rfl) (by simp [op]) (fun _ => Nat.not_lt.mp unasked)
          (by simp [op])
    | emptyWidth =>
      simp only [op] at move
      split at move
      · next satisfied =>
        cases mem_singleton.mp move
        exact .out plain (by rw [op]; rfl) (by simp [op]) (by simp [op]) (fun _ => satisfied)
      · simp at move
    | nop =>
      simp only [op] at move
      cases mem_singleton.mp move
      exact .out plain (by rw [op]; rfl) (by simp [op]) (by simp [op]) (by simp [op])
    | accept =>
      simp only [op] at move
      split at move <;> simp at move
    | fail | unknown => simp [op] at move

theorem Way.moves (way : g.Way q a b) : g.Moves q a b := by
  unfold Moves branches
  cases way with
  | extension got mem ev =>
    simp only [got]
    refine mem_filterMap.mpr ⟨_, mem, ?_⟩
    rw [Extension.branch?, ev]
    rfl
  | byte plain op read acc => simp [plain, op, read, acc]
  | capture plain op asked => simp [plain, op, asked]
  | out1 plain op => rcases op with op | op <;> simp [plain, op]
  | out plain hasExit _ unasked satisfied =>
    simp only [plain]
    cases op : (g.inst a.pc).op with
    | capture => simp [Nat.not_lt.mpr (unasked op)]
    | emptyWidth => simp [satisfied op]
    | byteRange => contradiction
    | alt | altMatch | nop => simp
    | accept | fail | unknown => simp [op, Opcode.hasExit] at hasExit

theorem Moves.offset (move : g.Moves q a b) :
    b.offset = a.offset ∨ a.offset < b.offset ∧ b.offset ≤ q.text.size := by
  cases move.way with
  | @extension _ _ n _ _ ev =>
    rcases Nat.eq_zero_or_pos n with rfl | pos
    · exact .inl rfl
    · exact .inr ⟨Nat.lt_add_of_pos_right pos, Extension.evaluate?_le ev pos⟩
  | byte _ _ read => exact .inr ⟨Nat.lt_succ_self _, (Array.getElem?_eq_some_iff.mp read).1⟩
  | capture | out | out1 => exact .inl rfl

theorem Moves.captures (move : g.Moves q a b) : b.captures = a.captures ∨
      (g.inst a.pc).op = .capture ∧ b.offset = a.offset ∧
        b.captures = a.captures.setIfInBounds (g.inst a.pc).arg a.offset := by
  cases move.way with
  | capture _ op _ => exact .inr ⟨op, rfl, rfl⟩
  | extension | byte | out | out1 => exact .inl rfl

variable {p : Point}

theorem Accepts.way (accepts : g.Accepts q p) :
    g.extensionsAt? p.pc = none ∧ (g.inst p.pc).op = .accept ∧ q.mayMatchAt p.offset = true := by
  unfold Accepts branches at accepts
  cases plain : g.extensionsAt? p.pc with
  | some es =>
    simp only [plain] at accepts
    obtain ⟨ext, -, branch⟩ := mem_filterMap.mp accepts
    obtain ⟨n, -, eq⟩ := Option.map_eq_some_iff.mp branch
    exact Branch.noConfusion eq
  | none =>
    simp only [plain] at accepts
    cases op : (g.inst p.pc).op with
    | accept =>
      simp only [op] at accepts
      split at accepts
      · next allowed => exact ⟨rfl, rfl, allowed⟩
      · simp at accepts
    | capture | byteRange | emptyWidth =>
      simp only [op] at accepts
      split at accepts <;> simp at accepts
    | alt | altMatch | nop | fail | unknown => simp [op] at accepts

theorem Accepts.branches_eq (accepts : g.Accepts q p) :
    g.branches q p = [.accept] ∧ q.mayMatchAt p.offset = true := by
  obtain ⟨plain, op, allowed⟩ := accepts.way
  exact ⟨by simp [branches, plain, op, allowed], allowed⟩

namespace Path

section

variable (path : g.Path q a b)
include path

theorem offset_le (lt : a.offset ≤ q.text.size) : b.offset ≤ q.text.size := by
  induction path with
  | refl => exact lt
  | tail _ move ih =>
    rcases move.offset with eq | ⟨-, le⟩
    · rw [eq]
      exact ih
    · exact le

theorem le_offset : a.offset ≤ b.offset := by
  induction path with
  | refl => exact Nat.le_refl _
  | tail _ move ih => rcases move.offset with eq | ⟨further, -⟩ <;> omega

theorem size_captures : b.captures.size = a.captures.size := by
  induction path with
  | refl => rfl
  | tail _ move ih =>
    rw [← ih]
    rcases move.captures with eq | ⟨-, -, eq⟩
    · rw [eq]
    · rw [eq, Array.size_setIfInBounds]

theorem getElem?_captures {sl : Nat}
    (unwritten : ∀ pc, (g.inst pc).op = .capture → (g.inst pc).arg ≠ sl) :
    b.captures[sl]? = a.captures[sl]? := by
  induction path with
  | refl => rfl
  | @tail m z _ move ih =>
    rw [← ih]
    rcases move.captures with eq | ⟨op, -, eq⟩
    · rw [eq]
    · rw [eq, Array.getElem?_setIfInBounds_ne (unwritten m.pc op)]

end

end Path

def Leads (graph : Graph) (query : Query) (point : Point) : Prop :=
  ∃ first, first ≤ query.text.size ∧ (query.anchorsStart = true → first = 0) ∧
    graph.Path query (graph.origin query first) point

theorem Leads.trans (leads : g.Leads q a) (path : g.Path q a b) : g.Leads q b := by
  obtain ⟨k, lt, anc, pre⟩ := leads
  exact ⟨k, lt, anc, pre.trans path⟩

end Graph

end Rematch
