import Rematch.Proofs.Extension.Parts

/-!
A captured word, and then the word again or something else. The backreference and the other
alternative are one set, so that the order in which they were written is lost.
-/

namespace Rematch

open List Lowering
open Unicode (CodeSet)

namespace Graph

variable {g : Graph} {q : Query} {b : Nat} {p n : Point}

/-- The automaton of a captured word and a step for a set after it, as far as searches depend on
it. -/
structure Repeats (graph : Graph) (word : Bytes) (codes : CodeSet) : Prop where
  recovered : graph.Recovered
  ascii : ∀ byte ∈ word, byte.toNat < 0x80
  nonempty : word ≠ []
  start : graph.automaton.start = 1
  opens : graph.automaton.insts[1]? = some { op := .capture, arg := 2, out := 2 }
  letters : ∀ index byte, word[index]? = some byte →
    graph.automaton.insts[index + 2]? = some ((ByteTest.within ⟨byte, byte⟩).inst (index + 3 : Nat))
  closes : graph.automaton.insts[word.length + 2]? =
    some { op := .capture, arg := 3, out := (word.length + 3 : Nat) }
  inOrder : codes.InOrder 0
  reads : ReadsBounds graph.automaton.insts (word.length + 5) (word.length + 4 : Nat)
    (word.length + 3) codes.bounds
  accepts : graph.automaton.insts[word.length + 4]? = some { op := .accept }
  meaningful : codes.holdsBlock = false → ∀ code, codes.contains code = true →
    Codec.isReserved code = true → Codec.Meaningful code
  refers : codes.contains (Codec.encode .backreference 1) = true
  only : ∀ pc exts, graph.extensionsAt? pc = some exts → ∀ ext ∈ exts, ext.kind = .backreference →
    ext.arg = 1

def opened (query : Query) : Captures := (query.blank 0).setIfInBounds 2 0

def closed (query : Query) (word : Bytes) : Captures :=
  (opened query).setIfInBounds 3 word.length

/-- Where paths from the begin of the text lead: to the word, or to what comes after it. -/
inductive Along (graph : Graph) (query : Query) (word : Bytes) : Point → Prop where
  | outset : Along graph query word ⟨1, 0, query.blank 0⟩
  | letter {index} (inside : index ≤ word.length) :
      Along graph query word ⟨index + 2, index, opened query⟩
  | after {pc offset} (later : word.length + 3 ≤ pc)
      (place : pc = word.length + 4 ∨ graph.Toward (word.length + 5) (word.length + 4) pc) :
      Along graph query word ⟨pc, offset, closed query word⟩

namespace Repeats

variable {w : Bytes} {cs : CodeSet} (repeats : g.Repeats w cs)

include repeats

theorem plain {i : Nat} {b : UInt8} (got : w[i]? = some b) : g.extensionsAt? (i + 2) = none := by
  have low := repeats.ascii b (mem_of_getElem? got)
  have noLead : Recovery.isByte ((ByteTest.within ⟨b, b⟩).inst (i + 3 : Nat)) 0xF3 = false := by
    rw [Bool.eq_false_iff]
    intro isLead
    have eq : b = 0xF3 := (Recovery.isByte_iff.mp isLead).2.1
    rw [eq] at low
    exact absurd low (by decide)
  rw [repeats.recovered.extensionsAt?_eq (repeats.letters i b got),
    Recovery.extensionsAt_of_not_lead noLead]
  rfl

theorem along_moves (room : 4 ≤ q.slots) (along : g.Along q w p) (move : g.Moves q p n) :
    g.Along q w n := by
  have recovered := repeats.recovered
  cases along with
  | outset =>
    simp only [Moves, branches, recovered.extensionsAt?_eq_none repeats.opens (by simp),
      inst_of_getElem? repeats.opens, show 2 < q.slots by omega, if_true,
      mem_singleton, Branch.step.injEq] at move
    subst move
    exact .letter (Nat.zero_le _)
  | @letter i lt =>
    rcases Nat.lt_or_eq_of_le lt with inside | rfl
    · have got := getElem?_eq_getElem inside
      simp only [Moves, branches, repeats.plain got,
        inst_of_getElem? (repeats.letters _ _ got), ByteTest.inst] at move
      split at move
      · obtain rfl : n = _ := by simpa using move
        exact .letter inside
      · simp at move
    · simp only [Moves, branches, recovered.extensionsAt?_eq_none repeats.closes (by simp),
        inst_of_getElem? repeats.closes, show 3 < q.slots by omega, if_true,
        mem_singleton, Branch.step.injEq] at move
      subst move
      exact .after (Nat.le_refl _)
        (.inr ⟨_, repeats.reads.readsForms repeats.inOrder.bounds_le, .refl⟩)
  | @after pc k later place =>
    rcases place with rfl | toward
    · simp only [Moves, branches, recovered.extensionsAt?_eq_none repeats.accepts (by simp),
        inst_of_getElem? repeats.accepts] at move
      split at move <;> simp at move
    · obtain ⟨caps, place⟩ := toward.moves (Nat.lt_succ_self _) recovered move
      obtain ⟨pc', k', c'⟩ := n
      obtain rfl : c' = closed q w := caps
      rcases place with place | ⟨app, toward'⟩
      · exact .after (by dsimp only at place; omega) (.inl place)
      · exact .after (by dsimp only at app; omega) (.inr toward')

theorem steady (room : 4 ≤ q.slots) (anc : q.anchorsStart = true) : g.Steady q := by
  have along {p : Point} (leads : g.Leads q p) : g.Along q w p := by
    obtain ⟨a, -, atOutset, path⟩ := leads
    obtain rfl := atOutset anc
    induction path with
    | refl =>
      rw [origin, repeats.start]
      exact .outset
    | tail _ move ih => exact repeats.along_moves room ih move
  refine ⟨[1], ?_, ?_⟩
  · intro pc es got ext mem kind
    rw [repeats.only pc es got ext mem kind]
    exact .head _
  · intro first b leads leads' samePc _
    have eq : first.captures = b.captures := by
      have fst' := along leads
      have snd' := along leads'
      cases fst' <;> cases snd' <;> dsimp only at samePc ⊢ <;> first | rfl | omega
    rw [eq]
    exact .refl _ _

theorem attempt_letters {v : Bytes} (text_eq : q.text.toList = w ++ v) {i : Nat}
    (lt : i < w.length) {p : List Nat} (new : i + 2 ∉ p) (c : Captures) :
    g.attempt q p ⟨i + 2, i, c⟩ = g.attempt q [] ⟨w.length + 2, w.length, c⟩ := by
  induction l : w.length - i generalizing i p with
  | zero => omega
  | succ _ ih =>
    have got := getElem?_eq_getElem lt
    have passes : (q.text[i]?).any
        ((ByteTest.within ⟨w[i], w[i]⟩).inst (i + 3 : Nat)).accepts = true := by
      rw [← Array.getElem?_toList, text_eq, getElem?_append_left lt, got, Option.any_some]
      simp [ByteTest.inst, ByteTest.within, Inst.accepts]
    rw [attempt_of_byteRange (repeats.letters _ _ got) rfl (repeats.plain got) new,
      if_pos passes]
    change g.attempt q [] ⟨i + 1 + 2, i + 1, c⟩ = _
    rcases Nat.lt_or_eq_of_le lt with further | last
    · exact ih further not_mem_nil (by omega)
    · rw [← last]

end Repeats

theorem matchBackreference?_closed {w : Bytes} (ne : w ≠ [])
    (text_eq : q.text = (w ++ w).toArray) (room : 4 ≤ q.slots) :
    Extension.matchBackreference? q.text w.length (closed q w) 1 = some w.length := by
  have size : (q.blank 0).size = q.slots := by simp [Query.blank]
  have pos := length_pos_iff.mpr ne
  have span : Extension.capturedSpan? q.text (closed q w) 1 = some (0, w.length) := by
    have fst : (closed q w)[2]? = some 0 := by
      rw [closed, Array.getElem?_setIfInBounds_ne (by decide), opened,
        Array.getElem?_setIfInBounds_self_of_lt (by omega)]
    have last : (closed q w)[3]? = some (w.length : Int) := by
      rw [closed, Array.getElem?_setIfInBounds_self_of_lt (by simp [opened]; omega)]
    simp [Extension.capturedSpan?, fst, last, text_eq]
  have eq : q.text.extract 0 w.length = q.text.extract w.length (w.length + (w.length - 0)) := by
    simp [text_eq]
  simp only [Extension.matchBackreference?, span]
  rw [if_neg (by omega), if_neg (by simp [text_eq]), if_pos eq, Nat.sub_zero]

namespace Repeats

variable {w : Bytes} {cs : CodeSet} (repeats : g.Repeats w cs)

include repeats

theorem backtrack_eq (text_eq : q.text = (w ++ w).toArray) (room : 4 ≤ q.slots)
    (anc : q.anchorsStart = true) (anywhere : ∀ k, q.mayMatchAt k = true)
    {b : UInt8} (beg : w.head? = some b) :
    g.backtrack q = if cs.takes b.toNat then some ((closed q w).setIfInBounds 1 (w.length + 1))
      else if cs.holdsBlock then none
      else some ((closed q w).setIfInBounds 1 (2 * w.length)) := by
  have recovered := repeats.recovered
  have pos := length_pos_iff.mpr repeats.nonempty
  have low := repeats.ascii b (mem_of_head? beg)
  have matched := matchBackreference?_closed repeats.nonempty text_eq room
  have scalar : Utf8.isScalar b.toNat = true := Utf8.isScalar_iff.mpr (by omega)
  have spelled : Utf8.encode b.toNat = [b] := by
    rw [ByteRange.form_single.encode b.toNat (by omega) (by omega), ByteRange.spread]
    simp
  have next : q.text.toList.drop w.length = Utf8.encode b.toNat ++ w.tail := by
    rw [spelled, text_eq, drop_left]
    exact (cons_head?_tail beg).symm
  have moving (pc : Nat) (es : List Extension) (got : g.extensionsAt? pc = some es)
      (ext : Extension) (mem : ext ∈ es) :
      ext.evaluate? q.text w.length (closed q w) ≠ some 0 := by
    by_cases reference : ext.kind = .backreference
    · rw [Extension.evaluate?, reference, repeats.only pc es got ext mem reference]
      rw [matched]
      simp [repeats.nonempty]
    · exact Extension.evaluate?_ne_zero reference _ _ _
  have acc (n : Nat) : g.goesOn q (w.length + 4) w.length (closed q w)
      n = some ((closed q w).setIfInBounds 1 (w.length + n : Nat)) := by
    rw [goesOn, attempt_of_accept repeats.accepts rfl
      (recovered.extensionsAt?_eq_none repeats.accepts (by simp)) not_mem_nil,
      if_pos (anywhere _)]
  have taken := recovered.attempt_takes scalar next repeats.inOrder
    (show 0 < 1 ∧ 1 < 256 by decide) (fun m bounds refers => by
      obtain ⟨h, es, got, mem⟩ := recovered.exists_backreference (Nat.lt_succ_self _)
        repeats.inOrder repeats.reads repeats.meaningful bounds refers
      exact ⟨repeats.only h es got _ mem rfl, by omega⟩) repeats.reads repeats.meaningful
    (show w.length + 3 ∉ [w.length + 2] by simp) (by simp) moving
  rw [backtrack, if_pos anc, range_one, findSome?_singleton, origin, repeats.start,
    Int.toNat_one, attempt_of_capture repeats.opens rfl
      (recovered.extensionsAt?_eq_none repeats.opens (by simp)) not_mem_nil
      (show 2 < q.slots by omega)]
  have spoken : q.text.toList = w ++ w := by rw [text_eq]
  have letters := repeats.attempt_letters spoken pos (show 0 + 2 ∉ [1] by decide) (opened q)
  change g.attempt q [1] ⟨0 + 2, 0, opened q⟩ = _
  rw [letters, attempt_of_capture repeats.closes rfl
    (recovered.extensionsAt?_eq_none repeats.closes (by simp)) not_mem_nil
    (show 3 < q.slots by omega)]
  change g.attempt q [w.length + 2] ⟨w.length + 3, w.length, closed q w⟩ = _
  rw [taken, matched, spelled, CodeSet.refers, repeats.refers, Option.bind_some, acc, acc]
  cases cs.takes b.toNat <;> cases cs.holdsBlock <;> simp [Int.two_mul]

end Repeats

end Graph

end Rematch
