import Rematch.Proofs.Automaton.Blocks

/-!
Blocks and runs partition what is reachable: every reachable plain byte range stands at one place of
one run, and the reachable instructions that are not inside a run are the blocks, which lead to
blocks only. The traversal and the fusing both come to an end: more steps than they are given find
nothing.
-/

namespace Rematch

open List

namespace Graph

variable {g : Graph} {pc h : Nat}

/-- An instruction that following the successors from the start leads to. -/
def Follows (graph : Graph) (pc : Nat) : Prop :=
  Relation.ReflTransGen (fun before after => after ∈ graph.successors before) graph.start pc

theorem reachable_iff_follows (ok : g.Valid) : g.Reachable pc ↔ g.Follows pc := by
  constructor
  · intro reach
    exact reach.induction ok .refl fun _ _ follows _ edge => .tail follows edge
  · intro follows
    induction follows with
    | refl => exact ok.reachable_closed.2.2
    | tail _ edge ih => exact ih.successor ok edge

variable {run : List Nat}

theorem length_le_of_mem_fused (inFused : run ∈ g.fused) : run.length ≤ maxRun := by
  obtain ⟨_, _, inPieces⟩ := mem_flatMap.mp inFused
  obtain ⟨_, _, rfl⟩ := exists_drop_of_mem_pieces inPieces
  exact length_take_le _ _

theorem indegree_of_joined (joined : g.joined pc = true) : g.summary.indegree.getD pc 0 = 1 := by
  simp only [Graph.joined, joins, Bool.and_eq_true, decide_eq_true_eq] at joined
  exact joined.1.1.2

theorem absorbed_iff (lt : pc < g.size) :
    g.summary.absorbed.getD pc false = true ↔ g.Absorbed pc := by
  have absorbed_eq : g.summary.absorbed = g.absorbedMarks := by
    simp [summary, absorbedMarks, fused, joined]
  rw [absorbed_eq, ← isMarked_absorbedMarks lt, isMarked]

/-- The head of a fused run is a block, and the analysis knows the run by it. -/
theorem runInsts_of_head (ok : g.Valid) (inFused : run ∈ g.fused) (fst : run.head? = some h) :
    g.Block h ∧ g.isByteRange h = true ∧ g.summary.runInsts h = run ∧
      g.summary.run.getD h 0 = run.length := by
  have mems := run_of_mem_fused ok inFused
  obtain ⟨r, rfl⟩ := head?_eq_some_iff.mp fst
  have bytes := mems.bytes h (.head _)
  obtain ⟨h', block, isBytes, mem⟩ := Block.exists_span ok (mems.reachable h (.head _)) bytes
  obtain ⟨inFused', length, fst'⟩ := block.span_mem_fused ok isBytes
  have eq := eq_of_mem_fused ok inFused inFused' (.head _) mem
  obtain rfl : h = h' := by simpa [← eq] using fst'
  rw [← eq] at length
  refine ⟨block, bytes, ?_, length⟩
  rw [eq, Analysis.span, if_pos (by simp [length])]

theorem exists_fused_of_run (ok : g.Valid) (pos : 0 < g.summary.run.getD h 0) :
    ∃ run ∈ g.fused, run.head? = some h := by
  rw [summary_run] at pos
  rcases getD_foldl_set h (fun run : List Nat => run.headD 0) List.length g.fused
    (Array.replicate g.size 0) with blank | ⟨run, inFused, fst, -⟩
  · change 0 < Array.getD (List.foldl _ _ g.fused) h 0 at pos
    rw [blank] at pos
    simp only [Array.getD_eq_getD_getElem?, Array.getElem?_replicate] at pos
    split at pos <;> simp at pos
  · refine ⟨run, inFused, ?_⟩
    obtain ⟨m, r, rfl⟩ := exists_cons_of_ne_nil (run_of_mem_fused ok inFused).nonempty
    exact congrArg some fst

/-- A run as the analysis gives it: its head, what its members are, and where it leads. -/
structure IsRun (analysis : Analysis) (head : Nat) : Prop where
  length : (analysis.runInsts head).length = analysis.run.getD head 0
  short : analysis.run.getD head 0 ≤ maxRun
  first : (analysis.runInsts head).head? = some head
  linked : (analysis.runInsts head).IsChain fun before after =>
    after = analysis.exit (analysis.inst before).out
  bytes : ∀ pc ∈ analysis.runInsts head, analysis.isByteRange pc = true
  inner : ∀ pc ∈ (analysis.runInsts head).tail, analysis.absorbed.getD pc false = true ∧
    analysis.indegree.getD pc 0 = 1 ∧ pc ≠ analysis.start
  entered : head ∈ analysis.blocks
  leaves : analysis.runOut head ∈ analysis.blocks

theorem isRun (ok : g.Valid) (pos : 0 < g.summary.run.getD h 0) : IsRun g.summary h := by
  obtain ⟨run, inFused, fst⟩ := exists_fused_of_run ok pos
  obtain ⟨block, bytes, insts, length⟩ := runInsts_of_head ok inFused fst
  have mems := run_of_mem_fused ok inFused
  have span : g.summary.span h = run := by rw [Analysis.span, if_pos pos, insts]
  refine ⟨by rw [insts, length], by rw [length]; exact length_le_of_mem_fused inFused,
    by rw [insts, fst], by rw [insts]; exact mems.linked, by rw [insts]; exact mems.bytes,
      fun pc later => ?_,
    (mem_blocks ok).mpr block, ?_⟩
  · rw [insts] at later
    have joined := mems.goesOn pc later
    refine ⟨?_, indegree_of_joined joined, (continues_of_joined joined).notStart⟩
    exact (absorbed_iff ((mems.reachable pc (mem_of_mem_tail later)).lt ok)).mpr
      ⟨run, inFused, later⟩
  · have leads := block.exit_span ok bytes
    rw [span] at leads
    rw [Analysis.runOut, insts]
    exact (mem_blocks ok).mpr leads

/-- Every accepted graph is analyzed into blocks and runs. A reachable plain byte range stands at
one place of one run. Runs are short and linked, all but their heads are entered from the member
before only, and these are what is absorbed. The blocks are the other reachable instructions,
ascending; the start is one, and so is all that blocks and runs lead to. The analysis ends by
itself: as many steps as there are instructions exhaust the work list, and the chain of every
head. -/
theorem analyze_partitions {graph : Graph} {analysis : Analysis}
    (accepted : graph.analyze = .ok analysis) :
    (∀ pc, analysis.Follows pc → (analysis.inst pc).op = .byteRange →
      analysis.extensionsAt? pc = none →
      ∃ head, (0 < analysis.run.getD head 0 ∧ (analysis.runInsts head).count pc = 1) ∧
        ∀ other, 0 < analysis.run.getD other 0 → pc ∈ analysis.runInsts other → other = head) ∧
    (∀ head, 0 < analysis.run.getD head 0 → IsRun analysis head) ∧
    (∀ pc, analysis.Follows pc → (analysis.absorbed.getD pc false = true ↔
      ∃ head, 0 < analysis.run.getD head 0 ∧ pc ∈ (analysis.runInsts head).tail)) ∧
    analysis.blocks.Pairwise (· < ·) ∧
    (∀ pc, pc ∈ analysis.blocks ↔
      analysis.Follows pc ∧ analysis.absorbed.getD pc false = false) ∧
    analysis.start ∈ analysis.blocks ∧
    (∀ pc ∈ analysis.blocks, analysis.run.getD pc 0 = 0 →
      ∀ next ∈ analysis.successors pc, next ∈ analysis.blocks) ∧
    (∀ steps, analysis.size < steps → analysis.markReachable steps
      (mark [analysis.start] ([], Array.replicate analysis.size false)) = analysis.reachable) ∧
    ∀ head ∈ analysis.heads, ∀ steps, analysis.size ≤ steps →
      analysis.chain analysis.joined steps head =
        analysis.chain analysis.joined analysis.size head := by
  obtain ⟨valid, rfl⟩ := analyze_eq_ok accepted
  have known {run : List Nat} (inFused : run ∈ graph.fused) : ∃ head, run.head? = some head ∧
      0 < graph.summary.run.getD head 0 ∧ graph.summary.runInsts head = run := by
    obtain ⟨head, rest, rfl⟩ := exists_cons_of_ne_nil (run_of_mem_fused valid inFused).nonempty
    obtain ⟨-, -, insts, length⟩ := runInsts_of_head valid inFused rfl
    exact ⟨head, rfl, by simp [length], insts⟩
  refine ⟨fun pc follows op plain => ?_, fun head => isRun valid, fun pc follows => ?_, ?_,
    fun pc => ?_,
    (mem_blocks valid).mpr (Block.start valid), fun pc listed none next edge => ?_,
    fun steps more => markReachable_of_le graph graph.card_unmarked_start more,
    fun head isHead steps more => chain_of_size_le valid isHead more⟩
  · have bytes : graph.isByteRange pc = true := by
      simp only [isByteRange, Bool.and_eq_true, decide_eq_true_eq, Option.isNone_iff_eq_none]
      exact ⟨op, plain⟩
    obtain ⟨run, inFused, listed⟩ :=
      exists_fused valid ((reachable_iff_follows valid).mpr follows) bytes
    obtain ⟨head, first, positive, insts⟩ := known inFused
    have nodup := (nodup_flatten.mp (nodup_fused valid)).1 run inFused
    refine ⟨head, ⟨positive, by rw [insts]; exact count_eq_one_of_mem nodup listed⟩, ?_⟩
    intro other positive' listed'
    obtain ⟨run', inFused', first'⟩ := exists_fused_of_run valid positive'
    rw [(runInsts_of_head valid inFused' first').2.2.1] at listed'
    rw [eq_of_mem_fused valid inFused' inFused listed' listed, first] at first'
    exact (Option.some.inj first').symm
  · refine (absorbed_iff (((reachable_iff_follows valid).mpr follows).lt valid)).trans ⟨?_, ?_⟩
    · rintro ⟨run, inFused, later⟩
      obtain ⟨head, -, positive, insts⟩ := known inFused
      exact ⟨head, positive, by rwa [insts]⟩
    · rintro ⟨head, positive, later⟩
      obtain ⟨run, inFused, first⟩ := exists_fused_of_run valid positive
      rw [(runInsts_of_head valid inFused first).2.2.1] at later
      exact ⟨run, inFused, later⟩
  · rw [summary_blocks]
    exact (pairwise_lt_range.filter _).filter _
  · rw [mem_blocks valid, ← Bool.not_eq_true]
    constructor
    · rintro ⟨reachable, entered⟩
      exact ⟨(reachable_iff_follows valid).mp reachable,
        fun absorbed => entered ((absorbed_iff (reachable.lt valid)).mp absorbed)⟩
    · rintro ⟨follows, entered⟩
      have reachable := (reachable_iff_follows valid).mpr follows
      exact ⟨reachable, fun absorbed => entered ((absorbed_iff (reachable.lt valid)).mpr absorbed)⟩
  · have block := (mem_blocks valid).mp listed
    cases bytes : graph.isByteRange pc with
    | true =>
      obtain ⟨-, length, first⟩ := block.span_mem_fused valid bytes
      rw [none] at length
      rw [length_eq_zero_iff.mp length.symm] at first
      simp at first
    | false => exact (mem_blocks valid).mpr (.of_stays valid block.reachable ⟨edge, bytes⟩)

/-- Two bytes in turn, with a nop between them, once or again and again. -/
def looping : Graph where
  automaton := ⟨#[{ op := .byteRange, lo := 0x61, hi := 0x61, out := 1 }, { op := .nop, out := 2 },
    { op := .byteRange, lo := 0x62, hi := 0x62, out := 3 }, { op := .alt, out := 0, out1 := 4 },
    { op := .accept }], 0, 2⟩
  overlay := []

/-- The nop is skipped, the second byte is in the run of the first one, and the run leads to the
choice. -/
theorem looping_partitions : looping.analyze = .ok looping.summary ∧
    looping.summary.runInsts 0 = [0, 2] ∧ looping.summary.absorbed.getD 2 false = true ∧
      3 ∈ looping.summary.blocks := by
  have accepted : looping.analyze = .ok looping.summary := analyze_of_validate (by decide +kernel)
  have insts : looping.summary.runInsts 0 = [0, 2] := by decide +kernel
  have out : looping.summary.runOut 0 = 3 := by decide +kernel
  have run := (analyze_partitions accepted).2.1 0 (by decide +kernel)
  exact ⟨accepted, insts, (run.inner 2 (by simp [insts])).1, out ▸ run.leaves⟩

end Graph

end Rematch
