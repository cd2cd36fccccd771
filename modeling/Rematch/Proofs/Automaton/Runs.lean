import Rematch.Matching.Closure
import Rematch.Proofs.Automaton.Sharing

/-!
Runs: what is matched as one consists of plain byte ranges, each of which is the only exit of the
one before.
-/

namespace Rematch

open List

namespace Graph

variable {g : Graph} {pc : Nat}
variable {ms : List Nat} {joins : Nat → Bool}

/-- Each instruction is where the first exit of the one before leads, nops skipped. -/
def Linked (graph : Graph) : List Nat → Prop :=
  List.IsChain fun first second => second = graph.exit (graph.inst first).out

/-- A stretch of plain byte ranges that follow on each other. -/
structure Stretch (graph : Graph) (members : List Nat) : Prop where
  linked : graph.Linked members
  bytes : ∀ member ∈ members, graph.isByteRange member = true

theorem Stretch.take (stretch : g.Stretch ms) (n : Nat) : g.Stretch (ms.take n) :=
  ⟨stretch.linked.take n, fun m mem => stretch.bytes m (mem_of_mem_take mem)⟩

theorem Stretch.drop (stretch : g.Stretch ms) (n : Nat) : g.Stretch (ms.drop n) :=
  ⟨stretch.linked.drop n, fun m mem => stretch.bytes m (mem_of_mem_drop mem)⟩

theorem stretch_chain (joinsBytes : ∀ pc, joins pc = true → g.isByteRange pc = true) (n : Nat)
    (rng : g.isByteRange pc = true) :
    g.Stretch (g.chain joins n pc) ∧ (g.chain joins n pc).head? = some pc := by
  induction n generalizing pc with
  | zero => exact ⟨⟨isChain_singleton _, by simpa [chain] using rng⟩, rfl⟩
  | succ n ih =>
    unfold chain
    dsimp only
    refine ⟨?_, rfl⟩
    split
    · next joined =>
      obtain ⟨rest, fst⟩ := ih (joinsBytes _ joined)
      refine ⟨isChain_cons.mpr ⟨?_, rest.linked⟩, ?_⟩
      · intro b isFirst
        rw [fst] at isFirst
        simpa using isFirst.symm
      · intro m mem
        rcases mem_cons.mp mem with rfl | later
        · exact rng
        · exact rest.bytes m later
    · exact ⟨isChain_singleton _, by simpa using rng⟩

theorem exists_drop_of_mem_pieces {size n : Nat} {l p : List Nat} (mem : p ∈ pieces size n l) :
    ∃ k < l.length, p = (l.drop k).take size := by
  induction n generalizing l with
  | zero => simp [pieces] at mem
  | succ n ih =>
    cases l with
    | nil => simp [pieces] at mem
    | cons a r =>
      simp only [pieces, mem_cons] at mem
      rcases mem with rfl | later
      · exact ⟨0, by simp, rfl⟩
      · obtain ⟨k, lt, rfl⟩ := ih later
        rw [length_drop] at lt
        exact ⟨size + k, by omega, by rw [drop_drop]⟩

theorem joins_isByteRange {indegree : Array Nat} {u : Array (Option Nat)}
    (joined : g.joins indegree u pc = true) : g.isByteRange pc = true := by
  simp only [joins, Bool.and_eq_true] at joined
  exact joined.1.2

theorem stretch_of_mem_runs {sources run : List Nat}
    (joinsBytes : ∀ pc, joins pc = true → g.isByteRange pc = true)
    (mem : run ∈ g.runs joins sources) : g.Stretch run := by
  obtain ⟨h, isHead, inPieces⟩ := mem_flatMap.mp mem
  simp only [mem_filter, Bool.and_eq_true] at isHead
  obtain ⟨k, -, rfl⟩ := exists_drop_of_mem_pieces inPieces
  exact ((stretch_chain joinsBytes g.size isHead.2.1).1.drop k).take maxRun

theorem getD_foldl_set {α : Type} (pc : Nat) (key v : α → Nat) (l : List α) (table : Array Nat) :
    (l.foldl (fun table item => table.setIfInBounds (key item) (v item)) table).getD pc 0 =
        table.getD pc 0 ∨ ∃ item ∈ l, key item = pc ∧
        (l.foldl (fun table item => table.setIfInBounds (key item) (v item)) table).getD pc 0 =
          v item := by
  induction l generalizing table with
  | nil => exact .inl rfl
  | cons a r ih =>
    rw [foldl_cons]
    rcases ih (table.setIfInBounds (key a) (v a)) with eq | got
    · rw [eq]
      by_cases here : key a = pc ∧ pc < table.size
      · obtain ⟨rfl, lt⟩ := here
        exact .inr ⟨a, .head _, rfl, by simp [Array.getD_eq_getD_getElem?, lt]⟩
      · left
        simp only [Array.getD_eq_getD_getElem?, Array.getElem?_setIfInBounds]
        by_cases equal : key a = pc
        · have outside : ¬pc < table.size := fun lt => here ⟨equal, lt⟩
          simp [equal, outside]
        · simp [equal]
    · obtain ⟨item, mem, conclusion⟩ := got
      exact .inr ⟨item, .tail _ mem, conclusion⟩

theorem runFrom_eq {an : Analysis} (linked : an.Linked ms)
    (fst : ms.headD 0 = pc) (pos : 0 < ms.length) : an.runFrom ms.length pc = ms := by
  induction ms generalizing pc with
  | nil => simp at pos
  | cons m r ih =>
    obtain rfl : m = pc := fst
    rw [length_cons, Analysis.runFrom]
    cases r with
    | nil => rfl
    | cons n r =>
      obtain ⟨next_eq, restLinked⟩ := isChain_cons_cons.mp linked
      rw [ih restLinked next_eq (by simp)]

theorem summary_run (g : Graph) :
    g.summary.run = (g.runs (g.joins (g.indegrees (marked g.reachable))
      (g.predecessors (marked g.reachable))) (marked g.reachable)).foldl
        (fun lengths run => lengths.setIfInBounds (run.headD 0) run.length)
        (Array.replicate g.size 0) := by
  simp [summary]

theorem span_stretch (g : Graph) (rng : g.isByteRange pc = true) :
    g.Stretch (g.summary.span pc) ∧ ∃ r, g.summary.span pc = pc :: r := by
  unfold Analysis.span
  split
  · next pos =>
    unfold Analysis.runInsts
    have entry := getD_foldl_set pc (fun run : List Nat => run.headD 0) List.length
      (g.runs (g.joins (g.indegrees (marked g.reachable))
        (g.predecessors (marked g.reachable))) (marked g.reachable))
      (Array.replicate g.size 0)
    rw [← summary_run] at entry
    rcases entry with blank | ⟨run, mem, fst, length⟩
    · rw [blank] at pos
      simp only [Array.getD_eq_getD_getElem?, Array.getElem?_replicate] at pos
      split at pos <;> simp at pos
    · have stretch := stretch_of_mem_runs (fun pc => joins_isByteRange) mem
      rw [length] at pos ⊢
      have eq : g.summary.runFrom run.length pc = run := runFrom_eq stretch.linked fst pos
      rw [eq]
      refine ⟨stretch, ?_⟩
      cases run with
      | nil => simp at pos
      | cons m r => exact ⟨r, by rw [← fst]; rfl⟩
  · exact ⟨⟨isChain_singleton _, by simpa using rng⟩, [], rfl⟩

theorem Stretch.reachable (ok : g.Valid) (stretch : g.Stretch (pc :: ms)) (reach : g.Reachable pc) :
    ∀ m ∈ pc :: ms, g.Reachable m := by
  induction ms generalizing pc with
  | nil =>
    intro m mem
    rw [mem_singleton.mp mem]
    exact reach
  | cons n r ih =>
    obtain ⟨next_eq, restLinked⟩ := isChain_cons_cons.mp stretch.linked
    have nextReachable : g.Reachable n := by
      apply reach.successor ok
      rw [successors_of_isByteRange (stretch.bytes pc (.head _)), next_eq]
      exact .head _
    intro m mem
    rcases mem_cons.mp mem with rfl | later
    · exact reach
    · exact ih ⟨restLinked, fun j got => stretch.bytes j (.tail _ got)⟩ nextReachable m later

end Graph

end Rematch
