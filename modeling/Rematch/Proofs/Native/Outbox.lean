import Mathlib.Algebra.Order.BigOperators.Group.List
import Mathlib.Algebra.Order.Ring.Nat
import Rematch.Native.Compiled
import Rematch.Proofs.Matching.Tally
import Rematch.Proofs.Native.Fragments

/-!
The outbox of compiled code. An instruction that is entered writes one record, or one for each of
its extensions. Without backreferences a closure enters no block twice, so the outbox is large
enough and no closure is left to the interpreter.
-/

namespace Rematch

open List Analysis

theorem Extension.records_le (ext : Extension) (c : Captures) : ext.records c ≤ 1 := by
  unfold records
  split
  · split
    · split <;> omega
    · omega
  · exact Nat.le_refl _

theorem Exploration.closeScope_records (st before : Exploration) (sl : Nat) (ref : Bool) :
    (st.closeScope before sl ref).records = st.records := by
  unfold closeScope
  split <;> rfl

namespace Analysis

variable {v : Nat → Exploration → Exploration} {enters : Nat → Exploration → List Nat}
  {weight : Nat → Nat}

variable (an : Analysis) (s : Scheduler)
  (explored : ∀ pc st, (v pc st).records ≤ st.records + ((enters pc st).map weight).sum)

include an s explored

theorem records_extensions (es : List Extension) (st : Exploration) :
    (an.exploreExtensions s v es st).records ≤ st.records + es.length +
      ((an.extensionEntries s v enters es st).map weight).sum := by
  induction es generalizing st with
  | nil => simp [exploreExtensions]
  | cons ext r ih =>
    unfold extensionEntries exploreExtensions
    split
    · omega
    have one := ext.records_le st.scope.captures
    have counted : (st.record (ext.records st.scope.captures)).records =
        st.records + ext.records st.scope.captures := rfl
    rw [length_cons]
    dsimp only
    cases ext.evaluate? s.text s.offset st.scope.captures with
    | none =>
      have others := ih (st.record (ext.records st.scope.captures))
      dsimp only
      omega
    | some n =>
      cases n with
      | zero =>
        have fst := explored (an.exit ext.out) (st.record (ext.records st.scope.captures))
        have others := ih (v (an.exit ext.out) (st.record (ext.records st.scope.captures)))
        dsimp only
        rw [map_append, sum_append]
        omega
      | succ n =>
        have others :=
          ih ((st.record (ext.records st.scope.captures)).wait (an.exit ext.out) (n + 1))
        have waited : ((st.record (ext.records st.scope.captures)).wait
          (an.exit ext.out) (n + 1)).records = st.records + ext.records st.scope.captures := rfl
        dsimp only
        omega

theorem records_inst (pc : Nat) (st : Exploration) :
    (an.exploreInst s v pc st).records ≤ st.records + 1 +
      ((an.instEntries s v enters pc st).map weight).sum := by
  unfold instEntries exploreInst
  dsimp only
  have through := fun st => explored (an.exit (an.inst pc).out) st
  cases (an.inst pc).op with
  | alt | altMatch =>
    have fst := through st
    have snd := explored (an.exit (an.inst pc).out1) (v (an.exit (an.inst pc).out) st)
    dsimp only
    rw [map_append, sum_append]
    omega
  | byteRange =>
    unfold exploreBytes
    dsimp only
    split
    · exact Nat.le_refl _
    · exact Nat.le_succ _
  | capture =>
    dsimp only
    split
    · have lt := through (st.openScope (an.inst pc).arg s.offset
        (an.backrefGroups.contains ((an.inst pc).arg / 2)))
      rw [Exploration.closeScope_records]
      have eq : (st.openScope (an.inst pc).arg s.offset
        (an.backrefGroups.contains ((an.inst pc).arg / 2))).records =
          st.records := rfl
      omega
    · have next := through st
      omega
  | emptyWidth =>
    have next := through st
    dsimp only
    split <;> omega
  | nop =>
    have next := through st
    dsimp only
    omega
  | accept =>
    dsimp only
    split
    · exact Nat.le_refl _
    · exact Nat.le_succ _
  | fail | unknown => exact Nat.le_add_right_of_le (Nat.le_succ _)

end Analysis

namespace Graph

variable {g : Graph} {pc : Nat} {st : Exploration}

/-- The records that an instruction writes when it is entered, at most. -/
def weight (graph : Graph) (pc : Nat) : Nat :=
  match graph.extensionsAt? pc with
  | some exts => exts.length
  | none => 1

theorem records_explore (g : Graph) (s : Scheduler) (d pc : Nat) (st : Exploration) :
    (g.summary.explore s d pc st).records ≤
      st.records + ((g.summary.entries s d pc st).map g.weight).sum := by
  induction d generalizing pc st with
  | zero => simp [explore, entries]
  | succ d ih =>
    unfold entries explore
    split
    · simp
    cases enters : if g.summary.isShared pc then st.enter? pc else some st with
    | none => simp
    | some en =>
    have eq : en.records = st.records := by
      split at enters
      · rw [(Exploration.enter?_eq_some enters).2]
      · rw [← Option.some.inj enters]
    rw [map_cons, sum_cons]
    cases got : g.summary.extensionsAt? pc with
    | some es =>
      have got : g.extensionsAt? pc = some es := got
      have tried := g.summary.records_extensions s (fun pc st => ih pc st) es en
      have heavy : g.weight pc = es.length := by rw [weight, got]
      dsimp only
      omega
    | none =>
      have got : g.extensionsAt? pc = none := got
      have done := g.summary.records_inst s (fun pc st => ih pc st) pc en
      have heavy : g.weight pc = 1 := by rw [weight, got]
      dsimp only
      omega

theorem Tally.nodup {en : List Nat} {st' : Exploration} (ok : g.Valid)
    (entry : g.Entry pc) (tally : g.Tally [pc] en en st st') : en.Nodup := by
  -- What is not shared comes after an instruction or is the entry itself, and not both.
  have entrance : ∀ t, g.Entry t → g.summary.isShared t = false → en.count t ≤ 1 := by
    intro t isEntry unshared
    have none : (en.flatMap g.stays).count t = 0 := by
      rw [count_eq_zero]
      intro mem
      obtain ⟨src, inEntered, edge⟩ := mem_flatMap.mp mem
      have shared := isShared_of_stays ok isEntry (tally.blocks src inEntered).reachable
        (mem_stays.mp edge)
      simp [unshared] at shared
    have single : [pc].count t ≤ 1 := count_le_length
    have le := tally.visits_le t
    omega
  have shared : ∀ t, g.summary.isShared t = true → en.count t ≤ 1 := by
    intro t isShared
    have le := tally.mark_le t isShared
    have most : st'.mark t ≤ 1 := Bool.toNat_le _
    omega
  have once : ∀ t, g.Block t → en.count t ≤ 1 := by
    intro t block
    cases isShared : g.summary.isShared t with
    | true => exact shared t isShared
    | false =>
    revert isShared
    refine block.induction ok (motive := fun t => g.summary.isShared t = false → en.count t ≤ 1)
      (entrance _ .start) (fun src block ih t stays unshared => ?_)
      (fun src block _ isBytes => ?_)
    · have elsewhere : [pc].count t = 0 := by
        rw [count_eq_zero]
        intro here
        rw [mem_singleton.mp here] at stays unshared
        have isShared := isShared_of_stays ok entry block.reachable stays
        simp [unshared] at isShared
      have edges : (g.stays src).count t ≤ 1 := by
        unfold Graph.stays
        split
        · simp
        · exact count_successors_le ok unshared block.reachable
      have pre : (en.flatMap g.stays).count t ≤ en.count src :=
        count_flatMap_le edges fun j inEntered edge => eq_of_unshared ok unshared
          (tally.blocks j inEntered).reachable block.reachable
            (mem_stays.mp edge).listed stays.listed
      have le := tally.visits_le t
      have known : en.count src ≤ 1 := by
        cases isShared : g.summary.isShared src with
        | true => exact shared src isShared
        | false => exact ih isShared
      omega
    · obtain ⟨stretch, r, parts⟩ := span_stretch g isBytes
      rw [parts] at stretch
      have isEntry := stretch.entry ok block.reachable
      rw [← parts] at isEntry
      exact entrance _ isEntry
  refine nodup_iff_count_le_one.mpr fun t => ?_
  by_cases mem : t ∈ en
  · exact once t (tally.blocks t mem)
  · rw [count_eq_zero.mpr mem]
    exact Nat.zero_le _

theorem sum_weight_le (g : Graph) :
    (g.summary.blocks.map g.weight).sum ≤ g.summary.blocks.length + g.summary.extensions := by
  have each : ∀ l : List Nat, (l.map g.weight).sum ≤
      l.length + (l.flatMap fun pc => (g.extensionsAt? pc).getD []).length := by
    intro l
    induction l with
    | nil => simp
    | cons pc r ih =>
      simp only [map_cons, sum_cons, length_cons, flatMap_cons,
        length_append, weight]
      cases g.extensionsAt? pc with
      | none =>
        simp only [Option.getD_none, length_nil]
        omega
      | some es =>
        simp only [Option.getD_some]
        omega
  have lt : (g.summary.blocks.flatMap fun pc => (g.extensionsAt? pc).getD []).length ≤
      g.summary.extensions :=
    (filter_sublist.flatMap _).length_le
  have le := each g.summary.blocks
  omega

theorem Absorbed.entries_eq (abs : g.Absorbed pc) (ok : g.Valid) (s : Scheduler)
    (d : Nat) (run : st.accepted = false) : g.summary.entries s (d + 1) pc st = [pc] := by
  have continues := abs.continues ok
  have isBytes := continues.bytes
  simp only [isByteRange, Bool.and_eq_true, decide_eq_true_eq, Option.isNone_iff_eq_none] at isBytes
  simp [entries, run, continues.unshared, isBytes, instEntries]

theorem records_closure_le (ok : g.Valid) (free : g.summary.backrefGroups = [])
    (entry : g.Entry pc) (s : Scheduler) : (g.summary.closure s pc).records ≤
      g.summary.blocks.length + g.summary.extensions + 1 := by
  have most := g.sum_weight_le
  have le := g.records_explore s (2 * g.summary.size + 1) pc { scope := s.scope }
  have total : ((g.summary.entries s (2 * g.summary.size + 1) pc
      { scope := s.scope }).map g.weight).sum ≤
        (g.summary.blocks.map g.weight).sum + 1 := by
    by_cases abs : g.Absorbed pc
    · have plain := (abs.continues ok).bytes
      simp only [isByteRange, Bool.and_eq_true, Option.isNone_iff_eq_none] at plain
      rw [abs.entries_eq ok s _ rfl, map_singleton, sum_singleton, weight, plain.2]
      exact Nat.le_add_left _ _
    · have tally : g.Tally [pc] (g.summary.entries s (2 * g.summary.size + 1) pc
          { scope := s.scope }) _ _ _ :=
        tally_explore ok free _ ⟨entry.reachable ok, abs⟩ _
      have lt := fun j mem => (mem_blocks ok).mpr (tally.blocks j mem)
      obtain ⟨ordered, perm, sublist⟩ := subperm_of_subset (tally.nodup ok entry) lt
      rw [← (perm.map g.weight).sum_eq]
      exact Nat.le_add_right_of_le ((sublist.map g.weight).sum_le_sum fun _ _ => Nat.zero_le _)
  have none : ({ scope := s.scope } : Exploration).records = 0 := rfl
  change (g.summary.explore s (2 * g.summary.size + 1) pc { scope := s.scope }).records ≤ _
  omega

/-- Without backreferences, the outbox has room for all records of a closure from where a thread can
be entered, so that compiled code, taken for `Native.Compiled.runner`, computes it without the
interpreter. The code of a block writes as many records as are counted for it, and no other code
writes any. -/
theorem outbox_suffices {graph : Graph} {pc : Nat} {analysis : Analysis}
    (accepted : graph.analyze = .ok analysis) (noBackrefs : graph.NoBackreferences)
    (sched : Scheduler) (entry : graph.Entry pc) :
    (analysis.closure sched pc).records ≤ analysis.blocks.length + analysis.extensions + 1 ∧
      (∀ compiled, Native.compile graph.automaton analysis = .ok compiled →
        (compiled.runner sched pc).notices = []) ∧
      (∀ next block lines, Native.blockLines graph.automaton analysis next block = .ok lines →
        lines.countP Native.Line.writesRecord = Native.recordCount analysis block) ∧
      (Native.stubLines ++ Native.runtimeLines).countP Native.Line.writesRecord = 0 := by
  obtain ⟨valid, rfl⟩ := analyze_eq_ok accepted
  have free := noBackrefs.backrefGroups_eq
  have bound := records_closure_le valid free entry sched
  refine ⟨bound, fun compiled compiles => ?_, fun _ _ _ => Native.countP_writesRecord, rfl⟩
  unfold Native.compile Except.map at compiles
  split at compiles
  · simp at compiles
  · cases compiles
    have capacity : Native.outboxCapacity graph.summary =
        graph.summary.blocks.length + graph.summary.extensions + 1 := by
      simp [Native.outboxCapacity, Analysis.hasBackrefs, free]
    have inside : pc < graph.summary.size := (entry.reachable valid).lt valid
    rw [Native.Compiled.runner, if_pos inside]
    dsimp only
    rw [capacity, if_neg (Nat.not_lt.mpr bound)]

/-- The automaton of any number of `a` or digits. -/
def mixed : Graph where
  automaton :=
    { insts := #[{ op := .alt, out := 1, out1 := 4 }, { op := .alt, out := 2, out1 := 3 },
        { op := .byteRange, lo := 0x61, hi := 0x61, out := 0 }, { op := .byteRange, out := 0 },
        { op := .accept }]
      start := 0
      slots := 2 }
  overlay :=
    [(3, [{ kind := .category, arg := 0, out := 0 }, { kind := .notCategory, arg := 0, out := 0 }])]

/-- At an `a`, all choices of the loop write their records. -/
theorem outbox_mixed : ∃ sched : Scheduler,
    sched = (Scheduler.new 5 0).init #[0x61] mixed.summary.start 0 2 ∧
    (mixed.summary.closure sched mixed.start).records = 4 ∧
    (mixed.summary.closure sched mixed.start).records ≤
      mixed.summary.blocks.length + mixed.summary.extensions + 1 ∧
    mixed.summary.blocks.length + mixed.summary.extensions + 1 = 8 := by
  have accepted : mixed.analyze = .ok mixed.summary := analyze_of_validate (by decide +kernel)
  have noBackrefs : mixed.NoBackreferences := fun _ _ => forall_extensions (by decide)
  exact ⟨_, rfl, by decide +kernel, (outbox_suffices accepted noBackrefs _ .start).1,
    by decide +kernel⟩

end Graph

end Rematch
