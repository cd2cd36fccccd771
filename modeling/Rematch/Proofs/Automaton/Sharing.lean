import Rematch.Proofs.Automaton.Edges
import Mathlib.Algebra.BigOperators.Group.List.Basic
import Mathlib.Order.Interval.Finset.Nat

/-!
Shared instructions. The analysis marks what is reachable from the start and counts the edges into
each instruction. A trail is a way through the graph that consumes nothing and begins where a thread
can be entered. When a trail comes back to an instruction, that instruction is shared: this is why
it is enough to keep shared instructions from being entered twice.
-/

namespace Rematch

open List

namespace Graph

variable {g : Graph} {pc : Nat}
variable {ms : Array Bool} {sources : List Nat} {t : Nat} {edges : Nat → List Nat}

def isMarked (marks : Array Bool) (pc : Nat) : Bool := marks.getD pc false

def unmarked (marks : Array Bool) : Finset Nat :=
  (Finset.range marks.size).filter fun pc => isMarked marks pc = false

theorem lt_of_isMarked (got : isMarked ms pc = true) : pc < ms.size := by
  by_contra outside
  rw [isMarked, Array.getD_eq_getD_getElem?, Array.getElem?_eq_none (Nat.not_lt.mp outside)] at got
  simp at got

theorem isMarked_set (lt : t < ms.size) (pc : Nat) :
    isMarked (ms.setIfInBounds t true) pc = (isMarked ms pc || pc == t) := by
  simp only [isMarked, Array.getD_eq_getD_getElem?, Array.getElem?_setIfInBounds]
  by_cases eq : t = pc
  · subst eq
    simp [lt]
  · simp [eq, Ne.symm eq]

theorem card_unmarked_set (lt : t < ms.size) (new : isMarked ms t = false) :
    (unmarked (ms.setIfInBounds t true)).card + 1 = (unmarked ms).card := by
  have erased : unmarked (ms.setIfInBounds t true) = (unmarked ms).erase t := by
    ext j
    simp only [unmarked, Finset.mem_filter, Finset.mem_range, Finset.mem_erase,
      Array.size_setIfInBounds, isMarked_set lt]
    by_cases eq : j = t <;> simp [eq]
  rw [erased]
  exact Finset.card_erase_add_one (by simp [unmarked, lt, new])

/-- Marking keeps what is marked, marks the targets, and puts the new ones on the work list. -/
structure Marks (targets : List Nat) (work : List Nat) (marks : Array Bool)
    (after : List Nat × Array Bool) : Prop where
  size : after.2.size = marks.size
  marked_iff : ∀ pc, isMarked after.2 pc = true ↔
    isMarked marks pc = true ∨ pc ∈ targets ∧ pc < marks.size
  work_iff : ∀ pc, pc ∈ after.1 ↔
    pc ∈ work ∨ pc ∈ targets ∧ pc < marks.size ∧ isMarked marks pc = false
  balance : (unmarked after.2).card + after.1.length = (unmarked marks).card + work.length

theorem getD_eq_false_iff : ms.getD t true = false ↔ t < ms.size ∧ isMarked ms t = false := by
  simp only [isMarked, Array.getD_eq_getD_getElem?]
  by_cases lt : t < ms.size <;> simp [lt]

theorem mark_marks (ts work : List Nat) (ms : Array Bool) :
    Marks ts work ms (mark ts (work, ms)) := by
  induction ts generalizing work ms with
  | nil => exact ⟨rfl, by simp [mark], by simp [mark], rfl⟩
  | cons t r ih =>
    unfold mark
    split
    · next known =>
      have skip : ¬(t < ms.size ∧ isMarked ms t = false) := by simp [← getD_eq_false_iff, known]
      obtain ⟨size, markedIff, workIff, balance⟩ := ih work ms
      refine ⟨size, fun pc => ?_, fun pc => ?_, balance⟩
      · rw [markedIff, mem_cons]
        grind
      · rw [workIff, mem_cons]
        grind
    · next unknown =>
      obtain ⟨lt, new⟩ := getD_eq_false_iff.mp (by simpa using unknown)
      obtain ⟨size, markedIff, workIff, balance⟩ := ih (t :: work) (ms.setIfInBounds t true)
      rw [Array.size_setIfInBounds] at size markedIff workIff
      have fewer := card_unmarked_set lt new
      refine ⟨size, fun pc => ?_, fun pc => ?_, ?_⟩
      · rw [markedIff, isMarked_set lt, mem_cons]
        grind
      · rw [workIff, isMarked_set lt, mem_cons, mem_cons]
        grind
      · rw [balance, length_cons]
        omega

/-- All successors of marked instructions are marked, as far as they are inside. -/
def Closed (graph : Graph) (marks : Array Bool) : Prop :=
  ∀ pc, isMarked marks pc = true → ∀ target ∈ graph.successors pc, target < marks.size →
    isMarked marks target = true

theorem markReachable_closed (g : Graph) (n : Nat) (work : List Nat) (ms : Array Bool)
    (enough : (unmarked ms).card + work.length ≤ n)
    (pend : ∀ pc, isMarked ms pc = true → pc ∈ work ∨
      ∀ t ∈ g.successors pc, t < ms.size → isMarked ms t = true) :
    g.Closed (g.markReachable n (work, ms)) ∧ (g.markReachable n (work, ms)).size = ms.size ∧
      ∀ pc, isMarked ms pc = true → isMarked (g.markReachable n (work, ms)) pc = true := by
  induction n generalizing work ms with
  | zero =>
    have empty : work = [] := length_eq_zero_iff.mp (by omega)
    refine ⟨?_, rfl, fun pc got => got⟩
    intro pc got
    exact (pend pc got).resolve_left (by simp [empty])
  | succ n ih =>
    cases work with
    | nil =>
      refine ⟨?_, rfl, fun pc got => got⟩
      intro pc got
      exact (pend pc got).resolve_left (by simp)
    | cons a r =>
      have spec := mark_marks (g.successors a) r ms
      rw [markReachable]
      generalize mark (g.successors a) (r, ms) = v at spec
      obtain ⟨work', ms'⟩ := v
      obtain ⟨size, markedIff, workIff, balance⟩ := spec
      dsimp only at size markedIff workIff balance
      obtain ⟨closed, size', kept⟩ := ih work' ms' (by rw [length_cons] at enough; omega) (by
          intro pc got
          rw [size]
          by_cases old : isMarked ms pc = true
          · rcases pend pc old with inWork | done
            · rcases mem_cons.mp inWork with rfl | inRest
              · right
                intro t mem lt
                exact (markedIff t).mpr (.inr ⟨mem, lt⟩)
              · exact .inl ((workIff pc).mpr (.inl inRest))
            · right
              intro t mem lt
              exact (markedIff t).mpr (.inl (done t mem lt))
          · obtain ⟨mem, lt⟩ := ((markedIff pc).mp got).resolve_left old
            exact .inl ((workIff pc).mpr (.inr ⟨mem, lt, by simpa using old⟩)))
      exact ⟨closed, size'.trans size, fun pc got => kept pc ((markedIff pc).mpr (.inl got))⟩

/-- The traversal ends: steps beyond those for what is unmarked and what is waiting find no work. -/
theorem markReachable_of_le (g : Graph) {n m : Nat} {work : List Nat} {ms : Array Bool}
    (enough : (unmarked ms).card + work.length ≤ n) (le : n ≤ m) :
    g.markReachable m (work, ms) = g.markReachable n (work, ms) := by
  induction n generalizing m work ms with
  | zero =>
    obtain rfl : work = [] := length_eq_zero_iff.mp (by omega)
    cases m <;> rfl
  | succ n ih =>
    obtain ⟨m, rfl⟩ := Nat.exists_eq_add_of_le' (Nat.le_trans (Nat.succ_pos n) le)
    cases work with
    | nil => rfl
    | cons a r =>
      have balance := (mark_marks (g.successors a) r ms).balance
      rw [length_cons] at enough
      exact ih (by omega) (Nat.le_of_succ_le_succ le)

theorem card_unmarked_start (g : Graph) :
    let begun := mark [g.start] ([], Array.replicate g.size false)
    (unmarked begun.2).card + begun.1.length ≤ g.size + 1 := by
  have le : (unmarked (Array.replicate g.size false)).card ≤ g.size := by
    refine Nat.le_trans (Finset.card_filter_le _ _) ?_
    simp
  have balance := (mark_marks [g.start] [] (Array.replicate g.size false)).balance
  exact balance.trans_le (Nat.le_succ_of_le le)

/-- Whether the analysis finds an instruction reachable. -/
def Reachable (graph : Graph) (pc : Nat) : Prop := isMarked graph.reachable pc = true

section

variable (ok : g.Valid)
include ok

theorem Valid.exit_lt {out : Int} (lt : out.toNat < g.size) : g.exit out < g.size :=
  ok.followFrom_lt lt g.size

theorem Valid.start_lt : g.start < g.size := ok.exit_lt ok.start

theorem Valid.successors_lt (mem : t ∈ g.successors pc) : t < g.size := by
  unfold successors at mem
  cases plain : g.extensionsAt? pc with
  | some es =>
    simp only [plain] at mem
    obtain ⟨ext, hm, rfl⟩ := mem_map.mp mem
    exact ok.exit_lt ((ok.extensions pc es plain).2 ext hm).2
  | none =>
    simp only [plain] at mem
    have fst : (g.inst pc).op.hasExit = true → g.exit (g.inst pc).out < g.size :=
      fun hasExit => ok.exit_lt (ok.exit pc hasExit)
    cases op : (g.inst pc).op with
    | alt | altMatch =>
      have snd := ok.exit_lt (ok.secondExit pc (by simp [op]))
      have fst := fst (by simp [op, Opcode.hasExit])
      simp only [op, mem_cons, not_mem_nil, or_false] at mem
      rcases mem with rfl | rfl
      · exact fst
      · exact snd
    | byteRange | capture | emptyWidth | nop =>
      have fst := fst (by simp [op, Opcode.hasExit])
      simp only [op, mem_singleton] at mem
      rw [mem]
      exact fst
    | fail | accept | unknown => simp [op] at mem

theorem Valid.reachable_closed : g.Closed g.reachable ∧ g.reachable.size = g.size ∧
      g.Reachable g.start := by
  have blank : ∀ pc, isMarked (Array.replicate g.size false) pc = false := by
    intro pc
    simp only [isMarked, Array.getD_eq_getD_getElem?, Array.getElem?_replicate]
    split <;> rfl
  have spec := mark_marks [g.start] [] (Array.replicate g.size false)
  have begun := markReachable_closed g (g.size + 1)
    (mark [g.start] ([], Array.replicate g.size false)).1
    (mark [g.start] ([], Array.replicate g.size false)).2 g.card_unmarked_start
    (by
      intro pc got
      left
      rcases (spec.marked_iff pc).mp got with old | ⟨mem, lt⟩
      · simp [blank] at old
      · exact (spec.work_iff pc).mpr (.inr ⟨mem, lt, blank pc⟩))
  obtain ⟨closed, size, kept⟩ := begun
  have sizeEq : g.reachable.size = g.size := by
    refine size.trans (spec.size.trans ?_)
    simp
  refine ⟨closed, sizeEq, kept g.start ((spec.marked_iff g.start).mpr (.inr ⟨?_, ?_⟩))⟩
  · simp
  · simpa using ok.start_lt

theorem Reachable.lt (reach : g.Reachable pc) : pc < g.size := by
  rw [← ok.reachable_closed.2.1]
  exact lt_of_isMarked reach

theorem Reachable.successor (reach : g.Reachable pc) (mem : t ∈ g.successors pc) :
    g.Reachable t := by
  apply ok.reachable_closed.1 pc reach t mem
  rw [ok.reachable_closed.2.1]
  exact ok.successors_lt mem

end

theorem mem_marked : pc ∈ marked ms ↔ isMarked ms pc = true := by
  simp only [marked, mem_filter, mem_range]
  exact ⟨fun got => got.2, fun found => ⟨lt_of_isMarked found, found⟩⟩

theorem getD_foldl_modify (ts : List Nat) (counts : Array Nat) (lt : pc < counts.size) :
    (ts.foldl (fun counts t => counts.modify t (· + 1)) counts).getD pc 0 =
      counts.getD pc 0 + ts.count pc := by
  induction ts generalizing counts with
  | nil => simp
  | cons t r ih =>
    rw [foldl_cons, ih _ (by simpa using lt), count_cons]
    simp only [Array.getD_eq_getD_getElem?, Array.getElem?_modify]
    by_cases eq : t = pc
    · subst eq
      simp [lt]
      omega
    · simp [eq]

theorem indegree_eq (sources : List Nat) (lt : pc < g.size) :
    (g.indegrees sources).getD pc 0 = (g.start :: g.edgeTargets sources).count pc := by
  rw [indegrees, getD_foldl_modify _ _ (by simpa using lt)]
  simp [Array.getD_eq_getD_getElem?, lt]

theorem summary_indegree (g : Graph) : g.summary.indegree = g.indegrees (marked g.reachable) := by
  simp [summary]

theorem two_le_count_flatMap {a b : Nat} (firstListed : a ∈ sources) (secondListed : b ∈ sources)
    (ne : a ≠ b) (firstEdge : pc ∈ edges a) (secondEdge : pc ∈ edges b) :
    2 ≤ (sources.flatMap edges).count pc := by
  obtain ⟨u, v, rfl⟩ := mem_iff_append.mp firstListed
  have firstCount : 1 ≤ (edges a).count pc := count_pos_iff.mpr firstEdge
  have other : b ∈ u ∨ b ∈ v := by simpa [Ne.symm ne] using secondListed
  rw [flatMap_append, flatMap_cons, count_append, count_append]
  rcases other with inBefore | inAfter
  · have n : 1 ≤ (u.flatMap edges).count pc :=
      count_pos_iff.mpr (mem_flatMap.mpr ⟨b, inBefore, secondEdge⟩)
    omega
  · have n : 1 ≤ (v.flatMap edges).count pc :=
      count_pos_iff.mpr (mem_flatMap.mpr ⟨b, inAfter, secondEdge⟩)
    omega

theorem two_le_count_of_twice {m : Nat → List Nat} {src : Nat}
    (mem : src ∈ sources) (edge : pc ∈ edges src) (another : pc ∈ m src) :
    2 ≤ (sources.flatMap fun src => edges src ++ m src).count pc := by
  obtain ⟨u, v, rfl⟩ := mem_iff_append.mp mem
  have n : 1 ≤ (edges src).count pc := count_pos_iff.mpr edge
  have count' : 1 ≤ (m src).count pc := count_pos_iff.mpr another
  rw [flatMap_append, flatMap_cons, count_append, count_append,
    count_append]
  omega

/-- Where a thread can be entered: at the start, after a byte range, or after an extension. -/
inductive Entry (graph : Graph) : Nat → Prop where
  | start : Entry graph graph.start
  | bytes {pc : Nat} (reachable : graph.Reachable pc) (byteRange : graph.isByteRange pc = true) :
      Entry graph (graph.exit (graph.inst pc).out)
  | extension {pc : Nat} {exts : List Extension} {ext : Extension}
      (reachable : graph.Reachable pc) (found : graph.extensionsAt? pc = some exts)
      (listed : ext ∈ exts) : Entry graph (graph.exit ext.out)

/-- One instruction after the other without consuming anything. -/
structure Stays (graph : Graph) (pc next : Nat) : Prop where
  listed : next ∈ graph.successors pc
  notBytes : graph.isByteRange pc = false

theorem Stays.out (plain : g.extensionsAt? pc = none)
    (passes : (g.inst pc).op ∈ [Opcode.alt, .altMatch, .capture, .emptyWidth, .nop]) :
    g.Stays pc (g.exit (g.inst pc).out) := by
  simp only [mem_cons, not_mem_nil, or_false] at passes
  rcases passes with op | op | op | op | op <;>
    exact ⟨by simp [successors, plain, op], by simp [isByteRange, op]⟩

theorem Stays.out1 (plain : g.extensionsAt? pc = none)
    (forks : (g.inst pc).op ∈ [Opcode.alt, .altMatch]) : g.Stays pc (g.exit (g.inst pc).out1) := by
  simp only [mem_cons, not_mem_nil, or_false] at forks
  rcases forks with op | op <;> exact ⟨by simp [successors, plain, op], by simp [isByteRange, op]⟩

/-- A way from an entry or a shared instruction to an instruction that consumes nothing and repeats
nothing; the last instruction comes first. -/
inductive Trail (graph : Graph) : List Nat → Nat → Prop where
  | entry {pc : Nat} (entry : graph.Entry pc) : Trail graph [] pc
  | shared {pc : Nat} (reachable : graph.Reachable pc)
      (isShared : graph.summary.isShared pc = true) : Trail graph [] pc
  | step {path : List Nat} {last pc : Nat} (before : Trail graph path last) (new : last ∉ path)
      (stays : graph.Stays last pc) : Trail graph (last :: path) pc

theorem successors_of_isByteRange (rng : g.isByteRange pc = true) :
    g.successors pc = [g.exit (g.inst pc).out] := by
  simp only [isByteRange, Bool.and_eq_true, decide_eq_true_eq, Option.isNone_iff_eq_none] at rng
  simp [successors, rng.1, rng.2]

theorem successors_of_extensions {es : List Extension} (got : g.extensionsAt? pc = some es) :
    g.successors pc = es.map fun ext => g.exit ext.out := by
  simp [successors, got]

theorem Entry.reachable (ok : g.Valid) (entry : g.Entry pc) : g.Reachable pc := by
  cases entry with
  | start => exact ok.reachable_closed.2.2
  | bytes reach rng => exact reach.successor ok (by simp [successors_of_isByteRange rng])
  | extension reach got mem =>
    apply reach.successor ok
    rw [successors_of_extensions got]
    exact mem_map.mpr ⟨_, mem, rfl⟩

namespace Trail

variable {p : List Nat}

theorem nodup (trail : g.Trail p pc) : p.Nodup := by
  induction trail with
  | entry | shared => exact nodup_nil
  | step _ new _ ih => exact nodup_cons.mpr ⟨new, ih⟩

theorem reachable (ok : g.Valid) (trail : g.Trail p pc) :
    g.Reachable pc ∧ ∀ j ∈ p, g.Reachable j := by
  induction trail with
  | entry entry => exact ⟨entry.reachable ok, by simp⟩
  | shared reach => exact ⟨reach, by simp⟩
  | step _ _ stays ih =>
    refine ⟨ih.1.successor ok stays.listed, ?_⟩
    intro j mem
    rcases mem_cons.mp mem with rfl | earlier
    · exact ih.1
    · exact ih.2 j earlier

theorem length_le (ok : g.Valid) (trail : g.Trail p pc) : p.length ≤ g.size := by
  have lt : p ⊆ List.range g.size := by
    intro j mem
    exact mem_range.mpr (((trail.reachable ok).2 j mem).lt ok)
  simpa using (subperm_of_subset trail.nodup lt).length_le

theorem cut (trail : g.Trail p pc) {j : Nat} (on : j ∈ p) :
    ∃ u v, p = u ++ j :: v ∧ g.Trail v j := by
  induction trail with
  | entry | shared => simp at on
  | @step path z pc earlier new stays ih =>
    rcases mem_cons.mp on with rfl | further
    · exact ⟨[], path, rfl, earlier⟩
    · obtain ⟨u, v, parts, part⟩ := ih further
      exact ⟨z :: u, v, by rw [parts, cons_append], part⟩

variable (ok : g.Valid) (trail : g.Trail p pc) (on : pc ∈ p)

include ok trail on

theorem two_le_count :
    2 ≤ (g.start :: g.edgeTargets (marked g.reachable)).count pc := by
  obtain ⟨u, v, parts, part⟩ := trail.cut on
  have lt : pc < g.size := (trail.reachable ok).1.lt ok
  cases trail with
  | entry | shared => simp at on
  | @step path z pc earlier new stays =>
    have lastListed : z ∈ marked g.reachable := mem_marked.mpr (earlier.reachable ok).1
    have lastEdge : pc ∈ g.successors z ++ g.extensionTargets z := mem_append_left _ stays.listed
    cases part with
    | shared _ isShared =>
      rw [← indegree_eq _ lt, ← summary_indegree]
      exact of_decide_eq_true isShared
    | entry entry =>
      rw [count_cons]
      cases entry with
      | start =>
        have n : 1 ≤ (g.edgeTargets (marked g.reachable)).count g.start :=
          count_pos_iff.mpr (mem_flatMap.mpr ⟨z, lastListed, lastEdge⟩)
        simp only [beq_self_eq_true, if_true]
        omega
      | @bytes src reach rng =>
        refine Nat.le_add_right_of_le (two_le_count_flatMap lastListed (mem_marked.mpr reach) ?_
          lastEdge (by simp [successors_of_isByteRange rng]))
        rintro rfl
        have notBytes := stays.notBytes
        rw [rng] at notBytes
        exact Bool.noConfusion notBytes
      | @extension src es ext reach got mem =>
        have target : g.exit ext.out ∈ es.map fun ext => g.exit ext.out :=
          mem_map.mpr ⟨ext, mem, rfl⟩
        refine Nat.le_add_right_of_le (two_le_count_of_twice (mem_marked.mpr reach) ?_ ?_)
        · rw [successors_of_extensions got]
          exact target
        · rw [extensionTargets, got]
          exact target
    | @step v previous pc earlierPart newPart staysPart =>
      rw [count_cons]
      refine Nat.le_add_right_of_le (two_le_count_flatMap lastListed
        (mem_marked.mpr (earlierPart.reachable ok).1) ?_ lastEdge
        (mem_append_left _ staysPart.listed))
      rintro rfl
      apply new
      cases u with
      | nil =>
        obtain ⟨-, rest⟩ := cons.inj parts
        simp [rest]
      | cons =>
        obtain ⟨-, rest⟩ := cons.inj parts
        simp [rest]

theorem isShared :
    g.summary.isShared pc = true := by
  have lt : pc < g.size := (trail.reachable ok).1.lt ok
  have n := trail.two_le_count ok on
  rw [← indegree_eq _ lt, ← summary_indegree] at n
  exact decide_eq_true n

end Trail

end Graph

end Rematch
