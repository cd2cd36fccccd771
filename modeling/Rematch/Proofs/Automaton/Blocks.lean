import Rematch.Proofs.Automaton.Runs

/-!
Blocks: the reachable instructions that are entered for themselves. An instruction that continues a
run has one way in, which comes from the byte range before it. So the runs have nothing in common,
every reachable byte range is in one of them, and whatever leads out of a block leads to a block.
-/

namespace Rematch

open List

namespace Graph

variable {g : Graph} {pc t : Nat}
variable {l ms p : List Nat} {n size : Nat}

section Reachability

variable {motive : Nat → Prop}

theorem markReachable_induction (step : ∀ pc, motive pc → ∀ t ∈ g.successors pc, motive t)
    (n : Nat) {work : List Nat} {ms : Array Bool}
    (known : ∀ pc, isMarked ms pc = true → motive pc) (pend : ∀ pc ∈ work, motive pc) :
    ∀ pc, isMarked (g.markReachable n (work, ms)) pc = true → motive pc := by
  induction n generalizing work ms with
  | zero => exact known
  | succ n ih =>
    cases work with
    | nil => exact known
    | cons a r =>
      have next := step a (pend a (.head _))
      have marked := mark_marks (g.successors a) r ms
      refine ih (fun pc got => ?_) (fun pc found => ?_)
      · rcases (marked.marked_iff pc).mp got with old | ⟨mem, -⟩
        · exact known pc old
        · exact next pc mem
      · rcases (marked.work_iff pc).mp found with old | ⟨mem, -⟩
        · exact pend pc (.tail _ old)
        · exact next pc mem

theorem Reachable.induction (ok : g.Valid) (reach : g.Reachable pc) (start : motive g.start)
    (step : ∀ pc, g.Reachable pc → motive pc → ∀ t ∈ g.successors pc, motive t) : motive pc := by
  have fst := ok.reachable_closed.2.2
  have marked := mark_marks [g.start] [] (Array.replicate g.size false)
  have both : ∀ pc, g.Reachable pc → g.Reachable pc ∧ motive pc := by
    refine markReachable_induction (fun pc known t mem => ?_) _ (fun pc got => ?_)
      (fun pc found => ?_)
    · exact ⟨known.1.successor ok mem, step pc known.1 known.2 t mem⟩
    · rcases (marked.marked_iff pc).mp got with old | ⟨mem, -⟩
      · simp only [isMarked, Array.getD_eq_getD_getElem?, Array.getElem?_replicate] at old
        split at old <;> simp at old
      · rw [mem_singleton.mp mem]
        exact ⟨fst, start⟩
    · rcases (marked.work_iff pc).mp found with old | ⟨mem, -⟩
      · simp at old
      · rw [mem_singleton.mp mem]
        exact ⟨fst, start⟩
  exact (both pc reach).2

end Reachability

section Edges

theorem isShared_of_count (lt : pc < g.size)
    (count : 2 ≤ (g.start :: g.edgeTargets (marked g.reachable)).count pc) :
    g.summary.isShared pc = true := by
  rw [← indegree_eq _ lt, ← summary_indegree] at count
  exact decide_eq_true count

variable (ok : g.Valid) (unshared : g.summary.isShared t = false)

include ok unshared

theorem eq_of_unshared {a b : Nat} (firstReachable : g.Reachable a)
    (secondReachable : g.Reachable b) (firstEdge : t ∈ g.successors a)
    (secondEdge : t ∈ g.successors b) : a = b := by
  by_contra ne
  have shared := isShared_of_count (ok.successors_lt firstEdge) (by
    rw [count_cons]
    exact Nat.le_add_right_of_le (two_le_count_flatMap (mem_marked.mpr firstReachable)
      (mem_marked.mpr secondReachable) ne (mem_append_left _ firstEdge)
      (mem_append_left _ secondEdge)))
  simp [unshared] at shared

variable (reach : g.Reachable pc)

include reach

theorem ne_start_of_unshared (edge : t ∈ g.successors pc) : t ≠ g.start := by
  rintro rfl
  have count : 1 ≤ (g.edgeTargets (marked g.reachable)).count g.start :=
    count_pos_iff.mpr (mem_flatMap.mpr
      ⟨pc, mem_marked.mpr reach, mem_append_left _ edge⟩)
  have shared := isShared_of_count ok.start_lt (by
    rw [count_cons, if_pos (by simp)]
    omega)
  simp [unshared] at shared

theorem extensionsAt?_of_unshared (edge : t ∈ g.successors pc) : g.extensionsAt? pc = none := by
  cases got : g.extensionsAt? pc with
  | none => rfl
  | some es =>
    have another : t ∈ g.extensionTargets pc := by
      rw [extensionTargets, got, Option.getD_some, ← successors_of_extensions got]
      exact edge
    have shared := isShared_of_count (ok.successors_lt edge) (by
      rw [count_cons]
      exact Nat.le_add_right_of_le (two_le_count_of_twice (mem_marked.mpr reach) edge another))
    simp [unshared] at shared

theorem count_successors_le : (g.successors pc).count t ≤ 1 := by
  by_contra many
  have edge : t ∈ g.successors pc := count_pos_iff.mp (by omega)
  obtain ⟨u, v, parts⟩ := mem_iff_append.mp (mem_marked.mpr reach)
  have shared := isShared_of_count (ok.successors_lt edge) (by
    rw [count_cons, edgeTargets, parts, flatMap_append, flatMap_cons, count_append,
      count_append, count_append]
    omega)
  simp [unshared] at shared

end Edges

/-- Whether an instruction continues the run of the one before. -/
def joined (graph : Graph) : Nat → Bool :=
  graph.joins (graph.indegrees (marked graph.reachable))
    (graph.predecessors (marked graph.reachable))

def fused (graph : Graph) : List (List Nat) := graph.runs graph.joined (marked graph.reachable)

/-- The instructions where a chain of byte ranges begins. -/
def heads (graph : Graph) : List Nat :=
  (marked graph.reachable).filter fun pc => graph.isByteRange pc && !graph.joined pc

theorem mem_heads : pc ∈ g.heads ↔
    g.Reachable pc ∧ g.isByteRange pc = true ∧ g.joined pc = false := by
  simp [heads, mem_marked, Reachable]

theorem successors_of_predecessors {sources : List Nat} {known : Array (Option Nat)} {src : Nat}
    (got : (sources.foldl (fun known pc => (g.successors pc).foldl
      (fun known tgt => known.setIfInBounds tgt (some pc)) known) known).getD t none = some src) :
    known.getD t none = some src ∨ src ∈ sources ∧ t ∈ g.successors src := by
  induction sources generalizing known with
  | nil => exact .inl got
  | cons a r ih =>
    rcases ih got with kept | ⟨mem, edge⟩
    · have set (ts : List Nat) {known : Array (Option Nat)}
          (kept : (ts.foldl (fun known tgt => known.setIfInBounds tgt (some a))
            known).getD t none = some src) :
          known.getD t none = some src ∨ src = a ∧ t ∈ ts := by
        induction ts generalizing known with
        | nil => exact .inl kept
        | cons n ts ih =>
          rcases ih kept with kept | ⟨eq, mem⟩
          · simp only [Array.getD_eq_getD_getElem?, Array.getElem?_setIfInBounds] at kept
            split at kept
            · next here =>
              split at kept
              · exact .inr ⟨(Option.some.inj kept).symm, here ▸ .head _⟩
              · simp at kept
            · exact .inl (by rw [Array.getD_eq_getD_getElem?]; exact kept)
          · exact .inr ⟨eq, .tail _ mem⟩
      rcases set _ kept with kept | ⟨rfl, edge⟩
      · exact .inl kept
      · exact .inr ⟨.head _, edge⟩
    · exact .inr ⟨.tail _ mem, edge⟩

/-- What continues a run has one way in, from a byte range. -/
structure Continues (graph : Graph) (pc : Nat) : Prop where
  notStart : pc ≠ graph.start
  unshared : graph.summary.isShared pc = false
  bytes : graph.isByteRange pc = true
  before : ∃ source, graph.Reachable source ∧ graph.isByteRange source = true ∧
    pc ∈ graph.successors source

theorem continues_of_joined (joined : g.joined pc = true) : g.Continues pc := by
  simp only [Graph.joined, joins, Bool.and_eq_true, bne_iff_ne, ne_eq, decide_eq_true_eq] at joined
  obtain ⟨⟨⟨notStart, single⟩, bs⟩, pre⟩ := joined
  refine ⟨notStart, ?_, bs, ?_⟩
  · rw [Analysis.isShared, summary_indegree, single]
    rfl
  · obtain ⟨src, got, isBytes⟩ := Option.any_eq_true _ _ |>.mp pre
    rcases successors_of_predecessors got with blank | ⟨mem, edge⟩
    · simp only [Array.getD_eq_getD_getElem?, Array.getElem?_replicate] at blank
      split at blank <;> simp at blank
    · exact ⟨src, mem_marked.mp mem, isBytes, edge⟩

section Chains

variable {joins : Nat → Bool}

theorem head?_chain (n pc : Nat) : (g.chain joins n pc).head? = some pc := by
  cases n <;> rfl

theorem joins_of_mem_tail_chain (n : Nat) {h : Nat} (mem : pc ∈ (g.chain joins n h).tail) :
    joins pc = true := by
  induction n generalizing h with
  | zero => simp [chain] at mem
  | succ n ih =>
    rw [chain, tail_cons] at mem
    split at mem
    · next joined =>
      cases n with
      | zero =>
        rw [chain, mem_singleton] at mem
        exact mem ▸ joined
      | succ n =>
        rw [chain, mem_cons] at mem
        rcases mem with rfl | later
        · exact joined
        · exact ih (by rw [chain]; exact later)
    · simp at mem

theorem mem_chain_of_joins {h : Nat} (short : (g.chain joins n h).length ≤ n)
    (mem : pc ∈ g.chain joins n h) (joined : joins (g.exit (g.inst pc).out) = true) :
    g.exit (g.inst pc).out ∈ g.chain joins n h := by
  induction n generalizing h with
  | zero => simp [chain] at short
  | succ n ih =>
    rw [chain] at short mem ⊢
    split at short
    · next goesOn =>
      rw [if_pos goesOn] at mem ⊢
      refine .tail _ ?_
      rcases mem_cons.mp mem with rfl | later
      · exact mem_of_mem_head? (head?_chain n _)
      · exact ih (by simpa using short) later
    · next ends =>
      rw [if_neg ends, mem_singleton] at mem
      subst mem
      exact absurd joined ends

theorem chain_of_le {m h : Nat} (short : (g.chain joins n h).length ≤ n) (le : n ≤ m) :
    g.chain joins m h = g.chain joins n h := by
  induction n generalizing m h with
  | zero => simp [chain] at short
  | succ n ih =>
    obtain ⟨m, rfl⟩ := Nat.exists_eq_add_of_le' (Nat.le_trans (Nat.succ_pos n) le)
    rw [chain] at short ⊢
    rw [chain]
    split at short
    · next goesOn =>
      rw [if_pos goesOn, if_pos goesOn, ih (by simpa using short) (Nat.le_of_succ_le_succ le)]
    · next ends => rw [if_neg ends, if_neg ends]

end Chains

/-- The chain of a head: reachable byte ranges, of which all but the first continue it. -/
structure Strand (graph : Graph) (members : List Nat) : Prop extends graph.Stretch members where
  begins : ∀ pc, members.head? = some pc → graph.joined pc = false
  goesOn : ∀ pc ∈ members.tail, graph.joined pc = true
  reachable : ∀ pc ∈ members, graph.Reachable pc

theorem chain_of_mem_heads (ok : g.Valid) (mem : pc ∈ g.heads) :
    g.Strand (g.chain g.joined g.size pc) := by
  obtain ⟨reach, bs, notJoined⟩ := mem_heads.mp mem
  obtain ⟨stretch, fst⟩ :=
    stretch_chain (fun _ joined => (continues_of_joined joined).bytes) g.size bs
  refine ⟨stretch, ?_, fun _ => joins_of_mem_tail_chain _, ?_⟩
  · intro j eq
    rw [fst] at eq
    exact Option.some.inj eq ▸ notJoined
  · cases parts : g.chain g.joined g.size pc with
    | nil => simp
    | cons h r =>
      rw [parts] at stretch fst
      obtain rfl : h = pc := by simpa using fst
      exact stretch.reachable ok reach

namespace Strand

variable {a b : List Nat}

theorem step (ch : g.Strand a) {i : Nat} (lt : i + 1 < a.length) :
    g.joined a[i + 1] = true ∧ a[i + 1] ∈ g.successors a[i] := by
  constructor
  · apply ch.goesOn
    rw [← getElem_tail (by simpa using (by omega : i < a.length - 1))]
    exact getElem_mem _
  · rw [successors_of_isByteRange (ch.bytes _ (getElem_mem _)), mem_singleton]
    exact isChain_iff_getElem.mp ch.linked i lt

theorem eq_of_getElem (ok : g.Valid) (one : g.Strand a) (other : g.Strand b) {i i' : Nat}
    (lt : i < a.length) (lt' : i' < b.length) (eq : a[i] = b[i']) : i = i' ∧ a.head? = b.head? := by
  -- Both go back along the only edge until one of the two begins.
  have beg {ms : List Nat} (ch : g.Strand ms) (lt : 0 < ms.length) : g.joined ms[0] = false :=
    ch.begins _ (by rw [head?_eq_getElem?, getElem?_eq_getElem lt])
  induction i generalizing i' with
  | zero =>
    cases i' with
    | zero =>
      rw [head?_eq_getElem?, head?_eq_getElem?, getElem?_eq_getElem lt,
        getElem?_eq_getElem lt', eq]
      exact ⟨rfl, rfl⟩
    | succ i' =>
      have joined := (other.step lt').1
      rw [← eq, beg one lt] at joined
      simp at joined
  | succ i ih =>
    obtain ⟨joined, edge⟩ := one.step lt
    cases i' with
    | zero =>
      rw [eq, beg other lt'] at joined
      simp at joined
    | succ i' =>
      have pre := eq_of_unshared ok (continues_of_joined joined).unshared
        (one.reachable _ (getElem_mem (by omega))) (other.reachable _ (getElem_mem (by omega)))
        edge (eq ▸ (other.step lt').2)
      obtain ⟨rfl, heads⟩ := ih (by omega) (by omega) pre
      exact ⟨rfl, heads⟩

theorem nodup (ok : g.Valid) (ch : g.Strand a) : a.Nodup := by
  refine nodup_iff_injective_getElem.mpr fun i i' eq => Fin.ext ?_
  exact (ch.eq_of_getElem ok ch i.isLt i'.isLt eq).1

theorem length_le (ok : g.Valid) (ch : g.Strand a) : a.length ≤ g.size := by
  have lt : a ⊆ List.range g.size := fun pc mem => mem_range.mpr ((ch.reachable pc mem).lt ok)
  simpa using (subperm_of_subset (ch.nodup ok) lt).length_le

end Strand

/-- Fusing ends: no chain of a head comes back to itself, so none is longer than the automaton, and
it stops where nothing more joins it. -/
theorem chain_of_size_le (ok : g.Valid) (mem : pc ∈ g.heads) {n : Nat} (le : g.size ≤ n) :
    g.chain g.joined n pc = g.chain g.joined g.size pc :=
  chain_of_le ((chain_of_mem_heads ok mem).length_le ok) le

theorem flatten_pieces (pos : 0 < size) (enough : l.length ≤ n) :
    (pieces size n l).flatten = l := by
  induction n generalizing l with
  | zero =>
    rw [length_eq_zero_iff.mp (Nat.le_zero.mp enough)]
    rfl
  | succ m ih =>
    cases l with
    | nil => rfl
    | cons a r =>
      rw [pieces, flatten_cons, ih, take_append_drop]
      · simp only [length_drop, length_cons] at enough ⊢
        omega
      · simp

theorem tail_subset_of_mem_pieces (mem : p ∈ pieces size n l) : p.tail ⊆ l.tail := by
  obtain ⟨k, -, rfl⟩ := exists_drop_of_mem_pieces mem
  rw [← drop_one, ← drop_one, drop_take, drop_drop, Nat.add_comm, ← drop_drop]
  exact Subset.trans (take_subset _ _) (drop_subset _ _)

theorem ne_nil_of_mem_pieces (pos : 0 < size) (mem : p ∈ pieces size n l) : p ≠ [] := by
  obtain ⟨k, lt, rfl⟩ := exists_drop_of_mem_pieces mem
  rw [← length_pos_iff, length_take, length_drop]
  omega

theorem flatten_fused (g : Graph) :
    g.fused.flatten = g.heads.flatMap (g.chain g.joined g.size) := by
  rw [fused, runs, ← heads, flatMap_def, flatMap_def, flatten_flatten, map_map]
  congr 1
  refine map_congr_left fun h _ => ?_
  exact flatten_pieces (by decide) (Nat.le_refl _)

theorem nodup_fused (ok : g.Valid) : g.fused.flatten.Nodup := by
  rw [flatten_fused]
  refine nodup_flatMap.mpr ⟨fun h mem => (chain_of_mem_heads ok mem).nodup ok, ?_⟩
  have nodup : g.heads.Nodup := (nodup_range.filter _).filter _
  refine nodup.imp_of_mem fun {a b} firstListed secondListed ne => ?_
  intro pc inFirst inSecond
  have firstChain := chain_of_mem_heads ok firstListed
  have secondChain := chain_of_mem_heads ok secondListed
  obtain ⟨i, lt, rfl⟩ := mem_iff_getElem.mp inFirst
  obtain ⟨i', lt', eq⟩ := mem_iff_getElem.mp inSecond
  have heads := (firstChain.eq_of_getElem ok secondChain lt lt' eq.symm).2
  rw [head?_chain, head?_chain] at heads
  exact ne (Option.some.inj heads)

theorem eq_of_mem_fused (ok : g.Valid) {a b : List Nat} (inFused : a ∈ g.fused)
    (inFused' : b ∈ g.fused) (mem : pc ∈ a) (mem' : pc ∈ b) : a = b := by
  by_contra ne
  have : Std.Symm (List.Disjoint (α := Nat)) := ⟨fun _ _ apart => apart.symm⟩
  exact (nodup_flatten.mp (nodup_fused ok)).2.forall inFused inFused' ne mem mem'

/-- A part of a chain, of which all but the first continue it. -/
structure Run (graph : Graph) (members : List Nat) : Prop extends graph.Stretch members where
  nonempty : members ≠ []
  goesOn : ∀ pc ∈ members.tail, graph.joined pc = true
  reachable : ∀ pc ∈ members, graph.Reachable pc

theorem run_of_mem_fused (ok : g.Valid) {run : List Nat} (inFused : run ∈ g.fused) : g.Run run := by
  obtain ⟨h, isHead, inPieces⟩ := mem_flatMap.mp inFused
  have ch : g.Strand (g.chain g.joined g.size h) := chain_of_mem_heads ok isHead
  refine ⟨stretch_of_mem_runs (fun _ joined => (continues_of_joined joined).bytes) inFused,
    ne_nil_of_mem_pieces (by decide) inPieces,
    fun pc later => ch.goesOn pc (tail_subset_of_mem_pieces inPieces later),
    fun pc mem => ch.reachable pc ?_⟩
  have lt := mem_flatten.mpr ⟨run, inPieces, mem⟩
  rwa [flatten_pieces (by decide) (Nat.le_refl _)] at lt

theorem Run.getLastD_mem (run : g.Run ms) (pc : Nat) : ms.getLastD pc ∈ ms := by
  rw [getLastD_eq_getLast?, getLast?_eq_some_getLast run.nonempty]
  exact getLast_mem _

theorem Run.exit_mem (run : g.Run ms) (pc : Nat) :
    g.exit (g.inst (ms.getLastD pc)).out ∈ g.successors (ms.getLastD pc) := by
  rw [successors_of_isByteRange (run.bytes _ (run.getLastD_mem pc))]
  exact .head _

theorem Run.exists_before (run : g.Run ms) (later : pc ∈ ms.tail) :
    ∃ i, ∃ lt : i + 1 < ms.length, ms[i + 1] = pc ∧ pc ∈ g.successors ms[i] := by
  obtain ⟨i, lt, rfl⟩ := mem_iff_getElem.mp later
  rw [length_tail] at lt
  refine ⟨i, by omega, (getElem_tail _).symm, ?_⟩
  rw [successors_of_isByteRange (run.bytes _ (getElem_mem _)), mem_singleton,
    getElem_tail]
  exact isChain_iff_getElem.mp run.linked i (by omega)

/-- What comes after an instruction of a run is in the run, unless the instruction is the last. -/
theorem Run.exit_mem_tail (run : g.Run ms) (mem : pc ∈ ms) (default : Nat) :
    pc = ms.getLastD default ∨
      g.exit (g.inst pc).out ∈ ms.tail := by
  obtain ⟨i, lt, rfl⟩ := mem_iff_getElem.mp mem
  by_cases last : i + 1 < ms.length
  · right
    rw [← isChain_iff_getElem.mp run.linked i last,
      ← getElem_tail (by rw [length_tail]; omega)]
    exact getElem_mem _
  · left
    rw [getLastD_eq_getLast?, getLast?_eq_some_getLast run.nonempty, Option.getD_some,
      getLast_eq_getElem]
    congr 1
    omega

theorem exists_fused (ok : g.Valid) (reach : g.Reachable pc) (bs : g.isByteRange pc = true) :
    ∃ run ∈ g.fused, pc ∈ run := by
  rw [← mem_flatten, flatten_fused]
  refine reach.induction ok (motive := fun pc => g.isByteRange pc = true →
    pc ∈ g.heads.flatMap (g.chain g.joined g.size)) ?_ ?_ bs
  · intro bs
    refine mem_flatMap.mpr ⟨g.start, mem_heads.mpr ⟨ok.reachable_closed.2.2, bs, ?_⟩,
      mem_of_mem_head? (head?_chain _ _)⟩
    by_contra joined
    exact (continues_of_joined (by simpa using joined)).notStart rfl
  · intro src reach ih t edge bs
    cases joined : g.joined t with
    | false =>
      exact mem_flatMap.mpr ⟨t, mem_heads.mpr ⟨reach.successor ok edge, bs, joined⟩,
        mem_of_mem_head? (head?_chain _ _)⟩
    | true =>
      have continues := continues_of_joined joined
      obtain ⟨src', reach', bytes', edge'⟩ := continues.before
      obtain rfl := eq_of_unshared ok continues.unshared reach reach' edge edge'
      obtain ⟨h, isHead, mem⟩ := mem_flatMap.mp (ih bytes')
      have short := (chain_of_mem_heads ok isHead).length_le ok
      rw [successors_of_isByteRange bytes', mem_singleton] at edge
      subst edge
      exact mem_flatMap.mpr ⟨h, isHead, mem_chain_of_joins short mem joined⟩

/-- The instructions inside runs, which are not entered for themselves. -/
def Absorbed (graph : Graph) (pc : Nat) : Prop := ∃ run ∈ graph.fused, pc ∈ run.tail

/-- A reachable instruction that is entered for itself. -/
structure Block (graph : Graph) (pc : Nat) : Prop where
  reachable : graph.Reachable pc
  entered : ¬graph.Absorbed pc

theorem Absorbed.continues (ok : g.Valid) (abs : g.Absorbed pc) : g.Continues pc := by
  obtain ⟨run, inFused, later⟩ := abs
  exact continues_of_joined ((run_of_mem_fused ok inFused).goesOn pc later)

theorem getD_foldl_set_of_mem {α : Type} {key v : α → Nat} {l : List α} {item : α}
    {table : Array Nat} (lt : pc < table.size) (mem : item ∈ l) (here : key item = pc)
    (unique : ∀ o ∈ l, key o = pc → o = item) :
    (l.foldl (fun table item => table.setIfInBounds (key item) (v item)) table).getD pc 0 =
      v item := by
  obtain ⟨u, after, rfl⟩ := mem_iff_append.mp mem
  rw [foldl_append, foldl_cons]
  rcases getD_foldl_set pc key v after
    ((u.foldl (fun table item => table.setIfInBounds (key item) (v item)) table).setIfInBounds
      (key item) (v item)) with eq | ⟨o, mem, there, eq⟩
  · rw [eq, here]
    have size (l : List α) (table : Array Nat) : (l.foldl (fun table item =>
        table.setIfInBounds (key item) (v item)) table).size = table.size := by
      induction l generalizing table with
      | nil => rfl
      | cons a r ih => rw [foldl_cons, ih, Array.size_setIfInBounds]
    simp [Array.getD_eq_getD_getElem?, size, lt]
  · rw [eq, unique o (by simp [mem]) there]

theorem eq_or_mem_tail {h : Nat} (fst : ms.head? = some h) (mem : pc ∈ ms) :
    h = pc ∨ pc ∈ ms.tail := by
  obtain ⟨r, rfl⟩ := head?_eq_some_iff.mp fst
  exact (mem_cons.mp mem).imp_left Eq.symm

theorem isMarked_foldl {ms : Array Bool} :
    isMarked (l.foldl (fun ms pc => ms.setIfInBounds pc true) ms) pc = true ↔
      isMarked ms pc = true ∨ pc ∈ l ∧ pc < ms.size := by
  induction l generalizing ms with
  | nil => simp
  | cons t r ih =>
    rw [foldl_cons, ih, Array.size_setIfInBounds]
    by_cases lt : t < ms.size
    · rw [isMarked_set lt, Bool.or_eq_true, beq_iff_eq, mem_cons]
      grind
    · rw [Array.setIfInBounds_eq_of_size_le (Nat.not_lt.mp lt), mem_cons]
      grind

/-- Which instructions the runs contain after their heads. -/
def absorbedMarks (graph : Graph) : Array Bool :=
  (graph.fused.flatMap List.tail).foldl (fun marks pc => marks.setIfInBounds pc true)
    (Array.replicate graph.size false)

theorem isMarked_absorbedMarks (lt : pc < g.size) :
    isMarked g.absorbedMarks pc = true ↔ g.Absorbed pc := by
  rw [absorbedMarks, isMarked_foldl, mem_flatMap]
  simp [isMarked, lt, Absorbed]

theorem summary_blocks (g : Graph) : g.summary.blocks =
    (marked g.reachable).filter fun pc => !isMarked g.absorbedMarks pc := by
  simp [summary, isMarked, absorbedMarks, fused, joined]

/-- The blocks of the analysis are the reachable instructions that are entered for themselves. -/
theorem mem_blocks (ok : g.Valid) : pc ∈ g.summary.blocks ↔ g.Block pc := by
  rw [summary_blocks, mem_filter, mem_marked, Bool.not_eq_true', ← Bool.not_eq_true]
  constructor
  · rintro ⟨reach, ent⟩
    exact ⟨reach, fun lt => ent ((isMarked_absorbedMarks (Reachable.lt ok reach)).mpr lt)⟩
  · rintro ⟨reachable, ent⟩
    exact ⟨reachable, fun inside => ent ((isMarked_absorbedMarks (reachable.lt ok)).mp inside)⟩

namespace Block

section

variable (ok : g.Valid)
include ok

theorem span_mem_fused (block : g.Block pc) (bs : g.isByteRange pc = true) :
    g.summary.span pc ∈ g.fused ∧ g.summary.run.getD pc 0 = (g.summary.span pc).length ∧
      (g.summary.span pc).head? = some pc := by
  obtain ⟨run, inFused, mem⟩ := exists_fused ok block.reachable bs
  have fst : run.head? = some pc := by
    cases run with
    | nil => simp at mem
    | cons a r =>
      rcases mem_cons.mp mem with rfl | later
      · rfl
      · exact absurd ⟨_, inFused, later⟩ block.entered
  have length : g.summary.run.getD pc 0 = run.length := by
    rw [summary_run]
    refine getD_foldl_set_of_mem (by simpa using block.reachable.lt ok) inFused
      (by rw [headD_eq_head?_getD, fst]; rfl) fun o inFused' here => ?_
    cases o with
    | nil => exact absurd rfl (run_of_mem_fused ok inFused').nonempty
    | cons h r => exact eq_of_mem_fused ok inFused' inFused (here ▸ .head _) mem
  have pos : 0 < run.length := length_pos_of_mem mem
  have eq : g.summary.span pc = run := by
    rw [Analysis.span, if_pos (length ▸ pos), Analysis.runInsts, length]
    exact runFrom_eq (run_of_mem_fused ok inFused).linked
      (by rw [headD_eq_head?_getD, fst]; rfl) pos
  rw [eq]
  exact ⟨inFused, length, fst⟩

variable {src : Nat}

theorem of_edge (reach : g.Reachable src) (edge : pc ∈ g.successors src)
    (outside : ∀ run ∈ g.fused, src ∈ run → run.getLastD src = src) : g.Block pc := by
  refine ⟨reach.successor ok edge, ?_⟩
  rintro ⟨run, inFused, later⟩
  have mems := run_of_mem_fused ok inFused
  obtain ⟨i, lt, -, edge'⟩ := mems.exists_before later
  have pre := eq_of_unshared ok (continues_of_joined (mems.goesOn _ later)).unshared reach
    (mems.reachable _ (getElem_mem _)) edge edge'
  have last := outside run inFused (pre ▸ getElem_mem _)
  have nodup : run.Nodup := (nodup_flatten.mp (nodup_fused ok)).1 run inFused
  rw [getLastD_eq_getLast?, getLast?_eq_some_getLast mems.nonempty, Option.getD_some,
    getLast_eq_getElem, pre] at last
  have := (nodup.getElem_inj_iff).mp last
  omega

theorem start : g.Block g.start :=
  ⟨ok.reachable_closed.2.2, fun abs => (abs.continues ok).notStart rfl⟩

theorem of_stays (reach : g.Reachable src) (stays : g.Stays src pc) : g.Block pc := by
  refine of_edge ok reach stays.listed fun run inFused mem => ?_
  have bs := (run_of_mem_fused ok inFused).bytes _ mem
  simp [stays.notBytes] at bs

theorem exit_span (block : g.Block pc) (bs : g.isByteRange pc = true) :
    g.Block (g.exit (g.inst ((g.summary.span pc).getLastD pc)).out) := by
  have inFused := (block.span_mem_fused ok bs).1
  generalize g.summary.span pc = ms at inFused
  have run := run_of_mem_fused ok inFused
  have mem := run.getLastD_mem pc
  refine of_edge ok (run.reachable _ mem) (run.exit_mem pc) fun o inFused' mem' => ?_
  obtain rfl := eq_of_mem_fused ok inFused inFused' mem mem'
  simp [getLast?_eq_some_getLast run.nonempty]

theorem eq_of_exit_span {j : Nat} (block : g.Block pc) (block' : g.Block j)
    (bs : g.isByteRange pc = true) (bytes' : g.isByteRange j = true)
    (eq : g.exit (g.inst ((g.summary.span pc).getLastD pc)).out =
      g.exit (g.inst ((g.summary.span j).getLastD j)).out) (unshared : g.summary.isShared
      (g.exit (g.inst ((g.summary.span pc).getLastD pc)).out) = false) : pc = j := by
  obtain ⟨inFused, -, fst⟩ := block.span_mem_fused ok bs
  obtain ⟨inFused', -, fst'⟩ := block'.span_mem_fused ok bytes'
  generalize g.summary.span pc = ms at *
  generalize g.summary.span j = ms' at *
  have run := run_of_mem_fused ok inFused
  have run' := run_of_mem_fused ok inFused'
  have last := eq_of_unshared ok unshared (run.reachable _ (run.getLastD_mem pc))
    (run'.reachable _ (run'.getLastD_mem j)) (run.exit_mem pc) (eq ▸ run'.exit_mem j)
  have equal := eq_of_mem_fused ok inFused inFused' (run.getLastD_mem pc)
    (last ▸ run'.getLastD_mem j)
  rw [equal, fst'] at fst
  exact (Option.some.inj fst).symm

theorem exists_span (reach : g.Reachable pc) (bs : g.isByteRange pc = true) :
    ∃ h, g.Block h ∧ g.isByteRange h = true ∧ pc ∈ g.summary.span h := by
  obtain ⟨run, inFused, mem⟩ := exists_fused ok reach bs
  have mems := run_of_mem_fused ok inFused
  cases run with
  | nil => simp at mem
  | cons h r =>
    have block : g.Block h := by
      refine ⟨mems.reachable h (.head _), ?_⟩
      rintro ⟨o, inFused', later⟩
      obtain rfl := eq_of_mem_fused ok inFused inFused' (.head _) (mem_of_mem_tail later)
      have nodup := (nodup_flatten.mp (nodup_fused ok)).1 _ inFused
      exact (nodup_cons.mp nodup).1 later
    have isBytes := mems.bytes h (.head _)
    obtain ⟨inFused', -, fst⟩ := block.span_mem_fused ok isBytes
    have eq := eq_of_mem_fused ok inFused' inFused (mem_of_mem_head? fst)
      (mem_cons_self ..)
    exact ⟨h, block, isBytes, by rw [eq]; exact mem⟩

theorem induction {motive : Nat → Prop} (block : g.Block pc) (start : motive g.start)
    (stays : ∀ pc, g.Block pc → motive pc → ∀ t, g.Stays pc t → motive t)
    (bs : ∀ pc, g.Block pc → motive pc → g.isByteRange pc = true →
      motive (g.exit (g.inst ((g.summary.span pc).getLastD pc)).out)) : motive pc := by
  -- Along the edges, the block that an instruction belongs to is carried on.
  refine block.reachable.induction ok (motive := fun pc => ∀ h, g.Block h →
    h = pc ∨ g.isByteRange h = true ∧ pc ∈ (g.summary.span h).tail → motive h)
    (fun h block owns => ?_) (fun src reach ih t edge h block owns => ?_) pc block
    (.inl rfl)
  · rcases owns with rfl | ⟨isBytes, later⟩
    · exact start
    · exact absurd ⟨_, (block.span_mem_fused ok isBytes).1, later⟩ (Block.start ok).entered
  rcases owns with rfl | ⟨isBytes, later⟩
  · cases isBytes : g.isByteRange src with
    | false =>
      have block' : g.Block src := ⟨reach, fun abs => by simp [(abs.continues ok).bytes] at isBytes⟩
      exact stays src block' (ih src block' (.inl rfl)) h ⟨edge, isBytes⟩
    | true =>
      obtain ⟨h', block', isBytes', mem⟩ := exists_span ok reach isBytes
      obtain ⟨inFused, -, fst⟩ := block'.span_mem_fused ok isBytes'
      rw [successors_of_isByteRange isBytes, mem_singleton] at edge
      rcases (run_of_mem_fused ok inFused).exit_mem_tail mem h' with last | later
      · rw [edge, last]
        exact bs h' block' (ih h' block' ((eq_or_mem_tail fst mem).imp_right fun later =>
          ⟨isBytes', later⟩)) isBytes'
      · exact absurd ⟨_, inFused, edge ▸ later⟩ block.entered
  · obtain ⟨inFused, -, fst⟩ := block.span_mem_fused ok isBytes
    have run := run_of_mem_fused ok inFused
    obtain ⟨i, lt, -, edge'⟩ := run.exists_before later
    have pre := eq_of_unshared ok (continues_of_joined (run.goesOn _ later)).unshared reach
      (run.reachable _ (getElem_mem _)) edge edge'
    have mem : src ∈ g.summary.span h := pre ▸ getElem_mem _
    exact ih h block ((eq_or_mem_tail fst mem).imp_right fun later => ⟨isBytes, later⟩)

end

end Block

end Graph

end Rematch
