import Rematch.Automaton.Analysis
import Mathlib.Data.Fintype.Pigeonhole
import Mathlib.Logic.Function.Iterate

/-!
The edges of a graph. All edges of a valid graph stay inside it, and only byte ranges have
extensions. Skipping nops ends at an instruction that is none, or on a cycle of nops.
-/

namespace Rematch

def Opcode.hasExit : Opcode → Bool
  | .alt | .altMatch | .byteRange | .capture | .emptyWidth | .nop => true
  | _ => false

namespace Graph

variable {A : Automaton} {x : Inst}

def IsNop (graph : Graph) (pc : Nat) : Prop :=
  (graph.inst pc).op = .nop ∧ graph.extensionsAt? pc = none

/-- The instruction that the first exit of an instruction names. -/
def out (graph : Graph) (pc : Nat) : Nat := (graph.inst pc).out.toNat

/-- The instruction that the second exit of an instruction names. -/
def out1 (graph : Graph) (pc : Nat) : Nat := (graph.inst pc).out1.toNat

/-- From an endless instruction nops lead to nops only. -/
def Endless (graph : Graph) (pc : Nat) : Prop := ∀ count, graph.IsNop (graph.out^[count] pc)

structure Valid (graph : Graph) : Prop where
  start : graph.automaton.start.toNat < graph.size
  exit : ∀ pc, (graph.inst pc).op.hasExit → graph.out pc < graph.size
  secondExit : ∀ pc, (graph.inst pc).op = .alt ∨ (graph.inst pc).op = .altMatch →
    graph.out1 pc < graph.size
  extensions : ∀ pc exts, graph.extensionsAt? pc = some exts →
    (graph.inst pc).op = .byteRange ∧ ∀ ext ∈ exts, ext.kind.isKnown ∧ ext.out.toNat < graph.size

variable {g : Graph} {pc : Nat}

theorem inst_of_size_le (outside : g.size ≤ pc) : g.inst pc = {} := by
  rw [inst, Array.getD_eq_getD_getElem?, Array.getElem?_eq_none outside]
  rfl

theorem lt_of_op_ne_fail (op : (g.inst pc).op ≠ .fail) : pc < g.size := by
  by_contra outside
  rw [inst_of_size_le (Nat.not_lt.mp outside)] at op
  exact op rfl

theorem IsNop.lt (nop : g.IsNop pc) : pc < g.size := lt_of_op_ne_fail (by rw [nop.1]; simp)

theorem Endless.out (endless : g.Endless pc) : g.Endless (g.out pc) := fun n => endless (n + 1)

theorem inside_toNat {x : Int} (lt : A.inside x = true) : x.toNat < A.size := by
  simp only [Automaton.inside, Bool.and_eq_true, decide_eq_true_eq] at lt
  simp only [Automaton.size]
  omega

theorem faultAt?_of_firstFault? {a : Nat} {I : List Inst} (faultless : A.firstFault? a I = none)
    {i : Nat} (got : I[i]? = some x) : A.faultAt? (a + i) x = none := by
  induction I generalizing a i with
  | nil => simp at got
  | cons h tl ih =>
    unfold Automaton.firstFault? at faultless
    split at faultless
    · simp at faultless
    · next faultlessHead =>
      cases i with
      | zero =>
        obtain rfl : h = x := by simpa using got
        simpa using faultlessHead
      | succ i =>
        have inTail : tl[i]? = some x := by simpa using got
        have rest := ih faultless inTail
        rwa [Nat.add_assoc, Nat.add_comm 1 i] at rest

theorem inst_faultless (faultless : g.automaton.firstFault? 0 g.automaton.insts.toList = none)
    (lt : pc < g.size) : g.automaton.faultAt? pc (g.inst pc) = none := by
  have got : g.automaton.insts.toList[pc]? = some (g.inst pc) := by
    have le : pc < g.automaton.insts.size := lt
    rw [inst, Array.getElem?_toList, Array.getD_eq_getD_getElem?, Array.getElem?_eq_getElem le]
    rfl
  simpa using faultAt?_of_firstFault? faultless got

theorem inside_of_faultless (faultless : A.faultAt? pc x = none) :
    (x.op.hasExit = true → A.inside x.out = true) ∧
      (x.op = .alt ∨ x.op = .altMatch → A.inside x.out1 = true) := by
  unfold Automaton.faultAt? at faultless
  cases op : x.op <;> cases fst : A.inside x.out <;>
    cases snd : A.inside x.out1 <;> simp_all [Opcode.hasExit]

variable {es : List Extension}

theorem extensions_of_faultless (faultless : g.overlayFault? = none)
    (got : g.extensionsAt? pc = some es) :
    (g.inst pc).op = .byteRange ∧ ∀ ext ∈ es, ext.kind.isKnown = true ∧ ext.out.toNat < g.size := by
  have hm : ((pc : Int), es) ∈ g.overlay := by
    obtain ⟨u, v, parts, -⟩ := List.lookup_eq_some_iff.mp got
    simp [parts]
  have checked := List.findSome?_eq_none_iff.mp faultless _ hm
  dsimp only at checked
  split at checked
  · next rng =>
    constructor
    · simp only [Automaton.inst?, Int.natCast_nonneg, if_true, Int.toNat_natCast] at rng
      cases stored : g.automaton.insts[pc]? with
      | none => simp [stored] at rng
      | some x =>
        rw [Graph.inst, Array.getD_eq_getD_getElem?, stored]
        simpa [stored] using rng
    · intro ext mem
      simp only [Option.map_eq_none_iff, List.find?_eq_none] at checked
      have known := checked ext mem
      simp only [Bool.not_eq_true, Bool.not_eq_false', Bool.and_eq_true] at known
      exact ⟨known.1, inside_toNat known.2⟩
  · simp at checked

theorem valid_of_validate (acc : g.validate = .ok ()) : g.Valid := by
  unfold validate at acc
  split at acc
  · simp at acc
  · simp at acc
  · next automatonValid overlayValid =>
    unfold Automaton.validate at automatonValid
    split at automatonValid
    · simp at automatonValid
    split at automatonValid
    · simp at automatonValid
    next startInside =>
    split at automatonValid
    · simp at automatonValid
    next faultless =>
    simp only [Bool.not_eq_true', Bool.not_eq_false] at startInside
    refine ⟨inside_toNat startInside, ?_, ?_, fun pc es => extensions_of_faultless overlayValid⟩
    · intro pc hasExit
      have lt : pc < g.size := lt_of_op_ne_fail (by intro op; simp [op, Opcode.hasExit] at hasExit)
      exact inside_toNat ((inside_of_faultless (inst_faultless faultless lt)).1 hasExit)
    · intro pc isAlt
      have lt : pc < g.size := by
        apply lt_of_op_ne_fail
        rcases isAlt with op | op <;> simp [op]
      exact inside_toNat ((inside_of_faultless (inst_faultless faultless lt)).2 isAlt)

@[simp]
theorem summary_toGraph (g : Graph) : g.summary.toGraph = g := rfl

theorem forall_extensions {P : Extension → Prop} (all : ∀ entry ∈ g.overlay, ∀ ext ∈ entry.2, P ext)
    (got : g.extensionsAt? pc = some es) : ∀ ext ∈ es, P ext := by
  obtain ⟨u, v, eq, -⟩ := List.lookup_eq_some_iff.mp got
  exact all (pc, es) (by simp [eq])

theorem analyze_of_validate (acc : g.validate = .ok ()) : g.analyze = .ok g.summary := by
  rw [analyze, acc]
  rfl

theorem analyze_eq_ok {an : Analysis} (acc : g.analyze = .ok an) : g.Valid ∧ an = g.summary := by
  unfold analyze at acc
  cases checked : g.validate with
  | error fault => simp [checked, Except.map] at acc
  | ok _ =>
    rw [checked] at acc
    exact ⟨valid_of_validate checked, (Except.ok.inj acc).symm⟩

namespace Valid

theorem isNop (ok : g.Valid) (op : (g.inst pc).op = .nop) : g.IsNop pc := by
  refine ⟨op, ?_⟩
  cases got : g.extensionsAt? pc with
  | none => rfl
  | some es =>
    have rng := (ok.extensions pc es got).1
    rw [op] at rng
    exact Opcode.noConfusion rng

theorem followFrom_lt (ok : g.Valid) (lt : pc < g.size) (n : Nat) : g.followFrom n pc < g.size := by
  fun_induction followFrom g n pc with
  | case1 | case3 => exact lt
  | case2 n pc x skipped ih => exact ih (ok.exit pc (by rw [skipped.1]; rfl))

end Valid

theorem followFrom_eq_iterate (g : Graph) (n pc : Nat) :
    ∃ m ≤ n, g.followFrom n pc = g.out^[m] pc ∧ (∀ i < m, (g.inst (g.out^[i] pc)).op = .nop) ∧
      (m = n ∨ (g.inst (g.followFrom n pc)).op ≠ .nop ∨
        g.out (g.followFrom n pc) = g.followFrom n pc) := by
  fun_induction followFrom g n pc with
  | case1 => exact ⟨0, Nat.le_refl _, rfl, by simp, .inl rfl⟩
  | case2 n pc x skipped ih =>
    obtain ⟨m, le, eq, nops, stopped⟩ := ih
    refine ⟨m + 1, Nat.succ_le_succ le, eq, ?_, ?_⟩
    · intro i smaller
      cases i with
      | zero => exact skipped.1
      | succ i => exact nops i (Nat.lt_of_succ_lt_succ smaller)
    · rcases stopped with ran | other
      · exact .inl (by rw [ran])
      · exact .inr other
  | case3 n pc x kept =>
    refine ⟨0, Nat.zero_le _, rfl, by simp, .inr ?_⟩
    by_cases op : (g.inst pc).op = .nop
    · right
      by_contra ne
      exact kept ⟨op, ne⟩
    · exact .inl op

theorem endless_of_nops (nops : ∀ i ≤ g.size, g.IsNop (g.out^[i] pc)) : g.Endless pc := by
  have repeated : ∃ a b, a < b ∧ b ≤ g.size ∧ g.out^[a] pc = g.out^[b] pc := by
    let v : Fin (g.size + 1) → Fin g.size := fun j =>
      ⟨g.out^[j] pc, (nops j (Nat.le_of_lt_succ j.isLt)).lt⟩
    obtain ⟨first, second, ne, eq⟩ := Fintype.exists_ne_map_eq_of_card_lt v (by simp)
    have equal : g.out^[first] pc = g.out^[second] pc := congrArg Fin.val eq
    rcases Nat.lt_or_gt_of_ne (fun equal => ne (Fin.ext equal)) with smaller | greater
    · exact ⟨first, second, smaller, Nat.le_of_lt_succ second.isLt, equal⟩
    · exact ⟨second, first, greater, Nat.le_of_lt_succ first.isLt, equal.symm⟩
  obtain ⟨a, b, smaller, le, eq⟩ := repeated
  intro n
  induction n using Nat.strong_induction_on with
  | _ n ih =>
    rcases Nat.lt_or_ge n b with early | late
    · exact nops n (by omega)
    · -- The way from the second visit on is that from the first visit on.
      have shifted : g.out^[n] pc = g.out^[n - b + a] pc := by
        rw [show n = n - b + b by omega, Function.iterate_add_apply, ← eq,
          ← Function.iterate_add_apply]
        congr 1
        omega
      rw [shifted]
      exact ih _ (by omega)

theorem Valid.endless_follow (ok : g.Valid) (op : (g.inst (g.follow pc)).op = .nop) :
    g.Endless (g.follow pc) := by
  obtain ⟨n, le, eq, nops, stopped⟩ := g.followFrom_eq_iterate g.size pc
  change g.follow pc = _ at eq
  rcases stopped with ran | other | loops
  · have all : ∀ i ≤ g.size, g.IsNop (g.out^[i] pc) := by
      intro i small
      apply ok.isNop
      rcases Nat.lt_or_ge i n with early | late
      · exact nops i early
      · rw [show i = n by omega, ← eq]
        exact op
    have endless := endless_of_nops all
    intro i
    rw [eq, ← Function.iterate_add_apply]
    exact endless (i + n)
  · exact False.elim (other op)
  · intro i
    have fixed : g.out^[i] (g.follow pc) = g.follow pc := Function.iterate_fixed loops i
    rw [fixed]
    exact ok.isNop op

end Graph

end Rematch
