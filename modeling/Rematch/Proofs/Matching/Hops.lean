import Rematch.Proofs.Automaton.Runs
import Rematch.Proofs.Matching.Agreement

/-!
Hops: the steps of a path as threads take them. Nops are skipped, and a stretch of byte ranges is
matched as one. A hop is a path, and a path to a match is made up of hops.
-/

namespace Rematch

open List

namespace Graph

variable {g : Graph} {q : Query} {gs : List Nat} {a b : Point}
variable {pc : Nat} {p : Point}

theorem Path.single (move : g.Moves q a b) : g.Path q a b :=
  Relation.ReflTransGen.single move

theorem path_follow (ok : g.Valid) (pc k : Nat) (c : Captures) :
    g.Path q ⟨pc, k, c⟩ ⟨g.follow pc, k, c⟩ := by
  unfold follow
  generalize g.size = n
  fun_induction followFrom g n pc with
  | case1 | case3 => exact .refl
  | case2 n pc x skipped ih =>
    refine .head ?_ ih
    have nop := ok.isNop skipped.1
    simp [Moves, branches, nop.1, nop.2, x]

theorem branches_of_isByteRange (rng : g.isByteRange pc = true) (k : Nat) (c : Captures) :
    g.branches q ⟨pc, k, c⟩ =
      if (q.text[k]?).any (g.inst pc).accepts then
        [.step ⟨g.out pc, k + 1, c⟩]
      else [] := by
  simp only [isByteRange, Bool.and_eq_true, decide_eq_true_eq, Option.isNone_iff_eq_none] at rng
  simp [branches, rng.1, rng.2, out]

theorem path_stretch (ok : g.Valid) {r : List Nat} (stretch : g.Stretch (pc :: r)) {k : Nat}
    (matching : g.summary.spanMatches q.text k (pc :: r) = true) (c : Captures) :
    g.Path q ⟨pc, k, c⟩ ⟨g.exit (g.inst ((pc :: r).getLastD pc)).out, k + (pc :: r).length, c⟩ := by
  induction r generalizing pc k with
  | nil =>
    simp only [Analysis.spanMatches, Bool.and_true, summary_toGraph] at matching
    have move : g.Moves q ⟨pc, k, c⟩ ⟨g.out pc, k + 1, c⟩ := by
      rw [Moves, branches_of_isByteRange (stretch.bytes pc (.head _)), if_pos matching]
      exact .head _
    exact .head move (path_follow ok _ _ _)
  | cons n r ih =>
    rw [Analysis.spanMatches, Bool.and_eq_true] at matching
    obtain ⟨fst, others⟩ := matching
    obtain ⟨next_eq, linked⟩ := isChain_cons_cons.mp stretch.linked
    have move : g.Moves q ⟨pc, k, c⟩ ⟨g.out pc, k + 1, c⟩ := by
      rw [Moves, branches_of_isByteRange (stretch.bytes pc (.head _))]
      rw [if_pos (by simpa using fst)]
      exact .head _
    have tail := ih ⟨linked, fun m mem => stretch.bytes m (.tail _ mem)⟩ others
    have skipped : g.Path q ⟨g.out pc, k + 1, c⟩ ⟨n, k + 1, c⟩ := next_eq ▸ path_follow ok _ _ _
    have whole := Relation.ReflTransGen.head move (skipped.trans tail)
    simp only [getLastD_cons, length_cons] at whole ⊢
    rw [show k + 1 + (r.length + 1) = k + (r.length + 1 + 1) by omega] at whole
    exact whole

/-- One hop from a point to the next. -/
inductive Hops (graph : Graph) (query : Query) : Point → Point → Prop where
  | step {point next} (plain : graph.isByteRange point.pc = false)
      (moves : graph.Moves query point next) :
      Hops graph query point ⟨graph.follow next.pc, next.offset, next.captures⟩
  | bytes {pc offset captures} (byteRange : graph.isByteRange pc = true)
      (matching : graph.summary.spanMatches query.text offset (graph.summary.span pc) = true) :
      Hops graph query ⟨pc, offset, captures⟩
        ⟨graph.exit (graph.inst ((graph.summary.span pc).getLastD pc)).out,
          offset + (graph.summary.span pc).length, captures⟩

def Succeeds (graph : Graph) (query : Query) (point : Point) : Prop :=
  ∃ last, Relation.ReflTransGen (graph.Hops query) point last ∧ graph.Accepts query last

theorem Hops.path (ok : g.Valid) (hops : g.Hops q a b) : g.Path q a b := by
  cases hops with
  | step plain move => exact (Path.single move).trans (path_follow ok _ _ _)
  | @bytes pc k c rng matching =>
    obtain ⟨stretch, r, parts⟩ := span_stretch g rng
    rw [parts] at stretch matching ⊢
    exact path_stretch ok stretch matching c

theorem Succeeds.path (ok : g.Valid) (succeeds : g.Succeeds q p) :
    ∃ z, g.Path q p z ∧ g.Accepts q z := by
  obtain ⟨z, hops, accepts⟩ := succeeds
  exact ⟨z, hops.trans_induction_on (fun _ => .refl) (fun hop => hop.path ok)
    fun _ _ pre after => pre.trans after, accepts⟩

theorem Moves.listed (move : g.Moves q a b) : g.follow b.pc ∈ g.successors a.pc := by
  cases move.way with
  | extension got mem =>
    rw [successors_of_extensions got]
    exact mem_map.mpr ⟨_, mem, rfl⟩
  | byte plain op | capture plain op =>
    simp only [successors, plain, op]
    exact .head _
  | out1 plain op =>
    rcases op with op | op <;> simp only [successors, plain, op] <;> exact .tail _ (.head _)
  | out plain hasExit =>
    simp only [successors, plain]
    cases op : (g.inst a.pc).op <;> simp only [op, Opcode.hasExit, Bool.false_eq_true] at hasExit
    all_goals exact .head _

theorem Hops.reachable (ok : g.Valid) (hops : g.Hops q a b) (reach : g.Reachable a.pc) :
    g.Reachable b.pc := by
  cases hops with
  | step plain move => exact reach.successor ok move.listed
  | @bytes pc k c rng matching =>
    obtain ⟨stretch, r, parts⟩ := span_stretch g rng
    rw [parts] at stretch ⊢
    have last : (pc :: r).getLastD pc ∈ pc :: r := by
      rw [getLastD_eq_getLast?, getLast?_eq_some_getLast (by simp)]
      exact getLast_mem _
    apply (stretch.reachable ok reach _ last).successor ok
    rw [successors_of_isByteRange (stretch.bytes _ last)]
    exact .head _

theorem exists_alike_branch (q : Query) (refs : g.References gs a.pc) (alike : a.Alike gs b)
    {branch : Branch} (offered : branch ∈ g.branches q a) :
    ∃ o ∈ g.branches q b, branch.Alike gs o := by
  have related : List.Forall₂ (Branch.Alike gs) (g.branches q a) _ := branches_alike refs alike
  generalize g.branches q a = branches at offered related
  generalize g.branches q b = others at related ⊢
  induction related with
  | nil => simp at offered
  | cons head _ ih =>
    rcases mem_cons.mp offered with rfl | later
    · exact ⟨_, .head _, head⟩
    · obtain ⟨o, mem, related⟩ := ih later
      exact ⟨o, .tail _ mem, related⟩

theorem Accepts.alike (accepts : g.Accepts q a)
    (refs : g.References gs a.pc) (alike : a.Alike gs b) : g.Accepts q b := by
  obtain ⟨o, offered, related⟩ := exists_alike_branch q refs alike accepts
  cases related
  exact offered

theorem Hops.alike {a' : Point} (hops : g.Hops q a b)
    (refs : g.References gs a.pc) (alike : a.Alike gs a') :
    ∃ b', g.Hops q a' b' ∧ b.Alike gs b' := by
  cases hops with
  | step plain move =>
    obtain ⟨o, offered, related⟩ := exists_alike_branch q refs alike move
    cases related with
    | @step n n' alike' =>
      refine ⟨_, .step (alike.pc_eq ▸ plain) offered, ?_, alike'.offset_eq, alike'.captures⟩
      rw [alike'.pc_eq]
  | @bytes pc k c rng matching =>
    obtain ⟨pc', k', c'⟩ := a'
    obtain ⟨rfl, rfl, eq⟩ := alike
    exact ⟨_, .bytes rng matching, rfl, rfl, eq⟩

theorem Succeeds.alike (ok : g.Valid) (refs : ∀ pc, g.Reachable pc → g.References gs pc)
    (succeeds : g.Succeeds q a) (reach : g.Reachable a.pc) (alike : a.Alike gs b) :
    g.Succeeds q b := by
  obtain ⟨z, hops, accepts⟩ := succeeds
  induction hops using Relation.ReflTransGen.head_induction_on generalizing b with
  | refl => exact ⟨b, .refl, accepts.alike (refs _ reach) alike⟩
  | head hop _ ih =>
    obtain ⟨n, hop', alike'⟩ := hop.alike (refs _ reach) alike
    obtain ⟨z', hops', accepts'⟩ := ih (hop.reachable ok reach) alike'
    exact ⟨z', .head hop' hops', accepts'⟩

/-- Hops lead to a match, also from the end of a stretch that begins here. -/
structure Promising (graph : Graph) (query : Query) (point : Point) : Prop where
  succeeds : graph.Succeeds query point
  stretch : ∀ rest, graph.Stretch (point.pc :: rest) →
    graph.summary.spanMatches query.text point.offset (point.pc :: rest) = true ∧
      graph.Succeeds query ⟨graph.exit (graph.inst ((point.pc :: rest).getLastD point.pc)).out,
        point.offset + (point.pc :: rest).length, point.captures⟩

theorem Promising.accept (accepts : g.Accepts q p) : g.Promising q p := by
  refine ⟨⟨p, .refl, accepts⟩, fun r stretch => ?_⟩
  have rng := stretch.bytes p.pc (.head _)
  unfold Accepts at accepts
  rw [branches_of_isByteRange rng] at accepts
  split at accepts <;> simp at accepts

theorem Promising.step (move : g.Moves q a b)
    (rest : g.Promising q ⟨g.follow b.pc, b.offset, b.captures⟩) : g.Promising q a := by
  cases rng : g.isByteRange a.pc with
  | false =>
    obtain ⟨z, hops, accepts⟩ := rest.succeeds
    refine ⟨⟨z, .head (.step rng move) hops, accepts⟩, fun others stretch => ?_⟩
    simp [stretch.bytes a.pc (.head _)] at rng
  | true =>
    obtain ⟨pc, k, c⟩ := a
    unfold Moves at move
    rw [branches_of_isByteRange rng] at move
    split at move
    · next acc =>
      obtain rfl : b = ⟨g.out pc, k + 1, c⟩ := by simpa using move
      have stretches : ∀ others, g.Stretch (pc :: others) →
          g.summary.spanMatches q.text k (pc :: others) = true ∧
            g.Succeeds q ⟨g.exit (g.inst ((pc :: others).getLastD pc)).out,
              k + (pc :: others).length, c⟩ := by
        intro others stretch
        cases others with
        | nil =>
          refine ⟨?_, rest.succeeds⟩
          simpa [Analysis.spanMatches] using acc
        | cons n tl =>
          obtain ⟨next_eq, linked⟩ := isChain_cons_cons.mp stretch.linked
          have eq : g.follow (g.out pc) = n := next_eq.symm
          rw [eq] at rest
          obtain ⟨matching, succeeds⟩ := rest.stretch tl
            ⟨linked, fun m mem => stretch.bytes m (.tail _ mem)⟩
          refine ⟨?_, ?_⟩
          · rw [Analysis.spanMatches, matching, Bool.and_true]
            exact acc
          · simp only [getLastD_cons, length_cons] at succeeds ⊢
            rw [show k + (tl.length + 1 + 1) = k + 1 + (tl.length + 1) by omega]
            exact succeeds
      refine ⟨?_, stretches⟩
      obtain ⟨stretch, others, parts⟩ := span_stretch g rng
      rw [parts] at stretch
      obtain ⟨matching, z, hops, accepts⟩ := stretches others stretch
      rw [← parts] at matching hops
      exact ⟨z, .head (.bytes rng matching) hops, accepts⟩
    · simp at move

theorem succeeds_of_path (ok : g.Valid) {z : Point}
    (path : g.Path q p z) (accepts : g.Accepts q z) :
    g.Succeeds q ⟨g.follow p.pc, p.offset, p.captures⟩ := by
  have promising : ∀ n, g.Promising q ⟨g.followFrom n p.pc, p.offset, p.captures⟩ := by
    induction path using Relation.ReflTransGen.head_induction_on with
    | refl =>
      intro n
      have kept : g.followFrom n z.pc = z.pc := by
        cases n with
        | zero => rfl
        | succ n =>
          unfold followFrom
          dsimp only
          split
          · next skipped =>
            have nop := ok.isNop skipped.1
            simp [Accepts, branches, nop.1, nop.2] at accepts
          · rfl
      rw [kept]
      exact .accept accepts
    | @head a b move _ ih =>
      intro n
      -- A nop on the way is skipped, and then the next instruction is looked for.
      cases n with
      | zero => exact .step move (ih g.size)
      | succ n =>
        unfold followFrom
        dsimp only
        split
        · next skipped =>
          have nop := ok.isNop skipped.1
          obtain rfl : b = ⟨g.out a.pc, a.offset, a.captures⟩ := by
            simpa [Moves, branches, nop.1, nop.2, out] using move
          exact ih n
        · exact .step move (ih g.size)
  exact (promising g.size).succeeds

end Graph

end Rematch
