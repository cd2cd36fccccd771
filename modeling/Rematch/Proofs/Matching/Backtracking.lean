import Rematch.Proofs.Matching.Agreement
import Mathlib.Data.Finset.Card
import Mathlib.Order.Interval.Finset.Nat

/-!
Backtracking: the plain search for the preferred match. It goes depth first, takes the branches of
an instruction in priority order, and cuts a branch that comes back to an instruction of its path
without having consumed anything.
-/

namespace Rematch

open List

theorem findSome?_congr {α β : Type} {l : List α} {a b : α → Option β} (eq : ∀ v ∈ l, a v = b v) :
    l.findSome? a = l.findSome? b := by
  induction l with
  | nil => rfl
  | cons h tl ih =>
    rw [findSome?_cons, findSome?_cons, eq h (.head _),
      ih fun v mem => eq v (.tail _ mem)]

theorem isSome_findSome?_congr {α β : Type} {relation : α → α → Prop} {l l' : List α}
    {a b : α → Option β} (paired : List.Forall₂ relation l l')
    (eq : ∀ v ∈ l, ∀ v', relation v v' → (a v).isSome = (b v').isSome) :
    (l.findSome? a).isSome = (l'.findSome? b).isSome := by
  induction paired with
  | nil => rfl
  | @cons h h' tl tl' related _ ih =>
    have rest := ih fun v mem => eq v (.tail _ mem)
    have heads := eq h (.head _) h' related
    rw [findSome?_cons, findSome?_cons]
    cases got : a h <;> cases got' : b h' <;> simp_all

theorem card_range_sdiff_cons_lt {n i : Nat} {p : List Nat} (lt : i < n) (new : i ∉ p) :
    (Finset.range n \ (i :: p).toFinset).card < (Finset.range n \ p.toFinset).card := by
  apply Finset.card_lt_card
  rw [Finset.ssubset_iff_of_subset]
  · exact ⟨i, by simp [lt, new], by simp⟩
  · intro j
    simp only [Finset.mem_sdiff, Finset.mem_range, mem_toFinset, mem_cons, not_or]
    exact fun got => ⟨got.1, got.2.2⟩

namespace Graph

def fresh (graph : Graph) (path : List Nat) : Nat :=
  (Finset.range graph.size \ path.toFinset).card

theorem fresh_cons_lt {g : Graph} {p : List Nat} {pc : Nat} (lt : pc < g.size) (new : pc ∉ p) :
    g.fresh (pc :: p) < g.fresh p :=
  card_range_sdiff_cons_lt lt new

/-- The captures of the first match that is found from a point on, after a path at its offset. -/
def attempt (graph : Graph) (query : Query) (path : List Nat) (point : Point) : Option Captures :=
  if _cut : point.pc ∈ path ∨ graph.size ≤ point.pc then none
  else
    (graph.branches query point).attach.findSome? fun
      | ⟨.step next, _offered⟩ =>
        if _same : next.offset = point.offset then graph.attempt query (point.pc :: path) next
        else graph.attempt query [] next
      | ⟨.accept, _⟩ => some (point.captures.setIfInBounds 1 point.offset)
termination_by (query.text.size - point.offset, graph.fresh path)
decreasing_by
  · rw [_same]
    simp only [not_or, Nat.not_le] at _cut
    exact Prod.Lex.right _ (fresh_cons_lt _cut.2 _cut.1)
  · apply Prod.Lex.left
    rcases Moves.offset _offered with kept | ⟨further, inside⟩
    · exact False.elim (_same kept)
    · omega

/-- The first match from the start on: the earliest begin wins, and all matches begin with the text
if they must. -/
def backtrack (graph : Graph) (query : Query) : Option Captures :=
  (List.range (if query.anchorsStart then 1 else query.text.size + 1)).findSome? fun offset =>
    graph.attempt query [] (graph.origin query offset)

variable {g : Graph} {q : Query} {path : List Nat} {p : Point}

def tryBranch (graph : Graph) (query : Query) (path : List Nat) (point : Point) :
    Branch → Option Captures
  | .step next =>
    if next.offset = point.offset then graph.attempt query (point.pc :: path) next
    else graph.attempt query [] next
  | .accept => some (point.captures.setIfInBounds 1 point.offset)

theorem attempt_eq (g : Graph) (q : Query) (path : List Nat) (p : Point) :
    g.attempt q path p = if p.pc ∈ path ∨ g.size ≤ p.pc then none
      else (g.branches q p).findSome? (g.tryBranch q path p) := by
  rw [attempt]
  split
  · rfl
  · conv_rhs => rw [← attach_map_subtype_val (g.branches q p), findSome?_map]
    congr 1
    funext ⟨branch, offered⟩
    cases branch <;> rfl

theorem attempt_of_mem (on : p.pc ∈ path) : g.attempt q path p = none := by
  rw [attempt_eq, if_pos (.inl on)]

theorem attempt_of_size_le (outside : g.size ≤ p.pc) : g.attempt q path p = none := by
  rw [attempt_eq, if_pos (.inr outside)]

theorem attempt_of_fresh (lt : p.pc < g.size) (new : p.pc ∉ path) :
    g.attempt q path p = (g.branches q p).findSome? (g.tryBranch q path p) := by
  rw [attempt_eq, if_neg (by simp [lt, new])]

theorem attempt_congr_of_stays {p' : List Nat} (eq : p.pc ∈ path ↔ p.pc ∈ p')
    (stays : ∀ n, g.Moves q p n → n.offset = p.offset → p.pc < g.size → p.pc ∉ path →
      g.attempt q (p.pc :: path) n = g.attempt q (p.pc :: p') n) :
    g.attempt q path p = g.attempt q p' p := by
  by_cases on : p.pc ∈ path
  · rw [attempt_of_mem on, attempt_of_mem (eq.mp on)]
  rcases Nat.lt_or_ge p.pc g.size with lt | outside
  · rw [attempt_of_fresh lt on, attempt_of_fresh lt (fun got => on (eq.mpr got))]
    apply findSome?_congr
    intro branch offered
    cases branch with
    | accept => rfl
    | step n =>
      simp only [tryBranch]
      split
      · next kept => exact stays n offered kept lt on
      · rfl
  · rw [attempt_of_size_le outside, attempt_of_size_le outside]

theorem attempt_congr {p' : List Nat} (eq : ∀ pc, pc ∈ path ↔ pc ∈ p') :
    g.attempt q path p = g.attempt q p' p := by
  induction size : g.fresh path using Nat.strong_induction_on generalizing path p' p with
  | _ n ih =>
    apply attempt_congr_of_stays (eq p.pc)
    intro nx _ _ lt new
    exact ih _ (size ▸ fresh_cons_lt lt new) (by simp [eq]) rfl

theorem attempt_swap (a b : Nat) :
    g.attempt q (a :: b :: path) p = g.attempt q (b :: a :: path) p :=
  attempt_congr (by intro j; simp only [mem_cons]; tauto)

theorem attempt_eq_none_iff : g.attempt q path p = none ↔ p.pc ∈ path ∨ g.size ≤ p.pc ∨
      ∀ branch ∈ g.branches q p, g.tryBranch q path p branch = none := by
  rw [attempt_eq]
  split
  · next cut =>
    simp only [true_iff]
    rcases cut with on | outside
    · exact .inl on
    · exact .inr (.inl outside)
  · next cut =>
    simp only [not_or] at cut
    simp [findSome?_eq_none_iff, cut]

theorem attempt_eq_none_of_stays {p' : List Nat} (failed : g.attempt q path p = none)
    (new : p.pc ∉ path) (stays : ∀ next, .step next ∈ g.branches q p → next.offset = p.offset →
      p.pc < g.size → g.attempt q (p.pc :: path) next = none →
        g.attempt q (p.pc :: p') next = none) : g.attempt q p' p = none := by
  rw [attempt_eq_none_iff] at failed ⊢
  rcases failed with got | outside | failed
  · exact False.elim (new got)
  · exact .inr (.inl outside)
  by_cases outside : g.size ≤ p.pc
  · exact .inr (.inl outside)
  refine .inr (.inr fun branch offered => ?_)
  have branchFailed := failed branch offered
  cases branch with
  | accept => exact branchFailed
  | step nx =>
    simp only [tryBranch] at branchFailed ⊢
    split at branchFailed
    · next kept =>
      rw [if_pos kept]
      exact stays nx offered kept (Nat.not_le.mp outside) branchFailed
    · next moved =>
      rw [if_neg moved]
      exact branchFailed

theorem attempt_mono {p' : List Nat} (longer : path ⊆ p') (failed : g.attempt q path p = none) :
    g.attempt q p' p = none := by
  induction size : g.fresh path using Nat.strong_induction_on generalizing path p' p with
  | _ n ih =>
    by_cases on : p.pc ∈ p'
    · exact attempt_of_mem on
    have new : p.pc ∉ path := fun got => on (longer got)
    exact attempt_eq_none_of_stays failed new fun nx _ _ lt nextFailed =>
      ih _ (size ▸ fresh_cons_lt lt new) (cons_subset_cons _ longer) nextFailed rfl

theorem isSome_attempt_iff : (g.attempt q path p).isSome = true ↔
    p.pc ∉ path ∧ p.pc < g.size ∧ ∃ branch ∈ g.branches q p,
        (g.tryBranch q path p branch).isSome = true := by
  rw [Option.isSome_iff_ne_none, ne_eq, attempt_eq_none_iff]
  simp [Option.isSome_iff_ne_none]

theorem path_of_attempt {c : Captures} (got : g.attempt q path p = some c) :
    ∃ z, g.Path q p z ∧ g.Accepts q z ∧ c = z.captures.setIfInBounds 1 z.offset := by
  induction left : q.text.size - p.offset using Nat.strong_induction_on generalizing path p with
  | _ _ shorter =>
  induction size : g.fresh path using Nat.strong_induction_on generalizing path p with
  | _ _ ih =>
    obtain ⟨new, lt, -⟩ := isSome_attempt_iff.mp (Option.isSome_of_eq_some got)
    rw [attempt_of_fresh lt new] at got
    obtain ⟨branch, offered, got⟩ := exists_of_findSome?_eq_some got
    cases branch with
    | accept => exact ⟨p, .refl, offered, (Option.some.inj got).symm⟩
    | step n =>
      have ahead : ∃ z, g.Path q n z ∧ g.Accepts q z ∧ c = z.captures.setIfInBounds 1 z.offset := by
        simp only [tryBranch] at got
        split at got
        · next kept => exact ih _ (size ▸ fresh_cons_lt lt new) got (by rw [kept, left]) rfl
        · next moved =>
          refine shorter _ ?_ got rfl
          rcases Moves.offset offered with kept | ⟨further, inText⟩
          · exact False.elim (moved kept)
          · omega
      obtain ⟨z, rest, accepts, eq⟩ := ahead
      exact ⟨z, .head offered rest, accepts, eq⟩

theorem exists_of_backtrack {c : Captures} (got : g.backtrack q = some c) :
    ∃ a, a ≤ q.text.size ∧ (q.anchorsStart = true → a = 0) ∧
      g.attempt q [] (g.origin q a) = some c ∧ ∀ e < a, g.attempt q [] (g.origin q e) = none := by
  obtain ⟨u, a, v, range_eq, got, failed⟩ := findSome?_eq_some_iff.mp got
  have le : u.length < if q.anchorsStart then 1 else q.text.size + 1 := by
    rw [← length_range (n := if q.anchorsStart then 1 else q.text.size + 1), range_eq]
    simp
  have place {i : Nat} (early : i ≤ u.length) : (u ++ a :: v)[i]? = some i := by
    rw [← range_eq, getElem?_range (by omega)]
  obtain rfl : a = u.length := by simpa using place (Nat.le_refl _)
  refine ⟨u.length, ?_, ?_, got, fun e early => failed e ?_⟩
  · split at le <;> omega
  · intro anc
    rw [if_pos anc] at le
    omega
  · have mem := place (Nat.le_of_lt early)
    rw [getElem?_append_left early] at mem
    exact mem_of_getElem? mem

theorem IsNop.branches_eq (nop : g.IsNop p.pc) :
    g.branches q p = [.step { p with pc := g.out p.pc }] := by
  simp [branches, nop.1, nop.2, out]

theorem attempt_nop (nop : g.IsNop p.pc) (new : p.pc ∉ path) :
    g.attempt q path p = g.attempt q (p.pc :: path) { p with pc := g.out p.pc } := by
  rw [attempt_of_fresh nop.lt new, nop.branches_eq]
  simp [tryBranch]

/-- Nops lead from an instruction to one of the path. -/
inductive Stuck (graph : Graph) (path : List Nat) : Nat → Prop where
  | here {pc} (onPath : pc ∈ path) : Stuck graph path pc
  | skip {pc} (nop : graph.IsNop pc) (ahead : Stuck graph path (graph.out pc)) :
      Stuck graph path pc

section

variable {pc : Nat} (stuck : g.Stuck path pc)

include stuck

theorem Stuck.mono {p' : List Nat} (longer : path ⊆ p') :
    g.Stuck p' pc := by
  induction stuck with
  | here on => exact .here (longer on)
  | skip nop _ ih => exact .skip nop ih

theorem attempt_stuck {p' : List Nat} (longer : path ⊆ p') (k : Nat) (c : Captures) :
    g.attempt q p' ⟨pc, k, c⟩ = none := by
  induction stuck generalizing p' with
  | here on => exact attempt_of_mem (longer on)
  | @skip pc nop ahead ih =>
    by_cases on : pc ∈ p'
    · exact attempt_of_mem on
    · rw [attempt_nop nop on]
      exact ih (fun j got => .tail _ (longer got))

theorem attempt_cons_stuck :
    g.attempt q (pc :: path) p = g.attempt q path p := by
  induction size : g.fresh path using Nat.strong_induction_on generalizing path p with
  | _ m ih =>
    by_cases here : p.pc = pc
    · rw [attempt_of_mem (by simp [here])]
      have failed : g.attempt q path ⟨pc, p.offset, p.captures⟩ = none :=
        attempt_stuck stuck (Subset.refl _) p.offset p.captures
      rw [← here] at failed
      exact failed.symm
    apply attempt_congr_of_stays (by simp [here])
    intro n _ _ lt new
    have offPath : p.pc ∉ path := fun got => new (.tail _ got)
    calc g.attempt q (p.pc :: pc :: path) n
        = g.attempt q (pc :: p.pc :: path) n := attempt_swap ..
      _ = g.attempt q (p.pc :: path) n :=
          ih _ (size ▸ fresh_cons_lt lt offPath) (stuck.mono (subset_cons_self _ _)) rfl

end

theorem attempt_cons_nop {pc : Nat} (nop : g.IsNop pc) (k : Nat) (c : Captures) :
    g.attempt q (pc :: path) ⟨g.out pc, k, c⟩ = g.attempt q path ⟨g.out pc, k, c⟩ := by
  by_cases loops : g.out pc = pc
  · rw [attempt_of_mem (by simp [loops])]
    by_cases on : g.out pc ∈ path
    · rw [attempt_of_mem on]
    · rw [attempt_nop (by rw [loops]; exact nop) on, attempt_of_mem (by simp [loops])]
  · apply attempt_congr_of_stays (by simp [loops])
    intro n _ _ _ _
    calc g.attempt q (g.out pc :: pc :: path) n
        = g.attempt q (pc :: g.out pc :: path) n := attempt_swap ..
      _ = g.attempt q (g.out pc :: path) n := attempt_cons_stuck (.skip nop (.here (by simp)))

theorem attempt_endless {pc : Nat} (endless : g.Endless pc) (k : Nat) (c : Captures) :
    g.attempt q path ⟨pc, k, c⟩ = none := by
  induction size : g.fresh path using Nat.strong_induction_on generalizing path pc with
  | _ n ih =>
    by_cases on : pc ∈ path
    · exact attempt_of_mem on
    · have nop : g.IsNop pc := endless 0
      rw [attempt_nop nop on]
      exact ih _ (size ▸ fresh_cons_lt nop.lt on) endless.out rfl

theorem attempt_followFrom (plain : ∀ pc, (g.inst pc).op = .nop → g.IsNop pc)
    (settled : ∀ pc ∈ path, g.IsNop pc → g.Endless pc) (n pc k : Nat) (c : Captures) :
    g.attempt q path ⟨g.followFrom n pc, k, c⟩ = g.attempt q path ⟨pc, k, c⟩ := by
  fun_induction followFrom g n pc with
  | case1 | case3 => rfl
  | case2 n pc x skipped ih =>
    have nop := plain pc skipped.1
    rw [ih]
    change g.attempt q path ⟨g.out pc, k, c⟩ = _
    by_cases on : pc ∈ path
    · have cut : g.attempt q path ⟨pc, k, c⟩ = none := attempt_of_mem on
      rw [cut, attempt_endless (settled pc on nop).out]
    · have skipped : g.attempt q path ⟨pc, k, c⟩ = g.attempt q (pc :: path) ⟨g.out pc, k, c⟩ :=
        attempt_nop nop on
      rw [skipped, attempt_cons_nop nop]

/-- No match is found from an instruction, whatever was captured on the way to it. -/
def Barren (graph : Graph) (query : Query) (offset : Nat) (path : List Nat) (pc : Nat) : Prop :=
  ∀ captures, graph.Leads query ⟨pc, offset, captures⟩ →
    graph.attempt query path ⟨pc, offset, captures⟩ = none

theorem Barren.mono {k pc : Nat} {p' : List Nat}
    (barren : g.Barren q k path pc) (longer : path ⊆ p') : g.Barren q k p' pc :=
  fun c leads => attempt_mono longer (barren c leads)

theorem attempt_of_cons {pc : Nat} (barren : g.Barren q p.offset path pc)
    (leads : g.Leads q p) (failed : g.attempt q (pc :: path) p = none) :
    g.attempt q path p = none := by
  induction size : g.fresh path using Nat.strong_induction_on generalizing path p with
  | _ n ih =>
    by_cases here : p.pc = pc
    · subst here
      exact barren p.captures leads
    by_cases on : p.pc ∈ path
    · exact attempt_of_mem on
    refine attempt_eq_none_of_stays failed (by simp [here, on]) fun nx offered kept lt nextFailed =>
      ?_
    refine ih _ (size ▸ fresh_cons_lt lt on) ?_ (leads.trans (.single offered)) ?_ rfl
    · rw [kept]
      exact barren.mono (subset_cons_self _ _)
    · rw [← nextFailed, attempt_swap]

theorem isSome_attempt_congr {gs : List Nat} (refs : ∀ pc, g.References gs pc)
    {a b : Point} (alike : a.Alike gs b) :
    (g.attempt q path a).isSome = (g.attempt q path b).isSome := by
  induction left : q.text.size - a.offset using Nat.strong_induction_on generalizing path a b with
  | _ _ shorter =>
  induction size : g.fresh path using Nat.strong_induction_on generalizing path a b with
  | _ _ ih =>
    have samePc := alike.pc_eq
    by_cases on : a.pc ∈ path
    · rw [attempt_of_mem on, attempt_of_mem (samePc ▸ on)]
    rcases Nat.lt_or_ge a.pc g.size with lt | outside
    · rw [attempt_of_fresh lt on, attempt_of_fresh (samePc ▸ lt) (samePc ▸ on)]
      apply isSome_findSome?_congr (branches_alike (refs _) alike)
      intro branch offered branch' alike'
      cases alike' with
      | accept => rfl
      | @step n n' alike' =>
        simp only [tryBranch, ← alike.offset_eq, ← alike'.offset_eq, ← samePc]
        split
        · next kept => exact ih _ (size ▸ fresh_cons_lt lt on) alike' (by rw [kept, left]) rfl
        · next moved =>
          refine shorter _ ?_ alike' rfl
          rcases Moves.offset offered with kept | ⟨further, inText⟩
          · exact False.elim (moved kept)
          · omega
    · rw [attempt_of_size_le outside, attempt_of_size_le (samePc ▸ outside)]

/-- Wherever paths lead, instruction and offset decide what backreferences read. -/
def Steady (graph : Graph) (query : Query) : Prop :=
  ∃ groups, (∀ pc, graph.References groups pc) ∧
    ∀ first second, graph.Leads query first → graph.Leads query second → first.pc = second.pc →
      first.offset = second.offset → Captures.SameOn groups first.captures second.captures

theorem Steady.barren (steady : g.Steady q) (leads : g.Leads q p)
    (failed : g.attempt q path p = none) : g.Barren q p.offset path p.pc := by
  intro c leads'
  obtain ⟨gs, refs, eq⟩ := steady
  have agrees : (g.attempt q path ⟨p.pc, p.offset, c⟩).isSome = (g.attempt q path p).isSome :=
    isSome_attempt_congr refs ⟨rfl, rfl, eq _ _ leads' leads rfl rfl⟩
  rw [failed] at agrees
  simpa using agrees

def NoBackreferences (graph : Graph) : Prop :=
  ∀ pc exts, graph.extensionsAt? pc = some exts → ∀ ext ∈ exts, ext.kind ≠ .backreference

theorem NoBackreferences.steady (noBackrefs : g.NoBackreferences) (q : Query) : g.Steady q := by
  refine ⟨[], ?_, by simp [Captures.SameOn]⟩
  intro pc es got ext mem kind
  exact False.elim (noBackrefs pc es got ext mem kind)

end Graph

end Rematch
