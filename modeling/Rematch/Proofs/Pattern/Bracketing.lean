import Rematch.Proofs.Pattern.Properness

/-!
Groups in programs. A program is well formed, and its steps open and close groups as brackets do:
whatever way leads to a step, the same groups are open there, the last one opened first.
-/

namespace Rematch

open List Compilation Rematch.Expr Step

namespace Step

variable {sp : Step} {t : Nat}

def exit? : Step → Bool → Option Nat
  | .alt out out1, isSecond | .altMatch out out1, isSecond => some (if isSecond then out1 else out)
  | .capture _ out, false | .emptyWidth _ out, false | .nop out, false | .codes _ _ out, false
  | .code _ out, false | .anyCode out, false | .anyCodeButNewline out, false => some out
  | _, _ => none

def opens (groups : List Nat) : Step → List Nat
  | .capture slot _ => if slot % 2 = 0 then slot / 2 :: groups else groups.tail
  | _ => groups

/-- A step closes the group that was opened last, and no group is open at the end. Only some groups
occur. -/
def Brackets (occurs : Nat → Prop) (groups : List Nat) : Step → Prop
  | .capture slot _ => occurs (slot / 2) ∧ (slot % 2 = 1 → groups.head? = some (slot / 2))
  | .accept => groups = []
  | _ => True

/-- Whether a step has at most one exit and leaves the open groups as they are. -/
def isPlain : Step → Bool
  | .alt .. | .altMatch .. | .capture .. | .accept => false
  | _ => true

variable {snd : Bool}

theorem Fits.exit_lt {n : Nat} (fits : sp.Fits n) (leads : sp.exit? snd = some t) : t < n := by
  cases sp <;> cases snd <;> simp_all [exit?, Step.Fits]

theorem exit?_leadTo {o : Bool} {out : Nat} (leads : (sp.leadTo t snd).exit? o = some out) :
    out = t ∨ o ≠ snd ∧ sp.exit? o = some out := by
  cases sp <;> cases snd <;> cases o <;> simp_all [exit?, leadTo]

@[simp]
theorem opens_leadTo (gs : List Nat) (snd : Bool) : (sp.leadTo t snd).opens gs = sp.opens gs := by
  cases sp <;> cases snd <;> rfl

theorem Brackets.leadTo {occurs : Nat → Prop} {gs : List Nat}
    (brackets : sp.Brackets occurs gs) (snd : Bool) : (sp.leadTo t snd).Brackets occurs gs := by
  cases sp <;> cases snd <;> exact brackets

end Step

namespace Compilation

open Unicode (CodeSet maxCode)

/-- What is known of the steps so far: the groups open at each of them, and the exits that are still
to be filled in with the groups open there. -/
structure Bracketed (occurs : Nat → Prop) (label : Nat → List Nat) (steps : Steps)
    (pending : List (Exit × List Nat)) : Prop where
  room : 0 < steps.size
  sound : ∀ {pc : Nat} {step : Step}, steps[pc]? = some step →
    step.Fits steps.size ∧ step.Brackets occurs (label pc)
  leads : ∀ {pc : Nat} {step : Step} {isSecond : Bool} {target : Nat}, steps[pc]? = some step →
    step.exit? isSecond = some target →
    (⟨pc, isSecond⟩, step.opens (label pc)) ∈ pending ∨ label target = step.opens (label pc)
  leaves : ∀ {exit : Exit} {groups : List Nat}, (exit, groups) ∈ pending →
    ∃ step, steps[exit.step]? = some step ∧ step.opens (label exit.step) = groups

/-- A fragment is entered and left with the given groups open. -/
structure Extends (occurs : Nat → Prop) (before : Nat → List Nat) (steps : Steps)
    (pending : List (Exit × List Nat)) (groups groups' : List Nat) (result : Fragment × Steps)
    (label : Nat → List Nat) : Prop where
  bracketed : Bracketed occurs label result.2 (result.1.exits.map (·, groups') ++ pending)
  same : ∀ pc < steps.size, label pc = before pc
  size_le : steps.size ≤ result.2.size
  start_lt : result.1.start < result.2.size
  start : label result.1.start = groups

variable {occurs : Nat → Prop} {l l' : Nat → List Nat} {n : Steps}
  {parts parts' : List (Exit × List Nat)} {gs gs' : List Nat} {t : Nat}

theorem Bracketed.congr (brk : Bracketed occurs l n parts) (eq : ∀ e, e ∈ parts ↔ e ∈ parts') :
    Bracketed occurs l n parts' where
  __ := brk
  leads got leads := (brk.leads got leads).imp_left (eq _).mp
  leaves mem := brk.leaves ((eq _).mpr mem)

/-- A new step has the given groups open; the given exits of it are still to be filled in. -/
theorem Bracketed.push (brk : Bracketed occurs l n parts) (sp : Step)
    (fits : sp.Fits (n.size + 1)) (brackets : sp.Brackets occurs gs) (opened : List Bool)
    (leads : ∀ {snd t}, sp.exit? snd = some t → snd ∈ opened ∨ t < n.size ∧ l t = sp.opens gs) :
    Bracketed occurs (Function.update l n.size gs) (n.push sp)
      (opened.map (⟨n.size, ·⟩, sp.opens gs) ++ parts) := by
  have cases {pc : Nat} {o : Step} (got : (n.push sp)[pc]? = some o) :
      pc = n.size ∧ o = sp ∨ pc < n.size ∧ n[pc]? = some o := by
    rw [Array.getElem?_push] at got
    split at got
    · next here => exact .inl ⟨here, (Option.some.inj got).symm⟩
    · exact .inr ⟨(Array.getElem?_eq_some_iff.mp got).1, got⟩
  constructor
  · simp
  · intro pc o got
    rw [Array.size_push]
    rcases cases got with ⟨rfl, rfl⟩ | ⟨lt, got⟩
    · exact ⟨fits, by rwa [Function.update_self]⟩
    · rw [Function.update_of_ne lt.ne]
      exact (brk.sound got).imp_left (·.mono (Nat.le_succ _))
  · intro pc o snd out got exits
    rcases cases got with ⟨rfl, rfl⟩ | ⟨lt, got⟩
    · rw [Function.update_self]
      rcases leads exits with mem | ⟨lt, eq⟩
      · exact .inl (mem_append_left _ (mem_map_of_mem mem))
      · exact .inr (by rwa [Function.update_of_ne lt.ne])
    · rw [Function.update_of_ne lt.ne, Function.update_of_ne ((brk.sound got).1.exit_lt exits).ne]
      exact (brk.leads got exits).imp_left (mem_append_right _)
  · intro x gs'' mem
    rcases mem_append.mp mem with mem | mem
    · obtain ⟨snd, -, eq⟩ := mem_map.mp mem
      cases eq
      exact ⟨sp, Array.getElem?_push_size, by rw [Function.update_self]⟩
    · obtain ⟨o, got, eq⟩ := brk.leaves mem
      have lt := (Array.getElem?_eq_some_iff.mp got).1
      exact ⟨o, by rw [Array.getElem?_push_lt lt, ← got, Array.getElem?_eq_getElem],
        by rwa [Function.update_of_ne lt.ne]⟩

@[simp]
theorem size_connect (n : Steps) (exits : List Exit) (t : Nat) :
    (connect n exits t).size = n.size := by
  induction exits generalizing n with
  | nil => rfl
  | cons x r ih => exact (ih _).trans Array.size_modify

theorem Bracketed.connect {exits : List Exit}
    (brk : Bracketed occurs l n (exits.map (·, gs) ++ parts))
    (lt : t < n.size) (eq : l t = gs) : Bracketed occurs l (connect n exits t) parts := by
  induction exits generalizing n with
  | nil => exact brk
  | cons x r ih =>
    have size_eq := @Array.size_modify _ n x.step (leadTo t x.isSecond)
    have cases {pc : Nat} {sp : Step}
        (got : (n.modify x.step (leadTo t x.isSecond))[pc]? = some sp) :
        ∃ before, n[pc]? = some before ∧ (pc ≠ x.step ∧ sp = before ∨
          pc = x.step ∧ sp = before.leadTo t x.isSecond) := by
      rw [Array.getElem?_modify] at got
      split at got
      · next here =>
        obtain ⟨before, there, rfl⟩ := Option.map_eq_some_iff.mp got
        exact ⟨before, there, .inr ⟨here.symm, rfl⟩⟩
      · next elsewhere => exact ⟨sp, got, .inl ⟨Ne.symm elsewhere, rfl⟩⟩
    have modified : Bracketed occurs l (n.modify x.step (leadTo t x.isSecond))
        (r.map (·, gs) ++ parts) := by
      refine ⟨by rw [size_eq]; exact brk.room, ?_, ?_, ?_⟩
      · intro pc sp got
        rw [size_eq]
        obtain ⟨before, there, ⟨-, rfl⟩ | ⟨-, rfl⟩⟩ := cases got
        · exact brk.sound there
        · exact (brk.sound there).imp (·.leadTo lt _) (·.leadTo _)
      · intro pc sp snd out got leads
        obtain ⟨before, there, ⟨elsewhere, rfl⟩ | ⟨rfl, rfl⟩⟩ := cases got
        · refine (brk.leads there leads).imp_left fun mem => ?_
          rcases mem_cons.mp mem with here | mem
          · exact absurd (congrArg (·.1.step) here) elsewhere
          · exact mem
        · obtain ⟨o, there', leaves⟩ := brk.leaves (mem_cons_self)
          cases there.symm.trans there'
          rw [opens_leadTo, leaves]
          rcases exit?_leadTo leads with rfl | ⟨other, leads⟩
          · exact .inr eq
          · have before := brk.leads there leads
            rw [leaves] at before
            refine before.imp_left fun mem => ?_
            rcases mem_cons.mp mem with here | mem
            · exact absurd (congrArg (·.1.isSecond) here) other
            · exact mem
      · intro other gs' mem
        obtain ⟨sp, got, leaves⟩ := brk.leaves (mem_cons_of_mem _ mem)
        rw [Array.getElem?_modify, got]
        split
        · exact ⟨_, rfl, by rwa [opens_leadTo]⟩
        · exact ⟨sp, rfl, leaves⟩
    exact ih modified (by rwa [size_eq])

theorem single_extends (brk : Bracketed occurs l n parts) {sp : Step} (fits : sp.Fits (n.size + 1))
    (brackets : sp.Brackets occurs gs) (alone : sp.exit? true = none) (nullable : Bool) :
    Extends occurs l n parts gs (sp.opens gs) (single n sp nullable)
      (Function.update l n.size gs) where
  bracketed := brk.push sp fits brackets [false] fun {snd _} leads => by cases snd <;> simp_all
  same pc lt := Function.update_of_ne lt.ne _ _
  size_le := by simp [single]
  start_lt := by simp [single]
  start := Function.update_self ..

theorem plain_extends (brk : Bracketed occurs l n parts) {sp : Step} (fits : sp.Fits (n.size + 1))
    (plain : sp.isPlain = true) (nullable : Bool) (gs : List Nat) :
    ∃ l', Extends occurs l n parts gs gs (single n sp nullable) l' := by
  have brackets : sp.Brackets occurs gs := by cases sp <;> simp_all [isPlain, Step.Brackets]
  have alone : sp.exit? true = none := by cases sp <;> simp_all [isPlain, exit?]
  have kept : sp.opens gs = gs := by cases sp <;> simp_all [isPlain, opens]
  have whole := single_extends brk fits brackets alone nullable
  rw [kept] at whole
  exact ⟨_, whole⟩

theorem literalStep_isPlain (c : Nat) (fc : Bool) : (literalStep c fc).isPlain = true := by
  unfold literalStep
  split <;> rfl

theorem setStep_isPlain (cs : CodeSet) : (setStep cs).isPlain = true := by
  unfold setStep
  repeat' split
  all_goals rfl

namespace Extends

variable {a b body : Fragment} {m la : Steps} {between : List Nat} {u : Nat → List Nat}

theorem chain (begun : Extends occurs u n parts gs between (a, m) l)
    (next : Extends occurs l m (a.exits.map (·, between) ++ parts) between gs' (b, la) l') :
    Extends occurs u n parts gs gs' (chain a b la) l' where
  bracketed := (next.bracketed.congr fun e => by
    simp only [Compilation.chain, mem_append, or_left_comm]).connect next.start_lt next.start
  same pc lt := (next.same pc (Nat.lt_of_lt_of_le lt begun.size_le)).trans (begun.same pc lt)
  size_le := by simpa [Compilation.chain] using Nat.le_trans begun.size_le next.size_le
  start_lt := by simpa [Compilation.chain] using Nat.lt_of_lt_of_le begun.start_lt next.size_le
  start := (next.same _ begun.start_lt).trans begun.start

theorem choose (begun : Extends occurs u n parts gs gs' (a, m) l)
    (next : Extends occurs l m (a.exits.map (·, gs') ++ parts) gs gs' (b, la) l') :
    Extends occurs u n parts gs gs' (choose a b la) (Function.update l' la.size gs) := by
  have beg : a.start < la.size := Nat.lt_of_lt_of_le begun.start_lt next.size_le
  have beg' : l' a.start = gs := (next.same _ begun.start_lt).trans begun.start
  have size_le : n.size ≤ la.size := Nat.le_trans begun.size_le next.size_le
  constructor
  · refine (next.bracketed.push (.alt a.start b.start)
      ⟨Nat.lt_succ_of_lt beg, Nat.lt_succ_of_lt next.start_lt⟩ trivial []
      fun {snd _} leads => .inr ?_).congr fun e => ?_
    · cases leads
      cases snd
      · exact ⟨beg, beg'⟩
      · exact ⟨next.start_lt, next.start⟩
    · simp [Compilation.choose, or_left_comm]
  · intro pc lt
    rw [Function.update_of_ne (Nat.lt_of_lt_of_le lt size_le).ne,
      next.same pc (Nat.lt_of_lt_of_le lt begun.size_le), begun.same pc lt]
  · simpa [Compilation.choose] using Nat.le_succ_of_le size_le
  · simp [Compilation.choose]
  · exact Function.update_self ..

section Repetitions

variable (begun : Extends occurs u n parts gs gs (body, m) l) (lazy : Bool)

include begun

theorem fork : Bracketed occurs (Function.update l m.size gs) (fork body lazy m).2
    (((fork body lazy m).1, gs) :: (body.exits.map (·, gs) ++ parts)) := by
  have beg := Nat.lt_succ_of_lt begun.start_lt
  have pos := Nat.succ_pos m.size
  cases lazy
  · refine begun.bracketed.push (.alt body.start 0) ⟨beg, pos⟩ trivial [true]
      fun {snd _} leads => ?_
    cases leads
    cases snd
    · exact .inr ⟨begun.start_lt, begun.start⟩
    · exact .inl (.head _)
  · refine begun.bracketed.push (.alt 0 body.start) ⟨pos, beg⟩ trivial [false]
      fun {snd _} leads => ?_
    cases leads
    cases snd
    · exact .inl (.head _)
    · exact .inr ⟨begun.start_lt, begun.start⟩

theorem same_fork : ∀ pc < n.size, Function.update l m.size gs pc = u pc := by
  intro pc lt
  rw [Function.update_of_ne (Nat.lt_of_lt_of_le lt begun.size_le).ne, begun.same pc lt]

theorem optional : Extends occurs u n parts gs gs (optional body lazy m)
    (Function.update l m.size gs) where
  bracketed := begun.fork lazy
  same := begun.same_fork
  size_le := by simpa [Compilation.optional, Compilation.fork] using Nat.le_succ_of_le begun.size_le
  start_lt := by simp [Compilation.optional, Compilation.fork]
  start := Function.update_self ..

theorem loop : Extends occurs u n parts gs gs (loop body lazy m) (Function.update l m.size gs) where
  bracketed := ((begun.fork lazy).congr fun e => by
    simp [Compilation.loop, or_left_comm]).connect (by simp [Compilation.fork])
      (Function.update_self ..)
  same := begun.same_fork
  size_le := by simpa [Compilation.loop, Compilation.fork] using Nat.le_succ_of_le begun.size_le
  start_lt := by simp [Compilation.loop, Compilation.fork]
  start := Function.update_self ..

theorem oneOrMore : Extends occurs u n parts gs gs (oneOrMore body lazy m)
    (Function.update l m.size gs) where
  __ := begun.loop lazy
  start_lt := by
    simpa [Compilation.oneOrMore, Compilation.loop, Compilation.fork] using
      Nat.lt_succ_of_lt begun.start_lt
  start := (Function.update_of_ne begun.start_lt.ne _ _).trans begun.start

theorem repeated (k : Repetition) : ∃ l', Extends occurs u n parts gs gs (repeated k lazy body m)
      l' := by
  unfold Compilation.repeated
  split
  · unfold zeroOrMore
    split
    · exact ⟨_, (begun.oneOrMore lazy).optional lazy⟩
    · exact ⟨_, begun.loop lazy⟩
  · exact ⟨_, begun.oneOrMore lazy⟩
  · exact ⟨_, begun.optional lazy⟩
  · exact ⟨_, begun⟩

end Repetitions

theorem literalFrom (begun : Extends occurs u n parts gs gs (a, m) l)
    (fc : Bool) {cs : List Nat} (bounds : ∀ c ∈ cs, c ≤ maxCode) :
    ∃ l', Extends occurs u n parts gs gs (literalFrom fc a m cs) l' := by
  induction cs generalizing a m l with
  | nil => exact ⟨_, begun⟩
  | cons c r ih =>
    obtain ⟨_, next⟩ := plain_extends begun.bracketed
      (literalStep_fits (bounds c (.head _)) (Nat.succ_pos _) fc)
      (literalStep_isPlain c fc) false gs
    exact ih (begun.chain next) fun c mem => bounds c (.tail _ mem)

end Extends

mutual

/-- The fragment of a proper expression has the same groups open where it is entered and left. -/
theorem fragment_extends : ∀ {ex : Expr} {n : Steps} {l : Nat → List Nat}
    {parts : List (Exit × List Nat)} (gs : List Nat), Bracketed occurs l n parts →
    ex.Proper → (∀ e ∈ ex.groups, occurs e.1) →
    ∃ l', Extends occurs l n parts gs gs (fragment n ex) l'
  | .empty, _, _, _, gs, brk, _, _ | .literal [] _, _, _, _, gs, brk, _, _
  | .concat [], _, _, _, gs, brk, _, _ => by
    rw [fragment]
    refine plain_extends brk ?_ rfl true gs
    exact Nat.succ_pos _
  | .literal (c :: r) m, _, _, _, gs, brk, proper, _ => by
    rw [fragment]
    obtain ⟨_, fst⟩ := plain_extends brk
      (literalStep_fits (proper c (.head _)) (Nat.succ_pos _) m.foldCase)
      (literalStep_isPlain c m.foldCase) false gs
    exact fst.literalFrom _ fun c mem => proper c (.tail _ mem)
  | .set cs, _, _, _, gs, brk, proper, _ => by
    rw [fragment]
    exact plain_extends brk (setStep_fits proper (Nat.succ_pos _)) (setStep_isPlain cs) false gs
  | .any, _, _, _, gs, brk, _, _ | .anyButNewline, _, _, _, gs, brk, _, _
  | .assertion _, _, _, _, gs, brk, _, _ => by
    rw [fragment]
    refine plain_extends brk ?_ rfl _ gs
    exact Nat.succ_pos _
  | .capture gr nm body, n, l, parts, gs, brk, proper, mem => by
    rw [fragment]
    have occurs : occurs gr := mem (gr, nm) (by simp [groups])
    have opening := @single_extends _ _ _ _ gs brk (.capture (2 * gr) 0)
      (Nat.succ_pos _) ⟨by simpa using occurs, by omega⟩ rfl true
    simp only [opens, Nat.mul_mod_right, if_true, Nat.mul_div_cancel_left _ Nat.two_pos] at opening
    obtain ⟨_, inner⟩ := @fragment_extends body _ _ _ (gr :: gs) opening.bracketed proper
      fun e mem' => mem e (by simp [groups, mem'])
    have closing := @single_extends _ _ _ _ (gr :: gs) inner.bracketed
      (.capture (2 * gr + 1) 0) (Nat.succ_pos _)
      ⟨by simpa [Nat.mul_add_div Nat.two_pos] using occurs, by simp [Nat.mul_add_div Nat.two_pos]⟩
        rfl true
    have beg := Nat.lt_of_lt_of_le inner.start_lt closing.size_le
    have size_le := Nat.le_trans inner.size_le closing.size_le
    refine ⟨_, ((closing.bracketed.congr fun e => ?_).connect beg
      ((closing.same _ inner.start_lt).trans inner.start)).connect ?_ closing.start, ?_, ?_, ?_, ?_⟩
    · simp [chain, single, opens, or_left_comm]
    · simp [single]
    · intro pc lt
      rw [closing.same pc, inner.same pc, opening.same pc lt]
      · exact Nat.lt_of_lt_of_le lt opening.size_le
      · exact Nat.lt_of_lt_of_le lt (Nat.le_trans opening.size_le inner.size_le)
    · simpa [chain] using Nat.le_trans opening.size_le size_le
    · simpa [chain] using Nat.lt_of_lt_of_le opening.start_lt size_le
    · exact (closing.same _ (Nat.lt_of_lt_of_le opening.start_lt inner.size_le)).trans
        ((inner.same _ opening.start_lt).trans opening.start)
  | .repetition k lazy body, _, _, _, gs, brk, proper, mem => by
    rw [fragment]
    obtain ⟨_, inner⟩ := @fragment_extends body _ _ _ gs brk proper (by simpa [groups] using mem)
    exact inner.repeated lazy k
  | .concat (a :: r), _, _, _, gs, brk, proper, mem => by
    rw [fragment]
    simp only [groups, groupsOf, forall_mem_append] at mem
    obtain ⟨_, begun⟩ := fragment_extends gs brk proper.1 mem.1
    exact concatFrom_extends begun proper.2 mem.2
  | .alternate [], _, _, _, gs, brk, _, _ => by
    rw [fragment]
    refine plain_extends brk ?_ rfl false gs
    trivial
  | .alternate (a :: r), _, _, _, gs, brk, proper, mem => by
    rw [fragment]
    simp only [groups, groupsOf, forall_mem_append] at mem
    obtain ⟨_, begun⟩ := fragment_extends gs brk proper.1 mem.1
    exact alternateFrom_extends begun proper.2 mem.2

theorem concatFrom_extends : ∀ {l : List Expr} {n m : Steps} {a : Fragment}
    {u lb : Nat → List Nat} {parts : List (Exit × List Nat)} {gs : List Nat},
    Extends occurs u n parts gs gs (a, m) lb →
    Expr.AllProper l → (∀ e ∈ groupsOf l, occurs e.1) →
    ∃ l', Extends occurs u n parts gs gs (concatFrom a m l) l'
  | [], _, _, _, _, _, _, _, begun, _, _ => by
    rw [concatFrom]
    exact ⟨_, begun⟩
  | part :: r, _, _, _, _, _, _, gs, begun, proper, mem => by
    rw [concatFrom]
    simp only [groupsOf, forall_mem_append] at mem
    obtain ⟨_, next⟩ := fragment_extends gs begun.bracketed proper.1 mem.1
    exact concatFrom_extends (begun.chain next) proper.2 mem.2

theorem alternateFrom_extends : ∀ {l : List Expr} {n m : Steps} {a : Fragment}
    {u lb : Nat → List Nat} {parts : List (Exit × List Nat)} {gs : List Nat},
    Extends occurs u n parts gs gs (a, m) lb →
    Expr.AllProper l → (∀ e ∈ groupsOf l, occurs e.1) →
    ∃ l', Extends occurs u n parts gs gs (alternateFrom a m l) l'
  | [], _, _, _, _, _, _, _, begun, _, _ => by
    rw [alternateFrom]
    exact ⟨_, begun⟩
  | choice :: r, _, _, _, _, _, _, gs, begun, proper, mem => by
    rw [alternateFrom]
    simp only [groupsOf, forall_mem_append] at mem
    obtain ⟨_, next⟩ := fragment_extends gs begun.bracketed proper.1 mem.1
    exact alternateFrom_extends (begun.choose next) proper.2 mem.2

end

end Compilation

namespace Expr

variable {e : Expr}

/-- In the program of an expression the same groups are open at a step whatever way leads to it, and
none at the start. -/
theorem exists_bracketed {occurs : Nat → Prop} (proper : e.Proper)
    (mem : ∀ en ∈ e.groups, occurs en.1) :
    ∃ l i, Compilation.Bracketed occurs l e.compile.steps [] ∧
      e.compile.start = (i : Nat) ∧ i < e.compile.steps.size ∧ l i = [] := by
  have only {pc : Nat} {sp : Step} (got : #[fail][pc]? = some sp) : sp = .fail := by
    simpa using (Array.mem_of_getElem? got : sp ∈ #[fail])
  obtain ⟨l, whole⟩ := @fragment_extends occurs e #[.fail] (fun _ => []) [] []
    ⟨by simp, fun got => by simp [only got, Step.Fits, Step.Brackets],
      fun got leads => by simp [only got, exit?] at leads, by simp⟩ proper mem
  have pushed := whole.bracketed.push .accept trivial (show _ = [] from rfl) [] (by simp [exit?])
  refine ⟨_, _, pushed.connect (by simp) (Function.update_self ..), rfl, ?_, ?_⟩
  · simpa [compile] using Nat.lt_succ_of_lt whole.start_lt
  · rw [Function.update_of_ne whole.start_lt.ne, whole.start]

theorem Proper.compile (proper : e.Proper) : e.compile.WellFormed := by
  obtain ⟨l, i, brk, start_eq, lt, -⟩ :=
    @exists_bracketed _ (fun _ => True) proper fun _ _ => trivial
  refine ⟨by omega, fun sp mb => ?_⟩
  obtain ⟨pc, got⟩ := Array.mem_iff_getElem?.mp mb
  exact (brk.sound got).1

theorem wellFormed_of_parse {pat : Bytes} (parsed : parse pat = .ok e) :
    e.simplify.compile.WellFormed :=
  (proper_of_parse parsed).simplify.compile

end Expr

end Rematch
