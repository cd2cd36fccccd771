import Rematch.Pattern.Parser

/-!
What becomes of expressions when alternations and concatenations are made of them. Whatever is taken
out, joined or reordered, is taken out, joined or reordered by a few rules, so that what every rule
keeps is kept by reading.
-/

namespace Rematch.Expr

open List

variable {foldCase : Bool} {e : Expr} {run : List Expr} {cs : List Nat}

/-- One list of expressions becomes another one. -/
inductive Merges : List Expr → List Expr → Prop where
  | refl (list : List Expr) : Merges list list
  | trans {first second third} (before : Merges first second)
      (after : Merges second third) : Merges first third
  | append {first second first' second'} (front : Merges first first')
      (back : Merges second second') : Merges (first ++ second) (first' ++ second')
  | perm {first second} (perm : first.Perm second) : Merges first second
  /-- One of two equal expressions is enough. -/
  | same (expr : Expr) : Merges [expr, expr] [expr]
  | alike {expr other} (alike : sameLeadingPart expr other = true) :
      Merges [expr, other] [expr]
  | spreadParts (parts : List Expr) : Merges [.concat parts] parts
  | gatherParts (parts : List Expr) : Merges parts [.concat parts]
  | spreadChoices (choices : List Expr) : Merges [.alternate choices] choices
  | gatherChoices (choices : List Expr) : Merges choices [.alternate choices]
  | addEmpty : Merges [] [.empty]
  | dropEmpty : Merges [.empty] []
  | cut (codes rest : List Nat) (mode : Mode) :
      Merges [.literal (codes ++ rest) mode] [.literal codes mode, .literal rest mode]
  | glue (codes rest : List Nat) {mode mode'} (sameCase : mode.foldCase = mode'.foldCase) :
      Merges [.literal codes mode, .literal rest mode'] [.literal (codes ++ rest) mode]
  | change (codes : List Nat) {mode mode'} (sameCase : mode.foldCase = mode'.foldCase) :
      Merges [.literal codes mode] [.literal codes mode']
  | join {expr other} (isUnit : expr.isUnit = true) (isUnit' : other.isUnit = true) :
      Merges [expr, other] [expr.join other]
  | name (expr : Expr) : Merges [expr] [expr.nameSet]
  | write (mode : Mode) (expr : Expr) : Merges [expr] [Parser.toLiteral mode expr]

namespace Merges

variable {a b : List Expr} {e : Expr}

theorem cons (e : Expr) (merges : Merges a b) : Merges (e :: a) (e :: b) :=
  .append (.refl [e]) merges

theorem flatMap {spread : Expr → List Expr} (each : ∀ e, Merges [e] (spread e)) (l : List Expr) :
    Merges l (l.flatMap spread) := by
  induction l with
  | nil => exact .refl []
  | cons e r ih => exact .append (each e) ih

theorem choices (e : Expr) : Merges [e] e.choices := by
  unfold Expr.choices
  split
  · exact .spreadChoices _
  · exact .refl _

theorem parts (e : Expr) : Merges [e] e.parts := by
  unfold Expr.parts
  split
  · exact .spreadParts _
  · exact .refl _

variable {f r : Expr}

theorem later {l rests : List Expr} (taken : Merges l (f :: rests)) (one : Merges [f, e] [f, r]) :
    Merges (l ++ [e]) (f :: (rests ++ [r])) := by
  have pre : Merges (l ++ [e]) (rests ++ [f, e]) := by
    refine .trans (.append taken (.refl [e])) (.perm ?_)
    rw [cons_append]
    exact perm_middle.symm
  have after : Merges (rests ++ [f, r]) (f :: (rests ++ [r])) := .perm perm_middle
  exact .trans pre (.trans (.append (.refl rests) one) after)

theorem beside {lead : Expr} (one : Merges [e] [lead, r])
    (alike : Merges [f, lead] [f]) : Merges [f, e] [f, r] :=
  .trans (.cons f one) (.append alike (.refl [r]))

end Merges

section Alternation

variable {combine : List Expr → List Expr} (merges : ∀ l, Merges l (combine l))

include merges

theorem merges_ofChoices (l : List Expr) : Merges l [ofChoices combine l] := by
  have spread : Merges l (combine (l.flatMap choices)) := .trans (.flatMap .choices l) (merges _)
  unfold ofChoices
  split
  · next choice single => rwa [single] at spread
  · exact .trans spread (.gatherChoices _)

end Alternation

/-- An expression begins with a literal in front of which the given code points stand. -/
def BeginsWith (codes : List Nat) (foldCase : Bool) (expr : Expr) : Prop :=
  ∃ more mode, expr.parts.head? = some (.literal (codes ++ more) mode) ∧ mode.foldCase = foldCase

theorem merges_dropCodes (cs m : List Nat) (mode : Mode) : Merges [.literal (cs ++ m) mode]
      [.literal cs mode, dropCodes cs.length (.literal (cs ++ m) mode)] := by
  rw [dropCodes]
  split
  · next short =>
    obtain rfl : m = [] := by
      rw [length_append] at short
      exact eq_nil_of_length_eq_zero (by omega)
    rw [append_nil]
    exact .append (.refl [_]) .addEmpty
  · rw [drop_left]
    exact .cut _ _ _

theorem BeginsWith.merges (begins : BeginsWith cs foldCase e) :
    ∃ mode : Mode, mode.foldCase = foldCase ∧
      Merges [e] [.literal cs mode, dropLeadingString cs.length e] := by
  obtain ⟨more, mode, head, sameCase⟩ := begins
  refine ⟨mode, sameCase, ?_⟩
  have dropped := merges_dropCodes cs more mode
  cases e with
  | concat parts =>
    obtain ⟨others, rfl⟩ : ∃ others, parts = .literal (cs ++ more) mode :: others := by
      cases parts with
      | nil => simp [parts] at head
      | cons first others => exact ⟨others, by simpa [parts] using head⟩
    have spread : Merges [.concat (.literal (cs ++ more) mode :: others)]
        (.literal cs mode :: dropCodes cs.length (.literal (cs ++ more) mode) :: others) :=
      .trans (.spreadParts _) (.append dropped (.refl others))
    refine .trans spread (.cons _ ?_)
    unfold dropLeadingString
    dsimp only
    split
    · next empty =>
      rw [empty]
      exact .refl _
    · next second empty =>
      rw [empty]
      exact .append .dropEmpty (.refl [second])
    · next empty _ _ =>
      rw [empty]
      exact .trans (.append .dropEmpty (.refl _)) (.gatherParts _)
    · exact .gatherParts _
  | literal all mode' =>
    obtain ⟨rfl, rfl⟩ : all = cs ++ more ∧ mode' = mode := by simpa [parts] using head
    exact dropped
  | _ => simp [parts] at head

theorem isUnit_join {a b : Expr} (isUnit : a.isUnit = true) : (a.join b).isUnit = true := by
  unfold join
  split
  · rfl
  · split <;> rfl
  · split
    · rfl
    · rfl
  · rfl

theorem merges_foldl_join (others : List Expr) {richest : Expr} (isUnit : richest.isUnit = true)
    (units : ∀ e ∈ others, e.isUnit = true) :
    Merges (richest :: others) [others.foldl join richest] := by
  induction others generalizing richest with
  | nil => exact .refl _
  | cons e others ih =>
    have joined : Merges (richest :: e :: others) (richest.join e :: others) :=
      .append (.join isUnit (units e (.head _))) (.refl others)
    exact .trans joined (ih (isUnit_join isUnit) fun e mem => units e (.tail _ mem))

theorem perm_richestFirst (l : List Expr) : l.Perm (richestFirst l) := by
  induction l with
  | nil => exact .refl _
  | cons a r ih =>
    unfold richestFirst
    split
    · next richest others got =>
      rw [got] at ih
      split
      · exact (ih.cons a).trans (.swap _ _ _)
      · exact .refl _
    · next got =>
      rw [got] at ih
      exact ih.cons a

theorem merges_endUnitRun (units : ∀ e ∈ run, e.isUnit = true) :
    Merges run.reverse (endUnitRun run) := by
  unfold endUnitRun
  split
  · exact .refl _
  · exact .refl _
  · have perm := perm_richestFirst run.reverse
    split
    · next richest others got =>
      rw [got] at perm
      have units' (e : Expr) (mem : e ∈ richest :: others) : e.isUnit = true :=
        units e (mem_reverse.mp (perm.mem_iff.mpr mem))
      have joined := merges_foldl_join others (units' richest (.head _))
        fun e mem => units' e (.tail _ mem)
      exact .trans (.perm perm) (.trans joined (.name _))
    · next got =>
      rw [got] at perm
      exact .perm perm

theorem merges_joinUnits (l : List Expr) (units : ∀ e ∈ run, e.isUnit = true) :
    Merges (run.reverse ++ l) (joinUnits run l) := by
  induction l generalizing run with
  | nil =>
    rw [append_nil]
    exact merges_endUnitRun units
  | cons choice r ih =>
    unfold joinUnits
    split
    · next isUnit =>
      have longer := @ih (choice :: run) (by simpa [isUnit] using units)
      rwa [reverse_cons, append_assoc] at longer
    · exact .append (merges_endUnitRun units) (.cons _ (@ih [] (by simp)))

theorem merges_mergeEmpty (l : List Expr) : Merges l (mergeEmpty l) := by
  fun_induction mergeEmpty l with
  | case1 r ih => exact .trans (.append .dropEmpty (.refl (.empty :: r))) ih
  | case2 a r _ ih => exact .cons a ih
  | case3 => exact .refl _

theorem commonFront_isPrefix (cs others : List Nat) :
    commonFront cs others <+: cs ∧ commonFront cs others <+: others := by
  fun_induction commonFront cs others with
  | case1 r a others ih => exact ⟨(prefix_cons_inj _).mpr ih.1, (prefix_cons_inj _).mpr ih.2⟩
  | case2 => exact ⟨ nil_prefix, nil_prefix⟩
  | case3 => exact ⟨ nil_prefix, nil_prefix⟩

/-- The literals that the expressions of a run begin with have a front in common, which is not empty
if there are two of them. -/
structure StringRun (codes : List Nat) (foldCase : Bool) (run : List Expr) : Prop where
  common : ∀ expr ∈ run, ∃ leading, expr.leadingString = (leading, foldCase) ∧ codes <+: leading
  several : run.length < 2 ∨ codes ≠ []

theorem StringRun.begins (stringRun : StringRun cs foldCase run) :
    run.length < 2 ∨ ∀ e ∈ run, BeginsWith cs foldCase e := by
  refine stringRun.several.imp_right fun ne e mem => ?_
  obtain ⟨leading, got, m, rfl⟩ := stringRun.common e mem
  unfold leadingString at got
  split at got
  · next all mode head =>
    obtain ⟨rfl, sameCase⟩ := Prod.mk.inj got
    exact ⟨m, mode, head, sameCase⟩
  · exact False.elim (ne (append_eq_nil_iff.mp (Prod.mk.inj got).1.symm).1)

section Factoring

variable {combine : List Expr → List Expr} (merges : ∀ l, Merges l (combine l))
variable {foldCase : Bool} {run : List Expr} {cs : List Nat}

include merges

theorem merges_endStringRun (beg : run.length < 2 ∨ ∀ e ∈ run, BeginsWith cs foldCase e) :
    Merges run.reverse (endStringRun combine cs foldCase run) := by
  have taken {run : List Expr} (ne : run ≠ []) (begins : ∀ e ∈ run, BeginsWith cs foldCase e) :
      Merges run.reverse (.literal cs { foldCase, oneLine := false } ::
        run.reverse.map (dropLeadingString cs.length)) := by
    induction run with
    | nil => exact False.elim (ne rfl)
    | cons e run ih =>
      obtain ⟨m, sameCase, spread⟩ := (begins e (.head _)).merges
      have one : Merges [e] [.literal cs { foldCase, oneLine := false },
          dropLeadingString cs.length e] :=
        .trans spread (.append (.change cs sameCase) (.refl [_]))
      rcases run.eq_nil_or_concat with rfl | ⟨_, _, run_eq⟩
      · exact one
      · have pre := ih (by simp [run_eq]) fun e mem => begins e (.tail _ mem)
        rw [reverse_cons, map_append]
        exact .later pre (.beside one (.same _))
  unfold endStringRun
  split
  · exact .refl _
  · exact .refl _
  · next several single =>
    have beg' := beg.resolve_left fun few => by
      match run, few with
      | [], _ => exact several rfl
      | [choice], _ => exact single choice rfl
    exact .trans (taken several beg')
      (.trans (.cons _ (merges_ofChoices merges _)) (.gatherParts _))

theorem merges_factorStrings (l : List Expr) (stringRun : StringRun cs foldCase run) :
    Merges (run.reverse ++ l) (factorStrings combine run cs foldCase l) := by
  induction l generalizing run cs foldCase with
  | nil =>
    rw [append_nil]
    exact merges_endStringRun merges stringRun.begins
  | cons choice r ih =>
    obtain ⟨leading, folds, leading_eq⟩ : ∃ leading folds, choice.leadingString =
      (leading, folds) :=
      ⟨_, _, rfl⟩
    simp only [factorStrings, leading_eq]
    generalize common_eq : (if folds = foldCase then commonFront cs leading else []) = common
    split
    · have fresh : StringRun leading folds [choice] :=
        ⟨by simpa using ⟨leading, leading_eq, prefix_rfl⟩, .inl (by simp)⟩
      exact .append (merges_endStringRun merges stringRun.begins) (ih fresh)
    · next shared =>
      have ne : common ≠ [] := by simpa using shared
      split at common_eq
      · next sameCase =>
        obtain ⟨front, front'⟩ := commonFront_isPrefix cs leading
        rw [common_eq] at front front'
        have extended : StringRun common foldCase (choice :: run) := by
          refine ⟨fun e mem => ?_, .inr ne⟩
          rcases mem_cons.mp mem with rfl | mem
          · exact ⟨leading, by rw [leading_eq, sameCase], front'⟩
          · obtain ⟨leading', got, isPrefix⟩ := stringRun.common e mem
            exact ⟨leading', got, front.trans isPrefix⟩
        have more := ih extended
        rwa [reverse_cons, append_assoc] at more
      · exact False.elim (ne common_eq.symm)

end Factoring

theorem merges_dropLeadingPart {lead : Expr} (found : e.leadingPart? = some lead) :
    Merges [e] [lead, dropLeadingPart e] := by
  have head : e.parts.head? = some lead := by
    unfold leadingPart? at found
    split at found
    · simp at found
    · simp at found
    · exact found
  cases e with
  | concat parts =>
    obtain ⟨others, rfl⟩ : ∃ others, parts = lead :: others := by
      cases parts with
      | nil => simp [parts] at head
      | cons first others => exact ⟨others, by simpa [parts] using head⟩
    refine .trans (.spreadParts _) (.cons lead ?_)
    unfold dropLeadingPart
    split
    · next same =>
      obtain ⟨-, rfl⟩ : _ ∧ others = _ := by simpa using same
      exact .refl _
    · next rest _ same =>
      obtain ⟨-, rfl⟩ : _ ∧ others = rest := by simpa using same
      split
      · next empty =>
        rw [List.isEmpty_iff.mp empty]
        exact .addEmpty
      · exact .gatherParts _
    · next noRest => exact False.elim (noRest _ _ rfl)
  | _ =>
    obtain rfl : _ = lead := by simpa [parts] using head
    exact .append (.refl [_]) .addEmpty

/-- The expressions of a run, last one first, begin with parts like the one that the first of them
begins with. -/
inductive PartRun : Option Expr → List Expr → Prop where
  | none : PartRun none []
  | one {expr part} (found : expr.leadingPart? = part) : PartRun part [expr]
  | more {expr front lead run} (before : PartRun (some front) run)
      (found : expr.leadingPart? = some lead) (alike : sameLeadingPart front lead = true) :
      PartRun (some front) (expr :: run)

theorem PartRun.merges {f : Expr} (partRun : PartRun (some f) run) :
    Merges run.reverse (f :: run.reverse.map dropLeadingPart) := by
  generalize part_eq : some f = part at partRun
  induction partRun with
  | none => simp at part_eq
  | one got => exact merges_dropLeadingPart (got.trans part_eq.symm)
  | more pre got alike ih =>
    cases part_eq
    rw [reverse_cons, map_append]
    exact .later (ih rfl) (.beside (merges_dropLeadingPart got) (.alike alike))

section Factoring

variable {combine : List Expr → List Expr} (merges : ∀ l, Merges l (combine l))
variable {run : List Expr} {part : Option Expr}

include merges

theorem merges_endPartRun (partRun : PartRun part run) :
    Merges run.reverse (endPartRun combine part run) := by
  unfold endPartRun
  split
  · exact .refl _
  · exact .refl _
  · next several single =>
    cases part with
    | none =>
      cases partRun with
      | none => exact False.elim (several rfl)
      | one => exact False.elim (single _ rfl)
    | some f =>
      exact .trans partRun.merges (.trans (.cons _ (merges_ofChoices merges _)) (.gatherParts _))

theorem merges_factorParts (l : List Expr) (partRun : PartRun part run) :
    Merges (run.reverse ++ l) (factorParts combine run part l) := by
  induction l generalizing run part with
  | nil =>
    rw [append_nil]
    exact merges_endPartRun merges partRun
  | cons choice r ih =>
    unfold factorParts
    dsimp only
    have ended : Merges (run.reverse ++ choice :: r) (endPartRun combine part run ++
        factorParts combine [choice] choice.leadingPart? r) :=
      .append (merges_endPartRun merges partRun) (ih (.one rfl))
    split
    · next f lead got =>
      split
      · next alike =>
        have more := ih (.more partRun got alike)
        rwa [reverse_cons, append_assoc] at more
      · exact ended
    · rw [if_neg Bool.false_ne_true]
      exact ended

end Factoring

theorem merges_combine (d : Nat) (l : List Expr) : Merges l (combine d l) := by
  induction d generalizing l with
  | zero => exact .refl _
  | succ d ih =>
    unfold combine
    split
    · exact .refl _
    · have strings := merges_factorStrings ih l
        (show StringRun [] false [] from ⟨by simp, .inl (by simp)⟩)
      have parts := merges_factorParts ih (factorStrings (combine d) [] [] false l) .none
      exact .trans strings (.trans parts (.trans
        (merges_joinUnits _ (fun _ mem => False.elim (not_mem_nil mem)))
        (merges_mergeEmpty _)))

theorem merges_alternation (l : List Expr) : Merges l [alternation l] := by
  unfold alternation
  split
  · exact .refl _
  · exact merges_ofChoices (merges_combine _) l

theorem merges_concatenation (l : List Expr) : Merges l [concatenation l] := by
  unfold concatenation
  split
  · exact .addEmpty
  · exact .refl _
  · exact .trans (.flatMap .parts l) (.gatherParts _)

/-- Whether an expression holds something can be told from its parts, and joining expressions for
one code point, or writing them in another way, does not change it. -/
structure Detects (member : Nat → Prop) (holds : Expr → Prop) : Prop where
  empty : ¬holds .empty
  literal : ∀ codes mode, holds (.literal codes mode) ↔ ∃ code ∈ codes, member code
  concat : ∀ parts, holds (.concat parts) ↔ ∃ part ∈ parts, holds part
  alternate : ∀ choices, holds (.alternate choices) ↔ ∃ choice ∈ choices, holds choice
  join : ∀ expr other, expr.isUnit = true → other.isUnit = true →
    (holds (expr.join other) ↔ holds expr ∨ holds other)
  name : ∀ expr, holds expr.nameSet ↔ holds expr
  write : ∀ mode expr, holds (Parser.toLiteral mode expr) ↔ holds expr
  alike : ∀ expr other, sameLeadingPart expr other = true → (holds other ↔ holds expr)

theorem Detects.merges {m : Nat → Prop} {holds : Expr → Prop} (detects : Detects m holds)
    {a b : List Expr} (merges : Merges a b) : (∃ e ∈ b, holds e) ↔ ∃ e ∈ a, holds e := by
  induction merges with
  | refl => rfl
  | trans _ _ pre after => exact after.trans pre
  | append _ _ front back => simp only [mem_append, or_and_right, exists_or, front, back]
  | perm perm => simp only [perm.mem_iff]
  | same e => simp
  | alike alike => simp [detects.alike _ _ alike]
  | spreadParts parts => simp [detects.concat]
  | gatherParts parts => simp [detects.concat]
  | spreadChoices choices => simp [detects.alternate]
  | gatherChoices choices => simp [detects.alternate]
  | addEmpty => simp [detects.empty]
  | dropEmpty => simp [detects.empty]
  | cut cs r mode => simp [detects.literal, or_and_right, exists_or]
  | glue cs r sameCase => simp [detects.literal, or_and_right, exists_or]
  | change cs sameCase => simp [detects.literal]
  | join isUnit isUnit' => simp [detects.join _ _ isUnit isUnit']
  | name e => simp [detects.name]
  | write mode e => simp [detects.write]

end Rematch.Expr
