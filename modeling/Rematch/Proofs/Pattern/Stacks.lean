import Rematch.Proofs.Pattern.Merging
import Rematch.Proofs.Pattern.Units

/-!
Stacks of expressions while a pattern is read. Every token adds expressions above the last open
parenthesis, merges expressions that are there, or puts the last one into a group or a repetition;
what is below the parenthesis stays as it is.
-/

namespace Rematch.Parser

open List
open Rematch.Expr (Merges)

/-- The expressions above the last open parenthesis, in order. -/
def level : List StackItem → List Expr
  | .expr expr :: below => level below ++ [expr]
  | .bar :: below => level below
  | _ => []

def outer : List StackItem → List StackItem
  | .expr _ :: below => outer below
  | .bar :: below => outer below
  | stack => stack

theorem joinLiterals_merges (stk : List StackItem) :
    Merges (level stk) (level (joinLiterals stk)) := by
  unfold joinLiterals
  split
  · split
    · next z lastMode cs m below sameCase =>
      simp only [level, append_assoc, cons_append, nil_append]
      exact .append (.refl _) (.glue cs z sameCase.symm)
    · exact .refl _
  · exact .refl _

theorem outer_joinLiterals (stk : List StackItem) : outer (joinLiterals stk) = outer stk := by
  unfold joinLiterals
  split
  · split <;> rfl
  · rfl

variable {stk : List StackItem} {pat : Bytes}

theorem unwind_spec {above parts : List Expr} {below : List StackItem}
    (unwound : unwind above stk = (parts, below)) :
    level below ++ parts = level stk ++ above ∧ outer below = outer stk := by
  fun_induction unwind above stk with
  | case1 above e r ih =>
    obtain ⟨level_eq, outer_eq⟩ := ih unwound
    exact ⟨by rw [level_eq, level, append_assoc]; rfl, outer_eq⟩
  | case2 =>
    cases unwound
    exact ⟨rfl, rfl⟩

/-- The expressions above the last open parenthesis are merged with some others, and nothing else
changes. -/
structure Gains (added : List Expr) (before after : Parser) : Prop where
  merges : Merges (level before.stack ++ added) (level after.stack)
  outer_eq : outer after.stack = outer before.stack
  mode_eq : after.mode = before.mode
  groups_eq : after.groups = before.groups

variable {parser after : Parser} {e : Expr}

namespace Gains

theorem of_merges {u v : Parser} (merges : Merges (level u.stack) (level v.stack))
    (outer_eq : outer v.stack = outer u.stack) (mode_eq : v.mode = u.mode)
    (groups_eq : v.groups = u.groups) : Gains [] u v :=
  ⟨by rwa [append_nil], outer_eq, mode_eq, groups_eq⟩

theorem trans {added m : List Expr} {f : Parser} (fst : Gains added parser after)
    (snd : Gains m after f) : Gains (added ++ m) parser f where
  merges := by
    rw [← append_assoc]
    exact .trans (.append fst.merges (.refl m)) snd.merges
  outer_eq := snd.outer_eq.trans fst.outer_eq
  mode_eq := snd.mode_eq.trans fst.mode_eq
  groups_eq := snd.groups_eq.trans fst.groups_eq

end Gains

theorem push_gains (pushed : parser.push e = .ok after) : Gains [e] parser after := by
  obtain rfl := push_eq pushed
  refine ⟨?_, outer_joinLiterals _, rfl, rfl⟩
  exact .append (joinLiterals_merges _) (.write _ _)

theorem concat_gains (conc : parser.concat = .ok after) : Gains [] parser after := by
  unfold concat at conc
  generalize unwound : unwind [] (joinLiterals parser.stack) = res at conc
  obtain ⟨parts, below⟩ := res
  obtain ⟨level_eq, outer_eq⟩ := unwind_spec unwound
  have pushed := push_gains conc
  refine .of_merges ?_ ?_ pushed.mode_eq pushed.groups_eq
  · rw [append_nil] at level_eq
    have joined := joinLiterals_merges parser.stack
    rw [← level_eq] at joined
    exact .trans joined (.trans (.append (.refl _) (Expr.merges_concatenation parts)) pushed.merges)
  · rw [pushed.outer_eq, outer_eq, outer_joinLiterals]

theorem nameLast_merges (l : List Expr) : Merges l (nameLast l) := by
  fun_induction nameLast l with
  | case1 => exact .refl _
  | case2 z => exact .name z
  | case3 a r _ ih => exact .cons a ih

theorem alternate_gains (alternated : parser.alternate = .ok after) : Gains [] parser after := by
  unfold alternate at alternated
  generalize unwound : unwind [] parser.stack = res at alternated
  obtain ⟨choices, below⟩ := res
  obtain ⟨level_eq, outer_eq⟩ := unwind_spec unwound
  have pushed := push_gains alternated
  refine ⟨?_, pushed.outer_eq.trans outer_eq, pushed.mode_eq, pushed.groups_eq⟩
  rw [← level_eq]
  refine .trans (.append (.refl _) ?_) pushed.merges
  exact .trans (nameLast_merges choices) (Expr.merges_alternation _)

theorem nameTop_spec (stk : List StackItem) :
    Merges (level stk) (level (nameTop stk)) ∧ outer (nameTop stk) = outer stk := by
  unfold nameTop
  split
  · exact ⟨.append (.refl _) (.name _), rfl⟩
  · exact ⟨.refl _, rfl⟩

theorem swapBar?_spec {swapped : List StackItem} (got : swapBar? stk = some swapped) :
    ∃ below, swapped = .bar :: below ∧ Merges (level stk) (level below) ∧
      outer below = outer stk := by
  unfold swapBar? at got
  split at got
  · next z r =>
    split at got
    · next o below =>
      split at got
      · next units =>
        refine ⟨_, (Option.some.inj got).symm, ?_, rfl⟩
        rw [Bool.and_eq_true] at units
        simp only [level, append_assoc, cons_append, nil_append]
        refine .append (.refl _) ?_
        split
        · exact .trans (.perm (.swap _ _ _)) (.join units.1 units.2)
        · exact .join units.2 units.1
      · obtain ⟨merges, outer_eq⟩ := nameTop_spec (.expr o :: below)
        exact ⟨_, (Option.some.inj got).symm, .append merges (.refl [z]), outer_eq⟩
    · exact ⟨_, (Option.some.inj got).symm, .refl _, rfl⟩
  · simp at got

theorem bar_gains (barred : parser.bar = .ok after) : Gains [] parser after := by
  obtain ⟨joined, conc, rfl⟩ := exists_of_map_eq_ok barred
  refine .trans (concat_gains conc) ?_
  split
  · next stk got =>
    obtain ⟨below, rfl, merges, outer_eq⟩ := swapBar?_spec got
    exact .of_merges merges outer_eq rfl rfl
  · exact .of_merges (joinLiterals_merges _) (outer_joinLiterals _) rfl rfl

theorem finishGroup_gains (fin : parser.finishGroup = .ok after) : Gains [] parser after := by
  unfold finishGroup at fin
  split at fin
  · simp at fin
  next joined conc =>
  refine .trans (concat_gains conc) ?_
  split at fin
  · next stk got =>
    obtain ⟨below, rfl, merges, outer_eq⟩ := swapBar?_spec got
    have swapped : Gains [] joined { joined with stack := below } :=
      .of_merges merges outer_eq rfl rfl
    exact .trans swapped (alternate_gains fin)
  · exact alternate_gains fin

/-- What a closing parenthesis makes of the alternation above the open one. -/
def grouped (group : Option (Nat × String)) (body : Expr) : Expr :=
  match group with
  | none => body
  | some (number, name) => .capture number name body

theorem close_eq {finished : Parser} {below : List StackItem} {body : Expr}
    (finish_eq : parser.finishGroup = .ok finished) {group : Option (Nat × String)} {mode : Mode}
    (stack_eq : finished.stack = .expr body :: .parenthesis group mode :: below)
    (closed : parser.close = .ok after) : ∃ codes, after =
      { finished with
        mode
        codes
        stack := .expr (toLiteral mode (grouped group body)) :: joinLiterals below } := by
  simp only [close, finish_eq, stack_eq] at closed
  match group with
  | none => exact ⟨_, push_eq closed⟩
  | some (number, name) => exact ⟨_, push_eq closed⟩

def literalIn (mode : Mode) (code : Nat) : Expr :=
  .literal [if mode.foldCase then Unicode.CaseFolding.leastInOrbit code else code] mode

theorem pushLiterals_gains {cs : List Nat} (pushed : parser.pushLiterals cs = .ok after) :
    Gains (cs.map (literalIn parser.mode)) parser after := by
  induction cs generalizing parser with
  | nil =>
    cases pushed
    exact .of_merges (.refl _) rfl rfl rfl
  | cons c cs ih =>
    unfold pushLiterals at pushed
    dsimp only at pushed
    split at pushed
    · simp at pushed
    · next n got =>
      have fst := push_gains got
      have others := ih pushed
      rw [fst.mode_eq] at others
      exact .trans fst others

def leaf? : Token → Option Expr
  | .set codes => some (.set codes)
  | .any => some .any
  | .anyButNewline => some .anyButNewline
  | .assertion conditions => some (.assertion conditions)
  | _ => none

/-- What a token does to a parser. -/
inductive Accepts (before : Parser) : Token → Parser → Prop where
  | literal {codes after}
      (gains : Gains (codes.map (literalIn before.mode)) before after) :
      Accepts before (.literal codes) after
  | leaf {token expr after} (leaf : leaf? token = some expr)
      (gains : Gains [expr] before after) : Accepts before token after
  | openCapture (name : String) : Accepts before (.openCapture name)
      { before with
        groups := before.groups + 1
        stack := .parenthesis (some (before.groups + 1, name)) before.mode ::
          joinLiterals before.stack }
  | openGroup (mode : Mode) : Accepts before (.openGroup mode)
      { before with mode, stack := .parenthesis none before.mode :: joinLiterals before.stack }
  | close {finished after body group mode below} (settled : Gains [] before finished)
      (stack_eq : finished.stack = .expr body :: .parenthesis group mode :: below)
      (gains : Gains [grouped group body] { finished with stack := below, mode } after) :
      Accepts before .close after
  | bar {after : Parser} (gains : Gains [] before after) : Accepts before .bar after
  | switchMode (mode : Mode) : Accepts before (.switchMode mode) { before with mode }
  | repetition {kind : Repetition} {lazy : Bool} {body : Expr} {below : List StackItem}
      (stack_eq : before.stack = .expr body :: below) : Accepts before (.repetition kind lazy)
        { before with stack := .expr (.repetition kind lazy body) :: below }

theorem close_accepts (closed : parser.close = .ok after) : Accepts parser .close after := by
  unfold close at closed
  split at closed
  · simp at closed
  next finished finish_eq =>
  split at closed
  · next body gr m below stack_eq =>
    refine .close (finishGroup_gains finish_eq) stack_eq ?_
    split at closed
    · exact push_gains closed
    · exact push_gains closed
  · simp at closed

theorem applyRepetition_accepts {k : Repetition} {lazy : Bool}
    (applied : parser.applyRepetition k lazy = .ok after) :
    Accepts parser (.repetition k lazy) after := by
  unfold applyRepetition at applied
  split at applied
  · next body below stack_eq =>
    dsimp only at applied
    split at applied
    · simp at applied
    split at applied
    · simp at applied
    · cases applied
      exact .repetition stack_eq
  · simp at applied

theorem accepts_of_accept {token : Token} (acc : parser.accept token = .ok after) :
    Accepts parser token after := by
  cases token with
  | literal cs => exact .literal (pushLiterals_gains acc)
  | set | any | anyButNewline | assertion => exact .leaf rfl (push_gains acc)
  | openCapture nm =>
    cases acc
    exact .openCapture nm
  | openGroup m =>
    cases acc
    exact .openGroup m
  | close => exact close_accepts acc
  | bar => exact .bar (bar_gains acc)
  | switchMode m =>
    cases acc
    exact .switchMode m
  | repetition k lazy => exact applyRepetition_accepts acc

theorem readTokens_cases {w : Bytes} {fu : Nat} {rep : Option Bytes} {f : Parser} (ne : w ≠ [])
    (read : readTokens pat (fu + 1) rep parser w = .ok f) :
    ∃ token r n rep, Token.scan parser.mode w = .ok (token, r) ∧
      parser.accept token = .ok n ∧ readTokens pat fu rep n r = .ok f := by
  rw [readTokens.eq_3 _ _ _ _ _ ne] at read
  split at read
  · simp at read
  next token r scan =>
  split at read
  · simp at read
  split at read
  · simp at read
  · next n acc => exact ⟨token, r, n, _, scan, acc, read⟩

theorem parse_eq_ok (parsed : Expr.parse pat = .ok e) :
    ∃ p f, readTokens pat pat.length none {} pat = .ok p ∧
      p.finishGroup = .ok f ∧ f.stack = [.expr e] := by
  unfold Expr.parse at parsed
  split at parsed
  · simp at parsed
  next p read =>
  split at parsed
  · simp at parsed
  next f fin =>
  split at parsed
  · next found stack_eq =>
    cases parsed
    exact ⟨p, f, read, fin, stack_eq⟩
  · simp at parsed

/-- Something that expressions hold: groups hold it if their numbers and names have it or their
bodies hold it, and repetitions if their bodies do. -/
structure Traces (member : Nat → Prop) (own : Nat × String → Prop) (holds : Expr → Prop) : Prop
    extends Expr.Detects member holds where
  capture : ∀ group name body, holds (.capture group name body) ↔ own (group, name) ∨ holds body
  repetition : ∀ kind lazy body, holds (.repetition kind lazy body) ↔ holds body

section Traces

variable {m : Nat → Prop} {own : Nat × String → Prop} {holds : Expr → Prop}

def ItemHolds (own : Nat × String → Prop) (holds : Expr → Prop) : StackItem → Prop
  | .expr expr => holds expr
  | .parenthesis (some group) _ => own group
  | _ => False

def StackHolds (own : Nat × String → Prop) (holds : Expr → Prop) (stack : List StackItem) : Prop :=
  ∃ item ∈ stack, ItemHolds own holds item

def Adds (own : Nat × String → Prop) (holds : Expr → Prop) (parser : Parser) : Token → Prop
  | .literal codes => ∃ code ∈ codes.map (literalIn parser.mode), holds code
  | .openCapture name => own (parser.groups + 1, name)
  | token => ∃ expr ∈ leaf? token, holds expr

theorem stackHolds_iff (stk : List StackItem) : StackHolds own holds stk ↔
    (∃ e ∈ level stk, holds e) ∨ StackHolds own holds (outer stk) := by
  induction stk with
  | nil => simp [StackHolds, level, outer]
  | cons item below ih =>
    cases item with
    | expr e =>
      simp only [StackHolds, exists_mem_cons_iff, ItemHolds] at ih ⊢
      simp only [level, outer, mem_append, or_and_right, exists_or, mem_singleton,
        exists_eq_left, ih]
      rw [or_right_comm]
      exact or_comm
    | bar =>
      simp only [StackHolds, exists_mem_cons_iff, ItemHolds, false_or] at ih ⊢
      exact ih
    | parenthesis gr m => simp [level, outer]

variable (traces : Traces m own holds)

include traces

variable {u v : Parser}

theorem Gains.holds_iff {added : List Expr} (gains : Gains added u v) :
    StackHolds own holds v.stack ↔ StackHolds own holds u.stack ∨ ∃ e ∈ added, holds e := by
  rw [stackHolds_iff, stackHolds_iff u.stack, traces.merges gains.merges, gains.outer_eq]
  simp only [mem_append, or_and_right, exists_or]
  rw [or_assoc, or_assoc, or_comm (a := ∃ e ∈ added, holds e)]

theorem Accepts.holds_iff {token : Token} (accepts : Accepts u token v) :
    StackHolds own holds v.stack ↔ StackHolds own holds u.stack ∨ Adds own holds u token := by
  have joined : StackHolds own holds (joinLiterals u.stack) ↔ StackHolds own holds u.stack := by
    rw [stackHolds_iff, stackHolds_iff u.stack, traces.merges (joinLiterals_merges _),
      outer_joinLiterals]
  cases accepts with
  | literal gains => exact gains.holds_iff traces
  | @leaf _ e _ leaf gains =>
    rw [gains.holds_iff traces]
    cases token <;> simp [leaf?] at leaf <;> simp [Adds, leaf?, leaf]
  | openCapture nm =>
    simp only [StackHolds, exists_mem_cons_iff, ItemHolds] at joined ⊢
    rw [joined, or_comm]
    rfl
  | openGroup m =>
    simp only [StackHolds, exists_mem_cons_iff, ItemHolds] at joined ⊢
    rw [joined]
    simp [Adds, leaf?]
  | @close finished _ body gr m below settled stack_eq gains =>
    rw [gains.holds_iff traces]
    have eq := settled.holds_iff traces
    rw [stack_eq] at eq
    simp only [StackHolds, exists_mem_cons_iff, ItemHolds, not_mem_nil, false_and,
      exists_false, or_false] at eq ⊢
    rw [← eq]
    cases gr with
    | none => simp [Adds, leaf?, grouped, or_comm]
    | some group =>
      simp only [Adds, leaf?, grouped, traces.capture, Option.mem_def, reduceCtorEq, false_and,
        exists_false, or_false]
      rw [or_comm, or_assoc, or_left_comm]
  | bar gains =>
    rw [gains.holds_iff traces]
    simp [Adds, leaf?]
  | switchMode m => simp [Adds, leaf?]
  | repetition stack_eq =>
    rw [stack_eq]
    simp [StackHolds, ItemHolds, traces.repetition, Adds, leaf?]

end Traces

end Rematch.Parser
