import Rematch.Proofs.Pattern.Stacks

/-!
Reading makes proper expressions only, those whose literals and sets consist of code points, and
simplification keeps them proper.
-/

namespace Rematch

open List
open Unicode (CodeSet maxCode)

namespace Expr

mutual

/-- The literals and sets of an expression consist of code points. -/
def Proper : Expr → Prop
  | .literal codes _ => ∀ code ∈ codes, code ≤ maxCode
  | .set codes => codes.InOrder 0
  | .capture _ _ body | .repetition _ _ body => body.Proper
  | .concat list | .alternate list => AllProper list
  | _ => True

/-- The literals and sets of all of the expressions consist of code points. -/
def AllProper : List Expr → Prop
  | [] => True
  | first :: rest => first.Proper ∧ AllProper rest

end

variable {e o : Expr} {a b : List Expr}

theorem allProper_iff {l : List Expr} : AllProper l ↔ ∀ e ∈ l, e.Proper := by
  induction l with
  | nil => simp [AllProper]
  | cons a r ih => simp [AllProper, ih]

theorem allProper_append : AllProper (a ++ b) ↔ AllProper a ∧ AllProper b := by
  simp only [allProper_iff, forall_mem_append]

@[simp] theorem allProper_nil : AllProper [] := trivial

@[simp] theorem allProper_cons : AllProper (e :: a) ↔ e.Proper ∧ AllProper a := Iff.rfl

theorem inOrder_literalSet {c : Nat} (le : c ≤ maxCode) (m : Mode) :
    (literalSet c m).InOrder 0 := by
  have single := CodeSet.inOrder_single (Nat.le_refl c) le
  unfold literalSet
  split
  · exact CodeSet.inOrder_foldCase single
  · exact single

theorem inOrder_full : CodeSet.full.InOrder 0 :=
  CodeSet.inOrder_single (Nat.zero_le _) (Nat.le_refl _)

theorem inOrder_butNewline : CodeSet.butNewline.InOrder 0 := by decide

section

variable (proper : e.Proper)

include proper

theorem Proper.unitSet : e.unitSet.InOrder 0 := by
  unfold Expr.unitSet
  split
  · exact inOrder_literalSet (proper _ (.head _)) _
  · exact proper
  · exact inOrder_full
  · exact inOrder_butNewline
  · exact @CodeSet.inOrder_ofSpans [] (by simp)

theorem Proper.join (proper' : o.Proper) : (e.join o).Proper := by
  have union := CodeSet.inOrder_union proper.unitSet proper'.unitSet
  unfold Expr.join
  split
  · trivial
  · split <;> trivial
  · split
    · exact proper
    · exact union
  · exact union

theorem Proper.nameSet : e.nameSet.Proper := by
  unfold Expr.nameSet
  split
  · split
    · trivial
    split
    · trivial
    · exact proper
  · exact proper

theorem Proper.toLiteral (m : Mode) : (Parser.toLiteral m e).Proper := by
  have literal {sp : Unicode.Span} {r : CodeSet} (ord : CodeSet.InOrder 0 (sp :: r))
      (m : Mode) : (Expr.literal [sp.lo] m).Proper := by
    have lt := (CodeSet.inOrder_cons.mp ord).2.1
    simpa [Proper] using Nat.le_trans lt.1 lt.2
  unfold Parser.toLiteral
  split
  · split
    · exact literal proper _
    split
    · exact literal proper _
    · exact proper
  · split
    · exact literal proper _
    · exact proper
  · exact proper

end

theorem AllProper.merges (merges : Merges a b) (proper : AllProper a) : AllProper b := by
  induction merges with
  | refl => exact proper
  | trans _ _ pre after => exact after (pre proper)
  | append _ _ front back =>
    rw [allProper_append] at proper ⊢
    exact ⟨front proper.1, back proper.2⟩
  | perm perm =>
    rw [allProper_iff] at proper ⊢
    exact fun e mem => proper e (perm.mem_iff.mpr mem)
  | same | alike => exact ⟨proper.1, trivial⟩
  | spreadParts | spreadChoices => exact proper.1
  | gatherParts | gatherChoices => exact ⟨proper, trivial⟩
  | addEmpty => exact ⟨trivial, trivial⟩
  | dropEmpty => trivial
  | cut cs r m =>
    obtain ⟨front, back⟩ := forall_mem_append.mp proper.1
    exact ⟨front, back, trivial⟩
  | glue => exact ⟨forall_mem_append.mpr ⟨proper.1, proper.2.1⟩, trivial⟩
  | change => exact proper
  | join => exact ⟨proper.1.join proper.2.1, trivial⟩
  | name => exact ⟨proper.1.nameSet, trivial⟩
  | write m => exact ⟨proper.1.toLiteral m, trivial⟩

end Expr

namespace Parser

open Rematch.Expr (AllProper allProper_append)

def ProperStack (stack : List StackItem) : Prop := ∀ expr, .expr expr ∈ stack → expr.Proper

theorem properStack_iff (stk : List StackItem) :
    ProperStack stk ↔ AllProper (level stk) ∧ ProperStack (outer stk) := by
  induction stk with
  | nil => simp [ProperStack, level, outer]
  | cons item below ih =>
    unfold ProperStack at ih ⊢
    cases item with
    | expr e =>
      simp only [mem_cons, StackItem.expr.injEq, forall_eq_or_imp, ih, level,
        outer, allProper_append, Expr.allProper_cons, Expr.allProper_nil, and_true]
      rw [and_assoc, and_left_comm]
    | bar => simpa [level, outer] using ih
    | parenthesis => simp [level, outer]

variable {u v : Parser}

theorem Gains.proper {added : List Expr} (gains : Gains added u v)
    (proper : ProperStack u.stack) (added_proper : AllProper added) : ProperStack v.stack := by
  rw [properStack_iff] at proper ⊢
  rw [gains.outer_eq]
  exact ⟨.merges gains.merges (allProper_append.mpr ⟨proper.1, added_proper⟩), proper.2⟩

theorem properStack_joinLiterals {stk : List StackItem} (proper : ProperStack stk) :
    ProperStack (joinLiterals stk) := by
  rw [properStack_iff] at proper ⊢
  rw [outer_joinLiterals]
  exact ⟨.merges (joinLiterals_merges _) proper.1, proper.2⟩

theorem proper_literalIn {c : Nat} (le : c ≤ maxCode) (m : Mode) : (literalIn m c).Proper := by
  rw [literalIn, Expr.Proper]
  simp only [mem_singleton, forall_eq]
  split
  · exact Unicode.CaseFolding.orbitOf_le le (Unicode.CaseFolding.leastInOrbit_mem c)
  · exact le

theorem Accepts.proper {token : Token} (accepts : Accepts u token v)
    (token_proper : token.Proper) (proper : ProperStack u.stack) : ProperStack v.stack := by
  cases accepts with
  | literal gains =>
    refine gains.proper proper (Expr.allProper_iff.mpr fun e mem => ?_)
    obtain ⟨c, inLiteral, rfl⟩ := mem_map.mp mem
    exact proper_literalIn (token_proper c inLiteral) _
  | @leaf _ e _ leaf gains =>
    refine gains.proper proper ⟨?_, trivial⟩
    cases token <;> simp only [leaf?, Option.some.injEq, reduceCtorEq] at leaf <;> subst leaf
    case set => exact token_proper
    all_goals trivial
  | openCapture | openGroup =>
    have joined := properStack_joinLiterals proper
    simpa [ProperStack] using joined
  | close settled stack_eq gains =>
    have fin := settled.proper proper trivial
    rw [stack_eq] at fin
    refine gains.proper (fun e mem => fin e (.tail _ (.tail _ mem))) ⟨?_, trivial⟩
    have body := fin _ (.head _)
    unfold grouped
    split <;> exact body
  | bar gains => exact gains.proper proper trivial
  | switchMode => exact proper
  | repetition stack_eq =>
    rw [stack_eq] at proper
    intro e mem
    rcases mem_cons.mp mem with eq | mem
    · rw [StackItem.expr.inj eq, Expr.Proper]
      exact proper _ (.head _)
    · exact proper e (.tail _ mem)

theorem proper_readTokens {pat w : Bytes} {n : Nat} {rep : Option Bytes} {p f : Parser}
    (read : readTokens pat n rep p w = .ok f) (proper : ProperStack p.stack) :
    ProperStack f.stack := by
  induction n generalizing rep p w with
  | zero =>
    cases read
    exact proper
  | succ n ih =>
    by_cases ne : w = []
    · subst ne
      rw [readTokens_nil] at read
      cases read
      exact proper
    · obtain ⟨token, r, nx, _, scan, acc, read'⟩ := readTokens_cases ne read
      exact ih read' ((accepts_of_accept acc).proper (Token.proper_scan scan) proper)

end Parser

namespace Expr

theorem proper_of_parse {pat : Bytes} {e : Expr} (parsed : parse pat = .ok e) : e.Proper := by
  obtain ⟨p, f, read, fin, stack_eq⟩ := Parser.parse_eq_ok parsed
  have proper := (Parser.finishGroup_gains fin).proper
    (Parser.proper_readTokens read (by simp [Parser.ProperStack])) trivial
  rw [stack_eq] at proper
  exact proper e (.head _)

variable {body : Expr}

section

variable (proper : body.Proper)

include proper

theorem Proper.repeatBody (k : Repetition) (lazy : Bool) :
    (repeatBody k lazy body).Proper := by
  unfold Expr.repeatBody
  split
  · trivial
  · split <;> exact proper
  · exact proper

theorem Proper.optionalCopies (lazy : Bool) (n : Nat) :
    (optionalCopies lazy body n).Proper := by
  induction n with
  | zero => exact proper.repeatBody _ _
  | succ n ih =>
    have nested : (concat [body, Expr.optionalCopies lazy body n]).Proper := ⟨proper, ih, trivial⟩
    exact nested.repeatBody _ _

theorem Proper.replicate (n : Nat) : AllProper (List.replicate n body) :=
  allProper_iff.mpr fun _ mem => eq_of_mem_replicate mem ▸ proper

theorem Proper.writeOut (m : Nat) (most : Option Nat) (lazy : Bool) :
    (writeOut m most lazy body).Proper := by
  unfold Expr.writeOut
  split
  · exact proper.repeatBody _ _
  · exact proper.repeatBody _ _
  · exact allProper_append.mpr ⟨proper.replicate _, proper.repeatBody _ _, trivial⟩
  · split
    · exact proper
    dsimp only
    split
    · split
      · exact proper.optionalCopies _ _
      · trivial
    · refine allProper_append.mpr ⟨proper.replicate _, ?_⟩
      split
      · exact ⟨proper.optionalCopies _ _, trivial⟩
      · trivial

end

mutual

theorem Proper.simplify : ∀ {e : Expr}, e.Proper → e.simplify.Proper
  | .capture _ _ body, proper => by
    rw [simplify]
    exact @Proper.simplify body proper
  | .concat l, proper | .alternate l, proper => by
    rw [simplify]
    exact @AllProper.simplifyAll l proper
  | .repetition k lazy body, proper => by
    have simpler := @Proper.simplify body proper
    cases k with
    | counted m most =>
      rw [simplify]
      split
      · trivial
      · exact simpler.writeOut _ _ _
    | star | plus | quest =>
      rw [simplify]
      · exact simpler.repeatBody _ _
      · simp
  | .empty, proper | .literal .., proper | .set _, proper | .any, proper | .anyButNewline, proper
  | .assertion _, proper => by
    rw [simplify]
    exact proper

theorem AllProper.simplifyAll : ∀ {l : List Expr}, AllProper l → AllProper (simplifyAll l)
  | [], _ => trivial
  | _ :: _, proper => ⟨Proper.simplify proper.1, AllProper.simplifyAll proper.2⟩

end

end Expr

end Rematch
