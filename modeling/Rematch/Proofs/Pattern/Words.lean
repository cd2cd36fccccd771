import Rematch.Proofs.Pattern.Bracketing

/-!
A word in a group, and after it an alternation of a backreference to the group with something else
that stands for one code point. The alternation is read as one set, and the program spells the word
and then reads the set.
-/

namespace Rematch

open List Rematch.Expr Rematch.Parser
open Unicode (CodeSet)

namespace Compilation

theorem modify_append {α : Type} (f r : List α) (v : α) (ch : α → α) :
    (f ++ v :: r).modify f.length ch = f ++ ch v :: r := by
  induction f with
  | nil => rfl
  | cons a f ih => rw [cons_append, length_cons, modify_succ_cons, ih, cons_append]

theorem connect_append (f r : List Step) (sp : Step) (snd : Bool) (t : Nat) :
    connect (f ++ sp :: r).toArray [⟨f.length, snd⟩] t = (f ++ sp.leadTo t snd :: r).toArray := by
  simp [connect, modify_append]

/-- The steps of a word from the step `pc` on, of which the last leads to `out`. -/
def spelling (pc out : Nat) : List Nat → List Step
  | [] => []
  | [code] => [.code [(code : Int)] out]
  | code :: rest => .code [(code : Int)] (pc + 1) :: spelling (pc + 1) out rest

theorem length_spelling (pc out : Nat) (w : List Nat) : (spelling pc out w).length = w.length := by
  fun_induction spelling pc out w <;> simp_all

theorem connect_spelling (f r : List Step) (c : Nat) (cs : List Nat) (out t : Nat) :
    connect (f ++ spelling f.length out (c :: cs) ++ r).toArray [⟨f.length + cs.length, false⟩] t =
      (f ++ spelling f.length t (c :: cs) ++ r).toArray := by
  induction cs generalizing f c with
  | nil => simpa [spelling, Step.leadTo] using connect_append f r (.code [(c : Int)] out) false t
  | cons n cs ih =>
    have later := ih (f ++ [.code [(c : Int)] (f.length + 1)]) n
    simp only [length_append, length_singleton, append_assoc, singleton_append] at later
    simpa [spelling, Nat.add_assoc, Nat.add_comm 1] using later

theorem literalFrom_eq (f : List Step) (i c : Nat) (nullable : Bool) (cs : List Nat) :
    literalFrom false ⟨i, [⟨f.length, false⟩], nullable⟩ (f ++ spelling f.length 0 [c]).toArray cs =
      (⟨i, [⟨f.length + cs.length, false⟩], nullable && cs.isEmpty⟩,
        (f ++ spelling f.length 0 (c :: cs)).toArray) := by
  induction cs generalizing f c nullable with
  | nil => simp [literalFrom, spelling]
  | cons n cs ih =>
    have later := ih (f ++ [.code [(c : Int)] (f.length + 1)]) n false
    have linked := connect_append f [.code [(n : Int)] 0] (.code [(c : Int)] 0) false (f.length + 1)
    simp only [length_append, length_singleton, append_assoc, singleton_append,
      spelling] at later
    simp [literalFrom, single, chain, literalStep, spelling, linked, Step.leadTo]
    rw [later]
    simp [Nat.add_assoc, Nat.add_comm 1]

theorem fragment_word (c : Nat) (cs : List Nat) :
    fragment #[.fail] (.capture 1 "" (.literal (c :: cs) {})) =
      (⟨1, [⟨cs.length + 3, false⟩], false⟩,
        ([Step.fail, Step.capture 2 2] ++ spelling 2 (cs.length + 3) (c :: cs) ++
          [Step.capture 3 0]).toArray) := by
  have body : fragment #[.fail, .capture 2 0] (.literal (c :: cs) {}) =
      (⟨2, [⟨2 + cs.length, false⟩], false⟩,
        ([Step.fail, Step.capture 2 0] ++ spelling 2 0 (c :: cs)).toArray) := by
    rw [fragment]
    exact literalFrom_eq [.fail, .capture 2 0] 2 c false cs
  have opening := connect_append [.fail] (spelling 2 0 (c :: cs) ++ [.capture 3 0])
    (.capture 2 0) false 2
  have closing := connect_spelling [.fail, .capture 2 2] [.capture 3 0] c cs 0 (cs.length + 3)
  rw [fragment]
  simp only [single, size_toArray, push_toArray, Nat.mul_one, body, chain,
    length_cons, length_nil, length_spelling, cons_append,
    nil_append] at opening closing ⊢
  rw [opening]
  simp only [Step.leadTo]
  rw [closing]
  rfl

variable {w : List Nat}

theorem getElem?_spelling {pc i c : Nat} (got : w[i]? = some c) :
    (spelling pc (pc + w.length) w)[i]? = some (.code [(c : Int)] (pc + i + 1)) := by
  induction w generalizing pc i with
  | nil => simp at got
  | cons a r ih =>
    have further : pc + (a :: r).length = pc + 1 + r.length := by
      rw [length_cons]
      omega
    cases i with
    | zero =>
      obtain rfl : a = c := by simpa using got
      cases r <;> simp [spelling]
    | succ i =>
      have later := @ih (pc + 1) i got
      rw [further]
      cases r with
      | nil => simp at got
      | cons b r =>
        rw [spelling, getElem?_cons_succ, later, show pc + 1 + i = pc + (i + 1) by omega]
        simp

/-- The steps of a captured word and of what comes after it. -/
def wordSteps (word : List Nat) (after : Step) : List Step :=
  [.fail, .capture 2 2] ++ spelling 2 (2 + word.length) word ++
    [.capture 3 (word.length + 3), after, .accept]

theorem length_wordSteps (w : List Nat) (v : Step) : (wordSteps w v).length = w.length + 5 := by
  simp [wordSteps, length_spelling]

theorem wordSteps_letter {i c : Nat} (got : w[i]? = some c) (v : Step) :
    (wordSteps w v)[i + 2]? = some (.code [(c : Int)] (i + 3)) := by
  have lt := (List.getElem?_eq_some_iff.mp got).1
  rw [wordSteps, getElem?_append_left (by simp [length_spelling]; omega),
    getElem?_append_right (by simp)]
  rw [show i + 2 - [Step.fail, Step.capture 2 2].length = i from rfl, getElem?_spelling got]
  congr 2
  omega

theorem wordSteps_after (w : List Nat) (v : Step) (i : Nat) :
    (wordSteps w v)[w.length + 2 + i]? = [Step.capture 3 (w.length + 3), v, .accept][i]? := by
  have size : ([Step.fail, Step.capture 2 2] ++ spelling 2 (2 + w.length) w).length =
      w.length + 2 := by
    simp [length_spelling]
  rw [wordSteps, getElem?_append_right (by omega), size, Nat.add_sub_cancel_left]

theorem compile_word {u : Expr} {set : Unicode.CodeSet} (stands : u.Stands set) (ne : w ≠ []) :
    ∃ sl, (concat [.capture 1 "" (.literal w {}), u]).compile =
      ⟨(wordSteps w (u.unitStep.leadTo (w.length + 4) false)).toArray, 1, sl⟩ := by
  obtain ⟨c, cs, rfl⟩ := exists_cons_of_ne_nil ne
  have linked := connect_append
    ([Step.fail, Step.capture 2 2] ++ spelling 2 (cs.length + 3) (c :: cs)) [u.unitStep]
      (.capture 3 0) false (cs.length + 4)
  have ended := connect_append ([Step.fail, Step.capture 2 2] ++ spelling 2 (cs.length + 3)
    (c :: cs) ++ [.capture 3 (cs.length + 4)]) [.accept]
      u.unitStep false (cs.length + 5)
  have whole : fragment #[.fail] (concat [.capture 1 "" (.literal (c :: cs) {}), u]) =
    (⟨1, [⟨cs.length + 4, false⟩], false⟩,
        ([Step.fail, Step.capture 2 2] ++ spelling 2 (cs.length + 3) (c :: cs) ++
          [Step.capture 3 (cs.length + 4), u.unitStep]).toArray) := by
    rw [fragment]
    simp only [fragment_word, concatFrom, stands.fragment_eq]
    simp only [single, chain, length_spelling, append_assoc, cons_append, nil_append, length_append,
      length_cons,
    length_nil, push_toArray,size_toArray, Nat.zero_add] at linked ⊢
    rw [linked]
    rfl
  rw [compile, whole, wordSteps, Nat.add_comm 2]
  simp only [length_spelling, append_assoc, cons_append, nil_append, length_append, length_cons,
    length_nil, push_toArray,size_toArray, Nat.zero_add] at ended ⊢
  rw [ended]
  exact ⟨_, rfl⟩

theorem fits_wordSteps (small : ∀ c ∈ w, c ≤ Unicode.maxCode) {v : Step}
    (fits : v.Fits (w.length + 5)) : ∀ sp ∈ wordSteps w v, sp.Fits (w.length + 5) := by
  intro sp mem
  simp only [wordSteps, mem_append, mem_cons, not_mem_nil, or_false] at mem
  rcases mem with ((rfl | rfl) | inWord) | rfl | rfl | rfl
  · trivial
  · exact (show 2 < w.length + 5 by omega)
  · obtain ⟨i, got⟩ := mem_iff_getElem?.mp inWord
    have lt := (List.getElem?_eq_some_iff.mp got).1
    rw [length_spelling] at lt
    have letter := getElem?_eq_getElem lt
    rw [getElem?_spelling letter] at got
    cases got
    have le := small _ (mem_of_getElem? letter)
    refine ⟨by omega, by simp, ?_⟩
    simp
    omega
  · exact (show w.length + 3 < w.length + 5 by omega)
  · exact fits
  · trivial

end Compilation

namespace Parser

/-- Nothing above an open parenthesis, or above nothing, was read yet. -/
def Opens (stack : List StackItem) : Prop :=
  stack = [] ∨ ∃ group mode below, stack = .parenthesis group mode :: below

variable {parser after : Parser} {parts : List Expr} {below : List StackItem}

namespace Opens

variable (opens : Opens below)

include opens

theorem joinLiterals_eq : joinLiterals below = below := by
  rcases opens with rfl | ⟨gr, m, below, rfl⟩ <;> rfl

theorem unwind_eq (above : List Expr) : unwind above below = (above, below) := by
  rcases opens with rfl | ⟨gr, m, below, rfl⟩ <;> rfl

theorem swapBar?_eq (e : Expr) : swapBar? (.expr e :: below) = none := by
  rcases opens with rfl | ⟨gr, m, below, rfl⟩ <;> rfl

end Opens

theorem concat_eq (unwound : unwind [] (joinLiterals parser.stack) = (parts, below))
    (concatenated : parser.concat = .ok after) : ∃ codes, after =
      { parser with
        codes
        stack := .expr (toLiteral parser.mode (concatenation parts)) :: joinLiterals below } := by
  rw [concat, unwound] at concatenated
  exact ⟨_, push_eq concatenated⟩

theorem alternate_eq {e : Expr} (single : parser.stack = .expr e :: below) (opens : Opens below)
    (alternated : parser.alternate = .ok after) : ∃ cs, after =
      { parser with codes := cs, stack := .expr (toLiteral parser.mode e.nameSet) :: below } := by
  rw [alternate, single, unwind, opens.unwind_eq] at alternated
  obtain rfl := push_eq alternated
  exact ⟨_, by rw [opens.joinLiterals_eq]; rfl⟩

section

variable (unwound : unwind [] (joinLiterals parser.stack) = (parts, below)) (opens : Opens below)

include unwound opens

theorem finishGroup_eq (finished : parser.finishGroup = .ok after) : ∃ codes, after =
      { parser with
        codes
        stack := .expr (toLiteral parser.mode
          (toLiteral parser.mode (concatenation parts)).nameSet) :: below } := by
  unfold finishGroup at finished
  split at finished
  · simp at finished
  next joined concatenated =>
  obtain ⟨codes, rfl⟩ := concat_eq unwound concatenated
  rw [opens.joinLiterals_eq] at finished
  simp only [opens.swapBar?_eq] at finished
  obtain ⟨codes, rfl⟩ := alternate_eq rfl opens finished
  exact ⟨codes, rfl⟩

theorem bar_eq (barred : parser.bar = .ok after) : ∃ codes, after =
      { parser with
        codes
        stack := .bar :: .expr (toLiteral parser.mode (concatenation parts)) :: below } := by
  obtain ⟨joined, concatenated, rfl⟩ := exists_of_map_eq_ok barred
  obtain ⟨codes, rfl⟩ := concat_eq unwound concatenated
  refine ⟨codes, ?_⟩
  rw [opens.joinLiterals_eq, opens.swapBar?_eq]
  rcases opens with rfl | ⟨group, mode, below, rfl⟩
  · simp [pushItem, joinLiterals]
  · simp [pushItem, joinLiterals]

end

/-- The last choice is joined with the one before it if both stand for one code point. -/
theorem finishGroup_bar {last other : Expr}
    (unwound : unwind [] (joinLiterals parser.stack) = ([last], .bar :: .expr other :: below))
    (unit : (toLiteral parser.mode last).isUnit = true) (unit' : other.isUnit = true)
    (opens : Opens below) (finished : parser.finishGroup = .ok after) : ∃ codes, after =
      { parser with
        codes
        stack := .expr (toLiteral parser.mode
          (if other.rank < (toLiteral parser.mode last).rank then
            (toLiteral parser.mode last).join other
          else other.join (toLiteral parser.mode last)).nameSet) :: below } := by
  unfold finishGroup at finished
  split at finished
  · simp at finished
  next joined concatenated =>
  obtain ⟨codes, rfl⟩ := concat_eq unwound concatenated
  have swapped : swapBar? (.expr (toLiteral parser.mode (concatenation [last])) ::
      joinLiterals (.bar :: .expr other :: below)) =
        some (.bar :: .expr (if other.rank < (toLiteral parser.mode last).rank then
          (toLiteral parser.mode last).join other
          else other.join (toLiteral parser.mode last)) :: below) := by
    simp [joinLiterals, swapBar?, concatenation, unit, unit']
  simp only [swapped] at finished
  obtain ⟨codes, rfl⟩ := alternate_eq rfl opens finished
  exact ⟨codes, rfl⟩

theorem accept_literal {c : Nat} (exact : parser.mode.foldCase = false)
    (acc : parser.accept (.literal [c]) = .ok after) : ∃ cs, after =
      { parser with
        codes := cs
        stack := .expr (.literal [c] parser.mode) :: joinLiterals parser.stack } := by
  simp only [accept, pushLiterals, exact] at acc
  split at acc
  · simp at acc
  next n got =>
  cases acc
  exact ⟨_, push_eq got⟩

end Parser
namespace Expr

/-- An expression for one code point stands for the members of a set. -/
structure Covers (expr : Expr) (units : CodeSet) : Prop where
  isUnit : expr.isUnit = true
  inOrder : expr.unitSet.InOrder 0
  members : ∀ code, expr.unitSet.contains code = units.contains code

variable {us : CodeSet}

theorem covers_toLiteral (ord : us.InOrder 0) (m : Mode) : (toLiteral m (.set us)).Covers us := by
  have set : (Expr.set us).Covers us := ⟨rfl, ord, fun _ => rfl⟩
  have literal {c : Nat} {folds : Bool} (le : c ≤ Unicode.maxCode)
      (mems : ∀ j, (literalSet c { m with foldCase := folds }).contains j = true ↔
        us.contains j = true) :
      (Expr.literal [c] { m with foldCase := folds }).Covers us :=
    ⟨rfl, inOrder_literalSet le _, fun j => Bool.eq_iff_iff.mpr (mems j)⟩
  match us with
  | [] => exact set
  | [sp] =>
    obtain ⟨-, ⟨odd, le⟩, -⟩ := CodeSet.inOrder_cons.mp ord
    rw [toLiteral]
    split
    · next single =>
      refine literal (by omega) fun j => ?_
      rw [literalSet, if_neg Bool.false_ne_true, CodeSet.contains_iff, CodeSet.contains_iff]
      simp [single]
    split
    · next pair =>
      refine literal (by omega) fun j => ?_
      rw [literalSet, if_pos rfl, CodeSet.contains_foldCase_pair (by omega) pair.2,
        CodeSet.contains_iff]
      simp only [mem_singleton, exists_eq_left]
      omega
    · exact set
  | [a, b] =>
    obtain ⟨-, ⟨odd, le⟩, later⟩ := CodeSet.inOrder_cons.mp ord
    obtain ⟨above, -, -⟩ := CodeSet.inOrder_cons.mp later
    rw [toLiteral]
    split
    · next pair =>
      refine literal (by omega) fun j => ?_
      rw [literalSet, if_pos rfl, CodeSet.contains_foldCase_pair (by omega) pair.2.2,
        CodeSet.contains_iff]
      simp only [mem_cons, not_mem_nil, or_false, exists_eq_or_imp, exists_eq_left]
      omega
    · exact set
  | _ :: _ :: _ :: _ => exact set

variable {e : Expr}

theorem Covers.toLiteral (covers : e.Covers us) (m : Mode) : (toLiteral m e).Covers us := by
  obtain ⟨isUnit, ord, mems⟩ := covers
  match e, isUnit with
  | .set cs, _ =>
    obtain ⟨isUnit', ord', mems'⟩ := covers_toLiteral ord m
    exact ⟨isUnit', ord', fun c => (mems' c).trans (mems c)⟩
  | .literal [_] _, isUnit | .any, isUnit | .anyButNewline, isUnit => exact ⟨isUnit, ord, mems⟩

/-- Joining a literal with what stands for one code point gives a set that holds both. -/
theorem Covers.exists_stands (covers : e.Covers us) {c : Nat} (le : c ≤ Unicode.maxCode)
    (noNewline : c ≠ 0x0A) (m : Mode) (exact : m.foldCase = false) :
    ∃ cs, (if (literal [c] m).rank < e.rank then e.join (.literal [c] m)
        else (Expr.literal [c] m).join e).Stands cs ∧ cs.InOrder 0 ∧
      ∀ j, cs.contains j = true ↔ j = c ∨ us.contains j = true := by
  have single := CodeSet.inOrder_single (Nat.le_refl c) le
  have alone (j : Nat) : CodeSet.contains [⟨c, c⟩] j = true ↔ j = c := by
    rw [CodeSet.contains_iff]
    simp only [mem_singleton, exists_eq_left]
    omega
  have literal_eq : (Expr.literal [c] m).unitSet = [⟨c, c⟩] := by
    change literalSet c m = _
    rw [literalSet, exact]
    rfl
  obtain ⟨isUnit, ord, mems⟩ := covers
  match e, isUnit with
  | .literal [b] otherMode, _ =>
    have low : ¬(Expr.literal [c] m).rank < (Expr.literal [b] otherMode).rank := Nat.lt_irrefl 0
    rw [if_neg low]
    unfold join
    dsimp only
    split
    · next eq =>
      obtain ⟨rfl, rfl⟩ := eq
      refine ⟨_, .literal exact, single, fun j => ?_⟩
      rw [← mems, literal_eq, alone, or_self]
    · refine ⟨_, .set, CodeSet.inOrder_union (literal_eq ▸ single :) ord, fun j => ?_⟩
      rw [← mems]
      change (CodeSet.union (Expr.literal [c] m).unitSet
        (Expr.literal [b] otherMode).unitSet).contains j = true ↔ _
      rw [literal_eq, CodeSet.contains_union, Bool.or_eq_true, alone]
  | .set cs, _ =>
    rw [if_pos (show (Expr.literal [c] m).rank < (set cs).rank from Nat.zero_lt_one)]
    change ∃ res, (set (CodeSet.union _ (Expr.literal [c] m).unitSet)).Stands res ∧ _
    rw [literal_eq]
    refine ⟨_, .set, CodeSet.inOrder_union ord single, fun j => ?_⟩
    rw [← mems, CodeSet.contains_union, Bool.or_eq_true, alone, or_comm]
  | .any, _ =>
    rw [if_pos (show (Expr.literal [c] m).rank < any.rank from Nat.zero_lt_succ 2)]
    refine ⟨_, .any, by decide, fun j => ?_⟩
    rw [← mems]
    refine ⟨.inr, ?_⟩
    rintro (rfl | held)
    · exact CodeSet.contains_iff.mpr ⟨⟨0, Unicode.maxCode⟩, .head _, Nat.zero_le _, le⟩
    · exact held
  | .anyButNewline, _ =>
    rw [if_pos (show (Expr.literal [c] m).rank < anyButNewline.rank from Nat.zero_lt_succ 1)]
    have noFeed : (Expr.literal [c] m).hasNewline = false := by simp [hasNewline, noNewline]
    rw [join, noFeed]
    refine ⟨_, .anyButNewline, by decide, fun j => ?_⟩
    rw [← mems]
    refine ⟨.inr, ?_⟩
    rintro (rfl | held)
    · rw [CodeSet.contains_iff]
      simp only [CodeSet.butNewline, mem_cons, not_mem_nil, or_false, exists_eq_or_imp,
        exists_eq_left]
      omega
    · exact held

end Expr

namespace Token

/-- The code points of a token that stands for one code point. -/
def unitSet? : Token → Option CodeSet
  | .literal [code] => some [⟨code, code⟩]
  | .set codes => some codes
  | .any => some CodeSet.full
  | .anyButNewline => some CodeSet.butNewline
  | _ => none

end Token

namespace Parser

variable {parser after : Parser} {below : List StackItem} {pattern : Bytes}

variable {r : Bytes} {token : Token} {us : CodeSet}

variable {w : Bytes}

theorem readTokens_letters (letters : ∀ c ∈ w, 0x61 ≤ c.toNat ∧
      c.toNat ≤ 0x7A) {f : List Nat} {n : Nat} {rep : Option Bytes} (mode_eq : parser.mode = {})
    (spelled : joinLiterals parser.stack = .expr (.literal f {}) :: below)
    (read : readTokens pattern (n + w.length) rep parser (w ++ r) = .ok after) :
    ∃ rep' cs stk, readTokens pattern n rep' { parser with codes := cs, stack := stk } r =
        .ok after ∧
      joinLiterals stk = .expr (.literal (f ++ w.map (·.toNat)) {}) :: below := by
  induction w generalizing parser f rep with
  | nil => exact ⟨rep, parser.codes, parser.stack, read, by simpa using spelled⟩
  | cons c wd ih =>
    obtain ⟨least, greatest⟩ := letters c (.head _)
    obtain ⟨nx, acc, read'⟩ := readTokens_step (by simp)
      (Token.scan_letter (.inr ⟨least, greatest⟩) parser.mode (wd ++ r)) (by simp) read
    obtain ⟨cs, rfl⟩ := accept_literal (by rw [mode_eq]) acc
    rw [spelled] at read'
    have joined : joinLiterals (.expr (.literal [c.toNat] parser.mode) ::
        .expr (.literal f {}) :: below) = .expr (.literal (f ++ [c.toNat]) {}) :: below := by
      rw [mode_eq]
      rfl
    obtain ⟨rep', cs', stk, read'', spelled'⟩ := @ih
      { parser with codes := cs, stack := _ } (fun c mem => letters c (.tail _ mem)) _ _
      mode_eq joined read'
    refine ⟨rep', cs', stk, read'', ?_⟩
    rw [spelled']
    simp

theorem accept_unit (unit : token.unitSet? = some us) (ord : us.InOrder 0)
    (exact : parser.mode.foldCase = false) (acc : parser.accept token = .ok after) :
    ∃ cs e, e.Covers us ∧
      after = { parser with codes := cs, stack := .expr e :: joinLiterals parser.stack } := by
  match token, unit with
  | .literal [c], unit =>
    cases unit
    obtain ⟨cs, rfl⟩ := accept_literal exact acc
    have literal_eq : (literal [c] parser.mode).unitSet = [⟨c, c⟩] := by
      change literalSet c parser.mode = _
      rw [literalSet, exact]
      rfl
    exact ⟨cs, _, ⟨rfl, literal_eq ▸ ord, fun j => by rw [literal_eq]⟩, rfl⟩
  | .set codes, unit =>
    cases unit
    exact ⟨_, _, covers_toLiteral ord parser.mode, push_eq acc⟩
  | .any, unit =>
    cases unit
    exact ⟨_, .any, ⟨rfl, ord, fun _ => rfl⟩, push_eq acc⟩
  | .anyButNewline, unit =>
    cases unit
    exact ⟨_, .anyButNewline, ⟨rfl, ord, fun _ => rfl⟩, push_eq acc⟩

theorem readTokens_word {rest : Bytes} {fuel : Nat} (nonempty : w ≠ [])
    (letters : ∀ letter ∈ w, 0x61 ≤ letter.toNat ∧ letter.toNat ≤ 0x7A)
    (read : readTokens pattern (fuel + 1 + w.length + 1) none {} (0x28 :: (w ++ 0x29 :: rest)) =
      .ok after) :
    ∃ codes, readTokens pattern fuel none { groups := 1, codes, stack :=
      [.expr (.capture 1 "" (.literal (w.map (·.toNat)) {}))] } rest = .ok after := by
  obtain ⟨letter, w, rfl⟩ := exists_cons_of_ne_nil nonempty
  obtain ⟨least, greatest⟩ := letters letter (.head _)
  have noMark : Bytes.peek (letter :: w ++ 0x29 :: rest) ≠ '?' := by
    intro same
    have mark : letter = 0x3F := Bytes.char_inj.mp same
    rw [mark] at least
    exact absurd least (by decide)
  have opens : Opens [.parenthesis (some (1, "")) {}] := .inr ⟨_, _, _, rfl⟩
  obtain ⟨opened, accepted, read⟩ :=
    readTokens_step (by simp) (Token.scan_openCapture noMark _) (by simp) read
  obtain rfl : opened = { groups := 1, stack := [.parenthesis (some (1, "")) {}] } :=
    (Except.ok.inj accepted).symm
  obtain ⟨begun, accepted, read⟩ :=
    readTokens_step (by simp) (Token.scan_letter (.inr ⟨least, greatest⟩) _ _) (by simp) read
  obtain ⟨codes, rfl⟩ := accept_literal rfl accepted
  obtain ⟨repetition, codes, stack, read, spelled⟩ := readTokens_letters
    (fun letter listed => letters letter (.tail _ listed)) rfl
    (show joinLiterals _ = .expr (.literal [letter.toNat] {}) :: [_] from rfl) read
  obtain ⟨closed, accepted, read⟩ := readTokens_step (by simp)
    (show Token.scan _ (0x29 :: rest) = .ok (.close, rest) from rfl) (by simp) read
  obtain ⟨finished, finish_eq⟩ : ∃ finished,
      finishGroup { groups := 1, codes, stack } = .ok finished := by
    cases finish_eq : finishGroup { groups := 1, codes, stack } with
    | error => simp [accept, close, finish_eq] at accepted
    | ok finished => exact ⟨finished, rfl⟩
  obtain ⟨_, rfl⟩ := finishGroup_eq (by rw [spelled]; rfl) opens finish_eq
  obtain ⟨codes, rfl⟩ := close_eq finish_eq rfl accepted
  exact ⟨codes, read⟩

theorem readTokens_either {gr : Expr} {tl : Bytes} {cs c n : Nat}
    (res : Codec.isReserved c = true) (scan : Token.scan {} tl = .ok (token, 0x29 :: r))
    (unit : token.unitSet? = some us) (inOrder : us.InOrder 0)
    (read : readTokens pattern (n + 1 + 1 + 1 + 1 + 1) none
      { groups := 1, codes := cs, stack := [.expr gr] }
      (0x28 :: 0x3F :: 0x3A :: (Utf8.encode c ++ 0x7C :: tl)) = .ok after) :
    ∃ cs unit set, readTokens pattern n none
        { groups := 1, codes := cs, stack := [.expr unit, .expr gr] } r = .ok after ∧
      unit.Stands set ∧ set.InOrder 0 ∧
      ∀ j, set.contains j = true ↔ j = c ∨ us.contains j = true := by
  have bounds := Codec.isReserved_iff.mp res
  have scalar : Utf8.isScalar c = true := Utf8.isScalar_iff.mpr (by omega)
  have small : c ≤ Unicode.maxCode := by
    unfold Unicode.maxCode
    omega
  have opens : Opens [.parenthesis none {}, .expr gr] := .inr ⟨_, _, _, rfl⟩
  have kept : joinLiterals [.expr gr] = [.expr gr] := by cases gr <;> rfl
  obtain ⟨opened, acc, read⟩ := readTokens_step (by simp) (Token.scan_openGroup _ _) (by simp) read
  obtain rfl :
    opened = { groups := 1, codes := cs, stack := [.parenthesis none {}, .expr gr] } := by
    rw [← Except.ok.inj acc, pushItem, kept]
  obtain ⟨b, bs, encode_eq⟩ := exists_cons_of_length_pos (Utf8.length_encode_pos c)
  have high : 0x80 ≤ b.toNat := by
    have side := Utf8.ascii_of_mem_encode scalar (show b ∈ Utf8.encode c by simp [encode_eq])
    omega
  obtain ⟨referred, acc, read⟩ := readTokens_step (by simp [encode_eq])
    (Token.scan_code scalar (by rw [encode_eq]; rfl) (by omega) (by omega) (by omega) _ _) (by simp)
    read
  obtain ⟨cs, referred_eq⟩ := accept_literal rfl acc
  obtain rfl : referred = { groups := 1, codes := cs, stack := [.expr (.literal [c] {}),
      .parenthesis none {}, .expr gr] } := referred_eq
  obtain ⟨barred, acc, read⟩ := readTokens_step (by simp)
    (show Token.scan _ (0x7C :: tl) = .ok (.bar, tl) from rfl) (by simp) read
  obtain ⟨cs, barred_eq⟩ := bar_eq (show unwind [] (joinLiterals [.expr (.literal [c] {}),
      .parenthesis none {}, .expr gr]) = ([.literal [c] {}], _) from rfl) opens acc
  obtain rfl : barred = { groups := 1, codes := cs, stack := [.bar, .expr (.literal [c] {}),
      .parenthesis none {}, .expr gr] } := barred_eq
  have ne : tl ≠ [] := by
    rintro rfl
    cases scan
  obtain ⟨either, acc, read⟩ := readTokens_step ne scan
    (by rintro k lazy rfl; simp [Token.unitSet?] at unit) read
  obtain ⟨cs, e, covers, either_eq⟩ := accept_unit unit inOrder rfl acc
  obtain rfl :
    either = { groups := 1, codes := cs, stack := [.expr e, .bar, .expr (.literal [c] {}),
      .parenthesis none {}, .expr gr] } := either_eq
  obtain ⟨closed, acc, read⟩ := readTokens_step (by simp)
    (show Token.scan _ (0x29 :: r) = .ok (.close, r) from rfl) (by simp) read
  obtain ⟨finished, finish_eq⟩ :
    ∃ finished, finishGroup { groups := 1, codes := cs, stack := [.expr e,
      .bar, .expr (.literal [c] {}), .parenthesis none {}, .expr gr] } = .ok finished := by
    cases finish_eq : finishGroup { groups := 1, codes := cs, stack := [.expr e, .bar,
        .expr (.literal [c] {}), .parenthesis none {}, .expr gr] } with
    | error => simp [accept, close, finish_eq] at acc
    | ok finished => exact ⟨finished, rfl⟩
  have covers' := covers.toLiteral {}
  obtain ⟨cs, finished_eq⟩ := finishGroup_bar (show unwind [] (joinLiterals [.expr e, .bar,
    .expr (.literal [c] {}), .parenthesis none {}, .expr gr]) = ([e], _) by
      cases e <;> rfl) covers'.isUnit rfl opens finish_eq
  obtain ⟨set, stands, ord, mems⟩ := covers'.exists_stands small (by omega) {} rfl
  have held := (mems c).mpr (.inl rfl)
  obtain ⟨cs, closed_eq⟩ := close_eq finish_eq (by rw [finished_eq]) acc
  rw [finished_eq, kept] at closed_eq
  rw [closed_eq] at read
  refine ⟨cs, _, set, read, ?_, ord, mems⟩
  exact ((stands.nameSet).toLiteral ord held res {}).toLiteral ord held res {}

end Parser

/-- A word in a group, and then a reference to it or something else. -/
def Expr.repeatedWord (word : Bytes) (unit : Expr) : Expr :=
  .concat [.capture 1 "" (.literal (word.map (·.toNat)) {}), unit]

/-- The two alternatives after the word are read as one set, which holds the reference. -/
theorem Expr.parse_repeatedWord {w tail : Bytes} {code : Nat} {token : Token} {units : CodeSet}
    {expr : Expr} (nonempty : w ≠ [])
    (letters : ∀ letter ∈ w, 0x61 ≤ letter.toNat ∧ letter.toNat ≤ 0x7A)
    (reserved : Codec.isReserved code = true) (scanned : Token.scan {} tail = .ok (token, [0x29]))
    (unit : token.unitSet? = some units) (inOrder : units.InOrder 0)
    (parsed : parse (0x28 :: (w ++ 0x29 :: 0x28 :: 0x3F :: 0x3A ::
      (Utf8.encode code ++ 0x7C :: tail))) = .ok expr) :
    ∃ unit codes, expr = repeatedWord w unit ∧ unit.Stands codes ∧ codes.InOrder 0 ∧
      ∀ other, codes.contains other = true ↔ other = code ∨ units.contains other = true := by
  unfold parse at parsed
  split at parsed
  · simp at parsed
  next parser read =>
  generalize length_eq : List.length _ = fuel at read
  obtain ⟨left, rfl⟩ : ∃ left, fuel = left + 1 + 1 + 1 + 1 + 1 + 1 + w.length + 1 := by
    refine ⟨tail.length + ((Utf8.encode code).length - 1), ?_⟩
    have := Utf8.length_encode_pos code
    rw [← length_eq]
    simp only [length_cons, length_append]
    omega
  obtain ⟨codes, read⟩ := readTokens_word nonempty letters read
  obtain ⟨codes, unit, set, read, stands, ordered, members⟩ :=
    readTokens_either reserved scanned unit inOrder read
  rw [readTokens_nil] at read
  cases read
  have unwound : unwind [] (joinLiterals [.expr unit,
      .expr (.capture 1 "" (.literal (w.map (·.toNat)) {}))]) =
        ([.capture 1 "" (.literal (w.map (·.toNat)) {}), unit], []) := by
    cases stands <;> rfl
  have whole : concatenation [.capture 1 "" (.literal (w.map (·.toNat)) {}), unit] =
      repeatedWord w unit := by
    have parts : unit.parts = [unit] := by cases stands <;> rfl
    change concat ([.capture 1 "" _] ++ (unit.parts ++ [])) = _
    rw [parts]
    rfl
  split at parsed
  · simp at parsed
  next final finished =>
  obtain ⟨codes, rfl⟩ := finishGroup_eq unwound (.inl rfl) finished
  refine ⟨unit, set, ?_, stands, ordered, members⟩
  rw [← Except.ok.inj parsed, whole]
  rfl

end Rematch
