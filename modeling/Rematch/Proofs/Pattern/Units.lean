import Rematch.Pattern.Compiled
import Rematch.Proofs.Extension.Sets
import Rematch.Proofs.Pattern.Scanning

/-!
Expressions for one code point: how reading a pattern rewrites them, and the step that they are
compiled to. A set with a reserved code point stays the same set all the way.
-/

namespace Rematch

open List Compilation Codec Rematch.Parser
open Unicode (CodeSet)

namespace Unicode.CaseFolding

theorem nextInOrbit_of_greatest_lt {c : Nat} (large : greatestFolded < c) : nextInOrbit c = c := by
  have alone : orbitOf c = [c] := if_neg (by omega)
  simp [nextInOrbit, alone]

end Unicode.CaseFolding

theorem Parser.not_isCasePair {a b : Nat} (apart : a ≠ b)
    (res : isReserved a = true ∨ isReserved b = true) : Parser.isCasePair a b = false := by
  have single {c : Nat} (reserved : isReserved c = true) :
      Unicode.CaseFolding.nextInOrbit c = c := by
    refine Unicode.CaseFolding.nextInOrbit_of_greatest_lt ?_
    have large := (isReserved_iff.mp reserved).1
    unfold Unicode.CaseFolding.greatestFolded
    omega
  rw [isCasePair, Bool.and_eq_false_iff]
  rcases res with reserved | reserved
  · exact .inl (by simp [single reserved, apart])
  · exact .inr (by simp [single reserved, apart.symm])

namespace Step

variable {sp : Step} {n : Nat}

theorem Fits.mono {larger : Nat} (fits : sp.Fits n) (le : n ≤ larger) : sp.Fits larger := by
  cases sp with
  | alt | altMatch => exact ⟨Nat.lt_of_lt_of_le fits.1 le, Nat.lt_of_lt_of_le fits.2 le⟩
  | capture | emptyWidth | nop | anyCode | anyCodeButNewline => exact Nat.lt_of_lt_of_le fits le
  | codes | code => exact ⟨Nat.lt_of_lt_of_le fits.1 le, fits.2⟩
  | accept | fail => trivial
  | unsupported => exact fits

theorem Fits.leadTo {t : Nat} (fits : sp.Fits n) (lt : t < n) (snd : Bool) :
    (sp.leadTo t snd).Fits n := by
  cases sp with
  | alt | altMatch =>
    unfold Step.leadTo
    dsimp only
    split
    · exact ⟨fits.1, lt⟩
    · exact ⟨lt, fits.2⟩
  | capture | emptyWidth | nop | anyCode | anyCodeButNewline => exact lt
  | codes | code => exact ⟨lt, fits.2⟩
  | accept | fail => trivial
  | unsupported => exact fits

end Step

namespace Compilation

theorem literalStep_fits {c n : Nat} (le : c ≤ Unicode.maxCode) (room : 0 < n) (fc : Bool) :
    (literalStep c fc).Fits n := by
  have inRange : ∀ p ∈ [(c : Int)], 0 ≤ p ∧ p ≤ Unicode.maxCode := by
    simp only [mem_singleton, forall_eq]
    omega
  unfold literalStep
  split
  · exact ⟨room, inRange⟩
  · exact ⟨room, by simp, inRange⟩

theorem setStep_fits {cs : CodeSet} {n : Nat} (ord : cs.InOrder 0) (room : 0 < n) :
    (setStep cs).Fits n := by
  have inRange := ord.bounds_le
  unfold setStep
  split
  · split
    · exact ⟨room, by simp, inRange⟩
    split
    · exact room
    · exact ⟨room, inRange⟩
  · split
    · exact room
    · exact ⟨room, inRange⟩

end Compilation

namespace Expr

/-- An expression for one code point stands for a set; a literal stands for itself only. -/
inductive Stands : Expr → CodeSet → Prop where
  | literal {code mode} (exact : mode.foldCase = false) :
      Stands (.literal [code] mode) [⟨code, code⟩]
  | set {codes} : Stands (.set codes) codes
  | any : Stands .any CodeSet.full
  | anyButNewline : Stands .anyButNewline CodeSet.butNewline

def unitStep : Expr → Step
  | .literal [code] mode => Compilation.literalStep code mode.foldCase
  | .set codes => Compilation.setStep codes
  | .any => .anyCode 0
  | .anyButNewline => .anyCodeButNewline 0
  | _ => .fail

namespace Stands

variable {e : Expr} {cs : CodeSet} {c : Nat} (stands : e.Stands cs)

include stands

theorem toLiteral (ord : cs.InOrder 0) (held : cs.contains c = true)
    (res : isReserved c = true) (mode : Mode) : (Parser.toLiteral mode e).Stands cs := by
  cases stands with
  | literal exact => exact .literal exact
  | any => exact .any
  | anyButNewline => exact .anyButNewline
  | set =>
    match cs with
    | [] => exact .set
    | [sp] =>
      rw [Parser.toLiteral]
      split
      · next single =>
        obtain ⟨lo, hi⟩ := sp
        obtain rfl : lo = hi := single
        exact .literal rfl
      split
      · next pair =>
        obtain ⟨m, mem, lt⟩ := CodeSet.contains_iff.mp held
        obtain rfl := mem_singleton.mp mem
        have alone := not_isCasePair (show m.lo ≠ m.hi by omega) (by
          rcases (show c = m.lo ∨ c = m.hi by omega) with rfl | rfl
          · exact .inl res
          · exact .inr res)
        simp [alone] at pair
      · exact .set
    | [a, b] =>
      rw [Parser.toLiteral]
      split
      · next pair =>
        obtain ⟨single, single', pair⟩ := pair
        have apart := (CodeSet.inOrder_cons.mp ord).2.2
        have above := (CodeSet.inOrder_cons.mp apart).1
        have alone := not_isCasePair (show a.lo ≠ b.lo by omega) (by
          obtain ⟨m, mem, lt⟩ := CodeSet.contains_iff.mp held
          simp only [mem_cons, not_mem_nil, or_false] at mem
          rcases mem with rfl | rfl
          · exact .inl (show isReserved m.lo = true by
              rwa [show m.lo = c by omega])
          · exact .inr (show isReserved m.lo = true by
              rwa [show m.lo = c by omega]))
        simp [alone] at pair
      · exact .set
    | _ :: _ :: _ :: _ => exact .set

theorem nameSet : e.nameSet.Stands cs := by
  cases stands with
  | literal exact => exact .literal exact
  | any => exact .any
  | anyButNewline => exact .anyButNewline
  | set =>
    rw [Expr.nameSet]
    split
    · next eq => exact eq ▸ .any
    split
    · next eq => exact eq ▸ .anyButNewline
    · exact .set

theorem simplify_eq : e.simplify = e := by cases stands <;> rw [simplify]

theorem groupNames_eq : e.groupNames = [""] := by
  cases stands <;> simp [groupNames, groups]

theorem fragment_eq (n : Compilation.Steps) : fragment n e = single n e.unitStep false := by
  cases stands with
  | literal => rw [fragment]; rfl
  | set | any | anyButNewline => rw [fragment]; rfl

theorem next? (out : Nat) : (e.unitStep.leadTo out false).next? = some out := by
  cases stands with
  | literal exact => simp [unitStep, literalStep, exact, Step.leadTo, Step.next?]
  | any | anyButNewline => rfl
  | set =>
    unfold unitStep setStep
    dsimp only
    repeat' split
    all_goals rfl

theorem intervals? (out : Nat) : (e.unitStep.leadTo out false).intervals? = some cs.bounds := by
  cases stands with
  | literal exact =>
    simp [unitStep, literalStep, exact, Step.leadTo, Step.intervals?, CodeSet.bounds]
  | any | anyButNewline => rfl
  | set =>
    unfold unitStep setStep
    dsimp only
    split
    · next sp =>
      split
      · next single => simp [Step.leadTo, Step.intervals?, CodeSet.bounds, single]
      split
      · next eq =>
        rw [eq]
        rfl
      · rfl
    · split
      · next eq =>
        rw [eq]
        rfl
      · cases cs <;> rfl

theorem fits (ord : cs.InOrder 0) {out n : Nat} (lt : out < n) :
    (e.unitStep.leadTo out false).Fits n := by
  have room : 0 < n := Nat.zero_lt_of_lt lt
  refine Step.Fits.leadTo ?_ lt false
  cases stands with
  | literal => exact literalStep_fits (CodeSet.inOrder_cons.mp ord).2.1.2 room _
  | set => exact setStep_fits ord room
  | any | anyButNewline => exact room

theorem mem_reservedCodes (part : cs.holdsBlock = false) (held : cs.contains c = true)
    (res : isReserved c = true) : c ∈ e.reservedCodes := by
  cases stands with
  | @literal only _ exact =>
    obtain ⟨sp, mem, lt⟩ := CodeSet.contains_iff.mp held
    obtain rfl := mem_singleton.mp mem
    obtain rfl : only = c := by
      dsimp only at lt
      omega
    simp [reservedCodes, res]
  | any | anyButNewline => exact absurd part (by decide)
  | set =>
    obtain ⟨sp, mem, lt⟩ := CodeSet.contains_iff.mp held
    have bounds := isReserved_iff.mp res
    have uncovered : ¬(sp.lo ≤ reservedLo ∧ reservedHi ≤ sp.hi) := by
      intro covers
      have whole : cs.holdsBlock = true := any_eq_true.mpr ⟨sp, mem, by simpa using covers⟩
      simp [part] at whole
    rw [reservedCodes, mem_flatMap]
    refine ⟨sp, mem, ?_⟩
    rw [if_neg uncovered]
    refine mem_range'_1.mpr ?_
    unfold reservedLo reservedHi
    omega

theorem compile_eq : e.compile = ⟨#[.fail, e.unitStep.leadTo 2 false, .accept], 1, 2⟩ := by
  have slots_eq : slots #[.fail, e.unitStep.leadTo 2 false, .accept] = 2 := by
    have next := stands.next? 2
    generalize e.unitStep.leadTo 2 false = sp at next
    cases sp with
    | capture => simp [Step.next?] at next
    | _ => rfl
  rw [compile, stands.fragment_eq]
  have steps_eq : connect (#[.fail, e.unitStep].push .accept) [⟨1, false⟩] 2 =
      #[.fail, e.unitStep.leadTo 2 false, .accept] := rfl
  change Program.mk (connect (#[.fail, e.unitStep].push .accept) [⟨1, false⟩] 2) 1
    (slots (connect (#[.fail, e.unitStep].push .accept) [⟨1, false⟩] 2)) = _
  rw [steps_eq, slots_eq]
  rfl

end Stands

end Expr

namespace Parser

variable {pat : Bytes} {e : Expr} {fu : Nat} {rep : Option Bytes} {f p : Parser}

theorem push_eq {v : Parser} (pushed : p.push e = .ok v) : v = { p with
      codes := p.codes + e.ownCodes
      stack := .expr (toLiteral p.mode e) :: joinLiterals p.stack } := by
  unfold push at pushed
  dsimp only at pushed
  split at pushed
  · simp at pushed
  · exact (Except.ok.inj pushed).symm

theorem readTokens_step {w v : Bytes} {token : Token} (ne : w ≠ [])
    (scan : Token.scan p.mode w = .ok (token, v)) (plain : ∀ k lazy, token ≠ .repetition k lazy)
    (read : readTokens pat (fu + 1) rep p w = .ok f) :
    ∃ n, p.accept token = .ok n ∧ readTokens pat fu none n v = .ok f := by
  rw [readTokens.eq_3 _ _ _ _ _ ne, scan] at read
  dsimp only at read
  split at read
  · exact False.elim (plain _ _ rfl)
  · split at read
    · simp at read
    · next n acc =>
      refine ⟨n, acc, ?_⟩
      split at read
      · exact False.elim (plain _ _ rfl)
      · exact read

theorem readTokens_nil : readTokens pat fu rep p [] = .ok p := by
  cases fu <;> rfl

theorem stack_of_finishGroup (single : p.stack = [.expr e]) (fin : p.finishGroup = .ok f) :
    f.stack = [.expr (toLiteral p.mode (Expr.nameSet (toLiteral p.mode e)))] := by
  unfold finishGroup at fin
  split at fin
  · simp at fin
  next joined conc =>
  simp only [concat, single, joinLiterals, unwind, Expr.concatenation] at conc
  obtain rfl := push_eq conc
  simp only [joinLiterals, swapBar?, alternate, unwind, nameLast, Expr.alternation] at fin
  obtain rfl := push_eq fin
  rfl

end Parser

theorem Expr.parse_of_set {w : Bytes} {cs : CodeSet} {e : Expr} (ne : w ≠ [])
    (scan : Token.scan {} w = .ok (.set cs, [])) (parsed : Expr.parse w = .ok e) :
    e = toLiteral {} (nameSet (toLiteral {} (toLiteral {} (.set cs)))) := by
  unfold Expr.parse at parsed
  split at parsed
  · simp at parsed
  next p read =>
  rw [← Nat.succ_pred_eq_of_pos (length_pos_iff.mpr ne)] at read
  obtain ⟨n, acc, read⟩ := readTokens_step ne scan (by simp) read
  rw [readTokens_nil] at read
  cases read
  obtain rfl := push_eq acc
  split at parsed
  · simp at parsed
  next f fin =>
  rw [stack_of_finishGroup rfl fin] at parsed
  exact (Except.ok.inj parsed).symm

end Rematch
