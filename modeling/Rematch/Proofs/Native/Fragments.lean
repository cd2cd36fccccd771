import Rematch.Native.Emission

/-!
What the code of a block is made of. Only its tries, its captures and its matches use the stack, and
only its records and its matches lead to the routine that writes records; the rest of it tests,
marks and jumps: `filter_blockLines`.
-/

namespace Rematch

open List

/-- Whether an instruction pushes, pops, calls, or writes the stack pointer. A return takes away
what its call has pushed. -/
def Machine.Instr.usesStack {Label : Type} : Instr Label → Bool
  | .push _ | .pop _ | .call _ => true
  | .movLoad dst _ _ | .movLoad32 dst _ _ | .mov dst _ | .movImm32 dst _ | .movAddr dst _
  | .lea dst _ _ | .lea32 dst _ _ | .movzxLoad8 dst _ _ | .subImm8 dst _ | .andImm32 dst _
  | .sbb32 dst _ | .or32 dst _ | .xor32 dst _ | .not32 dst | .sub dst _ | .addLoad dst _ _
  | .shrImm dst _ => dst = Register.rsp
  | _ => false

namespace Native

def Line.usesStack : Line → Bool
  | .mark _ => false
  | .instr code => code.usesStack

/-- Whether a line leads to the routine that writes a record. -/
def Line.writesRecord : Line → Bool
  | .instr (.jmp .record) | .instr (.jcc _ .record) | .instr (.call .record)
  | .instr (.movAddr _ .record) => true
  | _ => false

def Line.isCounted (line : Line) : Bool := line.usesStack || line.writesRecord

/-- What the code of a block has of tries, captures, matches and records. -/
def countedLines (automaton : Automaton) (analysis : Analysis) (pc : Nat) : List Line :=
  match analysis.extensionsAt? pc with
  | some exts =>
    let last := exts.zipIdx.drop (exts.length - 1)
    let others := exts.zipIdx.take (exts.length - 1)
    (others.flatMap fun (_, index) => tryLines (.inner pc index)) ++
      (last ++ others).flatMap fun (ext, _) =>
        recordLines .extension (analysis.exit ext.out) (ext.kind.code * 256 + ext.arg)
  | none =>
    let inst := automaton.insts.getD pc {}
    match inst.op with
    | .alt | .altMatch => tryLines (.block (analysis.exit inst.out))
    | .byteRange => recordLines .wait (analysis.runOut pc) (analysis.runInsts pc).length
    | .capture => captureLines analysis inst.arg (analysis.exit inst.out)
    | .accept => acceptLines pc
    | _ => []

section

variable (analysis : Analysis) (pc : Nat)

theorem filter_jumpLines (next : Option Nat) : (jumpLines next pc).filter Line.isCounted = [] := by
  unfold jumpLines
  split <;> rfl

theorem filter_byteLines (position : Nat) (inst : Inst) :
    (byteLines position inst).filter Line.isCounted = [] := by
  unfold byteLines
  split
  · rfl
  · repeat' split
    all_goals rfl

theorem filter_conditionLines (conditions : Nat) :
    (conditionLines conditions).filter Line.isCounted = [] := by
  unfold conditionLines
  split <;> rfl

theorem filter_opening :
    (Line.mark (.block pc) :: if analysis.isShared pc then visitLines pc else []).filter
      Line.isCounted = [] := by
  split <;> rfl

theorem filter_extensionLines (index out : Nat) (ext : Extension) :
    (Line.mark (.inner pc index) :: extensionLines out ext).filter Line.isCounted =
      (recordLines .extension out (ext.kind.code * 256 + ext.arg)).filter Line.isCounted := by
  unfold extensionLines
  split <;> rfl

end

variable {automaton : Automaton} {analysis : Analysis} {next : Option Nat} {pc : Nat}
  {lines : List Line}

theorem filter_plainLines (plain : analysis.extensionsAt? pc = none)
    (made : plainLines automaton analysis next pc = .ok lines) :
    lines.filter Line.isCounted = (countedLines automaton analysis pc).filter Line.isCounted := by
  unfold countedLines
  unfold plainLines at made
  rw [plain]
  dsimp only at made ⊢
  split at made <;> cases made <;> rename_i op <;> simp only [op]
  · rw [filter_append, filter_jumpLines, append_nil]
  · rw [filter_append, filter_jumpLines, append_nil]
  · rw [runLines, filter_append, filter_append, filter_flatMap]
    simp only [filter_byteLines]
    rw [flatMap_eq_nil_iff.mpr fun _ _ => rfl]
    rfl
  · rw [filter_append, filter_conditionLines, filter_jumpLines]
    rfl
  · rw [filter_jumpLines]
    rfl
  · rfl

theorem filter_blockLines (made : blockLines automaton analysis next pc = .ok lines) :
    lines.filter Line.isCounted = (countedLines automaton analysis pc).filter Line.isCounted := by
  have quiet := filter_opening analysis pc
  unfold blockLines at made
  generalize (Line.mark (.block pc) :: if analysis.isShared pc then visitLines pc else []) =
    opening at made quiet
  split at made
  · cases made
  · next exts _ listed =>
    cases made
    rw [filter_append, quiet, nil_append, countedLines, listed]
    simp only [extensionListLines, filter_append, filter_flatMap, filter_extensionLines]
  · next plain =>
    cases rest : plainLines automaton analysis next pc with
    | error error => simp [rest, Except.map] at made
    | ok code =>
      rw [rest, Except.map] at made
      cases made
      rw [filter_append, quiet, nil_append, filter_plainLines plain rest]

theorem filter_usesStack (made : blockLines automaton analysis next pc = .ok lines) :
    lines.filter Line.usesStack = (countedLines automaton analysis pc).filter Line.usesStack := by
  have isCounted : ∀ line : Line, (line.usesStack && line.isCounted) = line.usesStack := by
    simp +contextual [Line.isCounted]
  have counted := congrArg (filter Line.usesStack) (filter_blockLines made)
  simpa only [filter_filter, isCounted] using counted

/-- How many records the code of a block can write: one for each of its extensions, otherwise one
where bytes are awaited and one where a match ends. -/
def recordCount (analysis : Analysis) (pc : Nat) : Nat :=
  match analysis.extensionsAt? pc with
  | some exts => exts.length
  | none =>
    match (analysis.inst pc).op with
    | .byteRange | .accept => 1
    | _ => 0

theorem countP_countedLines (graph : Graph) (pc : Nat) :
    (countedLines graph.automaton graph.summary pc).countP Line.writesRecord =
      recordCount graph.summary pc := by
  unfold countedLines recordCount
  split
  · next exts _ =>
    have tries (index : Nat) : (tryLines (.inner pc index)).countP Line.writesRecord = 0 := rfl
    have record (out arg : Nat) :
      (recordLines .extension out arg).countP Line.writesRecord = 1 := rfl
    simp only [countP_append, countP_flatMap, Function.comp_def, tries, record, map_const',
      sum_replicate_nat, length_append, length_drop, length_take, length_zipIdx]
    omega
  · rw [show graph.summary.inst pc = graph.automaton.insts.getD pc {} from rfl]
    dsimp only
    cases (graph.automaton.insts.getD pc {}).op with
    | capture =>
      unfold captureLines
      cases graph.summary.backrefGroups.contains ((graph.automaton.insts.getD pc {}).arg / 2) <;>
        rfl
    | _ => rfl

theorem countP_writesRecord {graph : Graph}
    (made : blockLines graph.automaton graph.summary next pc = .ok lines) :
    lines.countP Line.writesRecord = recordCount graph.summary pc := by
  have isCounted : ∀ line : Line, (line.writesRecord && line.isCounted) = line.writesRecord := by
    simp +contextual [Line.isCounted]
  have counted := congrArg (countP Line.writesRecord) (filter_blockLines made)
  simpa only [countP_filter, isCounted, countP_countedLines] using counted

end Native

end Rematch
