import Rematch.Automaton.Analysis
import Rematch.Machine.Code
import Rematch.Native.Frame

/-!
Machine code for closures. There is one block of code for each block of the analysis; it explores
its alternatives by calls, and reports waits, matches and extensions by records in an outbox, since
it cannot call the scheduler. A block returns a nonzero number in RAX once it has recorded a match.

The frame pointer stays in RDI. RSI holds the address of the block on entry; RCX, RDX, R8, R9 and
R10 are free.
-/

namespace Rematch.Native

open Machine Machine.Register

inductive CodeLabel where
  | stub
  | retZero
  | ret
  | record
  | overflow
  | block (pc : Nat)
  | inner (pc index : Nat)
  deriving DecidableEq

inductive Line where
  | mark (label : CodeLabel)
  | instr (instr : Instr CodeLabel)

inductive RecordKind where
  | wait
  | accept
  | extension
  deriving DecidableEq

def RecordKind.code : RecordKind → Nat
  | .wait => 0
  | .accept => 1
  | .extension => 2

/-- The words of a record before its captures: kind, entry, argument and visit id. -/
def recordHeader : Nat := 4

inductive EmissionError where
  | unsupported (pc : Nat) (op : Opcode)
  /-- An instruction is executed as extensions but has none. -/
  | noExtensions (pc : Nat)
  deriving DecidableEq

def EmissionError.message : EmissionError → String
  | .unsupported pc op => s!"inst {pc}: unsupported opcode {op.name}"
  | .noExtensions pc => s!"inst {pc}: no extensions"

def stubLines : List Line := [.mark .stub, .instr (.jmpReg rsi)]

def runtimeLines : List Line := [
  .mark .retZero,
  .instr (.xor32 rax rax),
  .mark .ret,
  .instr .ret,
  .mark .record,
  .instr (.movLoad rdx rdi Frame.out),
  .instr (.cmpLoad rdx rdi Frame.outEnd),
  .instr (.jcc Condition.above .overflow),
  .instr (.movStore rdx 0 r8),
  .instr (.movStore rdx 8 rsi),
  .instr (.movStore rdx 16 r9),
  .instr (.movLoad rcx rdi Frame.visitId),
  .instr (.movStore rdx 24 rcx),
  .instr (.movLoad rcx rdi Frame.slots),
  .instr (.movLoad rsi rdi Frame.captures),
  .instr (.mov r10 rdi),
  .instr (.lea rdi rdx (8 * recordHeader)),
  .instr .repMovsq,
  .instr (.movStore r10 Frame.out rdi),
  .instr (.mov rdi r10),
  .instr (.jmp .retZero),
  .mark .overflow,
  .instr (.movStoreImm rdi Frame.overflow 1),
  .instr (.jmp .retZero)]

def jumpLines (next : Option Nat) (pc : Nat) : List Line :=
  if next = some pc then [] else [.instr (.jmp (.block pc))]

def recordLines (kind : RecordKind) (out arg : Nat) : List Line := [
  .instr (.movImm32 r8 kind.code),
  .instr (.movAddr rsi (.block out)),
  .instr (.movImm32 r9 arg),
  .instr (.jmp .record)]

def visitLines (pc : Nat) : List Line :=
  let disp : Int := wrap32 (pc / 8 : Nat)
  let bit : UInt8 := 1 <<< UInt8.ofNat (pc % 8)
  [.instr (.movLoad rsi rdi Frame.visited),
    .instr (.testMem8 rsi disp bit),
    .instr (.jcc Condition.notEqual .retZero),
    .instr (.orMem8 rsi disp bit)]

def tryLines (label : CodeLabel) : List Line := [
  .instr (.push rdi),
  .instr (.call label),
  .instr (.pop rdi),
  .instr (.test32 rax rax),
  .instr (.jcc Condition.notEqual .ret)]

def byteLines (position : Nat) (inst : Inst) : List Line :=
  if inst.lo = 0 ∧ inst.hi = 0xFF then []
  else
    [Line.instr (.movzxLoad8 rcx rsi (wrap32 position))] ++
    (if inst.fold then [
      .instr (.lea32 rdx rcx (-0x41)),
      .instr (.cmpImm32 rdx 26),
      .instr (.sbb32 rdx rdx),
      .instr (.andImm32 rdx 0x20),
      .instr (.or32 rcx rdx)] else []) ++
    (if inst.lo = inst.hi then [
      .instr (.cmpImm8 rcx inst.lo),
      .instr (.jcc Condition.notEqual .retZero)]
    else if inst.lo = 0 then [
      .instr (.cmpImm8 rcx inst.hi),
      .instr (.jcc Condition.above .retZero)]
    else [
      .instr (.subImm8 rcx inst.lo),
      .instr (.cmpImm8 rcx (inst.hi - inst.lo)),
      .instr (.jcc Condition.above .retZero)])

def runLines (automaton : Automaton) (analysis : Analysis) (pc : Nat) : List Line :=
  let run := analysis.runInsts pc
  [Line.instr (.cmpMemImm rdi Frame.length run.length),
    .instr (.jcc Condition.below .retZero),
    .instr (.movLoad rsi rdi Frame.input)] ++
  (run.zipIdx.flatMap fun (pc, position) => byteLines position (automaton.insts.getD pc {})) ++
  recordLines .wait (analysis.runOut pc) run.length

def snapshotLines : List Line := [
  .instr (.movLoad rcx rdi Frame.visitedSize),
  .instr (.sub rsp rcx),
  .instr (.movLoad rsi rdi Frame.visited),
  .instr (.mov r10 rdi),
  .instr (.mov rdi rsp),
  .instr (.shrImm rcx 3),
  .instr .repMovsq,
  .instr (.mov rdi r10),
  .instr (.movLoad rax rdi Frame.visitId),
  .instr (.push rax),
  .instr (.movLoad rax rdi Frame.lastVisitId),
  .instr (.lea rax rax 1),
  .instr (.movStore rdi Frame.lastVisitId rax),
  .instr (.movStore rdi Frame.visitId rax)]

def restoreLines : List Line := [
  .instr (.pop rcx),
  .instr (.movStore rdi Frame.visitId rcx),
  .instr (.movLoad rcx rdi Frame.visitedSize),
  .instr (.shrImm rcx 3),
  .instr (.mov rsi rsp),
  .instr (.mov r10 rdi),
  .instr (.movLoad rdi r10 Frame.visited),
  .instr .repMovsq,
  .instr (.mov rdi r10),
  .instr (.addLoad rsp rdi Frame.visitedSize)]

/-- Writes the offset into a slot while the rest of the closure runs; a slot that the caller does
not track is skipped. A slot of a group that a backreference names also saves what was visited. -/
def captureLines (analysis : Analysis) (slot out : Nat) : List Line :=
  let disp := wrap32 (8 * slot)
  let isReferenced := analysis.backrefGroups.contains (slot / 2)
  [Line.instr (.cmpMemImm rdi Frame.slots (wrap32 slot)),
    .instr (.jcc Condition.belowOrEqual (.block out)),
    .instr (.movLoad rdx rdi Frame.captures),
    .instr (.movLoad rax rdx disp),
    .instr (.push rax),
    .instr (.movLoad rax rdi Frame.offset),
    .instr (.movStore rdx disp rax)] ++
  (if isReferenced then snapshotLines else []) ++
  [.instr (.push rdi),
    .instr (.call (.block out)),
    .instr (.pop rdi)] ++
  (if isReferenced then restoreLines else []) ++
  [.instr (.pop rcx),
    .instr (.movLoad rdx rdi Frame.captures),
    .instr (.movStore rdx disp rcx),
    .instr .ret]

def conditionLines (conditions : Nat) : List Line :=
  if conditions = 0 then []
  else [
    .instr (.movLoad32 rax rdi Frame.conditions),
    .instr (.not32 rax),
    .instr (.testImm32 rax conditions),
    .instr (.jcc Condition.notEqual .retZero)]

/-- Records a match, unless it must end at the end of the text and there is more of it. -/
def acceptLines (pc : Nat) : List Line := [
  .instr (.testMem8 rdi Frame.flags 2),
  .instr (.jcc Condition.equal (.inner pc 0)),
  .instr (.cmpMemImm rdi Frame.length 0),
  .instr (.jcc Condition.notEqual .retZero),
  .mark (.inner pc 0),
  .instr (.movLoad rax rdi Frame.offset),
  .instr (.movLoad rdx rdi Frame.captures),
  .instr (.movStore rdx 8 rax),
  .instr (.movImm32 r8 RecordKind.accept.code),
  .instr (.xor32 rsi rsi),
  .instr (.xor32 r9 r9),
  .instr (.call .record),
  .instr (.movImm32 rax 1),
  .instr .ret]

/-- Records an extension. Of a backreference the unset, the inverted and the empty span are decided
at once; the bytes are compared by the host. -/
def extensionLines (out : Nat) (ext : Extension) : List Line :=
  let arg := ext.kind.code * 256 + ext.arg
  let group : Int := ext.arg
  (if ext.kind = .backreference then [
    Line.instr (.cmpMemImm rdi Frame.slots (2 * group + 1)),
    .instr (.jcc Condition.belowOrEqual .retZero),
    .instr (.movLoad rdx rdi Frame.captures),
    .instr (.movLoad rax rdx (16 * group)),
    .instr (.movLoad rcx rdx (16 * group + 8)),
    .instr (.test rax rax),
    .instr (.jcc Condition.sign .retZero),
    .instr (.cmp rcx rax),
    .instr (.jcc Condition.less .retZero),
    .instr (.jcc Condition.equal (.block out))] else []) ++
  recordLines .extension out arg

/-- Tries extensions in order: all but the last by calls, the last by falling through to it. -/
def extensionListLines (analysis : Analysis) (pc : Nat) (exts : List Extension) : List Line :=
  let place := fun (ext, index) =>
    Line.mark (.inner pc index) :: extensionLines (analysis.exit ext.out) ext
  let numbered := exts.zipIdx
  let last := numbered.drop (exts.length - 1)
  let others := numbered.take (exts.length - 1)
  (others.flatMap fun (_, index) => tryLines (.inner pc index)) ++ (last ++ others).flatMap place

def plainLines (automaton : Automaton) (analysis : Analysis) (next : Option Nat) (pc : Nat) :
    Except EmissionError (List Line) :=
  let inst := automaton.insts.getD pc {}
  let out := analysis.exit inst.out
  match inst.op with
  | .alt | .altMatch =>
    .ok (tryLines (.block out) ++ jumpLines next (analysis.exit inst.out1))
  | .byteRange => .ok (runLines automaton analysis pc)
  | .capture => .ok (captureLines analysis inst.arg out)
  | .emptyWidth => .ok (conditionLines inst.arg ++ jumpLines next out)
  | .nop => .ok (jumpLines next out)
  | .accept => .ok (acceptLines pc)
  | .fail => .ok [.instr (.jmp .retZero)]
  | .unknown code => .error (.unsupported pc (.unknown code))

def blockLines (automaton : Automaton) (analysis : Analysis) (next : Option Nat) (pc : Nat) :
    Except EmissionError (List Line) :=
  let opening := Line.mark (.block pc) :: if analysis.isShared pc then visitLines pc else []
  match analysis.extensionsAt? pc with
  | some [] => .error (.noExtensions pc)
  | some exts => .ok (opening ++ extensionListLines analysis pc exts)
  | none => (plainLines automaton analysis next pc).map (opening ++ ·)

def blocksLines (automaton : Automaton) (analysis : Analysis) :
    List Nat → Except EmissionError (List Line)
  | [] => .ok []
  | pc :: rest =>
    match blockLines automaton analysis rest.head? pc with
    | .error error => .error error
    | .ok lines => (blocksLines automaton analysis rest).map (lines ++ ·)

def lines (automaton : Automaton) (analysis : Analysis) : Except EmissionError (List Line) :=
  (blocksLines automaton analysis analysis.blocks).map fun blocks =>
    stubLines ++ runtimeLines ++ blocks

def innerCount (analysis : Analysis) (pc : Nat) : Nat :=
  match analysis.extensionsAt? pc with
  | some exts => exts.length
  | none => 1

def innerBases (analysis : Analysis) : Array Nat :=
  (List.range analysis.size).foldl (fun bases pc =>
    bases.push (bases.back?.getD 0 + innerCount analysis pc)) #[0]

def CodeLabel.index (size : Nat) (bases : Array Nat) : CodeLabel → Nat
  | .stub => 0
  | .retZero => 1
  | .ret => 2
  | .record => 3
  | .overflow => 4
  | .block pc => 5 + pc
  | .inner pc index => 5 + size + bases.getD pc 0 + index

def labelTable (analysis : Analysis) (bases : Array Nat) : Array Label :=
  let fixed := ["stub", "ret0", "ret", "record", "overflow"].map fun name => { name : Label }
  let blocks := (List.range analysis.size).map fun pc => { name := s!"inst{pc}" : Label }
  let inner := List.replicate (bases.back?.getD 0) { name := "" : Label }
  (fixed ++ blocks ++ inner).toArray

def assembleLine (index : CodeLabel → Nat) (code : Code) : Line → Code
  | .mark label => if (code.offset? (index label)).isSome then code else code.place (index label)
  | .instr instr => (instr.encode.map (Fragment.map index)).foldl Code.append code

def assemble (analysis : Analysis) (lines : List Line) : Code :=
  let bases := innerBases analysis
  lines.foldl (assembleLine (CodeLabel.index analysis.size bases))
    { labels := labelTable analysis bases }

/-- Emits the code of an automaton, which may differ from the analysed one in its opcodes. -/
def emit (automaton : Automaton) (analysis : Analysis) : Except EmissionError Code :=
  (lines automaton analysis).map (assemble analysis)

def blockOffsets (analysis : Analysis) (code : Code) : List (Nat × Nat) :=
  (List.range analysis.size).filterMap fun pc =>
    (code.labels[5 + pc]?.bind (·.offset)).map fun offset => (pc, offset)

/-- How many records the outbox holds. Without backreferences a closure enters every block at most
once and no more are needed. -/
def outboxCapacity (analysis : Analysis) : Nat :=
  let records := analysis.blocks.length + analysis.extensions + 1
  if analysis.hasBackrefs then records * 4 else records

def stackSize (automaton : Automaton) (analysis : Analysis) : Nat :=
  let bitmap := 8 * ((automaton.size + 63) / 64 + 1)
  let saving := analysis.blocks.filter fun pc =>
    let inst := automaton.insts.getD pc {}
    inst.op = .capture && analysis.backrefGroups.contains (inst.arg / 2)
  32 * (analysis.blocks.length + analysis.extensions + 8) + 4096 +
    if analysis.hasBackrefs then saving.length * (bitmap + 24) else 0

end Rematch.Native
