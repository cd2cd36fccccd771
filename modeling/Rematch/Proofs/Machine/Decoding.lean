import Rematch.Machine.Code
import Mathlib.Algebra.Group.Int.Defs
import Mathlib.Algebra.Group.Nat.Defs

/-!
Decoding of machine instructions. A REX byte widens operands and registers, the byte after the
opcode names a register and an operand, an index byte follows where the operand needs one, and then
come the displacement and the immediate. What is encoded is read back as the same instructions, with
nothing left over: `Machine.disassemble?_emit`.
-/

namespace Rematch.Machine

open Instr

/-- The number that bytes stand for, the lowest one first. -/
def number (bytes : Bytes) : Nat := bytes.foldr (fun byte rest => byte.toNat + 256 * rest) 0

def unsigned? (count : Nat) (input : Bytes) : Option (Nat × Bytes) :=
  if count ≤ input.length then some (number (input.take count), input.drop count) else none

def signed? (count : Nat) (input : Bytes) : Option (Int × Bytes) :=
  (unsigned? count input).map fun (value, rest) => (Int.bmod value (256 ^ count), rest)

inductive Operand where
  | register (rm : Register)
  | memory (base : Register) (disp : Int)

/-- The bits of a REX byte; without one all of them are zero. -/
structure Rex where
  byte : UInt8 := 0

namespace Rex

def wide (rex : Rex) : Bool := rex.byte &&& 8 ≠ 0

def reg (rex : Rex) (bits : UInt8) : Register := (rex.byte &&& 4) <<< 1 ||| bits

def index (rex : Rex) (bits : UInt8) : Register := (rex.byte &&& 2) <<< 2 ||| bits

def rm (rex : Rex) (bits : UInt8) : Register := (rex.byte &&& 1) <<< 3 ||| bits

/-- Reads the displacement of a memory operand. Without a displacement, the sixth base stands for
another kind of operand. -/
def displaced? (rex : Rex) (mode bits : UInt8) (input : Bytes) : Option (Operand × Bytes) :=
  if mode = 0 then if bits = 5 then none else some (.memory (rex.rm bits) 0, input)
  else (signed? (if mode = 1 then 1 else 4) input).map fun (disp, rest) =>
    (.memory (rex.rm bits) disp, rest)

/-- Reads the three bits for a register or for an operation, and an operand. The fifth base stands
for an index byte, of which only those without an index are read. -/
def operand? (rex : Rex) : Bytes → Option (UInt8 × Operand × Bytes)
  | [] => none
  | modrm :: input =>
    let mode := modrm >>> 6
    let bits := modrm &&& 7
    let operand :=
      if mode = 3 then some (.register (rex.rm bits), input)
      else if bits = 4 then
        match input with
        | [] => none
        | sib :: input =>
          if rex.index (sib >>> 3 &&& 7) = 4 then rex.displaced? mode (sib &&& 7) input else none
      else rex.displaced? mode bits input
    operand.map fun (operand, rest) => (modrm >>> 3 &&& 7, operand, rest)

end Rex

/-- Instructions with a register and a memory operand. -/
def onMemory? (wide : Bool) (opcode : UInt8) (reg base : Register) (disp : Int) :
    Option (Instr Nat) :=
  match wide, opcode with
  | true, 0x03 => some (.addLoad reg base disp)
  | true, 0x3B => some (.cmpLoad reg base disp)
  | true, 0x89 => some (.movStore base disp reg)
  | true, 0x8B => some (.movLoad reg base disp)
  | false, 0x8B => some (.movLoad32 reg base disp)
  | true, 0x8D => some (.lea reg base disp)
  | false, 0x8D => some (.lea32 reg base disp)
  | _, _ => none

/-- Instructions with two registers. -/
def onRegisters? (wide : Bool) (opcode : UInt8) (reg rm : Register) : Option (Instr Nat) :=
  match wide, opcode with
  | false, 0x09 => some (.or32 rm reg)
  | false, 0x19 => some (.sbb32 rm reg)
  | true, 0x29 => some (.sub rm reg)
  | false, 0x31 => some (.xor32 rm reg)
  | true, 0x39 => some (.cmp rm reg)
  | true, 0x85 => some (.test rm reg)
  | false, 0x85 => some (.test32 rm reg)
  | true, 0x89 => some (.mov rm reg)
  | _, _ => none

def ungrouped? (rex : Rex) (opcode bits : UInt8) : Operand → Option (Instr Nat)
  | .memory base disp => onMemory? rex.wide opcode (rex.reg bits) base disp
  | .register rm => onRegisters? rex.wide opcode (rex.reg bits) rm

/-- Instructions whose operation is named by three bits after the opcode. Without a REX byte the
byte registers from the fifth on are other ones. -/
def grouped? (rex : Rex) (opcode operation : UInt8) (operand : Operand) (input : Bytes) :
    Option (Instr Nat × Bytes) :=
  let byte (make : UInt8 → Instr Nat) := (unsigned? 1 input).map (Prod.map (make ∘ UInt8.ofNat) id)
  let signed (count : Nat) (make : Int → Instr Nat) := (signed? count input).map (Prod.map make id)
  match operand with
  | .memory base disp =>
    match rex.wide, opcode, operation with
    | false, 0x80, 1 => byte (.orMem8 base disp)
    | true, 0x81, 7 => signed 4 (.cmpMemImm base disp)
    | true, 0x83, 7 => signed 1 (.cmpMemImm base disp)
    | true, 0xC7, 0 => signed 4 (.movStoreImm base disp)
    | false, 0xF6, 0 => byte (.testMem8 base disp)
    | _, _, _ => none
  | .register reg =>
    let hasLowByte := rex.byte ≠ 0 ∨ reg < 4
    match rex.wide, opcode, operation with
    | false, 0x80, 5 => if hasLowByte then byte (.subImm8 reg) else none
    | false, 0x80, 7 => if hasLowByte then byte (.cmpImm8 reg) else none
    | false, 0x83, 4 => signed 1 (.andImm32 reg)
    | false, 0x83, 7 => signed 1 (.cmpImm32 reg)
    | true, 0xC1, 5 => byte (.shrImm reg)
    | false, 0xF7, 0 => (unsigned? 4 input).map (Prod.map (.testImm32 reg) id)
    | false, 0xF7, 2 => some (.not32 reg, input)
    | false, 0xFF, 4 => some (.jmpReg reg, input)
    | _, _, _ => none

def isGrouped (opcode : UInt8) : Bool := opcode ∈ [0x80, 0x81, 0x83, 0xC1, 0xC7, 0xF6, 0xF7, 0xFF]

/-- Reads what comes after a REX byte. Where a label stands the number in its place is read. -/
def operation? (rex : Rex) : Bytes → Option (Instr Nat × Bytes)
  | 0x0F :: 0xB6 :: input =>
    (rex.operand? input).bind fun
      | (reg, .memory base disp, rest) =>
        if rex.wide then none else some (.movzxLoad8 (rex.reg reg) base disp, rest)
      | _ => none
  | 0x0F :: opcode :: input =>
    if opcode &&& 0xF0 = 0x80 then (unsigned? 4 input).map (Prod.map (.jcc (opcode &&& 15)) id)
    else none
  | 0xA9 :: input => (unsigned? 4 input).map (Prod.map (.testImm32 0) id)
  | 0xC3 :: input => some (.ret, input)
  | 0xE8 :: input => (unsigned? 4 input).map (Prod.map .call id)
  | 0xE9 :: input => (unsigned? 4 input).map (Prod.map .jmp id)
  | opcode :: input =>
    let reg := rex.rm (opcode &&& 7)
    if opcode &&& 0xF8 = 0x50 then some (.push reg, input)
    else if opcode &&& 0xF8 = 0x58 then some (.pop reg, input)
    else if opcode &&& 0xF8 = 0xB8 then
      if rex.wide then (unsigned? 8 input).map (Prod.map (.movAddr reg) id)
      else (unsigned? 4 input).map (Prod.map (.movImm32 reg) id)
    else
      (rex.operand? input).bind fun (bits, operand, rest) =>
        if isGrouped opcode then grouped? rex opcode bits operand rest
        else (ungrouped? rex opcode bits operand).map (·, rest)
  | [] => none

/-- Reads one instruction. -/
def decode? : Bytes → Option (Instr Nat × Bytes)
  | 0xF3 :: 0x48 :: 0xA5 :: input => some (.repMovsq, input)
  | 0xF3 :: 0x48 :: 0xAB :: input => some (.repStosq, input)
  | first :: input =>
    if first &&& 0xF0 = 0x40 then operation? ⟨first⟩ input else operation? {} (first :: input)
  | [] => none

/-- Reads instructions up to the end of the input, but no more than `count`. -/
def disassemble? : Nat → Bytes → Option (List (Instr Nat))
  | _, [] => some []
  | 0, _ :: _ => none
  | count + 1, first :: input =>
    (decode? (first :: input)).bind fun (instr, rest) => (disassemble? count rest).map (instr :: ·)

section Numbers

variable {n v : Nat} {r : Bytes}

theorem littleEndian_succ (n v : Nat) :
    littleEndian (n + 1) v = UInt8.ofNat v :: littleEndian n (v / 256) := by
  simp only [littleEndian, List.range_succ_eq_map, List.map_cons, List.map_map]
  refine congrArg₂ List.cons (by simp [Nat.pow]) (List.map_congr_left fun p _ => ?_)
  change UInt8.ofNat (v / 256 ^ (p + 1)) = UInt8.ofNat (v / 256 / 256 ^ p)
  rw [Nat.pow_succ', Nat.div_div_eq_div_mul]

@[simp] theorem length_littleEndian (n v : Nat) : (littleEndian n v).length = n := by
  simp [littleEndian]

theorem number_littleEndian (n v : Nat) : number (littleEndian n v) = v % 256 ^ n := by
  induction n generalizing v with
  | zero => simp [littleEndian, number, Nat.mod_one]
  | succ n ih =>
    rw [littleEndian_succ, Nat.pow_succ', Nat.mod_mul, ← ih]
    simp [number]

theorem unsigned?_littleEndian (n v : Nat) (r : Bytes) :
    unsigned? n (littleEndian n v ++ r) = some (v % 256 ^ n, r) := by
  simp [unsigned?, number_littleEndian]

/-- A number that fits into so many bits with a sign. -/
def Fits (bits : Nat) (value : Int) : Prop := -2 ^ (bits - 1) ≤ value ∧ value < 2 ^ (bits - 1)

theorem signed?_imm8 {v : Int} (fits : Fits 8 v) (r : Bytes) :
    signed? 1 (imm8 v ++ r) = some (v, r) := by
  simp only [Fits, Nat.reduceSub, Int.reducePow] at fits
  rw [signed?, imm8, unsigned?_littleEndian]
  simp [Int.bmod]
  omega

theorem signed?_imm32 {v : Int} (fits : Fits 32 v) (r : Bytes) :
    signed? 4 (imm32 v ++ r) = some (v, r) := by
  simp only [Fits, Nat.reduceSub, Int.reducePow] at fits
  rw [signed?, imm32, unsigned?_littleEndian]
  simp [Int.bmod]
  omega

end Numbers

variable {reg rm : Register}

variable {b m op high : UInt8}

theorem exists_fin (small : b < m) : ∃ n : Fin m.toNat, b = UInt8.ofNat n :=
  ⟨⟨b.toNat, UInt8.lt_iff_toNat_lt.mp small⟩, by simp⟩

theorem or_and_seven (small : reg < 16) : (if 8 ≤ reg then 8 else 0) ||| (reg &&& 7) = reg := by
  obtain ⟨n, rfl⟩ := exists_fin small
  revert n
  decide

/-- A REX byte says what the encoding of two registers leaves out. -/
structure Rex.Extends (rex : Rex) (wide : Bool) (reg rm : Register) : Prop where
  wide_eq : rex.wide = wide
  reg_eq : rex.reg (reg &&& 7) = reg
  rm_eq : rex.rm (rm &&& 7) = rm
  index_eq : rex.index 4 = 4

theorem rex_bits (wide high high' : Bool) :
    let bs : UInt8 := (if wide then 0x48 else 0x40) ||| (if high then 4 else 0) |||
      (if high' then 1 else 0)
    let rex : Rex := ⟨if bs = 0x40 then 0 else bs⟩
    bs &&& 0xF0 = 0x40 ∧ rex.wide = wide ∧ (rex.byte &&& 4) <<< 1 = (if high then 8 else 0) ∧
      (rex.byte &&& 1) <<< 3 = (if high' then 8 else 0) ∧ rex.index 4 = 4 := by
  revert wide high high'
  decide

theorem exists_bits (wide : Bool) (small : reg < 16) (small' : rm < 16) :
    ∃ bits : UInt8, rex wide reg rm = (if bits = 0x40 then [] else [bits]) ∧
      bits &&& 0xF0 = 0x40 ∧ Rex.Extends ⟨if bits = 0x40 then 0 else bits⟩ wide reg rm := by
  have bits := rex_bits wide (8 ≤ reg) (8 ≤ rm)
  simp only [decide_eq_true_eq] at bits
  obtain ⟨isRex, wide_eq, reg_eq, rm_eq, index_eq⟩ := bits
  refine ⟨_, rfl, isRex, wide_eq, ?_, ?_, index_eq⟩
  · rw [Rex.reg, reg_eq, or_and_seven small]
  · rw [Rex.rm, rm_eq, or_and_seven small']

theorem decode?_opcode (noRex : op &&& 0xF0 ≠ 0x40) (noRep : op ≠ 0xF3) (w : Bytes) :
    decode? (op :: w) = operation? {} (op :: w) := by
  rw [decode?, if_neg noRex]
  · simp [noRep]
  · simp [noRep]

theorem decode?_rex (isRex : b &&& 0xF0 = 0x40) (w : Bytes) :
    decode? (b :: w) = operation? ⟨b⟩ w := by
  have noRep : b ≠ 0xF3 := by
    rintro rfl
    exact absurd isRex (by decide)
  rw [decode?, if_pos isRex]
  · simp [noRep]
  · simp [noRep]

theorem exists_rex (wide : Bool) (small : reg < 16) (small' : rm < 16) :
    ∃ pf : Rex, pf.Extends wide reg rm ∧ ∀ op w, op &&& 0xF0 ≠ 0x40 →
      op ≠ 0xF3 → decode? (rex wide reg rm ++ op :: w) = operation? pf (op :: w) := by
  obtain ⟨bs, rex_eq, isRex, extend⟩ := exists_bits wide small small'
  refine ⟨_, extend, fun op w noRex noRep => ?_⟩
  rw [rex_eq]
  split
  · exact decode?_opcode noRex noRep w
  · exact decode?_rex isRex _

theorem and_seven (small : b < 8) : b &&& 7 = b := by
  obtain ⟨n, rfl⟩ := exists_fin small
  clear small
  revert n
  decide

theorem and_seven_lt (b : UInt8) : b &&& 7 < 8 := by
  rw [UInt8.lt_iff_toNat_lt, UInt8.toNat_and]
  exact Nat.and_lt_two_pow _ (by decide : 7 < 2 ^ 3)

theorem modrm_fields (small : m < 4) (high_eq : m <<< 6 = high) (reg rm : Register) :
    let modrm := high ||| ((reg &&& 7) <<< 3 ||| (rm &&& 7))
    modrm >>> 6 = m ∧ modrm >>> 3 &&& 7 = reg &&& 7 ∧ modrm &&& 7 = rm &&& 7 := by
  have fields : ∀ (mode : Fin 4) (reg rm : Fin 8),
      let modrm := UInt8.ofNat mode <<< 6 ||| (UInt8.ofNat reg <<< 3 ||| UInt8.ofNat rm)
      modrm >>> 6 = UInt8.ofNat mode ∧ modrm >>> 3 &&& 7 = UInt8.ofNat reg ∧
        modrm &&& 7 = UInt8.ofNat rm := by
    decide +kernel
  obtain ⟨mode, rfl⟩ := exists_fin small
  obtain ⟨n, reg_eq⟩ := exists_fin (and_seven_lt reg)
  obtain ⟨n', rm_eq⟩ := exists_fin (and_seven_lt rm)
  rw [← high_eq, reg_eq, rm_eq]
  exact fields mode n n'

section

variable {pf : Rex} (rm_eq : pf.rm (rm &&& 7) = rm) (reg : Register) (r : Bytes)
include rm_eq

theorem Rex.operand?_register :
    pf.operand? (registerOperand reg rm ++ r) = some (reg &&& 7, .register rm, r) := by
  obtain ⟨mode_eq, reg_eq, rm_eq'⟩ :=
    modrm_fields (by decide) (by decide : (3 : UInt8) <<< 6 = 0xC0) reg rm
  rw [registerOperand, UInt8.or_assoc, List.cons_append, List.nil_append]
  simp [operand?, mode_eq, reg_eq, rm_eq', rm_eq]

theorem Rex.operand?_memory (index_eq : pf.index 4 = 4) {disp : Int} (fits : Fits 32 disp) :
    pf.operand? (memoryOperand reg rm disp ++ r) = some (reg &&& 7, .memory rm disp, r) := by
  have operand {m high : UInt8} (few : m < 3) (high_eq : m <<< 6 = high) (w : Bytes) :
      pf.operand? ((high ||| ((reg &&& 7) <<< 3 ||| (rm &&& 7))) ::
        ((if rm &&& 7 = 4 then [0x24] else []) ++ w)) =
      (pf.displaced? m (rm &&& 7) w).map fun (operand, tl) =>
        (reg &&& 7, operand, tl) := by
    obtain ⟨mode_eq, reg_eq, rm_eq'⟩ := modrm_fields (UInt8.lt_trans few (by decide)) high_eq reg rm
    simp only [operand?, mode_eq, reg_eq, rm_eq', if_neg (UInt8.ne_of_lt few)]
    split
    · next isFour =>
      have fields : (0x24 : UInt8) >>> 3 &&& 7 = 4 ∧ (0x24 : UInt8) &&& 7 = 4 := by decide
      simp [fields, index_eq, isFour]
    · rfl
  unfold memoryOperand
  dsimp only
  split
  · next none =>
    have got := operand (by decide) (by decide : (0 : UInt8) <<< 6 = 0) r
    rw [UInt8.zero_or] at got
    rw [List.cons_append, got, displaced?, if_pos rfl, if_neg none.2, rm_eq, none.1]
    rfl
  split
  · next short =>
    rw [List.cons_append, List.cons_append, List.append_assoc,
      operand (by decide) (by decide : (1 : UInt8) <<< 6 = 0x40), displaced?, if_neg (by decide),
      if_pos rfl, signed?_imm8 ⟨short.1, Int.lt_add_one_of_le short.2⟩, rm_eq]
    rfl
  · rw [List.cons_append, List.cons_append, List.append_assoc,
      operand (by decide) (by decide : (2 : UInt8) <<< 6 = 0x80), displaced?, if_neg (by decide),
      if_neg (by decide), signed?_imm32 fits, rm_eq]
    rfl

end

/-- The opcodes after which an operand follows. -/
def HasOperand (opcode : UInt8) : Prop :=
  isGrouped opcode ∨ opcode ∈ [0x03, 0x09, 0x19, 0x29, 0x31, 0x39, 0x3B, 0x85, 0x89, 0x8B, 0x8D]

instance (opcode : UInt8) : Decidable (HasOperand opcode) := inferInstanceAs (Decidable (_ ∨ _))

theorem operation?_operand (pf : Rex) (w : Bytes) (hasOperand : HasOperand op) :
    op &&& 0xF0 ≠ 0x40 ∧ op ≠ 0xF3 ∧ operation? pf (op :: w) =
      (pf.operand? w).bind fun (bs, operand, r) =>
        if isGrouped op then grouped? pf op bs operand r
        else (ungrouped? pf op bs operand).map (·, r) := by
  simp only [HasOperand, isGrouped, List.mem_cons, List.not_mem_nil, or_false, decide_eq_true_eq]
    at hasOperand
  rcases hasOperand with (rfl | rfl | rfl | rfl | rfl | rfl | rfl | rfl) |
    (rfl | rfl | rfl | rfl | rfl | rfl | rfl | rfl | rfl | rfl | rfl) <;>
    exact ⟨by decide, by decide, rfl⟩

section

variable {wide : Bool} {op bs : UInt8} {disp : Int} {r : Bytes}
  {decoded : Option (Instr Nat × Bytes)}

theorem decode?_operand (small : reg < 16) (small' : rm < 16) (hasOperand : HasOperand op)
    {operand : Operand} {bytes : Bytes}
    (read : ∀ pf : Rex, pf.Extends wide reg rm → pf.operand? (bytes ++ r) = some (bs, operand, r))
    (done : ∀ pf : Rex, pf.Extends wide reg rm → (if isGrouped op then grouped? pf op bs operand r
        else (ungrouped? pf op bs operand).map (·, r)) = decoded) :
    decode? (rex wide reg rm ++ op :: (bytes ++ r)) = decoded := by
  obtain ⟨pf, extend, got⟩ := exists_rex wide small small'
  obtain ⟨noRex, noRep, operation⟩ := operation?_operand pf (bytes ++ r) hasOperand
  rw [got _ _ noRex noRep, operation, read pf extend, ← done pf extend]
  rfl

theorem decode?_withMemory (hasOperand : HasOperand op) (ungrouped : isGrouped op = false)
    (enc : reg < 16 ∧ rm < 16 ∧ Fits 32 disp) : decode? (withMemory wide [op] reg rm disp ++ r) =
      (onMemory? wide op reg rm disp).map (·, r) := by
  obtain ⟨small, small', fits⟩ := enc
  rw [withMemory, List.append_assoc, List.append_assoc, List.singleton_append]
  refine decode?_operand small small' hasOperand
    (fun _ extend => Rex.operand?_memory extend.rm_eq reg r extend.index_eq fits)
    fun pf extend => ?_
  simp only [ungrouped, ungrouped?, extend.reg_eq, extend.wide_eq]
  rfl

theorem decode?_withRegister (hasOperand : HasOperand op) (ungrouped : isGrouped op = false)
    (enc : reg < 16 ∧ rm < 16) : decode? (withRegister wide op reg rm ++ r) =
      (onRegisters? wide op reg rm).map (·, r) := by
  rw [withRegister, List.append_assoc, List.cons_append]
  refine decode?_operand enc.1 enc.2 hasOperand
    (fun _ extend => Rex.operand?_register extend.rm_eq reg r) fun pf extend => ?_
  simp only [ungrouped, ungrouped?, extend.reg_eq, extend.wide_eq]
  rfl

variable (isGroup : isGrouped op = true) (named : bs < 8) (small : rm < 16)
include isGroup named small

theorem decode?_groupedMemory (fits : Fits 32 disp)
    (grouped : ∀ pf : Rex, pf.wide = wide → grouped? pf op bs (.memory rm disp) r = decoded) :
    decode? (rex wide 0 rm ++ op :: (memoryOperand bs rm disp ++ r)) = decoded := by
  refine decode?_operand (by decide) small (.inl isGroup)
    (fun _ extend => Rex.operand?_memory extend.rm_eq bs r extend.index_eq fits)
    fun pf extend => ?_
  rw [if_pos isGroup, and_seven named, grouped pf extend.wide_eq]

theorem decode?_groupedRegister (grouped : ∀ pf : Rex, pf.wide = wide →
      grouped? pf op bs (.register rm) r = decoded) :
    decode? (rex wide 0 rm ++ op :: (registerOperand bs rm ++ r)) = decoded := by
  refine decode?_operand (by decide) small (.inl isGroup)
    (fun _ extend => Rex.operand?_register extend.rm_eq bs r) fun pf extend => ?_
  rw [if_pos isGroup, and_seven named, grouped pf extend.wide_eq]

end

theorem lowByte_bits (small : reg < 16) :
    let bs := (0x40 : UInt8) ||| reg >>> 3
    let rex : Rex := ⟨if 4 ≤ reg then bs else 0⟩
    rex.wide = false ∧ rex.rm (reg &&& 7) = reg ∧ (rex.byte ≠ 0 ∨ reg < 4) ∧
      bs &&& 0xF0 = 0x40 := by
  obtain ⟨n, rfl⟩ := exists_fin small
  clear small
  revert n
  decide

theorem decode?_lowByte {bs imm : UInt8} {r : Bytes} {decoded : Option (Instr Nat × Bytes)}
    (named : bs < 8) (small : reg < 16) (grouped : ∀ pf : Rex, pf.wide = false →
      pf.byte ≠ 0 ∨ reg < 4 → grouped? pf 0x80 bs (.register reg) (imm :: r) = decoded) :
    decode? (lowByte bs reg imm ++ r) = decoded := by
  obtain ⟨wide_eq, rm_eq, hasLowByte, isRex⟩ := lowByte_bits small
  have operation (pf : Rex) (rm_eq : pf.rm (reg &&& 7) = reg) :
      operation? pf (0x80 :: (registerOperand bs reg ++ imm :: r)) =
        grouped? pf 0x80 bs (.register reg) (imm :: r) := by
    rw [(operation?_operand pf _ (by decide)).2.2, Rex.operand?_register rm_eq, and_seven named]
    rfl
  rw [← grouped _ wide_eq hasLowByte, ← operation _ rm_eq]
  simp only [lowByte, List.append_assoc, List.cons_append, List.nil_append]
  split
  · exact decode?_rex isRex _
  · exact decode?_opcode (by decide) (by decide) _

theorem short_bits (mem : high ∈ [0x50, 0x58, 0xB8]) (reg : Register) :
    let op := high + (reg &&& 7)
    op &&& 0xF8 = high ∧ op &&& 7 = reg &&& 7 ∧ op &&& 0xF0 ≠ 0x40 ∧
      op ∉ [0x0F, 0xA9, 0xC3, 0xE8, 0xE9, 0xF3] := by
  obtain ⟨n, reg_eq⟩ := exists_fin (and_seven_lt reg)
  rw [reg_eq]
  clear reg_eq
  revert high n
  decide +kernel

theorem decode?_short (wide : Bool) (mem : high ∈ [0x50, 0x58, 0xB8])
    (small : reg < 16) (w : Bytes) :
    decode? (rex wide 0 reg ++ (high + (reg &&& 7)) :: w) = if high = 0x50 then some (.push reg, w)
      else if high = 0x58 then some (.pop reg, w)
      else if wide then (unsigned? 8 w).map (Prod.map (.movAddr reg) id)
      else (unsigned? 4 w).map (Prod.map (.movImm32 reg) id) := by
  obtain ⟨pf, extend, got⟩ := exists_rex wide (by decide : (0 : Register) < 16) small
  obtain ⟨high_eq, low_eq, noRex, plain⟩ := short_bits mem reg
  simp only [List.mem_cons, List.not_mem_nil, or_false, not_or] at plain mem
  rw [got _ _ noRex plain.2.2.2.2.2, operation?]
  · simp only [high_eq, low_eq, extend.rm_eq, extend.wide_eq]
    rcases mem with rfl | rfl | rfl <;> rfl
  all_goals simp [plain]

def Fragment.zeroed {Label : Type} : Fragment Label → Bytes
  | .bytes content => content
  | .absolute _ => imm64 0
  | .relative _ => imm32 0

namespace Instr

def Encodable : Instr Nat → Prop
  | .movLoad reg base disp | .movLoad32 reg base disp | .movStore base disp reg | .lea reg base disp
  | .lea32 reg base disp | .movzxLoad8 reg base disp | .cmpLoad reg base disp
  | .addLoad reg base disp => reg < 16 ∧ base < 16 ∧ Fits 32 disp
  | .movStoreImm base disp imm | .cmpMemImm base disp imm => base < 16 ∧ Fits 32 disp ∧ Fits 32 imm
  | .testMem8 base disp _ | .orMem8 base disp _ => base < 16 ∧ Fits 32 disp
  | .mov rm reg | .cmp rm reg | .test rm reg | .test32 rm reg | .sbb32 rm reg | .or32 rm reg
  | .xor32 rm reg | .sub rm reg => reg < 16 ∧ rm < 16
  | .movImm32 reg imm | .testImm32 reg imm => reg < 16 ∧ imm < 2 ^ 32
  | .cmpImm32 reg imm | .andImm32 reg imm => reg < 16 ∧ Fits 8 imm
  | .movAddr reg _ | .cmpImm8 reg _ | .subImm8 reg _ | .not32 reg | .shrImm reg _ | .push reg
  | .pop reg | .jmpReg reg => reg < 16
  | .jcc condition _ => condition < 16
  | .call _ | .jmp _ | .ret | .repMovsq | .repStosq => True

/-- The instruction with zero in the place of a label. -/
def unlinked : Instr Nat → Instr Nat
  | .movAddr reg _ => .movAddr reg 0
  | .call _ => .call 0
  | .jmp _ => .jmp 0
  | .jcc condition _ => .jcc condition 0
  | instr => instr

open List (append_assoc cons_append nil_append)

variable {ins : Instr Nat}

theorem foldr_bytes (bs r : Bytes) :
    [(.bytes bs : Fragment Nat)].foldr (·.zeroed ++ ·) r = bs ++ r := rfl

theorem decode?_encode (enc : ins.Encodable) (r : Bytes) :
    decode? (ins.encode.foldr (·.zeroed ++ ·) r) = some (ins.unlinked, r) := by
  have byte (imm : UInt8) : unsigned? 1 (imm :: r) = some (imm.toNat, r) := by
    simp [unsigned?, number]
  have word {imm : Nat} (small : imm < 2 ^ 32) : unsigned? 4 (imm32 imm ++ r) = some (imm, r) := by
    rw [imm32, unsigned?_littleEndian]
    simp only [Option.some.injEq, Prod.mk.injEq, and_true, Nat.pow_eq, Nat.reducePow] at small ⊢
    omega
  have place : unsigned? 4 (imm32 0 ++ r) = some (0, r) := unsigned?_littleEndian 4 0 r
  cases ins with
  | movLoad | movLoad32 | movStore | lea | lea32 | cmpLoad | addLoad =>
    exact decode?_withMemory (by decide) rfl enc
  | mov | cmp | test | test32 | sbb32 | or32 | xor32 | sub =>
    exact decode?_withRegister (by decide) rfl enc
  | movStoreImm =>
    obtain ⟨small, fits, fits'⟩ := enc
    simp only [encode, foldr_bytes, withMemory, append_assoc, cons_append, nil_append]
    refine decode?_groupedMemory (by decide) (by decide) small fits fun pf wide => ?_
    simp [grouped?, wide, signed?_imm32 fits', unlinked]
  | cmpMemImm =>
    obtain ⟨small, fits, fits'⟩ := enc
    rw [encode]
    split
    · next short =>
      simp only [foldr_bytes, append_assoc, cons_append]
      refine decode?_groupedMemory (by decide) (by decide) small fits fun pf wide => ?_
      simp [grouped?, wide, signed?_imm8 ⟨short.1, Int.lt_add_one_of_le short.2⟩, unlinked]
    · simp only [foldr_bytes, append_assoc, cons_append]
      refine decode?_groupedMemory (by decide) (by decide) small fits fun pf wide => ?_
      simp [grouped?, wide, signed?_imm32 fits', unlinked]
  | testMem8 | orMem8 =>
    obtain ⟨small, fits⟩ := enc
    simp only [encode, foldr_bytes, withMemory, append_assoc, cons_append, nil_append]
    refine decode?_groupedMemory (by decide) (by decide) small fits fun pf wide => ?_
    simp [grouped?, wide, byte, unlinked]
  | movImm32 =>
    simp only [encode, foldr_bytes, append_assoc, cons_append]
    rw [decode?_short false (by decide) enc.1, word enc.2]
    rfl
  | movAddr reg =>
    change decode? ((rex true 0 reg ++ [_]) ++ (imm64 0 ++ r)) = _
    rw [append_assoc, cons_append, nil_append, decode?_short true (by decide) enc, imm64,
      unsigned?_littleEndian]
    rfl
  | push | pop =>
    simp only [encode, foldr_bytes, append_assoc, cons_append, nil_append]
    rw [decode?_short false (by decide) enc]
    rfl
  | movzxLoad8 =>
    obtain ⟨small, small', fits⟩ := enc
    obtain ⟨pf, extend, got⟩ := exists_rex false small small'
    simp only [encode, foldr_bytes, withMemory, append_assoc, cons_append, nil_append]
    rw [got _ _ (by decide) (by decide), operation?,
      Rex.operand?_memory extend.rm_eq _ _ extend.index_eq fits]
    simp [extend.wide_eq, extend.reg_eq, unlinked]
  | testImm32 reg imm =>
    rw [encode]
    split
    · next isFirst =>
      change (unsigned? 4 (imm32 imm ++ r)).map _ = _
      rw [word enc.2, isFirst]
      rfl
    · simp only [foldr_bytes, withRegister, append_assoc, cons_append]
      refine decode?_groupedRegister (by decide) (by decide) enc.1 fun pf wide => ?_
      simp [grouped?, wide, word enc.2, unlinked]
  | cmpImm32 | andImm32 =>
    simp only [encode, foldr_bytes, lowHalf, append_assoc, cons_append]
    refine decode?_groupedRegister (by decide) (by decide) enc.1 fun pf wide => ?_
    simp [grouped?, wide, signed?_imm8 enc.2, unlinked]
  | not32 | jmpReg | shrImm =>
    simp only [encode, foldr_bytes, append_assoc, cons_append, nil_append]
    refine decode?_groupedRegister (by decide) (by decide) enc fun pf wide => ?_
    simp [grouped?, wide, byte, unlinked]
  | cmpImm8 | subImm8 =>
    refine decode?_lowByte (by decide) enc fun pf wide hasLowByte => ?_
    simp [grouped?, wide, byte, unlinked, hasLowByte]
  | call | jmp =>
    change (unsigned? 4 (imm32 0 ++ r)).map _ = _
    rw [place]
    rfl
  | jcc condition =>
    have bits : (0x80 ||| condition) &&& 0xF0 = 0x80 ∧ (0x80 ||| condition) &&& 15 = condition ∧
        0x80 ||| condition ≠ 0xB6 := by
      obtain ⟨n, rfl⟩ := exists_fin (show condition < 16 from enc)
      clear enc
      revert n
      decide
    change operation? {} (0x0F :: (0x80 ||| condition) :: (imm32 0 ++ r)) = _
    rw [operation?]
    · simp [bits, place, unlinked]
    · simp [bits]
  | ret | repMovsq | repStosq => rfl

/-- The bytes of an instruction before it is linked. -/
def zeroed (instr : Instr Nat) : Bytes := instr.encode.flatMap Fragment.zeroed

theorem decode?_zeroed (enc : ins.Encodable) (r : Bytes) :
    decode? (ins.zeroed ++ r) = some (ins.unlinked, r) := by
  have joined (fs : List (Fragment Nat)) :
      fs.flatMap Fragment.zeroed ++ r = fs.foldr (·.zeroed ++ ·) r := by
    induction fs with
    | nil => rfl
    | cons fg fs ih => rw [List.flatMap_cons, append_assoc, ih, List.foldr_cons]
  rw [zeroed, joined, decode?_encode enc]

end Instr

variable {instrs : List (Instr Nat)}

theorem disassemble?_zeroed (enc : ∀ ins ∈ instrs, ins.Encodable) {n : Nat}
    (enough : (instrs.flatMap zeroed).length ≤ n) :
    disassemble? n (instrs.flatMap zeroed) = some (instrs.map unlinked) := by
  induction instrs generalizing n with
  | nil => cases n <;> rfl
  | cons ins instrs ih =>
    have dec := decode?_zeroed (enc ins (.head _))
    rw [List.flatMap_cons] at enough ⊢
    cases front : ins.zeroed with
    | nil => simpa [front, decode?] using dec []
    | cons b f =>
      rw [front, List.cons_append, List.length_cons, List.length_append] at enough
      obtain ⟨n, rfl⟩ := Nat.exists_eq_add_one.mpr (Nat.zero_lt_of_lt enough)
      have others := ih (fun o mem => enc o (.tail _ mem)) (show _ ≤ n by omega)
      rw [List.cons_append, disassemble?, ← List.cons_append, ← front, dec, Option.bind_some]
      dsimp only
      rw [others]
      rfl

namespace Code

theorem buffer_append (c : Code) (fg : Fragment Nat) :
    (c.append fg).buffer.toList = c.buffer.toList ++ fg.zeroed := by
  cases fg <;> simp [append, appendBytes, modifyLabel, Fragment.zeroed]

theorem buffer_foldl (fs : List (Fragment Nat)) (c : Code) :
    (fs.foldl append c).buffer.toList = c.buffer.toList ++ fs.flatMap Fragment.zeroed := by
  induction fs generalizing c with
  | nil => simp
  | cons fg fs ih => simp [ih, buffer_append]

end Code

/-- Instructions that are appended to an empty buffer, whatever its labels are, are read back one
after the other from the first byte to the last, with zero where a label stands. -/
theorem disassemble?_emit (labels : Array Label) (encodable : ∀ instr ∈ instrs, instr.Encodable) :
    disassemble? (instrs.foldl Code.emit { labels }).size
        (instrs.foldl Code.emit { labels }).buffer.toList = some (instrs.map Instr.unlinked) := by
  have buffer : (instrs.foldl Code.emit { labels }).buffer.toList =
    instrs.flatMap Instr.zeroed := by
    have whole := Code.buffer_foldl (instrs.flatMap Instr.encode) { labels }
    rwa [List.foldl_flatMap, List.flatMap_assoc] at whole
  rw [buffer]
  refine disassemble?_zeroed encodable (Nat.le_of_eq ?_)
  rw [← buffer]
  rfl

/-- Operands at the borders of the forms: a base that needs an index byte or a displacement, numbers
around the short ones, a byte register that needs a REX byte, and the first register. -/
theorem disassemble?_borders :
    let instrs : List (Instr Nat) := [.movLoad 12 4 0, .lea32 0 13 0, .cmpMemImm 12 (-129) (-128),
      .cmpMemImm 5 128 128, .subImm8 6 255, .testImm32 0 (2 ^ 32 - 1), .testImm32 8 1,
        .movAddr 15 3,
      .jcc .less 7, .cmpImm32 9 (-1)]
    disassemble? (instrs.foldl Code.emit {}).size (instrs.foldl Code.emit {}).buffer.toList =
      some (instrs.map Instr.unlinked) := by
  intro instrs
  refine disassemble?_emit #[] fun instr listed => ?_
  simp only [instrs, List.mem_cons, List.not_mem_nil, or_false] at listed
  rcases listed with rfl | rfl | rfl | rfl | rfl | rfl | rfl | rfl | rfl | rfl <;>
    simp only [Instr.Encodable, Fits] <;> decide

end Rematch.Machine
