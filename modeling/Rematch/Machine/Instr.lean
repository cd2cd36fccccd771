import Rematch.Text.Bytes

/-!
Machine instructions of the x86-64 subset that closures are compiled to, and their encoding. An
encoding is a list of fragments: bytes that are known at once, and places for the address of a
label or the distance to it. Registers and condition codes are numbers; of a register beyond the
sixteenth only the low bits are encoded.
-/

namespace Rematch.Machine

abbrev Register := UInt8

namespace Register

def rax : Register := 0
def rcx : Register := 1
def rdx : Register := 2
def rsp : Register := 4
def rsi : Register := 6
def rdi : Register := 7
def r8 : Register := 8
def r9 : Register := 9
def r10 : Register := 10

end Register

abbrev Condition := UInt8

namespace Condition

def below : Condition := 0x2

def equal : Condition := 0x4

def notEqual : Condition := 0x5

def belowOrEqual : Condition := 0x6

def above : Condition := 0x7

def sign : Condition := 0x8

def less : Condition := 0xC

end Condition

inductive Fragment (Label : Type) where
  | bytes (bytes : Bytes)
  /-- The eight bytes of the address of a label. -/
  | absolute (label : Label)
  /-- The four bytes of the distance from the end of the place to a label. -/
  | relative (label : Label)

def Fragment.map {α β : Type} (rename : α → β) : Fragment α → Fragment β
  | .bytes content => .bytes content
  | .absolute label => .absolute (rename label)
  | .relative label => .relative (rename label)

def littleEndian (count : Nat) (number : Nat) : Bytes :=
  (List.range count).map fun position => UInt8.ofNat (number / Nat.pow 256 position)

def imm8 (value : Int) : Bytes := littleEndian 1 (value % 256).toNat

def imm32 (value : Int) : Bytes := littleEndian 4 (value % Nat.pow 2 32).toNat

def imm64 (value : Nat) : Bytes := littleEndian 8 (value % Nat.pow 2 64)

def wrap32 (value : Int) : Int := Int.bmod value (Nat.pow 2 32)

/-- The REX byte where one is needed: for 64-bit operands and for the upper eight registers. -/
def rex (wide : Bool) (reg base : Register) : Bytes :=
  let bits : UInt8 :=
    (if wide then 0x48 else 0x40) ||| (if 8 ≤ reg then 0x04 else 0) |||
      (if 8 ≤ base then 0x01 else 0)
  if bits = 0x40 then [] else [bits]

def registerOperand (reg rm : Register) : Bytes :=
  [(0xC0 : UInt8) ||| (reg &&& 7) <<< 3 ||| (rm &&& 7)]

/-- The operand bytes for a register and a memory operand, with the shortest displacement. -/
def memoryOperand (reg base : Register) (disp : Int) : Bytes :=
  let operand := (reg &&& 7) <<< 3 ||| (base &&& 7)
  let index : Bytes := if base &&& 7 = 4 then [0x24] else []
  if disp = 0 ∧ base &&& 7 ≠ 5 then operand :: index
  else if -128 ≤ disp ∧ disp ≤ 127 then (0x40 ||| operand) :: index ++ imm8 disp
  else (0x80 ||| operand) :: index ++ imm32 disp

/-- A machine instruction; operands stand in the order destination, source. -/
inductive Instr (Label : Type) where
  | movLoad (dst base : Register) (disp : Int)
  | movLoad32 (dst base : Register) (disp : Int)
  | movStore (base : Register) (disp : Int) (src : Register)
  | movStoreImm (base : Register) (disp imm : Int)
  | mov (dst src : Register)
  | movImm32 (dst : Register) (imm : Nat)
  | movAddr (dst : Register) (label : Label)
  | lea (dst base : Register) (disp : Int)
  | lea32 (dst base : Register) (disp : Int)
  | movzxLoad8 (dst base : Register) (disp : Int)
  | cmpMemImm (base : Register) (disp imm : Int)
  | cmpLoad (reg base : Register) (disp : Int)
  | cmp (left right : Register)
  | test (left right : Register)
  | test32 (left right : Register)
  | testImm32 (reg : Register) (imm : Nat)
  | testMem8 (base : Register) (disp : Int) (imm : UInt8)
  | orMem8 (base : Register) (disp : Int) (imm : UInt8)
  | cmpImm8 (reg : Register) (imm : UInt8)
  | subImm8 (reg : Register) (imm : UInt8)
  | cmpImm32 (reg : Register) (imm : Int)
  | andImm32 (reg : Register) (imm : Int)
  | sbb32 (dst src : Register)
  | or32 (dst src : Register)
  | xor32 (dst src : Register)
  | not32 (reg : Register)
  | sub (dst src : Register)
  | addLoad (dst base : Register) (disp : Int)
  | shrImm (reg : Register) (imm : UInt8)
  | push (reg : Register)
  | pop (reg : Register)
  | call (label : Label)
  | jmp (label : Label)
  | jcc (condition : Condition) (label : Label)
  | jmpReg (reg : Register)
  | ret
  | repMovsq
  | repStosq

namespace Instr

def withMemory (wide : Bool) (opcode : Bytes) (reg base : Register) (disp : Int) : Bytes :=
  rex wide reg base ++ opcode ++ memoryOperand reg base disp

def withRegister (wide : Bool) (opcode : UInt8) (reg rm : Register) : Bytes :=
  rex wide reg rm ++ opcode :: registerOperand reg rm

/-- An operation on the low byte of a register with an immediate byte. From the fifth register on
the low byte needs a REX byte. -/
def lowByte (extension : Register) (reg : Register) (imm : UInt8) : Bytes :=
  (if 4 ≤ reg then [(0x40 : UInt8) ||| reg >>> 3] else []) ++
    0x80 :: registerOperand extension reg ++ [imm]

def lowHalf (extension : Register) (reg : Register) (imm : Int) : Bytes :=
  rex false 0 reg ++ 0x83 :: registerOperand extension reg ++ imm8 imm

def encode {Label : Type} : Instr Label → List (Fragment Label)
  | .movLoad dst base disp => [.bytes (withMemory true [0x8B] dst base disp)]
  | .movLoad32 dst base disp => [.bytes (withMemory false [0x8B] dst base disp)]
  | .movStore base disp src => [.bytes (withMemory true [0x89] src base disp)]
  | .movStoreImm base disp imm => [.bytes (withMemory true [0xC7] 0 base disp ++ imm32 imm)]
  | .mov dst src => [.bytes (withRegister true 0x89 src dst)]
  | .movImm32 dst imm => [.bytes (rex false 0 dst ++ (0xB8 + (dst &&& 7)) :: imm32 imm)]
  | .movAddr dst label => [.bytes (rex true 0 dst ++ [0xB8 + (dst &&& 7)]), .absolute label]
  | .lea dst base disp => [.bytes (withMemory true [0x8D] dst base disp)]
  | .lea32 dst base disp => [.bytes (withMemory false [0x8D] dst base disp)]
  | .movzxLoad8 dst base disp => [.bytes (withMemory false [0x0F, 0xB6] dst base disp)]
  | .cmpMemImm base disp imm =>
    if -128 ≤ imm ∧ imm ≤ 127 then
      [.bytes (rex true 0 base ++ 0x83 :: memoryOperand 7 base disp ++ imm8 imm)]
    else [.bytes (rex true 0 base ++ 0x81 :: memoryOperand 7 base disp ++ imm32 imm)]
  | .cmpLoad reg base disp => [.bytes (withMemory true [0x3B] reg base disp)]
  | .cmp left right => [.bytes (withRegister true 0x39 right left)]
  | .test left right => [.bytes (withRegister true 0x85 right left)]
  | .test32 left right => [.bytes (withRegister false 0x85 right left)]
  | .testImm32 reg imm =>
    if reg = 0 then [.bytes (0xA9 :: imm32 imm)]
    else [.bytes (withRegister false 0xF7 0 reg ++ imm32 imm)]
  | .testMem8 base disp imm => [.bytes (withMemory false [0xF6] 0 base disp ++ [imm])]
  | .orMem8 base disp imm =>
    [.bytes (rex false 0 base ++ 0x80 :: memoryOperand 1 base disp ++ [imm])]
  | .cmpImm8 reg imm => [.bytes (lowByte 7 reg imm)]
  | .subImm8 reg imm => [.bytes (lowByte 5 reg imm)]
  | .cmpImm32 reg imm => [.bytes (lowHalf 7 reg imm)]
  | .andImm32 reg imm => [.bytes (lowHalf 4 reg imm)]
  | .sbb32 dst src => [.bytes (withRegister false 0x19 src dst)]
  | .or32 dst src => [.bytes (withRegister false 0x09 src dst)]
  | .xor32 dst src => [.bytes (withRegister false 0x31 src dst)]
  | .not32 reg => [.bytes (rex false 0 reg ++ 0xF7 :: registerOperand 2 reg)]
  | .sub dst src => [.bytes (withRegister true 0x29 src dst)]
  | .addLoad dst base disp => [.bytes (withMemory true [0x03] dst base disp)]
  | .shrImm reg imm => [.bytes (rex true 0 reg ++ 0xC1 :: registerOperand 5 reg ++ [imm])]
  | .push reg => [.bytes (rex false 0 reg ++ [0x50 + (reg &&& 7)])]
  | .pop reg => [.bytes (rex false 0 reg ++ [0x58 + (reg &&& 7)])]
  | .call label => [.bytes [0xE8], .relative label]
  | .jmp label => [.bytes [0xE9], .relative label]
  | .jcc condition label => [.bytes [0x0F, 0x80 ||| condition], .relative label]
  | .jmpReg reg => [.bytes (rex false 0 reg ++ 0xFF :: registerOperand 4 reg)]
  | .ret => [.bytes [0xC3]]
  | .repMovsq => [.bytes [0xF3, 0x48, 0xA5]]
  | .repStosq => [.bytes [0xF3, 0x48, 0xAB]]

end Instr

end Rematch.Machine
