import Rematch.Text.Digits

/-!
Instructions of a byte automaton. The opcode decides which fields of an instruction count: both
exits for the alternatives, the byte bounds and the case flag for a byte range, the argument for a
capture slot or a set of conditions.
-/

namespace Rematch

inductive Opcode where
  | fail
  | alt
  | altMatch
  | byteRange
  | capture
  | emptyWidth
  | nop
  | accept
  | unknown (code : Nat)
  deriving DecidableEq

namespace Opcode

def ofCode : Nat → Opcode
  | 0 => .fail
  | 1 => .alt
  | 2 => .altMatch
  | 3 => .byteRange
  | 4 => .capture
  | 5 => .emptyWidth
  | 6 => .nop
  | 7 => .accept
  | code => .unknown code

def name : Opcode → String
  | .fail => "fail"
  | .alt => "alt"
  | .altMatch => "altmatch"
  | .byteRange => "byte"
  | .capture => "cap"
  | .emptyWidth => "empty"
  | .nop => "nop"
  | .accept => "match"
  | .unknown code => s!"op({code})"

end Opcode

/-- An instruction. Exits are written as they were given and may point nowhere. -/
structure Inst where
  op : Opcode := .fail
  out : Int := 0
  out1 : Int := 0
  lo : UInt8 := 0
  hi : UInt8 := 0
  fold : Bool := false
  arg : Nat := 0
  deriving DecidableEq, Inhabited

namespace Inst

def lowerCase (byte : UInt8) : UInt8 :=
  if 0x41 ≤ byte && byte ≤ 0x5A then byte + 0x20 else byte

def accepts (inst : Inst) (byte : UInt8) : Bool :=
  let seen := if inst.fold then lowerCase byte else byte
  inst.lo ≤ seen && seen ≤ inst.hi

def render (inst : Inst) : String :=
  match inst.op with
  | .alt | .altMatch => s!"{inst.op.name} -> {inst.out}, {inst.out1}"
  | .byteRange =>
    let case := if inst.fold then "/i" else ""
    let low := Digits.hexPadded 2 inst.lo.toNat
    let high := Digits.hexPadded 2 inst.hi.toNat
    if inst.lo = inst.hi then s!"byte {low}{case} -> {inst.out}"
    else s!"byte [{low}-{high}]{case} -> {inst.out}"
  | .capture => s!"cap {inst.arg} -> {inst.out}"
  | .emptyWidth =>
    let bits := Digits.hex inst.arg
    s!"empty 0x{bits} -> {inst.out}"
  | .nop => s!"nop -> {inst.out}"
  | op => op.name

def acceptedIntervals (inst : Inst) : List (Nat × Nat) :=
  let accepted := (List.range 256).filter fun byte => inst.accepts (UInt8.ofNat byte)
  (accepted.foldl (fun intervals byte =>
    match intervals with
    | (lo, hi) :: rest => if hi + 1 = byte then (lo, byte) :: rest else (byte, byte) :: intervals
    | [] => [(byte, byte)]) []).reverse

end Inst

end Rematch
