import Rematch.Machine.Instr

/-!
Code buffers: bytes, the labels in them, and the places that refer to labels. Linking copies a
buffer to a destination and fills these places; it fails without a trace if the destination is too
small or a label that is referred to has no position.
-/

namespace Rematch.Machine

structure Label where
  name : String
  offset : Option Nat := none
  /-- Where the address of the label stands, the last place first. -/
  absolute : List Nat := []
  relative : List Nat := []
  deriving Inhabited

namespace Label

def position (label : Label) : Int :=
  match label.offset with
  | some offset => offset
  | none => -1

def render (label : Label) : String :=
  if label.name = "" then s!"L@{label.position}" else label.name

def isUnresolved (label : Label) : Bool :=
  label.offset.isNone && (!label.absolute.isEmpty || !label.relative.isEmpty)

end Label

def markedTwice (label : Label) : String := s!"asm: label {label.render} marked twice"

inductive LinkError where
  | tooSmall (held needed : Nat)
  | unresolved (label : String)
  deriving DecidableEq

def LinkError.message : LinkError → String
  | .tooSmall held needed => s!"asm: destination holds {held} bytes, need {needed}"
  | .unresolved label => s!"unresolved label: {label}"

structure Code where
  buffer : Array UInt8 := #[]
  labels : Array Label := #[]

namespace Code

def size (code : Code) : Nat := code.buffer.size

variable (code : Code)

def newLabel (name : String) : Code :=
  { code with labels := code.labels.push { name } }

def modifyLabel (index : Nat) (change : Label → Label) : Code :=
  { code with labels := code.labels.modify index change }

def appendBytes (bytes : Bytes) : Code :=
  { code with buffer := bytes.foldl Array.push code.buffer }

def offset? (index : Nat) : Option Nat := code.labels[index]?.bind (·.offset)

def place (index : Nat) : Code :=
  let position := code.size
  code.modifyLabel index ({ · with offset := some position })

/-- Gives a label the current position. A label that has one already is the error. -/
def mark (index : Nat) : Except Label Code :=
  match code.labels[index]? with
  | none => .ok code
  | some label => if label.offset.isSome then .error label else .ok (code.place index)

/-- Appends a fragment; places for labels are zero until the code is linked. -/
def append (fragment : Fragment Nat) : Code :=
  let site := code.size
  match fragment with
  | .bytes bytes => code.appendBytes bytes
  | .absolute index =>
    (code.modifyLabel index fun label =>
      { label with absolute := site :: label.absolute }).appendBytes (imm64 0)
  | .relative index =>
    (code.modifyLabel index fun label =>
      { label with relative := site :: label.relative }).appendBytes (imm32 0)

def emit (instr : Instr Nat) : Code := instr.encode.foldl append code

def patch (target : Array UInt8) (position : Nat) : Bytes → Array UInt8
  | [] => target
  | byte :: rest => patch (target.setIfInBounds position byte) (position + 1) rest

def resolve (base : Nat) (target : Array UInt8) (label : Label) : Array UInt8 :=
  let offset := label.offset.getD 0
  let target := label.absolute.foldl (fun target site => patch target site (imm64 (base + offset)))
    target
  label.relative.foldl
    (fun target site => patch target site (imm32 ((offset : Int) - site - 4))) target

/-- Copies the code to the front of a destination and fills the places for labels, for code that is
loaded at `base`. -/
def linkInto (base : Nat) : EStateM LinkError (Array UInt8) Unit := do
  let held := (← get).size
  if held < code.size then throw (.tooSmall held code.size)
  if let some label := code.labels.find? Label.isUnresolved then throw (.unresolved label.render)
  modify fun destination => code.buffer ++ destination.extract code.size destination.size
  modify fun copied => code.labels.foldl (resolve base) copied

/-- The destination after linking. -/
def link (destination : Array UInt8) (base : Nat) :
    Except LinkError (Array UInt8) :=
  match (code.linkInto base).run destination with
  | .ok () linked => .ok linked
  | .error error _ => .error error

end Code

end Rematch.Machine
