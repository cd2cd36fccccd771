import Rematch.Automaton.Basic
import Rematch.Extension.Codec

/-!
Recovery of extensions from an automaton. An encoded extension is a byte range of exactly F3, then
one of exactly B0, then alternatives of continuation byte ranges for the last two bytes. Where
every path through such a subgraph decodes to an extension, the extensions replace it; otherwise it
keeps its plain byte meaning.
-/

namespace Rematch.Recovery

def maxSteps : Nat := 16384

def isByte (inst : Inst) (byte : UInt8) : Bool :=
  inst.op = .byteRange && inst.lo = byte && inst.hi = byte && !inst.fold

def continues (byte : UInt8) : Bool := byte &&& 0xC0 == 0x80

inductive Stop where
  /-- The subgraph holds something that is no extension. -/
  | plain
  | outside
  deriving DecidableEq

/-- The extensions found so far, the last one first, and how many instructions may still be
visited. -/
structure Progress where
  steps : Nat
  found : List Extension

def bytesOf (inst : Inst) : List Nat :=
  (List.range' inst.lo.toNat (inst.hi.toNat + 1 - inst.lo.toNat))

/-- Decodes the fourth bytes of a range after the twelve bits `bits` of the bytes before. -/
def decodeLast (inst : Inst) (bits : Nat) : List Nat → List Extension → Except Stop (List Extension)
  | [], found => .ok found
  | byte :: rest, found =>
    match Codec.decode? (Codec.reservedLo ||| (bits * 64 + byte % 64)) with
    | some (kind, arg) =>
      if Codec.validArg kind arg then decodeLast inst bits rest (⟨kind, arg, inst.out⟩ :: found)
      else .error .plain
    | none => .error .plain

def forBytes (walk : Nat → Progress → Except Stop Progress) :
    List Nat → Progress → Except Stop Progress
  | [], progress => .ok progress
  | byte :: rest, progress =>
    match walk byte progress with
    | .ok progress => forBytes walk rest progress
    | .error stop => .error stop

/-- Walks over the alternatives from an instruction on to plain ranges of continuation bytes, which
`read` takes. Each instruction visited takes one of the `fuel` steps, which are as many as may still
be visited. -/
def walk (automaton : Automaton) (read : Inst → Progress → Except Stop Progress) :
    Nat → Int → Progress → Except Stop Progress
  | 0, _, _ => .error .plain
  | fuel + 1, pc, progress =>
    if progress.steps = 0 then .error .plain
    else
      let progress := { progress with steps := progress.steps - 1 }
      match automaton.inst? pc with
      | none => .error .outside
      | some inst =>
        match inst.op with
        | .alt | .altMatch =>
          match walk automaton read fuel inst.out progress with
          | .ok progress => walk automaton read fuel inst.out1 progress
          | .error stop => .error stop
        | .byteRange =>
          if inst.fold || !continues inst.lo || !continues inst.hi then .error .plain
          else read inst progress
        | _ => .error .plain

def readLast (bits : Nat) (inst : Inst) (progress : Progress) : Except Stop Progress :=
  (decodeLast inst bits (bytesOf inst) progress.found).map fun found => { progress with found }

def readThird (automaton : Automaton) (inst : Inst) : Progress → Except Stop Progress :=
  forBytes (fun byte => walk automaton (readLast (byte % 64)) maxSteps inst.out) (bytesOf inst)

def extensionsAt (automaton : Automaton) (inst : Inst) : Except Stop (List Extension) :=
  if isByte inst 0xF3 then
    match automaton.inst? inst.out with
    | none => .error .outside
    | some second =>
      if isByte second 0xB0 then
        match walk automaton (readThird automaton) maxSteps second.out ⟨maxSteps, []⟩ with
        | .ok progress =>
          if progress.found.isEmpty then .error .plain else .ok progress.found.reverse
        | .error stop => .error stop
      else .error .plain
  else .error .plain

def overlayFrom? (automaton : Automaton) : Nat → List Inst → Option Overlay
  | _, [] => some []
  | pc, inst :: rest =>
    match extensionsAt automaton inst with
    | .error .outside => none
    | .error .plain => overlayFrom? automaton (pc + 1) rest
    | .ok exts => (overlayFrom? automaton (pc + 1) rest).map (((pc : Int), exts) :: ·)

/-- Every extension encoded in an automaton; `none` if a walk leaves the automaton, which a valid
one does not allow. -/
def overlay? (automaton : Automaton) : Option Overlay :=
  overlayFrom? automaton 0 automaton.insts.toList

def overlay (automaton : Automaton) : Overlay := (overlay? automaton).getD []

end Rematch.Recovery
