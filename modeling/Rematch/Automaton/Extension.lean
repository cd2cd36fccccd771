/-!
Extensions: instructions that a byte automaton cannot express. An extension tests one code point
for a category, or repeats a captured group. An overlay says at which instructions extensions
start; such an instruction is executed as its extensions and never as a plain byte.
-/

namespace Rematch

inductive ExtensionKind where
  | category
  | notCategory
  | backreference
  | unknown (code : Nat)
  deriving DecidableEq

namespace ExtensionKind

def ofCode : Nat → ExtensionKind
  | 0 => .category
  | 1 => .notCategory
  | 2 => .backreference
  | code => .unknown code

def code : ExtensionKind → Nat
  | .category => 0
  | .notCategory => 1
  | .backreference => 2
  | .unknown code => code

def name : ExtensionKind → String
  | .category => "category"
  | .notCategory => "notcategory"
  | .backreference => "backref"
  | .unknown code => s!"ext({code})"

def isKnown : ExtensionKind → Bool
  | .unknown _ => false
  | _ => true

end ExtensionKind

structure Extension where
  kind : ExtensionKind
  arg : Nat
  out : Int
  deriving DecidableEq

def Extension.render (ext : Extension) : String :=
  s!"{ext.kind.name} {ext.arg} -> {ext.out}"

/-- The extensions that start at each instruction, in priority order; instructions ascend. -/
abbrev Overlay := List (Int × List Extension)

namespace Overlay

def insert (pc : Int) (exts : List Extension) : Overlay → Overlay
  | [] => [(pc, exts)]
  | (other, others) :: rest =>
    if pc < other then (pc, exts) :: (other, others) :: rest
    else if pc = other then (pc, exts) :: rest
    else (other, others) :: insert pc exts rest

/-- The extensions that start at an instruction, or `none` if it is executed as itself. -/
def find? (overlay : Overlay) (pc : Nat) : Option (List Extension) :=
  overlay.lookup (pc : Int)

end Overlay

end Rematch
