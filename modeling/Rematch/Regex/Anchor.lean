import Rematch.Text.Quoted

/-!
Anchors: where in a text a match has to begin and to end.
-/

namespace Rematch

inductive Anchor where
  | none
  | start
  | both
  deriving DecidableEq

namespace Anchor

def all : List Anchor := [.none, .start, .both]

def number : Anchor → Nat
  | .none => 0
  | .start => 1
  | .both => 2

/-- The anchor with a number. A number without one anchors nothing. -/
def ofNumber : Int → Anchor
  | 1 => .start
  | 2 => .both
  | _ => .none

def name : Anchor → String
  | .none => "none"
  | .start => "start"
  | .both => "both"

def ofName? (name : Bytes) : Option Anchor :=
  if name.isEmpty then some .none
  else all.find? fun anchor => Bytes.ofString anchor.name == name

def unknown (name : Bytes) : String := s!"unknown anchor {Quoted.encode name}"

/-- The flags of a search: bit 0 anchors to the begin, bit 1 to the end. -/
def flags : Anchor → Nat
  | .none => 0
  | .start => 1
  | .both => 3

end Anchor

end Rematch
