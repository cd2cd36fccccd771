/-!
Zero-width conditions. A set of conditions is a number whose bits are the conditions: the begin and
the end of a line, the begin and the end of the text, a word boundary and its absence.
-/

namespace Rematch.Condition

def beginLine : Nat := 1

def endLine : Nat := 2

def beginText : Nat := 4

def endText : Nat := 8

def wordBoundary : Nat := 16

def noWordBoundary : Nat := 32

def isWordByte (byte : UInt8) : Bool :=
  (0x61 ≤ byte && byte ≤ 0x7A) || (0x41 ≤ byte && byte ≤ 0x5A) ||
    (0x30 ≤ byte && byte ≤ 0x39) || byte == 0x5F

def isWordSide (neighbour : Option UInt8) : Bool := neighbour.any isWordByte

def opening : Option UInt8 → Nat
  | none => beginText + beginLine
  | some byte => if byte == 0x0A then beginLine else 0

def closing : Option UInt8 → Nat
  | none => endText + endLine
  | some byte => if byte == 0x0A then endLine else 0

def between (before after : Option UInt8) : Nat :=
  opening before + closing after +
    if isWordSide before != isWordSide after then wordBoundary else noWordBoundary

def holdingAt (text : Array UInt8) (offset : Nat) : Nat :=
  between (if offset = 0 then none else text[offset - 1]?) text[offset]?

/-- Whether every required condition holds; only the low eight bits are required. -/
def satisfied (required holding : Nat) : Bool :=
  (required % 256) &&& holding == required % 256

end Rematch.Condition
