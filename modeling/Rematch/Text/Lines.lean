import Rematch.Text.Bytes

/-!
Lines of a text. A line ends before a line feed, and a carriage return before it does not count.
-/

namespace Rematch.Lines

def dropReturn (line : Bytes) : Bytes := if line.getLast? = some 0x0D then line.dropLast else line

/-- The lines of a text, the first of which began with the given bytes in reverse. An empty text
after the last line feed is no line. -/
def splitFrom : Bytes → Bytes → List Bytes
  | begun, [] => if begun.isEmpty then [] else [begun.reverse]
  | begun, byte :: rest =>
    if byte = 0x0A then begun.reverse :: splitFrom [] rest else splitFrom (byte :: begun) rest

def splitRaw (text : Bytes) : List Bytes := splitFrom [] text

/-- The lines of a text, each of which ends before a carriage return, a line feed or both. The first
one began with the given bytes in reverse, and `afterReturn` says that a carriage return comes
before. -/
def splitAnyFrom (afterReturn : Bool) : Bytes → Bytes → List Bytes
  | begun, [] => if begun.isEmpty then [] else [begun.reverse]
  | begun, byte :: rest =>
    if byte = 0x0A then
      if afterReturn then splitAnyFrom false [] rest
      else begun.reverse :: splitAnyFrom false [] rest
    else if byte = 0x0D then begun.reverse :: splitAnyFrom true [] rest
    else splitAnyFrom false (byte :: begun) rest

def splitAny (text : Bytes) : List Bytes := splitAnyFrom false [] text

def maxWidth : Nat := 65535

def tooLong : String := "bufio.Scanner: token too long"

def fitting (lines : List Bytes) : List Bytes × Bool :=
  let fitting := lines.takeWhile (·.length ≤ maxWidth)
  (fitting, fitting.length < lines.length)

end Rematch.Lines
