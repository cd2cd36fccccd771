/-!
Spans of code points. A set of code points is a list of spans. Tables keep them packed into
hexadecimal digits, each number with a leading one that does not count: a span is how far it begins
after the least place left and how far it reaches, both in digits of three bits, where eight is
added to every digit that is not the last. A number that begins with a zero says how often what
comes before it is repeated.
-/

namespace Rematch.Unicode

def maxCode : Nat := 0x10FFFF

structure Span where
  lo : Nat
  hi : Nat
  deriving DecidableEq

namespace Span

def contains (span : Span) (code : Nat) : Bool := span.lo ≤ code && code ≤ span.hi

/-- Takes up to `count` digits off the low end of a packed number, in front of those after it. -/
def digits : Nat → Nat → List Nat → List Nat
  | 0, _, after => after
  | count + 1, packed, after =>
    if packed ≤ 1 then after else digits count (packed / 16) (packed % 16 :: after)

/-- Reads numbers, of which the first begins with `value`, and whether each begins with a zero. -/
def numbers : Bool → Nat → List Nat → List (Bool × Nat)
  | _, _, [] => []
  | isCount, value, digit :: rest =>
    if digit < 8 then (isCount, 8 * value + digit) :: numbers false 0 rest
    else numbers (isCount || value = 0 && digit = 8) (8 * value + (digit - 8)) rest

def repeated : List (Bool × Nat) → List Nat
  | (_, distance) :: (_, length) :: (true, count) :: rest =>
    (List.replicate (count + 1) [distance, length]).flatten ++ repeated rest
  | (_, number) :: rest => number :: repeated rest
  | [] => []

/-- Reads spans, where `left` is the least place that is left after a span. -/
def read (left : Span → Nat) : Nat → List Nat → List Span
  | next, distance :: length :: rest =>
    let span : Span := ⟨next + distance, next + distance + length⟩
    span :: read left (left span) rest
  | _, _ => []

def unpackWith (left : Span → Nat) (table : List Nat) : List Span :=
  read left 0 (repeated (numbers false 0 (table.flatMap fun packed => digits 100 packed [])))

def unpack (table : List Nat) : List Span := unpackWith (·.hi + 2) table

end Span

end Rematch.Unicode
