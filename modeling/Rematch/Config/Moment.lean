import Rematch.Text.Digits

/-!
Days of the calendar, times of day and instants, and how they are written.
-/

namespace Rematch.Config

def twoDigits (number : Nat) : String := Digits.padLeft '0' 2 (toString number)

structure Date where
  year : Nat
  month : Nat
  day : Nat

namespace Date

def isLeap (year : Nat) : Bool := year % 4 = 0 && (year % 100 ≠ 0 || year % 400 = 0)

def daysIn (year month : Nat) : Nat :=
  if month = 2 then if isLeap year then 29 else 28
  else if month ∈ [4, 6, 9, 11] then 30
  else 31

def isPossible (date : Date) : Bool :=
  1 ≤ date.month && date.month ≤ 12 && 1 ≤ date.day && date.day ≤ daysIn date.year date.month

def render (date : Date) : String :=
  let year := Digits.padLeft '0' 4 (toString date.year)
  s!"{year}-{twoDigits date.month}-{twoDigits date.day}"

end Date

structure Clock where
  hour : Nat
  minute : Nat
  second : Nat
  fraction : String := ""

namespace Clock

def renderWith (clock : Clock) (fraction : String) : String :=
  s!"{twoDigits clock.hour}:{twoDigits clock.minute}:{twoDigits clock.second}" ++
    if fraction.isEmpty then "" else "." ++ fraction

def render (clock : Clock) : String := clock.renderWith clock.fraction

def shortFraction (clock : Clock) : String :=
  String.ofList (clock.fraction.toList.reverse.dropWhile (· = '0')).reverse

end Clock

structure Instant where
  date : Date
  clock : Clock
  offset : Int

namespace Instant

def renderOffset (instant : Instant) : String :=
  let minutes := instant.offset.natAbs
  (if instant.offset < 0 then "-" else "+") ++ twoDigits (minutes / 60) ++
    twoDigits (minutes % 60)

/-- A moment with its offset and the name of its zone, for which the offset stands if there is
none. -/
def render (instant : Instant) : String :=
  let time := instant.clock.renderWith instant.clock.shortFraction
  let zone := if instant.offset = 0 then "UTC" else instant.renderOffset
  s!"{instant.date.render} {time} {instant.renderOffset} {zone}"

end Instant

end Rematch.Config
