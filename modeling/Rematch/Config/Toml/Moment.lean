import Rematch.Config.Moment
import Rematch.Config.Toml.Numeral

/-!
Dates and times. Which of them a text is shows in the characters it holds; whether it is a possible
one is seen afterwards.
-/

namespace Rematch.Config.Toml

structure MomentShape where
  width : Nat := 0
  hasDate : Bool := false
  hasTime : Bool := false
  hasOffset : Bool := false
  hasBlank : Bool := false

/-- The shape of the date or time at the front of a text, of which the next `skip` bytes belong to
it. A blank belongs to it when a digit follows, and so does the byte after that digit. -/
def shapeFrom : Nat → MomentShape → Bytes → MomentShape
  | _, shape, [] => shape
  | skip + 1, shape, _ :: rest => shapeFrom skip { shape with width := shape.width + 1 } rest
  | 0, shape, byte :: rest =>
    let wider := { shape with width := shape.width + 1 }
    match Bytes.char byte with
    | '-' =>
      shapeFrom 0 { wider with hasDate := true, hasOffset := shape.hasOffset || 8 ≤ shape.width }
        rest
    | 'T' | 't' | ':' | '.' => shapeFrom 0 { wider with hasTime := true } rest
    | '+' | 'Z' | 'z' => shapeFrom 0 { wider with hasOffset := true } rest
    | ' ' =>
      if !shape.hasBlank && isDigit (rest.headD 0) then
        shapeFrom 2 { wider with hasBlank := true, hasTime := true } rest
      else shape
    | _ => if isDigit byte then shapeFrom 0 wider rest else shape

def startsMoment (text : Bytes) : Bool :=
  let count := ((text.take 5).takeWhile isDigit).length
  let next := Bytes.peek (text.drop count)
  3 ≤ (text.take 3).length && ((count = 2 && next = ':') || (count = 4 && next = '-'))

def digitsValue (digits : Bytes) : Except MomentFault Nat :=
  if digits.all isDigit then .ok (Digits.decimalNumber digits) else .error .notDigit

def charAt (position : Nat) (text : Bytes) : Char := Bytes.peek (text.drop position)

def readDate (text : Bytes) : Except MomentFault Date := do
  if text.length ≠ 10 ∨ charAt 4 text ≠ '-' ∨ charAt 7 text ≠ '-' then throw .dateForm
  let year ← digitsValue (text.take 4)
  let month ← digitsValue ((text.drop 5).take 2)
  let day ← digitsValue (text.drop 8)
  let date : Date := { year, month, day }
  if date.isPossible then return date else throw .impossibleDate

def maxFraction : Nat := 9

def readFraction (text : Bytes) : Except MomentFault (String × Bytes) :=
  if Bytes.peek text = '.' then
    match (text.drop 1).span isDigit with
    | ([], []) => .error .missingFraction
    | ([], _) => .error .emptyFraction
    | (digits, rest) => .ok (String.ofList ((digits.take maxFraction).map Bytes.char), rest)
  else .ok ("", text)

def readClock (text : Bytes) : Except MomentFault (Clock × Bytes) := do
  if (text.take 8).length < 8 then throw .timeForm
  let hour ← digitsValue (text.take 2)
  if 23 < hour then throw .hour
  if charAt 2 text ≠ ':' then throw .colonAfterHours
  let minute ← digitsValue ((text.drop 3).take 2)
  if 59 < minute then throw .minutes
  if charAt 5 text ≠ ':' then throw .colonAfterMinutes
  let second ← digitsValue ((text.drop 6).take 2)
  if 59 < second then throw .seconds
  let (fraction, rest) ← readFraction (text.drop 8)
  return ({ hour, minute, second, fraction }, rest)

def readDateTime (text : Bytes) : Except MomentFault (Date × Clock × Bytes) := do
  if (text.take 11).length < 11 then throw .dateTimeForm
  let date ← readDate (text.take 10)
  if charAt 10 text ∉ ['T', 't', ' '] then throw .separator
  let (clock, rest) ← readClock (text.drop 11)
  return (date, clock, rest)

def readOffset (text : Bytes) : Except MomentFault Int := do
  if Bytes.peek text = 'Z' ∨ Bytes.peek text = 'z' then
    if (text.drop 1).isEmpty then return 0 else throw .afterOffset
  if text.length ≠ 6 then throw .offsetForm
  if !isSign (text.headD 0) then throw .offsetSign
  if charAt 3 text ≠ ':' then throw .offsetColon
  let hours ← digitsValue ((text.drop 1).take 2)
  if 23 < hours then throw .offsetHours
  let minutes ← digitsValue (text.drop 4)
  if 59 < minutes then throw .offsetMinutes
  let offset : Int := (60 * hours + minutes : Nat)
  return if Bytes.peek text = '-' then -offset else offset

def MomentShape.wording (shape : MomentShape) (text : Bytes) : Except MomentFault String := do
  match shape.hasDate, shape.hasTime, shape.hasOffset with
  | true, true, true =>
    let (date, clock, rest) ← readDateTime text
    let offset ← readOffset rest
    return Instant.render { date, clock, offset }
  | true, true, false =>
    let (date, clock, rest) ← readDateTime text
    if rest.isEmpty then return s!"{date.render}T{clock.render}" else throw .afterDateTime
  | false, true, _ =>
    let (clock, rest) ← readClock text
    if rest.isEmpty then return clock.render else throw .afterTime
  | _, false, _ => return (← readDate text).render

end Rematch.Config.Toml
