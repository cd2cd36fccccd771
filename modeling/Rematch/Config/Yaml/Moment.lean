import Rematch.Config.Moment
import Rematch.Text.Bytes

/-!
Dates, alone or with a time of day. A time that a blank divides from its date is universal time.
-/

namespace Rematch.Config.Yaml

def shortNumber? (text : Bytes) : Option (Nat × Bytes) :=
  let digits := (text.take 2).takeWhile fun byte => (Digits.decimalValue? byte).isSome
  if digits.isEmpty then none
  else some (Digits.decimalNumber digits, text.drop digits.length)

def after? (char : Char) (text : Bytes) : Option Bytes :=
  if Bytes.peek text = char then some (text.drop 1) else none

def date? (text : Bytes) : Option (Date × Bytes) := do
  let year := text.takeWhile fun byte => (Digits.decimalValue? byte).isSome
  if year.length ≠ 4 then none
  else
    let (month, rest) ← shortNumber? (← after? '-' (text.drop 4))
    let (day, rest) ← shortNumber? (← after? '-' rest)
    let date : Date := { year := Digits.decimalNumber year, month, day }
    if date.isPossible then some (date, rest) else none

def fractionDigits : Nat := 9

def fraction (text : Bytes) : String × Bytes :=
  let digits := (text.drop 1).takeWhile fun byte => (Digits.decimalValue? byte).isSome
  if (Bytes.peek text = '.' ∨ Bytes.peek text = ',') ∧ !digits.isEmpty then
    (String.ofList ((digits.take fractionDigits).map Bytes.char), text.drop (digits.length + 1))
  else ("", text)

def clock? (text : Bytes) : Option (Clock × Bytes) := do
  let (hour, rest) ← shortNumber? text
  let (minute, rest) ← shortNumber? (← after? ':' rest)
  let (second, rest) ← shortNumber? (← after? ':' rest)
  let (fraction, rest) := fraction rest
  if hour < 24 ∧ minute < 60 ∧ second < 60 then some ({ hour, minute, second, fraction }, rest)
  else none

def offset? (text : Bytes) : Option Int :=
  if text = Bytes.ofString "Z" then some 0
  else
    match text.map Digits.decimalValue? with
    | [none, some hourTens, some hourOnes, none, some minuteTens, some minuteOnes] =>
      let hours := 10 * hourTens + hourOnes
      let minutes := 10 * minuteTens + minuteOnes
      let offset : Int := (60 * hours + minutes : Nat)
      if 24 < hours ∨ 60 < minutes ∨ Bytes.peek (text.drop 3) ≠ ':' then none
      else if Bytes.peek text = '+' then some offset
      else if Bytes.peek text = '-' then some (-offset)
      else none
    | _ => none

def instant? (text : Bytes) : Option Instant := do
  let (date, rest) ← date? text
  match Bytes.peek rest with
  | 'T' | 't' =>
    let (clock, rest) ← clock? (rest.drop 1)
    return { date, clock, offset := ← offset? rest }
  | ' ' =>
    let (clock, rest) ← clock? (rest.dropWhile (· = 0x20))
    if rest.isEmpty then some { date, clock, offset := 0 } else none
  | _ =>
    let clock : Clock := { hour := 0, minute := 0, second := 0 }
    if rest.isEmpty then some { date, clock, offset := 0 } else none

end Rematch.Config.Yaml
