import RustLua.Bytes.Ascii

/-!
Timestamps: a date with four digits for the year, alone, or with a time behind a
`T` and a zone, or with a time behind blanks and no zone. Months, days, hours,
minutes and seconds take one digit or two.
-/

namespace RustLua.Yaml.Timestamp

/-- A number of one digit or two, and what stands behind it. -/
def shortNumber? : Bytes → Option (Nat × Bytes)
  | a :: b :: rest =>
    if Ascii.isDigit a then
      if Ascii.isDigit b then some ((a.toNat - 48) * 10 + (b.toNat - 48), rest)
      else some (a.toNat - 48, b :: rest)
    else none
  | [a] => if Ascii.isDigit a then some (a.toNat - 48, []) else none
  | [] => none

/-- What stands behind a byte. -/
def after? (b : UInt8) : Bytes → Option Bytes
  | c :: rest => if c = b then some rest else none
  | [] => none

def daysInMonth (year month : Nat) : Nat :=
  if month = 2 then
    if year % 4 = 0 ∧ (year % 100 ≠ 0 ∨ year % 400 = 0) then 29 else 28
  else if month = 4 ∨ month = 6 ∨ month = 9 ∨ month = 11 then 30
  else 31

/-- What stands behind a date. -/
def afterDate? (text : Bytes) : Option Bytes := do
  let digits := text.takeWhile Ascii.isDigit
  guard (digits.length = 4)
  let year ← Bytes.digitsValue? 10 digits
  let (month, rest) ← shortNumber? (← after? Ascii.minus (text.drop 4))
  let (day, rest) ← shortNumber? (← after? Ascii.minus rest)
  guard (1 ≤ month ∧ month ≤ 12 ∧ 1 ≤ day ∧ day ≤ daysInMonth year month)
  return rest

/-- What stands behind the fraction of a second, which need not be there. -/
def afterFraction : Bytes → Bytes
  | point :: digit :: rest =>
    if (point = Ascii.dot ∨ point = Ascii.comma) ∧ Ascii.isDigit digit then
      rest.dropWhile Ascii.isDigit
    else point :: digit :: rest
  | text => text

/-- What stands behind a time. -/
def afterTime? (text : Bytes) : Option Bytes := do
  let (hour, rest) ← shortNumber? text
  let (minute, rest) ← shortNumber? (← after? Ascii.colon rest)
  let (second, rest) ← shortNumber? (← after? Ascii.colon rest)
  guard (hour < 24 ∧ minute < 60 ∧ second < 60)
  return afterFraction rest

/-- `Z`, or a sign and an offset of two digits for the hours and two for the minutes. -/
def isZone : Bytes → Bool
  | [b] => b = Bytes.ofAscii 'Z'
  | [sign, h, h', colon, m, m'] =>
    match Bytes.digitsValue? 10 [h, h'], Bytes.digitsValue? 10 [m, m'] with
    | some hours, some minutes =>
      (sign = Ascii.plus || sign = Ascii.minus) && colon = Ascii.colon && hours ≤ 24 &&
        minutes ≤ 60
    | _, _ => false
  | _ => false

end Timestamp

open Timestamp in
def isTimestamp (text : Bytes) : Bool :=
  match afterDate? text with
  | none => false
  | some [] => true
  | some (b :: rest) =>
    if b = Bytes.ofAscii 'T' ∨ b = Bytes.ofAscii 't' then
      match afterTime? rest with
      | some zone => isZone zone
      | none => false
    else if b = Ascii.blank then
      afterTime? (rest.dropWhile (· == Ascii.blank)) == some []
    else false

end RustLua.Yaml
