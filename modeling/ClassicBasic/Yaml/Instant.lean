import ClassicBasic.Yaml.Numeral

/-!
# Dates and times of a settings file

A date is a year of four digits, a month and a day. A time of day may follow: behind one of the
letters `T` and `t` with a zone, behind blanks without one.
-/

set_option autoImplicit false

namespace ClassicBasic.Yaml.Instant

def monthDays (year month : Nat) : Nat :=
  if month = 2 then (if year % 4 = 0 ∧ (year % 100 ≠ 0 ∨ year % 400 = 0) then 29 else 28)
  else if month = 4 ∨ month = 6 ∨ month = 9 ∨ month = 11 then 30
  else 31

def short? (t : Text) : Option (Nat × Text) :=
  let digits := (t.take 2).takeWhile Char.isDigit
  if digits = [] then none else some (Decimal.digitsValue digits, t.drop digits.length)

/-- A number of one or two digits below `bound` and what follows it. -/
def below? (bound : Nat) (t : Text) : Option (Nat × Text) :=
  (short? t).bind fun r => if r.1 < bound then some r else none

def behind? (c : Char) : Text → Option Text
  | [] => none
  | d :: rest => if d = c then some rest else none

/-- What follows a fraction of a second, which need not be there. -/
def skipFraction (t : Text) : Text :=
  match t with
  | c :: d :: rest =>
    if (c = '.' ∨ c = ',') ∧ d.isDigit then rest.dropWhile Char.isDigit else t
  | _ => t

def clock? (t : Text) : Option Text := do
  let hour ← below? 24 t
  let minute ← below? 60 (← behind? ':' hour.2)
  let second ← below? 60 (← behind? ':' minute.2)
  return skipFraction second.2

/-- Whether the text is a zone: `Z`, or hours and minutes of two digits with a sign in front. -/
def isZone : Text → Bool
  | ['Z'] => true
  | [sign, a, b, colon, c, d] =>
    (sign == '+' || sign == '-') && colon == ':' && [a, b, c, d].all Char.isDigit &&
      Decimal.digitsValue [a, b] ≤ 24 && Decimal.digitsValue [c, d] ≤ 60
  | _ => false

def date? (t : Text) : Option Text := do
  let year := t.takeWhile Char.isDigit
  let month ← short? (← behind? '-' (t.drop year.length))
  let day ← short? (← behind? '-' month.2)
  if year.length = 4 ∧ 1 ≤ month.1 ∧ month.1 ≤ 12 ∧ 1 ≤ day.1 ∧
      day.1 ≤ monthDays (Decimal.digitsValue year) month.1 then
    return day.2
  else none

/-- Whether the text is a date, with or without a time of day. -/
def isInstant (t : Text) : Bool :=
  match date? t with
  | none => false
  | some [] => true
  | some (c :: rest) =>
    if c = 'T' ∨ c = 't' then (clock? rest).any isZone
    else c == ' ' && clock? (rest.dropWhile (· == ' ')) == some []

end ClassicBasic.Yaml.Instant
