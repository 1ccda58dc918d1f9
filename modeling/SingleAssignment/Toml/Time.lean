import SingleAssignment.Toml.Key
import SingleAssignment.Toml.Number

/-!
# TOML dates and times

A date is written `YYYY-MM-DD`, a time of day `hh:mm:ss`, with a fraction if need be. A date and a
time are joined by a `T` or a space, and then an offset from universal time may follow. A date that
stands alone is followed by a space or by the end of the text. No setting is a date or a time, so a
reader only checks one, and returns what stands behind it.
-/

namespace SingleAssignment.Toml

/-- The value of two digits, and the characters behind them. -/
def twoDigits? : List Char → Option (Nat × List Char)
  | c :: d :: cs => do return (10 * (← decimalDigit? c) + (← decimalDigit? d), cs)
  | _ => none

/-- The characters behind an expected one. -/
def behind? (c : Char) : List Char → Option (List Char)
  | [] => none
  | d :: cs => if d == c then some cs else none

/-! ## Dates -/

/-- Whether a year has a day more. -/
def isLeapYear (year : Nat) : Bool :=
  year % 4 == 0 && (year % 100 != 0 || year % 400 == 0)

/-- The number of days of a month. -/
def daysOfMonth (year month : Nat) : Nat :=
  if month = 2 then if isLeapYear year then 29 else 28
  else if month ∈ [4, 6, 9, 11] then 30
  else 31

/-- Whether there is such a day. -/
def isDate (year month day : Nat) : Bool :=
  1 ≤ month && month ≤ 12 && 1 ≤ day && day ≤ daysOfMonth year month

/-- Whether a text starts like a date. -/
def startsDate : List Char → Bool
  | a :: b :: c :: d :: '-' :: _ => [a, b, c, d].all isDecimal
  | _ => false

/-- Reads a date. -/
def date? (cs : List Char) : Option (List Char) := do
  let (century, cs) ← twoDigits? cs
  let (year, cs) ← twoDigits? cs
  let (month, cs) ← twoDigits? (← behind? '-' cs)
  let (day, cs) ← twoDigits? (← behind? '-' cs)
  if isDate (100 * century + year) month day then some cs else none

/-! ## Times of day -/

/-- Whether a text starts like a time of day. -/
def startsTime : List Char → Bool
  | a :: b :: ':' :: _ => [a, b].all isDecimal
  | _ => false

/-- Reads a time of day. -/
def timeOfDay? (cs : List Char) : Option (List Char) := do
  let (hour, cs) ← twoDigits? cs
  let (minute, cs) ← twoDigits? (← behind? ':' cs)
  let (second, cs) ← twoDigits? (← behind? ':' cs)
  if hour < 24 && minute < 60 && second < 60 then
    match cs with
    | '.' :: cs => (someDigits? cs).map (·.2)
    | cs => some cs
  else none

/-- Reads the offset from universal time, if there is one. A whole day and a whole hour are still
allowed in it. -/
def offset? : List Char → Option (List Char)
  | 'Z' :: cs => some cs
  | c :: cs =>
    if c == '+' || c == '-' then do
      let (hours, cs) ← twoDigits? cs
      let (minutes, cs) ← twoDigits? (← behind? ':' cs)
      if hours ≤ 24 && minutes ≤ 60 then some cs else none
    else some (c :: cs)
  | [] => some []

/-! ## Dates with times -/

/-- Reads what follows a date. More may be between it and a time than one space: what `skip` passes
over. Such a time has no offset. -/
def afterDate? (skip : List Char → List Char) : List Char → Option (List Char)
  | [] => some []
  | c :: cs =>
    if c == 'T' || (c == ' ' && (twoDigits? cs).isSome) then (timeOfDay? cs).bind offset?
    else if c == ' ' then
      let next := skip cs
      if startsTime next then timeOfDay? next else some (c :: cs)
    else none

/-- Reads a date, a time of day or both. -/
def moment? (skip : List Char → List Char) (cs : List Char) : Option (List Char) :=
  if startsTime cs then timeOfDay? cs else (date? cs).bind (afterDate? skip)

end SingleAssignment.Toml
