/-!
# TOML dates and times

A date, a time of day, or both with an optional offset from universal time. Days fit their month,
and a minute may have a leap second. Seconds may be left out.
-/

namespace SelfTypes.Toml

/-- The number of a fixed count of decimal digits, and the rest. -/
def fixedDigits : (count : Nat) → List Char → Option (Nat × List Char)
  | 0, cs => some (0, cs)
  | count + 1, c :: cs =>
    if c.isDigit then do
      let (n, rest) ← fixedDigits count cs
      return ((c.toNat - '0'.toNat) * 10 ^ count + n, rest)
    else none
  | _ + 1, [] => none

/-- The rest after an expected character. -/
def expect (c : Char) : List Char → Option (List Char)
  | d :: rest => if d = c then some rest else none
  | [] => none

/-- The number of days in a month. -/
def daysIn (year month : Nat) : Nat :=
  if month = 2 then
    if year % 4 = 0 ∧ (year % 100 ≠ 0 ∨ year % 400 = 0) then 29 else 28
  else if month = 4 ∨ month = 6 ∨ month = 9 ∨ month = 11 then 30
  else 31

/-- The rest after a date. -/
def afterDate (cs : List Char) : Option (List Char) := do
  let (year, cs) ← fixedDigits 4 cs
  let (month, cs) ← fixedDigits 2 (← expect '-' cs)
  let (day, cs) ← fixedDigits 2 (← expect '-' cs)
  if 1 ≤ month ∧ month ≤ 12 ∧ 1 ≤ day ∧ day ≤ daysIn year month then some cs else none

/-- The rest after a fraction of a second, if there is one. -/
def afterFraction : List Char → Option (List Char)
  | '.' :: cs => if (cs.takeWhile Char.isDigit).isEmpty then none else cs.dropWhile Char.isDigit
  | cs => some cs

/-- The rest after the seconds of a time, if it has any. -/
def afterSeconds : List Char → Option (List Char)
  | ':' :: cs => do
    let (second, cs) ← fixedDigits 2 cs
    if second ≤ 60 then afterFraction cs else none
  | cs => some cs

/-- The rest after hours and minutes. -/
def afterMinutes (cs : List Char) : Option (List Char) := do
  let (hour, cs) ← fixedDigits 2 cs
  let (minute, cs) ← fixedDigits 2 (← expect ':' cs)
  if hour ≤ 23 ∧ minute ≤ 59 then some cs else none

/-- The rest after a time of day. -/
def afterTime (cs : List Char) : Option (List Char) := do
  afterSeconds (← afterMinutes cs)

/-- Whether characters spell nothing or an offset from universal time. -/
def isOffset : List Char → Bool
  | [] => true
  | ['Z'] | ['z'] => true
  | '+' :: cs | '-' :: cs => afterMinutes cs = some []
  | _ => false

/-- Whether characters spell a date without a time. -/
def isDate (cs : List Char) : Bool :=
  afterDate cs = some []

/-- Whether characters spell a date, a time or both. -/
def isDateTime (cs : List Char) : Bool :=
  match afterDate cs with
  | none => afterTime cs = some []
  | some [] => true
  | some (sep :: time) =>
    (sep = 'T' || sep = 't' || sep = ' ') && (afterTime time).any isOffset

end SelfTypes.Toml
