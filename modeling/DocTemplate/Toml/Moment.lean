import DocTemplate.Numeral.Digits

/-!
# Dates and times in TOML

A moment is a date, a time of day, or a date with a time of day, which then may have an offset from
universal time. No setting takes a moment, so the functions here only recognise one at the start of
a text: each gives the text after what it recognises, or nothing.
-/

namespace DocTemplate.Toml

/-- A character at the start of the text. -/
def skipChar? (isWanted : Char → Bool) : List Char → Option (List Char)
  | c :: cs => if isWanted c then some cs else none
  | [] => none

/-- A number of exactly `size` digits, and the text after it. -/
def fixedNumber? (size : Nat) (cs : List Char) : Option (Nat × List Char) :=
  let ds := cs.take size
  if ds.length = size && ds.all Char.isDigit then some (Numeral.value 10 ds, cs.drop size)
  else none

/-- A number of exactly two digits that is at most `most`. -/
def skipPair? (most : Nat) (cs : List Char) : Option (List Char) := do
  let (n, cs) ← fixedNumber? 2 cs
  guard (n ≤ most)
  return cs

/-! ## Dates -/

/-- Every fourth year, but of the full centuries only every fourth. -/
def isLeapYear (year : Nat) : Bool := year % 4 = 0 && (year % 100 ≠ 0 || year % 400 = 0)

/-- How many days a month has; none for a number that is no month. -/
def daysOfMonth (year month : Nat) : Nat :=
  if month = 2 then if isLeapYear year then 29 else 28
  else if [4, 6, 9, 11].contains month then 30
  else if 1 ≤ month && month ≤ 12 then 31
  else 0

/-- Year, month and day. -/
def skipDate? (cs : List Char) : Option (List Char) := do
  let (year, cs) ← fixedNumber? 4 cs
  let (month, cs) ← fixedNumber? 2 (← skipChar? (· = '-') cs)
  let (day, cs) ← fixedNumber? 2 (← skipChar? (· = '-') cs)
  guard (1 ≤ day && day ≤ daysOfMonth year month)
  return cs

/-! ## Times -/

/-- A fraction of a second. -/
def skipFraction? (cs : List Char) : Option (List Char) := do
  let cs ← skipChar? Char.isDigit (← skipChar? (· = '.') cs)
  return cs.dropWhile Char.isDigit

/-- Hours, minutes and seconds, which may have a fraction; a minute may have one second more. -/
def skipTime? (cs : List Char) : Option (List Char) := do
  let cs ← skipChar? (· = ':') (← skipPair? 23 cs)
  let cs ← skipChar? (· = ':') (← skipPair? 59 cs)
  let cs ← skipPair? 60 cs
  return (skipFraction? cs).getD cs

/-- An offset: a letter for none, or hours and minutes with a sign. -/
def skipOffset? (cs : List Char) : Option (List Char) :=
  skipChar? (fun c => c = 'Z' || c = 'z') cs <|> do
    let cs ← skipChar? (fun c => c = '+' || c = '-') cs
    skipPair? 59 (← skipChar? (· = ':') (← skipPair? 23 cs))

/-! ## Moments -/

/-- The time that follows a date, after a letter or a single space, with an offset or without. -/
def skipTimeOfDate? (cs : List Char) : Option (List Char) := do
  let cs ← skipTime? (← skipChar? (fun c => c = 'T' || c = 't' || c = ' ') cs)
  return (skipOffset? cs).getD cs

/-- A moment. -/
def skipMoment? (cs : List Char) : Option (List Char) :=
  match skipDate? cs with
  | some cs => some ((skipTimeOfDate? cs).getD cs)
  | none => skipTime? cs

end DocTemplate.Toml
