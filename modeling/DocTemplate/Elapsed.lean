/-!
# Elapsed time

How long something took, in milliseconds: rounded to two places for a reader, and with all places
for a program.
-/

namespace DocTemplate

/-- A time span, as it is written. -/
structure Elapsed where
  /-- Two places after the point. -/
  rounded : String
  /-- Every place there is, and at least one. -/
  exact : String
  deriving DecidableEq, Repr, Inhabited

namespace Elapsed

/-- The last `places` digits of a number, zeros included. -/
def places (count n : Nat) : List Char :=
  ((Nat.toDigits 10 (Nat.pow 10 count + n % Nat.pow 10 count)).drop 1)

/-- Drop zeros at the end, but keep one digit. -/
def shorten (ds : List Char) : List Char :=
  match (ds.reverse.dropWhile (· = '0')).reverse with
  | [] => ['0']
  | ds => ds

/-- A number of nanoseconds. -/
def ofNanos (n : Nat) : Elapsed :=
  let hundredths := (n + 5000) / 10000
  { rounded := toString (hundredths / 100) ++ "." ++ String.ofList (places 2 hundredths)
    exact := toString (n / 1000000) ++ "." ++ String.ofList (shorten (places 6 n)) }

end Elapsed

end DocTemplate
