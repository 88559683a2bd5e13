import DocTemplate.Json.Basic
import DocTemplate.Numeral.Double

/-!
# JSON numerals

A numeral is a minus sign, digits, a fraction and an exponent, of which only the digits are
required. Plain digits that fit 64 bits are a natural number; all other numerals are kept as
spelled, since nobody asks for their value, but they have to be in the range of double precision.

The range is that of a reader who fills 64 bits with digits from the left and lets the exponent
account for the rest, so it depends slightly on how a number is spelled.
-/

namespace DocTemplate.Json

/-- The parts of a numeral: sign, digits before the point, digits after it, exponent. -/
structure NumeralParts where
  negative : Bool
  whole : List Char
  fraction : Option (List Char)
  exponent : Option (Bool × List Char)

/-! ## Form -/

/-- Cut off the exponent: its sign and its digits. -/
def splitExponent : List Char → Option (Bool × List Char) × List Char
  | 'e' :: cs | 'E' :: cs =>
    match cs with
    | '+' :: ds => (some (false, ds.takeWhile Char.isDigit), ds.dropWhile Char.isDigit)
    | '-' :: ds => (some (true, ds.takeWhile Char.isDigit), ds.dropWhile Char.isDigit)
    | ds => (some (false, ds.takeWhile Char.isDigit), ds.dropWhile Char.isDigit)
  | cs => (none, cs)

/-- Cut off the digits after the point. -/
def splitFraction : List Char → Option (List Char) × List Char
  | '.' :: ds => (some (ds.takeWhile Char.isDigit), ds.dropWhile Char.isDigit)
  | cs => (none, cs)

/-- Cut off the minus sign. -/
def splitSign : List Char → Bool × List Char
  | '-' :: cs => (true, cs)
  | cs => (false, cs)

/-- Split a numeral into its parts; nothing unless it has the form that JSON prescribes. -/
def numeralParts? (cs : List Char) : Option NumeralParts :=
  let (negative, cs) := splitSign cs
  let whole := cs.takeWhile Char.isDigit
  let (fraction, cs) := splitFraction (cs.dropWhile Char.isDigit)
  let (exponent, cs) := splitExponent cs
  if whole.isEmpty || (whole.length > 1 && whole.head? == some '0') then none
  else if !cs.isEmpty || fraction == some [] || exponent.map Prod.snd == some [] then none
  else some ⟨negative, whole, fraction, exponent⟩

/-! ## Value -/

/-- Append digits to a significand as long as it fits 64 bits, and count the digits that are left
over. -/
def appendFitting (significand : Nat) : List Char → Nat × Nat
  | [] => (significand, 0)
  | c :: cs =>
    let more := 10 * significand + Numeral.digitValue c
    if more < UInt64.size then appendFitting more cs else (significand, (c :: cs).length)

namespace NumeralParts

/-- The written exponent. One that outweighs all digits of the numeral and the whole range of double
precision is as good as any greater one. -/
def writtenExponent (p : NumeralParts) : Int :=
  let cap := p.whole.length + (p.fraction.getD []).length + 2 * Double.boundDigits
  match p.exponent with
  | some (false, ds) => Numeral.capped 10 cap ds
  | some (true, ds) => -(Numeral.capped 10 cap ds : Int)
  | none => 0

/-- A significand of 64 bits, and the power of ten that goes with it. Digits before the point that
do not fit raise the power, and those after it that do fit lower it. -/
def scaled (p : NumeralParts) : Nat × Int :=
  let (significand, dropped) := appendFitting 0 p.whole
  let fraction := p.fraction.getD []
  let (significand, ignored) := appendFitting significand fraction
  (significand, p.writtenExponent + dropped - (fraction.length - ignored : Nat))

/-- The numeral is beyond the range of double precision. -/
def isHuge (p : NumeralParts) : Bool := Double.isBeyondProduct p.scaled.1 p.scaled.2

/-- The natural number that plain digits stand for, if it fits 64 bits. -/
def nat? (p : NumeralParts) : Option Nat :=
  if p.negative || p.fraction.isSome || p.exponent.isSome then none
  else match appendFitting 0 p.whole with
    | (n, 0) => some n
    | (_, _ + 1) => none

end NumeralParts

/-- The value of a numeral. -/
def numeral? (cs : List Char) : Option Json :=
  (numeralParts? cs).map fun p => match p.nat? with
    | some n => .nat n
    | none => if p.isHuge then .void else .numeral (String.ofList cs)

end DocTemplate.Json
