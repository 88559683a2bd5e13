import DocTemplate.Numeral.Double

/-!
# Numbers in TOML

Integers of 64 bits, in decimal with a sign or in another base with its mark, and floating point
numbers. Single underscores may stand between digits.
-/

namespace DocTemplate.Toml

/-- Digits with single underscores between them, without the underscores. -/
def plainDigits? (isDigit : Char → Bool) (cs : List Char) : Option (List Char) := go [] cs
where
  /-- The rest of the digits; `done` holds those already passed, last first. -/
  go (done : List Char) : List Char → Option (List Char)
    | [] => none
    | [c] => if isDigit c then some (c :: done).reverse else none
    | c :: '_' :: cs => if isDigit c then go (c :: done) cs else none
    | c :: cs => if isDigit c then go (c :: done) cs else none

/-- Decimal digits without a leading zero. -/
def wholeDigits? (cs : List Char) : Option (List Char) :=
  (plainDigits? Char.isDigit cs).filter fun ds => ds.length = 1 || ds.head? != some '0'

/-- Cut off a sign. -/
def splitSign : List Char → Bool × List Char
  | '+' :: cs => (false, cs)
  | '-' :: cs => (true, cs)
  | cs => (false, cs)

/-! ## Integers -/

/-- The number that digits of a base stand for; whatever does not fit 64 bits is as good as the
least number that does not. -/
def magnitude (base : Nat) (ds : List Char) : Int := Numeral.capped base UInt64.size ds

/-- An integer with the mark of its base or, if it has none, with a sign. -/
def wholeNumber? : List Char → Option Int
  | '0' :: 'x' :: ds =>
    (plainDigits? (fun c => (Numeral.hexValue? c).isSome) ds).map (magnitude 16)
  | '0' :: 'o' :: ds => (plainDigits? (fun c => '0' ≤ c && c ≤ '7') ds).map (magnitude 8)
  | '0' :: 'b' :: ds => (plainDigits? (fun c => c = '0' || c = '1') ds).map (magnitude 2)
  | cs =>
    let (negative, cs) := splitSign cs
    (wholeDigits? cs).map fun ds => if negative then -(magnitude 10 ds) else magnitude 10 ds

/-- An integer of 64 bits. -/
def integer? (cs : List Char) : Option Int :=
  (wholeNumber? cs).filter fun n => Int64.minValue.toInt ≤ n && n ≤ Int64.maxValue.toInt

/-! ## Floating point numbers -/

/-- Cut at the first character that satisfies `isMark`: what stands before it, and, if there is one,
what stands after it. -/
def splitAtMark (isMark : Char → Bool) (cs : List Char) : List Char × Option (List Char) :=
  match cs.dropWhile (fun c => !isMark c) with
  | [] => (cs, none)
  | _ :: after => (cs.takeWhile (fun c => !isMark c), some after)

/-- The digits of a part that may be missing; nothing if there is a part and it has other
characters. -/
def partDigits? : Option (List Char) → Option (List Char)
  | none => some []
  | some cs => plainDigits? Char.isDigit cs

/-- The number without its sign that the spelling of a floating point number stands for: digits, and
a fraction or an exponent or both. An exponent that outweighs all digits is as good as any greater
one. -/
def decimal? (cs : List Char) : Option Double.Decimal := do
  let (mantissa, power) := splitAtMark (fun c => c = 'e' || c = 'E') cs
  let (whole, fraction) := splitAtMark (· = '.') mantissa
  guard (fraction.isSome || power.isSome)
  let whole ← wholeDigits? whole
  let fraction ← partDigits? fraction
  let (negative, power) := match power with
    | some cs => ((splitSign cs).1, some (splitSign cs).2)
    | none => (false, none)
  let digits := whole ++ fraction
  let exponent : Int :=
    Numeral.capped 10 (digits.length + 2 * Double.boundDigits) (← partDigits? power)
  return ⟨digits, whole.length + if negative then -exponent else exponent⟩

/-- The spelling of a floating point number. A positive one must not be so large that it is rounded
to infinity, while a negative one may. -/
def isFloat (cs : List Char) : Bool :=
  let (negative, cs) := splitSign cs
  if cs = "inf".toList || cs = "nan".toList then true
  else match decimal? cs with
    | some d => negative || !d.isBeyond
    | none => false

end DocTemplate.Toml
